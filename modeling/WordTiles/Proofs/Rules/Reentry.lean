import WordTiles.Proofs.Rules.Renamed

/-! Where the walk along a renaming ends. The names that a walk comes by are those that steps along the
table lead to. If they come to a name without an entry, the walk ends there. If they go on for ever they
end up going round a cycle, and the walk ends at the first of them that lies on it. The walk takes away
the entries it has used; noting the names instead comes to the same, in no more rounds than the table has
entries and one to notice the end. -/

namespace WordTiles.Renaming

open Std

variable {t : Renaming} {name next other last entry : String} {i j k : Nat}

/-! ### Steps along the table -/

/-- The name that `k` steps along the table lead to, if there are so many. -/
def walk (t : Renaming) (name : String) : Nat → Option String
  | 0 => some name
  | k + 1 => (t.walk name k).bind (t[·]?)

/-- Steps along the table lead from the name back to it. -/
def OnCycle (t : Renaming) (name : String) : Prop := ∃ k, 0 < k ∧ t.walk name k = some name

/-- Steps from `name` lead to `last`, and no further. -/
def EndsAt (t : Renaming) (name last : String) : Prop :=
  ∃ k, t.walk name k = some last ∧ t[last]? = none

/-- Of the names that steps from `name` lead to, `entry` is the first that lies on a cycle. -/
def EntersAt (t : Renaming) (name entry : String) : Prop :=
  ∃ k, t.walk name k = some entry ∧ t.OnCycle entry ∧
    ∀ j < k, ∀ other, t.walk name j = some other → ¬ t.OnCycle other

theorem walk_add : t.walk name (i + j) = (t.walk name i).bind (t.walk · j) := by
  induction j with
  | zero => exact (Option.bind_fun_some _).symm
  | succ j ih => rw [← Nat.add_assoc, walk, ih, Option.bind_assoc]; rfl

theorem walk_succ_of_some (h : t[name]? = some next) : t.walk name (k + 1) = t.walk next k := by
  have hone : t.walk name 1 = some next := h
  rw [Nat.add_comm, walk_add, hone, Option.bind_some]

theorem isSome_walk_of_le (h : (t.walk name j).isSome) (hij : i ≤ j) : (t.walk name i).isSome := by
  obtain ⟨r, rfl⟩ := Nat.exists_eq_add_of_le hij
  rw [walk_add] at h
  cases hi : t.walk name i with
  | none => rw [hi] at h; cases h
  | some _ => rfl

/-- From a name without an entry no step leads on. -/
theorem not_isSome_walk_succ (hk : t.walk name k = some last) (hlast : t[last]? = none) :
    ¬ (t.walk name (k + 1)).isSome := by
  rw [walk, hk, Option.bind_some, hlast]
  exact Bool.false_ne_true

/-! ### Cycles -/

/-- However far, the steps go on from a name on a cycle. -/
theorem OnCycle.isSome_walk (h : t.OnCycle name) (k : Nat) : (t.walk name k).isSome := by
  obtain ⟨p, hp, hround⟩ := h
  have hrounds : ∀ n, t.walk name (p * n) = some name := by
    intro n
    induction n with
    | zero => rfl
    | succ n ih => rw [Nat.mul_succ, walk_add, ih, Option.bind_some, hround]
  exact isSome_walk_of_le (Option.isSome_of_eq_some (hrounds k)) (Nat.le_mul_of_pos_left k hp)

theorem isSome_walk_of_onCycle (hk : t.walk name k = some other) (h : t.OnCycle other) (j : Nat) :
    (t.walk name j).isSome := by
  refine isSome_walk_of_le (j := k + j) ?_ (Nat.le_add_left j k)
  rw [walk_add, hk, Option.bind_some]
  exact h.isSome_walk j

/-- Steps that come to a cycle do not come to an end. -/
theorem not_endsAt_of_onCycle (hk : t.walk name k = some other) (h : t.OnCycle other) :
    ¬ t.EndsAt name last := by
  rintro ⟨j, hj, hlast⟩
  exact not_isSome_walk_succ hj hlast (isSome_walk_of_onCycle hk h (j + 1))

theorem EndsAt.unique (h : t.EndsAt name last) (h' : t.EndsAt name other) : last = other := by
  obtain ⟨i, hi, hlast⟩ := h
  obtain ⟨j, hj, hother⟩ := h'
  rcases Nat.lt_trichotomy i j with hij | rfl | hij
  · exact absurd (isSome_walk_of_le (Option.isSome_of_eq_some hj) hij)
      (not_isSome_walk_succ hi hlast)
  · exact Option.some.inj (hi.symm.trans hj)
  · exact absurd (isSome_walk_of_le (Option.isSome_of_eq_some hi) hij)
      (not_isSome_walk_succ hj hother)

/-! ### A table with an entry taken away -/

theorem walk_of_walk_erase (h : walk (t.erase other) name k = some last) :
    t.walk name k = some last := by
  induction k generalizing last with
  | zero => exact h
  | succ k ih =>
    obtain ⟨via, hvia, hlast⟩ := Option.bind_eq_some_iff.mp h
    rw [Table.getElem?_erase_eq] at hlast
    split at hlast
    · cases hlast
    · rw [walk, ih hvia]
      exact hlast

theorem OnCycle.of_erase (h : OnCycle (t.erase other) name) : t.OnCycle name := by
  obtain ⟨k, hk, hround⟩ := h
  exact ⟨k, hk, walk_of_walk_erase hround⟩

section Endless

/-! Where the steps go on for ever without an entry, they do not come by its name, and having it
changes nothing. -/

variable (h : ∀ k, (walk (t.erase other) name k).isSome)

include h

theorem walk_erase_eq (k : Nat) : walk (t.erase other) name k = t.walk name k := by
  obtain ⟨via, hvia⟩ := Option.isSome_iff_exists.mp (h k)
  rw [hvia, walk_of_walk_erase hvia]

theorem walk_ne_of_endless (k : Nat) : t.walk name k ≠ some other := by
  intro hk
  rw [← walk_erase_eq h] at hk
  exact not_isSome_walk_succ hk (Table.getElem?_erase_eq.trans (if_pos rfl)) (h (k + 1))

theorem not_onCycle_of_endless (hnext : t[other]? = some name) : ¬ t.OnCycle other := by
  rintro ⟨k, hk, hround⟩
  obtain ⟨k, rfl⟩ := Nat.exists_eq_add_of_le' hk
  rw [walk_succ_of_some hnext] at hround
  exact walk_ne_of_endless h k hround

theorem onCycle_erase_of_endless (hk : t.walk name k = some last) (hlast : t.OnCycle last) :
    OnCycle (t.erase other) last := by
  have hrest : ∀ j, (walk (t.erase other) last j).isSome := fun j => by
    have := h (k + j)
    rwa [walk_add, walk_erase_eq h, hk, Option.bind_some] at this
  obtain ⟨p, hp, hround⟩ := hlast
  exact ⟨p, hp, (walk_erase_eq hrest p).trans hround⟩

end Endless

/-! ### The end of the walk -/

/-- A walk ends where no step leads on or where it enters a cycle. The entry that it uses first is
needed again only if the walk comes back, and then it has been on a cycle from the beginning. -/
theorem follow_cases (t : Renaming) (name : String) :
    t.EndsAt name (t.follow name) ∨ t.EntersAt name (t.follow name) := by
  fun_induction follow t name with
  | case1 t name hname => exact .inl ⟨0, rfl, hname⟩
  | case2 t name next hname ih =>
    have hreach : ∃ k, walk (t.erase name) next k = some (follow (t.erase name) next) := by
      rcases ih with ⟨k, hk, -⟩ | ⟨k, hk, -⟩ <;> exact ⟨k, hk⟩
    by_cases hback : follow (t.erase name) next = name
    · obtain ⟨k, hk⟩ := hreach
      rw [hback] at hk ⊢
      have hround : t.walk name (k + 1) = some name :=
        (walk_succ_of_some hname).trans (walk_of_walk_erase hk)
      exact .inr ⟨0, rfl, ⟨k + 1, Nat.succ_pos k, hround⟩, fun j hj => absurd hj (Nat.not_lt_zero j)⟩
    · rcases ih with ⟨k, hk, hlast⟩ | ⟨k, hk, hcycle, hfirst⟩
      · rw [Table.getElem?_erase_eq, if_neg (Ne.symm hback)] at hlast
        exact .inl ⟨k + 1, (walk_succ_of_some hname).trans (walk_of_walk_erase hk), hlast⟩
      · have hendless := isSome_walk_of_onCycle hk hcycle
        refine .inr ⟨k + 1, (walk_succ_of_some hname).trans (walk_of_walk_erase hk),
          hcycle.of_erase, fun j hj other hother => ?_⟩
        cases j with
        | zero =>
          obtain rfl := Option.some.inj hother
          exact not_onCycle_of_endless hendless hname
        | succ j =>
          rw [walk_succ_of_some hname] at hother
          intro hother'
          refine hfirst j (Nat.lt_of_succ_lt_succ hj) other ?_
            (onCycle_erase_of_endless hendless hother hother')
          rw [walk_erase_eq hendless, hother]

theorem follow_of_endsAt (h : t.EndsAt name last) : t.follow name = last := by
  rcases follow_cases t name with hend | ⟨k, hk, hcycle, -⟩
  · exact hend.unique h
  · exact absurd h (not_endsAt_of_onCycle hk hcycle)

theorem follow_of_onCycle (h : t.OnCycle name) : t.follow name = name := by
  rcases follow_cases t name with hend | ⟨k, hk, -, hfirst⟩
  · exact absurd hend (not_endsAt_of_onCycle (k := 0) rfl h)
  · cases k with
    | zero => exact (Option.some.inj hk).symm
    | succ k => exact absurd h (hfirst 0 (Nat.succ_pos k) name rfl)

/-! ### The walk with notes -/

/-- Goes from name to name, noting each, and stops at a name without an entry or one that it has noted
before; nothing if this takes more rounds. -/
def roam (t : Renaming) : Nat → List String → String → Option String
  | 0, _, _ => none
  | rounds + 1, noted, name =>
    if name ∈ noted then some name
    else match t[name]? with
      | none => some name
      | some next => t.roam rounds (name :: noted) next

/-- The walk along what is left of a table when the entries of the noted names are taken away. -/
theorem roam_eq_follow {rest : Renaming} {noted : List String} {rounds : Nat}
    (hrest : ∀ other, rest[other]? = if other ∈ noted then none else t[other]?)
    (hrounds : rest.size < rounds) : t.roam rounds noted name = some (rest.follow name) := by
  obtain ⟨rounds, rfl⟩ := Nat.exists_eq_add_of_le' (Nat.zero_lt_of_lt hrounds)
  fun_induction follow rest name generalizing noted rounds with
  | case1 rest name hname =>
    rw [hrest] at hname
    rw [roam]
    split
    · rfl
    · rename_i hnew
      rw [if_neg hnew] at hname
      rw [hname]
  | case2 rest name next hname ih =>
    have hsize := size_erase_lt hname
    rw [hrest, Option.ite_none_left_eq_some] at hname
    obtain ⟨hnew, hnext⟩ := hname
    have hleft : ∀ other, (rest.erase name)[other]? =
        if other ∈ name :: noted then none else t[other]? := fun other => by
      rw [Table.getElem?_erase_eq, hrest]
      by_cases hother : name = other
      · simp [hother]
      · simp [hother, Ne.symm hother]
    rw [roam, if_neg hnew, hnext]
    obtain ⟨rounds, rfl⟩ : ∃ n, rounds = n + 1 := Nat.exists_eq_add_of_le' (by omega)
    exact ih hleft rounds (by omega)

theorem roam_eq_some_follow (t : Renaming) (name : String) :
    t.roam (t.size + 1) [] name = some (t.follow name) :=
  roam_eq_follow (fun _ => (if_neg List.not_mem_nil).symm) (Nat.lt_succ_self _)

/-- The walk from a name is over after one round more than the table has entries. It ends at the name
from which no step leads on, if steps lead to one, and otherwise at the first name on their way that
lies on a cycle. So a name on a cycle stays what it is, and a second walk leads no further. -/
theorem follow_reenters (t : Renaming) (name : String) :
    t.roam (t.size + 1) [] name = some (t.follow name) ∧
    (∀ last, t.EndsAt name last → t.follow name = last) ∧
    ((∀ last, ¬ t.EndsAt name last) → t.EntersAt name (t.follow name)) ∧
    (t.OnCycle name → t.follow name = name) ∧
    t.follow (t.follow name) = t.follow name := by
  refine ⟨roam_eq_some_follow t name, fun _ => follow_of_endsAt, fun hnone => ?_, follow_of_onCycle,
    follow_follow t name⟩
  exact (follow_cases t name).resolve_left (hnone _)

/-- Two names that turn into each other, and a third that turns into one of them. -/
theorem follow_reenters_from_tail :
    let t : Renaming := ((∅ : Renaming).insert "Rock" "Flag" |>.insert "Flag" "Wall").insert
      "Wall" "Flag"
    (∀ last, ¬ t.EndsAt "Rock" last) ∧ t.EntersAt "Rock" (t.follow "Rock") ∧
      t.OnCycle "Wall" ∧ t.follow "Wall" = "Wall" := by
  intro t
  have hflag : t.OnCycle "Flag" := ⟨2, Nat.two_pos, by decide +kernel⟩
  have hwall : t.OnCycle "Wall" := ⟨2, Nat.two_pos, by decide +kernel⟩
  have hrock : t.walk "Rock" 1 = some "Flag" := by decide +kernel
  have hendless : ∀ last, ¬ t.EndsAt "Rock" last := fun _ => not_endsAt_of_onCycle hrock hflag
  obtain ⟨-, -, henters, -, -⟩ := follow_reenters t "Rock"
  obtain ⟨-, -, -, hcycle, -⟩ := follow_reenters t "Wall"
  exact ⟨hendless, henters hendless, hwall, hcycle hwall⟩

end WordTiles.Renaming
