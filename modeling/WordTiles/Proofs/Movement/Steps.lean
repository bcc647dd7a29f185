import WordTiles.Proofs.Movement.PushLine

/-! What a move that succeeds does to each entity. The one that moves and those along its push line
take one step each, onto the board; nothing else changes its cell, though things may drown. A move
that fails changes nothing, so a turn in which nothing is reported as moved is the turn it began as. -/

namespace WordTiles.Turn

open Board Std

variable {φ : Physics} {d : Direction} {t t' : Turn} {m k : EntityId} {p c e : Cell} {n : Nat}

/-- Entity `m` in cell `p` is free to move: its push line ends after `n` cells, not at a shut one. -/
structure IsFree (φ : Physics) (d : Direction) (t : Turn) (m : EntityId) (p : Cell) (n : Nat) :
    Prop where
  cell : t.board.cell? m = some p
  ends : t.EndsAfter φ d (p.step d) n
  notShut : ¬ t.isShut φ ((p.step d).offset d n)

theorem move?_eq_some_iff : t.move? φ d m = some t' ↔
    ∃ p n, t.IsFree φ d m p n ∧ t' = t.arriveAll φ (t.steps φ d m p n) := by
  constructor
  · intro h
    cases hp : t.board.cell? m with
    | none => rw [move?, hp] at h; cases h
    | some p =>
      obtain ⟨n, hn⟩ := exists_endsAfter φ d t (p.step d)
      by_cases hs : t.isShut φ ((p.step d).offset d n)
      · rw [move?_of_isShut hp hn hs] at h; cases h
      · rw [move?_of_not_isShut hp hn hs] at h
        exact ⟨p, n, ⟨hp, hn, hs⟩, (Option.some.inj h).symm⟩
  · rintro ⟨p, n, h, rfl⟩
    exact move?_of_not_isShut h.cell h.ends h.notShut

namespace IsFree

/-- No entity takes two of the steps. -/
theorem steps_nodup (h : t.IsFree φ d m p n) : ((t.steps φ d m p n).map Prod.fst).Nodup := by
  rw [steps, List.map_append]
  refine List.nodup_append.mpr ⟨shift_nodup φ d _ n t, List.pairwise_singleton _ m, ?_⟩
  rintro k hk _ hm rfl
  rw [List.map_singleton, List.mem_singleton] at hm
  subst hm
  refine (stays_shift fun e he hc => ?_).2 hk
  exact he.ne_of_step (Option.some.inj (hc.symm.trans h.cell))

/-- Each step is by one cell, onto the board, and taken by the entity that moves or by one that leaves
a cell of the board without blocking it. -/
theorem of_mem_steps (h : t.IsFree φ d m p n) (hk : (k, e) ∈ t.steps φ d m p n) :
    ∃ c, t.board.cell? k = some c ∧ e = c.step d ∧ φ.bounds.contains e ∧
      (k = m ∨ φ.bounds.contains c ∧ t.isLeaving φ k ∧ ¬ φ.blocks t.board k) := by
  have hin : ∀ i ≤ n, ¬ t.isShut φ ((p.step d).offset d i) := fun i hi =>
    h.ends.not_isShut h.notShut hi
  rcases List.mem_append.mp hk with hk | hk
  · obtain ⟨i, hi, hc, hl, rfl⟩ := mem_shift.mp hk
    refine ⟨_, hc, rfl, ?_, .inr ⟨contains_of_not_isShut (hin i (Nat.le_of_lt hi)), hl, ?_⟩⟩
    · rw [Cell.offset_step]
      exact contains_of_not_isShut (hin (i + 1) hi)
    · exact not_blocks_of_not_isShut (hin i (Nat.le_of_lt hi)) hc
  · obtain ⟨rfl, rfl⟩ := Prod.mk.inj (List.mem_singleton.mp hk)
    have h0 := contains_of_not_isShut (hin 0 (Nat.zero_le n))
    rw [Cell.offset_natCast_zero] at h0
    exact ⟨p, h.cell, rfl, h0, .inl rfl⟩

theorem mem_steps_self (t : Turn) : (m, p.step d) ∈ t.steps φ d m p n :=
  List.mem_append_right _ (List.mem_singleton_self _)

/-- Those that take a step are carried one cell further, the others stay, and some may drown. -/
theorem carries (h : t.IsFree φ d m p n) (k : EntityId) :
    Carries (fun c => if k ∈ (t.steps φ d m p n).map Prod.fst then c.step d else c)
      t.board (t.arriveAll φ (t.steps φ d m p n)).board k := by
  by_cases hk : k ∈ (t.steps φ d m p n).map Prod.fst
  · obtain ⟨⟨_, e⟩, hs, rfl⟩ := List.mem_map.mp hk
    obtain ⟨c, hc, rfl, -, -⟩ := h.of_mem_steps hs
    simp only [if_pos hk]
    rcases carries_arriveAll_mem (φ := φ) (t := t) h.steps_nodup hs with hg | ⟨hkept, hcell⟩
    · exact .inl hg
    · exact .inr ⟨hkept, by rw [hcell, hc]; rfl⟩
  · simp only [if_neg hk]
    exact carries_arriveAll hk

end IsFree

/-! ### Nothing moved -/

theorem moved_of_move? (h : t.move? φ d m = some t') :
    ∃ ids, t'.moved = t.moved ++ ids ∧ m ∈ ids := by
  obtain ⟨p, n, -, rfl⟩ := move?_eq_some_iff.mp h
  exact ⟨_, moved_arriveAll, List.mem_map_of_mem (IsFree.mem_steps_self t)⟩

/-- A mover either gets its move or leaves the turn as it is. -/
theorem advance_cases (φ : Physics) (d : Direction) (t : Turn) (m : EntityId) :
    t.advance φ d m = t ∨ (¬ m ∈ t.moved ∧ m ∈ t.board.live ∧
      t.move? φ d m = some (t.advance φ d m)) := by
  rw [advance]
  split
  · exact .inl rfl
  · rename_i hg
    rw [not_or, Decidable.not_not] at hg
    cases hm : t.move? φ d m with
    | none => exact .inl rfl
    | some t' => exact .inr ⟨hg.1, hg.2, rfl⟩

theorem moved_prefix_foldl (ms : List EntityId) (t : Turn) :
    t.moved <+: (ms.foldl (advance φ d) t).moved := by
  induction ms generalizing t with
  | nil => exact List.prefix_refl _
  | cons m ms ih =>
    refine List.IsPrefix.trans ?_ (ih (t.advance φ d m))
    rcases advance_cases φ d t m with he | ⟨-, -, h⟩
    · exact (congrArg moved he).symm ▸ List.prefix_refl _
    · obtain ⟨ids, hids, -⟩ := moved_of_move? h
      exact hids ▸ List.prefix_append _ _

/-- Where nothing is reported as moved, nothing has changed. -/
theorem resolve_of_moved_nil {ms : List EntityId} (h : (resolve φ d ms t).moved = []) :
    resolve φ d ms t = t := by
  rw [resolve] at h ⊢
  generalize (ExtTreeSet.ofList ms).toList = order at h ⊢
  induction order generalizing t with
  | nil => rfl
  | cons m order ih =>
    rw [List.foldl_cons] at h ⊢
    rcases advance_cases φ d t m with he | ⟨-, -, hm⟩
    · rw [he] at h ⊢
      exact ih h
    · obtain ⟨ids, hids, hmem⟩ := moved_of_move? hm
      have hp := moved_prefix_foldl (φ := φ) (d := d) order (t.advance φ d m)
      rw [h, List.prefix_nil, hids, List.append_eq_nil_iff] at hp
      rw [hp.2] at hmem
      cases hmem

end WordTiles.Turn
