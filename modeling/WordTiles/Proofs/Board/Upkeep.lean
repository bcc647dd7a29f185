import WordTiles.Board.Lemmas

/-! What any upkeep leaves true of a board. The entities of a board are created and destroyed, are given
components and have them edited, the board is cleared, and copies are made of it to which it is set back.
An edit does not ask for a live entity, and setting a board back takes its number counter back too. Still
only live entities carry anything, and a word tile stays what it is. As long as the numbers do not begin
again, which a program that checks its arithmetic never lets them do, no number is given that a live entity
has. -/

namespace WordTiles

open Std

namespace Board

variable {b b' : Board} {o : Overflow} {id j : EntityId} {c : Cell} {k k' : Kind} {w : WordTile}

/-! ### Columns -/

section Columns

variable {m : ExtTreeMap EntityId k.Value}

@[simp] theorem live_setColumn : (b.setColumn k m).live = b.live := by
  cases k <;> rfl

@[simp] theorem nextId_setColumn : (b.setColumn k m).nextId = b.nextId := by
  cases k <;> rfl

@[simp] theorem column_setColumn_self : (b.setColumn k m).column k = m := by
  cases k <;> rfl

theorem column_setColumn_ne (h : k' ≠ k) : (b.setColumn k m).column k' = b.column k' := by
  cases k <;> cases k' <;> first | rfl | exact absurd rfl h

theorem not_mem_column_empty : ¬ id ∈ (∅ : Board).column k := by
  cases k <;> exact ExtTreeMap.not_mem_empty

theorem mem_column_destroy (hl : id ∈ b.live) :
    j ∈ (b.destroy id).column k ↔ j ∈ b.column k ∧ j ≠ id := by
  rw [destroy, if_pos hl]
  cases k <;>
    simp only [column, ExtTreeMap.mem_erase, LawfulEqCmp.compare_eq_iff_eq, ne_eq, @eq_comm _ j,
      and_comm]

end Columns

theorem mem_live_spawn : id ∈ b.spawn.live ↔ id = b.nextId ∨ id ∈ b.live := by
  rw [spawn, ExtTreeSet.mem_insert, LawfulEqCmp.compare_eq_iff_eq, eq_comm]

theorem exists_next?_of_create? (h : b.create? o = some b') :
    ∃ next, b.nextId.next? o = some next ∧ b' = { b.spawn with nextId := next } := by
  obtain ⟨next, hnext, rfl⟩ := Option.map_eq_some_iff.mp h
  exact ⟨next, hnext, rfl⟩

/-- Before the last number it makes no difference that the numbers have an end. -/
theorem create?_of_lt (h : b.nextId < EntityId.last) : b.create? o = some b.spawn := by
  have hnext : b.nextId.next? o = some (b.nextId + 1) := if_pos h
  rw [create?, hnext]
  rfl

theorem create?_eq_none_iff :
    b.create? o = none ↔ o = .stops ∧ EntityId.last ≤ b.nextId := by
  by_cases h : b.nextId < EntityId.last
  · rw [create?_of_lt h]
    exact iff_of_false (by simp) fun hnone => Nat.not_le.mpr h hnone.2
  · rw [create?, Option.map_eq_none_iff]
    cases o with
    | stops => exact iff_of_true (if_neg h) ⟨rfl, Nat.le_of_not_lt h⟩
    | wraps =>
      have hnext : b.nextId.next? .wraps = some 0 := if_neg h
      exact iff_of_false (by rw [hnext]; exact Option.some_ne_none 0) fun hnone => nomatch hnone.1

theorem live_attach {v : k.Value} : (b.attach k id v).live = b.live := by
  rw [attach]
  split
  · exact live_setColumn
  · rfl

theorem nextId_attach {v : k.Value} : (b.attach k id v).nextId = b.nextId := by
  rw [attach]
  split
  · exact nextId_setColumn
  · rfl

theorem live_edit {f : k.Value → k.Value} : (b.edit k id f).live = b.live := by
  rw [edit]
  split
  · exact live_setColumn
  · rfl

theorem nextId_edit {f : k.Value → k.Value} : (b.edit k id f).nextId = b.nextId := by
  rw [edit]
  split
  · exact nextId_setColumn
  · rfl

/-! ### Clean boards -/

/-- Only live entities carry components. -/
def Clean (b : Board) : Prop := ∀ k id, id ∈ b.column k → id ∈ b.live

/-- The live entities have lower numbers than those that are still to be given. -/
def Numbered (b : Board) : Prop := ∀ id ∈ b.live, id < b.nextId

namespace Clean

theorem empty : Clean ∅ := fun _ _ h => absurd h not_mem_column_empty

/-- A column may be changed as long as only live entities come into it. -/
theorem setColumn {m : ExtTreeMap EntityId k.Value} (h : b.Clean) (hm : ∀ j ∈ m, j ∈ b.live) :
    (b.setColumn k m).Clean := by
  intro k' j hj
  rw [live_setColumn]
  by_cases hk : k' = k
  · subst hk
    rw [column_setColumn_self] at hj
    exact hm j hj
  · rw [column_setColumn_ne hk] at hj
    exact h k' j hj

theorem create? (h : b.Clean) (hb : b.create? o = some b') : b'.Clean := by
  obtain ⟨next, -, rfl⟩ := exists_next?_of_create? hb
  intro k j hj
  have hcolumn : Board.column { b.spawn with nextId := next } k = b.column k := by cases k <;> rfl
  rw [hcolumn] at hj
  exact mem_live_spawn.mpr (.inr (h k j hj))

theorem destroy (h : b.Clean) : (b.destroy id).Clean := by
  by_cases hl : id ∈ b.live
  · intro k j hj
    obtain ⟨hj, hne⟩ := (mem_column_destroy hl).mp hj
    exact mem_live_destroy.mpr ⟨h k j hj, hne⟩
  · rwa [destroy_of_not_live hl]

theorem attach {v : k.Value} (h : b.Clean) : (b.attach k id v).Clean := by
  rw [Board.attach]
  split
  · rename_i hcan
    have hl : id ∈ b.live := (of_decide_eq_true hcan).1
    refine h.setColumn fun j hj => ?_
    rcases ExtTreeMap.mem_insert.mp hj with he | hj
    · rwa [← LawfulEqCmp.compare_eq_iff_eq.mp he]
    · exact h k j hj
  · exact h

/-- What is edited was there before, so it is live although nothing asks whether it is. -/
theorem edit {f : k.Value → k.Value} (h : b.Clean) : (b.edit k id f).Clean := by
  rw [Board.edit]
  split
  · exact h.setColumn fun j hj => h k j (ExtTreeMap.mem_modify.mp hj)
  · exact h

end Clean

/-! ### Changes -/

/-- What can be done to a board. -/
inductive Change where
  | create
  | destroy (id : EntityId)
  | attach (k : Kind) (id : EntityId) (v : k.Value)
  | edit (k : Kind) (id : EntityId) (f : k.Value → k.Value)
  | relocate (id : EntityId) (c : Cell)
  | clear

/-- The board after a change; nothing if the program stops. -/
def change? (b : Board) (o : Overflow) : Change → Option Board
  | .create => b.create? o
  | .destroy id => some (b.destroy id)
  | .attach k id v => some (b.attach k id v)
  | .edit k id f => some (b.edit k id f)
  | .relocate id c => some (b.relocate id c)
  | .clear => some ∅

def Change.creates : Change → Bool
  | .create => true
  | _ => false

variable {ch : Change}

theorem Clean.change? (h : b.Clean) (hb : b.change? o ch = some b') : b'.Clean := by
  cases ch with
  | create => exact h.create? hb
  | destroy id => exact Option.some.inj hb ▸ h.destroy
  | attach k id v => exact Option.some.inj hb ▸ h.attach
  | edit k id f => exact Option.some.inj hb ▸ h.edit
  | relocate id c =>
    rw [Board.change?, relocate_eq_edit] at hb
    exact Option.some.inj hb ▸ h.edit
  | clear => exact Option.some.inj hb ▸ .empty

/-- What a change makes of the numbers, as long as they do not run out. -/
theorem numbers_of_change? (hb : b.change? o ch = some b') (hclear : ch ≠ .clear)
    (hlast : ch.creates → b.nextId < EntityId.last) :
    b'.nextId = b.nextId + (if ch.creates then 1 else 0) ∧
      ∀ id ∈ b'.live, id ∈ b.live ∨ ch.creates ∧ id = b.nextId := by
  cases ch with
  | create =>
    obtain rfl := Option.some.inj ((create?_of_lt (hlast rfl)).symm.trans hb)
    exact ⟨rfl, fun id hid => (mem_live_spawn.mp hid).symm.imp_right (⟨rfl, ·⟩)⟩
  | destroy id =>
    obtain rfl := Option.some.inj hb
    exact ⟨nextId_destroy, fun j hj => .inl (mem_live_destroy.mp hj).1⟩
  | attach k id v =>
    obtain rfl := Option.some.inj hb
    rw [live_attach]
    exact ⟨nextId_attach, fun j hj => .inl hj⟩
  | edit k id f =>
    obtain rfl := Option.some.inj hb
    rw [live_edit]
    exact ⟨nextId_edit, fun j hj => .inl hj⟩
  | relocate id c =>
    obtain rfl := Option.some.inj hb
    exact ⟨rfl, fun j hj => .inl hj⟩
  | clear => exact absurd rfl hclear

theorem Numbered.change? (h : b.Numbered) (hb : b.change? o ch = some b')
    (hlast : ch.creates → b.nextId < EntityId.last) : b'.Numbered := by
  by_cases hclear : ch = .clear
  · subst hclear
    obtain rfl := Option.some.inj hb
    exact fun id hid => absurd hid not_mem_live_empty
  · obtain ⟨hnext, hlive⟩ := numbers_of_change? hb hclear hlast
    intro id hid
    rw [hnext]
    rcases hlive id hid with hid | ⟨hcreates, rfl⟩
    · exact Nat.lt_add_right _ (h id hid)
    · rw [if_pos hcreates]
      exact Nat.lt_succ_self _

end Board

/-! ### Copies -/

/-- A board with the copies that were made of it. -/
structure Archive where
  board : Board := ∅
  copies : List Board := []

namespace Archive

open Board

instance : EmptyCollection Archive := ⟨{}⟩

/-- One step of the upkeep of a board. -/
inductive Step where
  | change (ch : Change)
  | copy
  | restore (i : Nat)

def Step.creates : Step → Bool
  | .change ch => ch.creates
  | _ => false

/-- The archive after a step; nothing if the program stops. Restoring a copy leaves it in the archive, and
without a copy of this index nothing changes. -/
def step? (o : Overflow) (s : Archive) : Step → Option Archive
  | .change ch => (s.board.change? o ch).map fun board => { s with board }
  | .copy => some { s with copies := s.copies ++ [s.board] }
  | .restore i => some { s with board := s.copies[i]?.getD s.board }

def run? (o : Overflow) (s : Archive) (as : List Step) : Option Archive := as.foldlM (step? o) s

/-- The numbers that are given to new entities in the course of a run. -/
def given (o : Overflow) (s : Archive) : List Step → List EntityId
  | [] => []
  | a :: as =>
    match s.step? o a with
    | none => []
    | some t => if a.creates then s.board.nextId :: given o t as else given o t as

/-- The numbers do not begin again in the course of a run: the program stops at the last one, or does not get
there. -/
def Unwrapped (o : Overflow) (s : Archive) (as : List Step) : Prop :=
  o = .wraps → ∀ id ∈ s.given o as, id < EntityId.last

variable {o : Overflow} {s t : Archive} {a : Step} {as bs : List Step} {id : EntityId} {w : WordTile}
  {P : Board → Prop}

/-! ### One step -/

/-- All boards that are there or to which the board can be set back. -/
structure AllBoards (P : Board → Prop) (s : Archive) : Prop where
  board : P s.board
  copies : ∀ b ∈ s.copies, P b

theorem AllBoards.empty (h : P ∅) : AllBoards P ∅ := ⟨h, fun _ hb => absurd hb List.not_mem_nil⟩

/-- What the changes keep true of a board stays true of all boards. -/
theorem AllBoards.step? (h : s.AllBoards P) (ht : s.step? o a = some t)
    (hP : ∀ ch b, a = .change ch → s.board.change? o ch = some b → P b) : t.AllBoards P := by
  cases a with
  | change ch =>
    obtain ⟨b, hb, rfl⟩ := Option.map_eq_some_iff.mp ht
    exact ⟨hP ch b rfl hb, h.copies⟩
  | copy =>
    obtain rfl := Option.some.inj ht
    refine ⟨h.board, List.forall_mem_append.mpr ⟨h.copies, ?_⟩⟩
    exact List.forall_mem_singleton.mpr h.board
  | restore i =>
    obtain rfl := Option.some.inj ht
    refine ⟨?_, h.copies⟩
    cases hi : s.copies[i]? with
    | none => exact h.board
    | some b => exact h.copies b (List.mem_of_getElem? hi)

theorem Step.eq_of_creates (ha : a.creates) : a = .change .create := by
  cases a with
  | change ch => cases ch <;> first | rfl | cases ha
  | _ => cases ha

/-- A program that stops at the last number does not give it away. -/
theorem lt_last_of_step? (ht : s.step? o a = some t) (ha : a.creates)
    (hlast : o = .wraps → s.board.nextId < EntityId.last) : s.board.nextId < EntityId.last := by
  refine Nat.lt_of_not_le fun hle => ?_
  cases o with
  | stops =>
    have hnone : s.board.create? .stops = none := create?_eq_none_iff.mpr ⟨rfl, hle⟩
    rw [Step.eq_of_creates ha, step?, Board.change?, hnone] at ht
    cases ht
  | wraps => exact Nat.not_lt.mpr hle (hlast rfl)

theorem run?_cons_eq_some_iff {u : Archive} : s.run? o (a :: as) = some u ↔
    ∃ t, s.step? o a = some t ∧ t.run? o as = some u := by
  rw [run?, List.foldlM_cons]
  exact Option.bind_eq_some_iff

theorem Unwrapped.cons (h : s.Unwrapped o (a :: as)) (ht : s.step? o a = some t) :
    (a.creates → s.board.nextId < EntityId.last) ∧ t.Unwrapped o as := by
  have hgiven : s.given o (a :: as) =
      if a.creates then s.board.nextId :: t.given o as else t.given o as := by rw [given, ht]
  refine ⟨fun ha => lt_last_of_step? ht ha fun ho => h ho _ ?_, fun ho id hid => h ho id ?_⟩
  · rw [hgiven, if_pos ha]
    exact List.mem_cons_self
  · rw [hgiven]
    split
    · exact List.mem_cons_of_mem _ hid
    · exact hid

/-- A number is given again after the board was set back to before it was given. -/
example : (∅ : Archive).given .stops
    [.copy, .change .create, .restore 0, .change .create] = [0, 0] := rfl

/-! ### Where the numbers begin again -/

theorem run?_append_eq_some (hs : s.run? o as = some t) (bs : List Step) :
    s.run? o (as ++ bs) = t.run? o bs := by
  rw [run?, List.foldlM_append]
  exact (congrArg (· >>= _) hs).trans (Option.bind_some ..)

/-- After so many creations all the numbers below have been given to live entities. -/
theorem exists_run?_replicate_create {n : Nat} (hn : n ≤ EntityId.last) :
    ∃ s, (∅ : Archive).run? o (List.replicate n (.change .create)) = some s ∧
      s.board.nextId = n ∧ ∀ id < n, id ∈ s.board.live := by
  induction n with
  | zero => exact ⟨∅, rfl, rfl, fun id hid => absurd hid (Nat.not_lt_zero id)⟩
  | succ n ih =>
    obtain ⟨s, hs, hnext, hlive⟩ := ih (Nat.le_of_succ_le hn)
    have hlt : s.board.nextId < EntityId.last := hnext ▸ hn
    refine ⟨{ s with board := s.board.spawn }, ?_, congrArg (· + 1) hnext, fun id hid => ?_⟩
    · rw [List.replicate_succ', run?_append_eq_some hs, run?_cons_eq_some_iff]
      exact ⟨_, congrArg (Option.map _) (create?_of_lt hlt), rfl⟩
    · rw [mem_live_spawn, hnext]
      exact (Nat.lt_succ_iff_lt_or_eq.mp hid).symm.imp_right (hlive id)

/-- Where the numbers begin again, as many creations as there are numbers lead to a board whose next number
is that of a live entity. -/
theorem nextId_live_of_wraps : ∃ s,
    (∅ : Archive).run? .wraps (List.replicate (EntityId.last + 1) (.change .create)) = some s ∧
      s.board.nextId ∈ s.board.live := by
  obtain ⟨s, hs, hnext, hlive⟩ :=
    exists_run?_replicate_create (o := .wraps) (Nat.le_refl EntityId.last)
  have hzero : s.board.nextId.next? .wraps = some 0 :=
    if_neg (by rw [hnext]; exact Nat.lt_irrefl _)
  have hcreate : s.board.create? .wraps = some { s.board.spawn with nextId := 0 } := by
    rw [create?, hzero]
    rfl
  refine ⟨{ s with board := { s.board.spawn with nextId := 0 } }, ?_, ?_⟩
  · rw [List.replicate_succ', run?_append_eq_some hs, run?_cons_eq_some_iff]
    exact ⟨_, congrArg (Option.map _) hcreate, rfl⟩
  · exact mem_live_spawn.mpr (.inr (hlive 0 (by decide)))

end Archive

end WordTiles
