import WordTiles.Proofs.Movement.Steps
import WordTiles.Proofs.Board.Things
import WordTiles.Proofs.Rules.Reading

/-! Sound boards: whatever lives has its place on the board, a name and a number that is not to be given
again, nothing else carries anything, and a word tile is named by its text and plays the part that goes
with it. The changes of a turn keep a board sound: things are put onto other cells of the board, what is
no word tile is destroyed, and what is no word tile is renamed. -/

namespace WordTiles

open Std

namespace Board

variable {β : Bounds} {operator : String} {b o : Board} {id k : EntityId} {c : Cell}

structure Sound (β : Bounds) (operator : String) (b : Board) : Prop where
  stands : ∀ id ∈ b.live, ∃ c, b.cell? id = some c ∧ β.contains c
  named : ∀ id ∈ b.live, ∃ name, b.name? id = some name
  numbered : ∀ id ∈ b.live, id < b.nextId
  live_of_cell : ∀ id c, b.cell? id = some c → id ∈ b.live
  live_of_name : ∀ id name, b.name? id = some name → id ∈ b.live
  tile : ∀ id w, b.word? id = some w →
    id ∈ b.live ∧ b.name? id = some w.text ∧ w.role = .classify w.text operator

/-- The board is sound, no number has been given since board `o`, and the word tiles are those of `o`
with what they show and the parts they play. -/
structure SoundSince (β : Bounds) (operator : String) (o b : Board) : Prop
    extends Sound β operator b where
  nextId : b.nextId = o.nextId
  words : b.words = o.words

theorem sound_empty : Sound β operator ∅ := by
  constructor <;> simp

/-! ### The changes of a turn -/

/-- What holds of a board and is kept by each change that a turn is made of. -/
structure Invariant (β : Bounds) (P : Board → Prop) : Prop where
  relocate : ∀ {b id c}, β.contains c → P b → P (b.relocate id c)
  destroy : ∀ {b id}, ¬ b.isWord id → P b → P (b.destroy id)
  rename : ∀ {b} (r : Rulebook), P b → P (r.rename b)

theorem Sound.relocate (h : Sound β operator b) (hc : β.contains c) :
    Sound β operator (b.relocate id c) where
  stands k hk := by
    obtain ⟨e, he, hin⟩ := h.stands k hk
    rw [cell?_relocate]
    split
    · exact ⟨c, by rw [he, Option.map_some], hc⟩
    · exact ⟨e, he, hin⟩
  named := h.named
  numbered := h.numbered
  live_of_cell k e hk := by
    rw [cell?_relocate] at hk
    split at hk
    · obtain ⟨e', he', -⟩ := Option.map_eq_some_iff.mp hk
      exact h.live_of_cell k e' he'
    · exact h.live_of_cell k e hk
  live_of_name := h.live_of_name
  tile := h.tile

/-- What is left carries what it carried before. -/
theorem Sound.destroy_of_live (h : Sound β operator b) (hl : id ∈ b.live) (hw : ¬ b.isWord id) :
    Sound β operator (b.destroy id) where
  stands k hk := by
    obtain ⟨hk, hne⟩ := mem_live_destroy.mp hk
    rw [cell?_destroy, if_neg fun he => hne he.2]
    exact h.stands k hk
  named k hk := by
    obtain ⟨hk, hne⟩ := mem_live_destroy.mp hk
    rw [name?_destroy, if_neg fun he => hne he.2]
    exact h.named k hk
  numbered k hk := by
    rw [nextId_destroy]
    exact h.numbered k (mem_live_destroy.mp hk).1
  live_of_cell k e hk := by
    rw [cell?_destroy] at hk
    split at hk
    · cases hk
    · rename_i hne
      exact mem_live_destroy.mpr ⟨h.live_of_cell k e hk, fun he => hne ⟨hl, he⟩⟩
  live_of_name k name hk := by
    rw [name?_destroy] at hk
    split at hk
    · cases hk
    · rename_i hne
      exact mem_live_destroy.mpr ⟨h.live_of_name k name hk, fun he => hne ⟨hl, he⟩⟩
  tile k w hk := by
    have hne : k ≠ id := by
      rintro rfl
      rw [word?_destroy, if_pos ⟨hl, rfl⟩] at hk
      cases hk
    rw [word?_destroy, if_neg fun he => hne he.2] at hk
    rw [name?_destroy, if_neg fun he => hne he.2]
    obtain ⟨hlk, htile⟩ := h.tile k w hk
    exact ⟨mem_live_destroy.mpr ⟨hlk, hne⟩, htile⟩

theorem Sound.destroy (h : Sound β operator b) (hw : ¬ b.isWord id) :
    Sound β operator (b.destroy id) := by
  by_cases hl : id ∈ b.live
  · exact h.destroy_of_live hl hw
  · rwa [destroy_of_not_live hl]

theorem Sound.rename (h : Sound β operator b) (r : Rulebook) : Sound β operator (r.rename b) where
  stands := h.stands
  named k hk := by
    obtain ⟨name, hn⟩ := h.named k hk
    rw [Rulebook.name?_rename, hn]
    exact ⟨_, rfl⟩
  numbered := h.numbered
  live_of_cell := h.live_of_cell
  live_of_name k name hk := by
    rw [Rulebook.name?_rename] at hk
    obtain ⟨name', hn, -⟩ := Option.map_eq_some_iff.mp hk
    exact h.live_of_name k name' hn
  tile k w hk := by
    obtain ⟨hl, hn, hrole⟩ := h.tile k w hk
    have hw : b.isWord k := by
      rw [isWord_eq_isSome, show b.word? k = some w from hk]
      rfl
    refine ⟨hl, ?_, hrole⟩
    rw [Rulebook.name?_rename, hn, Option.map_some, Rulebook.newName, if_pos hw]

theorem invariant_soundSince (β : Bounds) (operator : String) (o : Board) :
    Invariant β (SoundSince β operator o) where
  relocate hc h := ⟨h.toSound.relocate hc, h.nextId, h.words⟩
  destroy hw h := ⟨h.toSound.destroy hw, nextId_destroy.trans h.nextId,
    (sameWords_destroy hw).words.trans h.words⟩
  rename r h := ⟨h.toSound.rename r, h.nextId, h.words⟩

end Board

/-! ### Turns -/

namespace Board.Invariant

variable {β : Bounds} {P : Board → Prop} {φ : Physics} {d : Direction} {b : Board} {t : Turn}
  {id : EntityId} {c : Cell}

theorem destroyAll (hP : Invariant β P) {ids : List EntityId} (hw : ∀ id ∈ ids, ¬ b.isWord id)
    (h : P b) : P (b.destroyAll ids) := by
  induction ids generalizing b with
  | nil => exact h
  | cons id ids ih =>
    obtain ⟨hid, hids⟩ := List.forall_mem_cons.mp hw
    have hwords := sameWords_destroy hid
    exact ih (fun k hk => by rw [hwords.isWord]; exact hids k hk) (hP.destroy hid h)

theorem judge (hP : Invariant β P) (r : Rulebook) (h : P b) : P (r.judge b).board := by
  refine hP.destroyAll (fun id hid => ?_) h
  obtain ⟨⟨id, c⟩, hd, rfl⟩ := List.mem_map.mp hid
  exact Rulebook.not_isWord_of_doomed hd

/-- What drowns is no word tile. -/
theorem arrive (hP : Invariant β P) (hc : β.contains c) (h : P t.board) :
    P (t.arrive φ id c).board := by
  refine hP.destroyAll (fun k hk => ?_) (hP.relocate hc h)
  rw [Physics.drowned] at hk
  split at hk
  · exact (of_decide_eq_true (List.mem_filter.mp hk).2).1
  · cases hk

theorem arriveAll (hP : Invariant β P) {as : List (EntityId × Cell)}
    (hc : ∀ a ∈ as, β.contains a.2) (h : P t.board) : P (t.arriveAll φ as).board := by
  induction as generalizing t with
  | nil => exact h
  | cons a as ih =>
    obtain ⟨ha, has⟩ := List.forall_mem_cons.mp hc
    exact ih has (hP.arrive ha h)

theorem advance (hP : Invariant φ.bounds P) {m : EntityId} (h : P t.board) :
    P (t.advance φ d m).board := by
  rcases Turn.advance_cases φ d t m with he | ⟨-, -, hmove⟩
  · rwa [he]
  · obtain ⟨p, n, hfree, he⟩ := Turn.move?_eq_some_iff.mp hmove
    rw [he]
    refine hP.arriveAll (fun a ha => ?_) h
    obtain ⟨c, -, -, hin, -⟩ := hfree.of_mem_steps ha
    exact hin

theorem resolve (hP : Invariant φ.bounds P) {ms : List EntityId} (h : P t.board) :
    P (t.resolve φ d ms).board := by
  rw [Turn.resolve]
  generalize (ExtTreeSet.ofList ms).toList = order
  induction order generalizing t with
  | nil => exact h
  | cons m order ih => exact ih (hP.advance h)

end Board.Invariant

end WordTiles
