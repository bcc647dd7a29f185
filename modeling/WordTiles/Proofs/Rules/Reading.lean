import WordTiles.Verdict
import WordTiles.Board.Lemmas
import Mathlib.Data.List.Basic

/-! What the rules are read from: the word tiles and where they stand, and nothing else. Renaming
touches no word tile and neither does the verdict, so the rules read before them still stand after
them. -/

namespace WordTiles

open Std

variable {b b' b'' : Board} {operator : String}

/-- The boards have the same word tiles in the same cells. -/
structure Board.SameWords (b b' : Board) : Prop where
  words : b'.words = b.words
  cells : ∀ id, b.isWord id → b'.cell? id = b.cell? id

namespace Board.SameWords

theorem refl (b : Board) : SameWords b b := ⟨rfl, fun _ _ => rfl⟩

theorem isWord (h : SameWords b b') (id : EntityId) : b'.isWord id = b.isWord id := by
  rw [Board.isWord, Board.isWord, h.words]

theorem trans (h : SameWords b b') (h' : SameWords b' b'') : SameWords b b'' where
  words := h'.words.trans h.words
  cells id hid := (h'.cells id (by rwa [h.isWord id])).trans (h.cells id hid)

end Board.SameWords

/-! ### Reading -/

theorem WordMap.ofBoard_of_sameWords (h : b.SameWords b') :
    WordMap.ofBoard b' = WordMap.ofBoard b := by
  rw [WordMap.ofBoard, WordMap.ofBoard, h.words, ExtTreeMap.foldl_eq_foldl_toList,
    ExtTreeMap.foldl_eq_foldl_toList]
  refine List.foldl_ext _ _ _ fun m ⟨id, w⟩ hw => ?_
  have hid : b.isWord id := by
    rw [ExtTreeMap.mem_toList_iff_getElem?_eq_some] at hw
    rw [Board.isWord_eq_isSome, Board.word?, hw]
    rfl
  simp only [h.cells id hid]

/-- The rules are the same on two boards with the same words in the same cells. -/
theorem Rulebook.ofBoard_of_sameWords (h : b.SameWords b') :
    Rulebook.ofBoard operator b' = Rulebook.ofBoard operator b := by
  rw [Rulebook.ofBoard, Rulebook.ofBoard, WordMap.ofBoard_of_sameWords h]

/-- Without words there are no rules. -/
theorem Rulebook.ofBoard_empty : Rulebook.ofBoard operator ∅ = { operator } := by
  have hm : WordMap.ofBoard ∅ = ∅ := rfl
  rw [Rulebook.ofBoard, hm]
  rfl

theorem Rulebook.operator_update (r : Rulebook) (b : Board) :
    (r.update b).operator = r.operator := rfl

/-! ### What leaves the words alone -/

theorem Board.sameWords_destroy {id : EntityId} (h : ¬ b.isWord id) :
    b.SameWords (b.destroy id) where
  words := by
    apply ExtTreeMap.ext_getElem?
    intro k
    change (b.destroy id).word? k = b.word? k
    rw [Board.word?_destroy]
    split
    · rename_i hk
      obtain ⟨-, rfl⟩ := hk
      rw [Board.isWord_eq_isSome, Bool.not_eq_true, Option.isSome_eq_false_iff,
        Option.isNone_iff_eq_none] at h
      exact h.symm
    · rfl
  cells k hk := by
    rw [Board.cell?_destroy, if_neg]
    rintro ⟨-, rfl⟩
    exact h hk

theorem Board.sameWords_destroyAll {ids : List EntityId} (h : ∀ id ∈ ids, ¬ b.isWord id) :
    b.SameWords (b.destroyAll ids) := by
  induction ids generalizing b with
  | nil => exact .refl b
  | cons id ids ih =>
    obtain ⟨hid, hids⟩ := List.forall_mem_cons.mp h
    have hs := sameWords_destroy hid
    exact hs.trans (ih fun k hk => by rw [hs.isWord k]; exact hids k hk)

theorem Rulebook.name?_rename {r : Rulebook} {id : EntityId} :
    (r.rename b).name? id = (b.name? id).map (r.newName b id) :=
  ExtTreeMap.getElem?_map

theorem Rulebook.sameWords_rename (r : Rulebook) (b : Board) : b.SameWords (r.rename b) :=
  ⟨rfl, fun _ _ => rfl⟩

/-- Only YOU things are doomed, and no word tile is YOU. -/
theorem Rulebook.not_isWord_of_doomed {r : Rulebook} {id : EntityId} {c : Cell}
    (h : (id, c) ∈ r.doomed b) : ¬ b.isWord id := by
  have hyou := PropertyTable.mem_entitiesWith.mp (mem_doomed.mp h).1
  exact (PropertyTable.mem_ofEntity.mp hyou).1

theorem Rulebook.sameWords_judge (r : Rulebook) (b : Board) : b.SameWords (r.judge b).board := by
  refine Board.sameWords_destroyAll fun id hid => ?_
  obtain ⟨⟨id, c⟩, hd, rfl⟩ := List.mem_map.mp hid
  exact not_isWord_of_doomed hd

end WordTiles
