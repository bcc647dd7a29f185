import WordTiles.Proofs.Text.Pieces
import WordTiles.Proofs.Word.Sets
import WordTiles.Word.Flags

/-! A set of properties comes back from its saved text. The text names one by one the smallest sets that
the set is the union of: one for each property, and one for the bits that have no name. -/

namespace WordTiles.PropertySet

open Text (isBlank)

variable {s : PropertySet} {n : Nat}

/-! ### One part -/

theorem ofFlag?_flag (p : Property) : ofFlag? p.flag.toList = some {p} := by cases p <;> decide

theorem ofFlag?_hex (hn : n < 256) :
    ofFlag? ('0' :: 'x' :: Nat.toDigits 16 n) = some ⟨BitVec.ofNat 8 n⟩ := by
  rw [ofFlag?, Text.readHexByte?_toDigits hn, Option.map_some]

theorem toList_unnamedFlag (s : PropertySet) : s.unnamedFlag.map String.toList =
    if s.unnamed = 0 then [] else ['0' :: 'x' :: Nat.toDigits 16 s.unnamed.toNat] := by
  rw [unnamedFlag]
  split
  · rfl
  · rw [List.map_singleton, String.toList_append, String.toList_ofList, String.toList_ofList]
    rfl

/-- The parts of the saved text. -/
def parts (s : PropertySet) : List (List Char) :=
  (s.toList.map Property.flag ++ s.unnamedFlag).map String.toList

/-- A part of the saved text has neither a bar nor a blank in it. -/
theorem clean_of_mem_parts : ∀ part ∈ s.parts, ∀ c ∈ part, c ≠ '|' ∧ ¬ isBlank c := by
  intro part hpart
  rw [parts, List.map_append, toList_unnamedFlag, List.mem_append] at hpart
  rcases hpart with hflag | hhex
  · simp only [List.mem_map] at hflag
    obtain ⟨_, ⟨p, -, rfl⟩, rfl⟩ := hflag
    have hall : p.flag.toList.all fun c => c != '|' && !isBlank c := by cases p <;> rfl
    simpa using hall
  · split at hhex
    · exact absurd hhex List.not_mem_nil
    · obtain rfl := List.mem_singleton.mp hhex
      simp only [List.mem_cons, forall_eq_or_imp]
      refine ⟨by decide, by decide, fun c hc => ?_⟩
      obtain ⟨d, hd⟩ := Text.exists_hexValue_of_mem hc
      refine ⟨?_, Text.isBlank_of_hexValue? hd⟩
      rintro rfl
      exact absurd hd (by simp [Text.hexValue?])

/-! ### The parts together -/

/-- The sets that the parts of the saved text stand for. -/
def pieces (s : PropertySet) : List PropertySet :=
  s.toList.map ({·}) ++ if s.unnamed = 0 then [] else [⟨s.unnamed⟩]

theorem mapM_ofFlag?_parts (s : PropertySet) : s.parts.mapM ofFlag? = some s.pieces := by
  rw [Elementwise.mapM_eq_some_iff, parts, List.map_append, List.map_map, toList_unnamedFlag,
    pieces]
  refine List.rel_append ?_ ?_
  · rw [List.forall₂_map_left_iff, List.forall₂_map_right_iff, List.forall₂_same]
    exact fun p _ => ofFlag?_flag p
  · split
    · exact .nil
    · refine .cons ?_ .nil
      rw [ofFlag?_hex s.unnamed.isLt, BitVec.ofNat_toNat, BitVec.setWidth_eq]

/-- The bits that have no name are those after the properties. -/
theorem getLsbD_unnamed {i : Nat} :
    s.unnamed.getLsbD i = true ↔ s.bits.getLsbD i = true ∧ ∀ p : Property, i ≠ p.index := by
  have hmask : ∀ i < 8, (0xC0#8).getLsbD i = true ↔ ∀ p ∈ Property.all, i ≠ p.index := by decide
  rw [unnamed, BitVec.getLsbD_and, Bool.and_eq_true, and_congr_right_iff]
  intro hi
  rw [hmask i (BitVec.lt_of_getLsbD hi)]
  exact forall_congr' fun p => forall_prop_of_true (Property.mem_all p)

theorem isUnion_pieces (s : PropertySet) : s.IsUnion (· ∈ s.pieces) := by
  intro i
  simp only [pieces, List.mem_append, List.mem_map]
  constructor
  · intro hi
    by_cases hname : ∃ p : Property, i = p.index
    · obtain ⟨p, rfl⟩ := hname
      exact ⟨{p}, .inl ⟨p, mem_toList.mpr hi, rfl⟩, getLsbD_singleton.mpr rfl⟩
    · have hbit := getLsbD_unnamed.mpr ⟨hi, not_exists.mp hname⟩
      have hne : s.unnamed ≠ 0 := by
        intro h
        rw [h, BitVec.ofNat_eq_ofNat, BitVec.getLsbD_zero] at hbit
        cases hbit
      exact ⟨⟨s.unnamed⟩, .inr (by rw [if_neg hne]; exact List.mem_singleton_self _), hbit⟩
  · rintro ⟨t, ⟨p, hp, rfl⟩ | ht, hi⟩
    · rw [getLsbD_singleton.mp hi]
      exact mem_toList.mp hp
    · split at ht
      · exact absurd ht List.not_mem_nil
      · obtain rfl := List.mem_singleton.mp ht
        exact (getLsbD_unnamed.mp hi).1

theorem foldl_pieces (s : PropertySet) : s.pieces.foldl (· ∪ ·) ∅ = s :=
  (isUnion_foldl s.pieces).eq (isUnion_pieces s)

/-- Sets of properties come back from their saved text, the empty one too. -/
theorem ofFlagText?_flagText (s : PropertySet) : ofFlagText? s.flagText = some s := by
  have htext : s.flagText.toList = [' ', '|', ' '].intercalate s.parts := String.toList_intercalate
  have hread := mapM_ofFlag?_parts s
  rw [ofFlagText?, htext]
  by_cases hnil : s.parts = []
  · rw [hnil] at hread ⊢
    obtain hpieces : [] = s.pieces := Option.some.inj hread
    have hempty : ∅ = s := by rw [← foldl_pieces s, ← hpieces]; rfl
    exact congrArg some hempty
  · have hgap : ∀ c ∈ [' '], isBlank c := List.forall_mem_singleton.mpr (by decide)
    have hsplit : (Text.split '|' ([' ', '|', ' '].intercalate s.parts)).map Text.trim = s.parts :=
      Text.map_trim_split (by decide) hgap clean_of_mem_parts hnil
    have hblank : ¬ (Text.trim ([' ', '|', ' '].intercalate s.parts)).isEmpty := by
      intro h
      have hall := Text.trim_eq_nil_iff.mp (List.isEmpty_iff.mp h)
      have hbar : '|' ∉ [' ', '|', ' '].intercalate s.parts := fun hmem =>
        absurd (hall '|' hmem) (by decide)
      rw [Text.split_eq_splitOn, List.splitOn_eq_singleton hbar, List.map_singleton,
        List.isEmpty_iff.mp h] at hsplit
      rw [← hsplit] at hread
      cases hread
    rw [if_neg hblank]
    change (List.mapM (ofFlag? ∘ Text.trim) _).map _ = _
    rw [← List.mapM_map, hsplit, hread, Option.map_some, foldl_pieces]

end WordTiles.PropertySet
