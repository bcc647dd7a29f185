import Mathlib.Data.List.TakeDrop
import WordTiles.Proofs.Elementwise
import WordTiles.Proofs.Text.Lines
import WordTiles.Text.Decimal

/-! What is read as a size, and as two sizes: decimal digits with perhaps a plus sign before them, of a
value below the bound, and two such numbers on both sides of the first `x`. So a size written in decimal
is read back, alone and as one of two with an `x` between them. -/

namespace WordTiles.Text

variable {cs : List Char} {n w h : Nat}

/-! ### Digits -/

theorem isBlank_of_isDigit {c : Char} (hc : c.isDigit) : ¬ isBlank c := by
  have hrange : 48 ≤ c.toNat ∧ c.toNat ≤ 57 := Char.isDigit_iff_toNat.mp hc
  simp only [isBlank, decide_eq_true_eq]
  omega

theorem isDigit_of_mem_toDigits : ∀ c ∈ Nat.toDigits 10 n, c.isDigit := fun _ hc =>
  Nat.isDigit_of_mem_toDigits (by decide) (by decide) hc

theorem not_mem_toDigits {c : Char} (hc : ¬ c.isDigit) : c ∉ Nat.toDigits 10 n := fun h =>
  hc (isDigit_of_mem_toDigits c h)

theorem ofDigits_map (cs : List Char) :
    ofDigits 10 (cs.map fun c => c.toNat - '0'.toNat) = Nat.ofDigitChars 10 cs 0 := by
  rw [ofDigits, List.foldl_map, Nat.ofDigitChars_eq_foldl]

theorem mapM_digitValue? (hcs : ∀ c ∈ cs, c.isDigit) :
    cs.mapM digitValue? = some (cs.map fun c => c.toNat - '0'.toNat) := by
  induction cs with
  | nil => rfl
  | cons c cs ih =>
    rw [List.forall_mem_cons] at hcs
    simp [List.mapM_cons, digitValue?, hcs.1, ih hcs.2]

theorem isDigit_of_mapM_digitValue? {ds : List Nat} (h : cs.mapM digitValue? = some ds) :
    ∀ c ∈ cs, c.isDigit := by
  intro c hc
  obtain ⟨d, -, hd⟩ := Elementwise.exists_of_mem_source h hc
  exact (Option.ite_none_right_eq_some.mp hd).1

theorem readDigits?_eq_some_iff : readDigits? 10 digitValue? cs = some n ↔
    cs ≠ [] ∧ (∀ c ∈ cs, c.isDigit) ∧ Nat.ofDigitChars 10 cs 0 = n := by
  rw [readDigits?]
  constructor
  · intro hread
    split at hread
    · cases hread
    · rename_i hne
      obtain ⟨ds, hds, rfl⟩ := Option.map_eq_some_iff.mp hread
      have hdigit := isDigit_of_mapM_digitValue? hds
      rw [mapM_digitValue? hdigit, Option.some.injEq] at hds
      exact ⟨by simpa using hne, hdigit, by rw [← hds, ofDigits_map]⟩
  · rintro ⟨hne, hdigit, rfl⟩
    rw [if_neg (by simpa using hne), mapM_digitValue? hdigit, Option.map_some, ofDigits_map]

/-! ### One size -/

/-- A size as it can be written: decimal digits, perhaps with a plus sign before them. -/
def SpellsSize (cs : List Char) (n : Nat) : Prop :=
  ∃ ds, (cs = ds ∨ cs = '+' :: ds) ∧ ds ≠ [] ∧ (∀ d ∈ ds, d.isDigit) ∧
    Nat.ofDigitChars 10 ds 0 = n ∧ n < sizeBound

theorem eq_or_eq_dropPlus (cs : List Char) : cs = dropPlus cs ∨ cs = '+' :: dropPlus cs := by
  fun_cases dropPlus cs
  · exact .inr rfl
  · exact .inl rfl

/-- A plus sign is not a digit, so nothing is left out in front of digits. -/
theorem dropPlus_of_digits (hcs : ∀ c ∈ cs, c.isDigit) : dropPlus cs = cs := by
  rw [dropPlus]
  intro ds hds
  have hplus : ('+' : Char).isDigit := hcs '+' (by rw [hds]; exact List.mem_cons_self)
  exact absurd hplus (by decide)

theorem readSize?_eq_some_iff : readSize? cs = some n ↔ SpellsSize cs n := by
  rw [readSize?, Option.filter_eq_some_iff, readDigits?_eq_some_iff, decide_eq_true_eq]
  constructor
  · rintro ⟨⟨hne, hdigit, hvalue⟩, hbound⟩
    exact ⟨dropPlus cs, eq_or_eq_dropPlus cs, hne, hdigit, hvalue, hbound⟩
  · rintro ⟨ds, hcs, hne, hdigit, hvalue, hbound⟩
    have hdrop : dropPlus cs = ds := by
      rcases hcs with rfl | rfl
      · exact dropPlus_of_digits hdigit
      · rfl
    rw [hdrop]
    exact ⟨⟨hne, hdigit, hvalue⟩, hbound⟩

theorem spellsSize_toDigits (hn : n < sizeBound) : SpellsSize (Nat.toDigits 10 n) n :=
  ⟨_, .inl rfl, Nat.toDigits_ne_nil, isDigit_of_mem_toDigits, Nat.ofDigitChars_ten_toDigits, hn⟩

/-! ### Two sizes -/

/-- Two sizes as they can be written: the text is cut at the first `x`, and blanks around the two parts
do not count. -/
def SpellsSizes (cs : List Char) (w h : Nat) : Prop :=
  ∃ left right, cs = left ++ 'x' :: right ∧ 'x' ∉ left ∧
    SpellsSize (trim left) w ∧ SpellsSize (trim right) h

theorem span_eq_iff {p : Char → Bool} {c : Char} {left right : List Char} :
    cs.span p = (left, c :: right) ↔ cs = left ++ c :: right ∧ (∀ d ∈ left, p d) ∧ ¬ p c := by
  rw [List.span_eq_takeWhile_dropWhile, Prod.mk.injEq]
  constructor
  · rintro ⟨rfl, hright⟩
    have hc := List.head?_dropWhile_not p cs
    rw [hright] at hc
    refine ⟨?_, fun d hd => List.mem_takeWhile_imp hd, by simpa using hc⟩
    rw [← hright, List.takeWhile_append_dropWhile]
  · rintro ⟨rfl, hleft, hc⟩
    rw [List.takeWhile_append_of_pos hleft, List.dropWhile_append_of_pos hleft]
    simp [hc]

theorem span_ne_eq_iff {left right : List Char} {c : Char} :
    cs.span (· ≠ 'x') = (left, c :: right) ↔
      cs = left ++ 'x' :: right ∧ 'x' ∉ left ∧ c = 'x' := by
  simp only [span_eq_iff, ne_eq, decide_not, Bool.not_eq_true', decide_eq_false_iff_not, not_not]
  constructor
  · rintro ⟨rfl, hleft, rfl⟩
    exact ⟨rfl, fun hx => hleft 'x' hx rfl, rfl⟩
  · rintro ⟨rfl, hleft, rfl⟩
    exact ⟨rfl, fun d hd hx => hleft (hx ▸ hd), rfl⟩

theorem readSizes?_eq_some_iff : readSizes? cs = some (w, h) ↔ SpellsSizes cs w h := by
  rw [readSizes?]
  constructor
  · intro hread
    split at hread
    · rename_i left c right hspan
      obtain ⟨hcs, hleft, rfl⟩ := span_ne_eq_iff.mp hspan
      simp only [Option.bind_eq_bind, Option.bind_eq_some_iff, Option.pure_def, Option.some.injEq,
        Prod.mk.injEq, readSize?_eq_some_iff] at hread
      obtain ⟨w', hw, h', hh, rfl, rfl⟩ := hread
      exact ⟨left, right, hcs, hleft, hw, hh⟩
    · cases hread
  · rintro ⟨left, right, hcs, hleft, hw, hh⟩
    rw [span_ne_eq_iff.mpr ⟨hcs, hleft, rfl⟩]
    simp only [readSize?_eq_some_iff.mpr hw, readSize?_eq_some_iff.mpr hh]
    rfl

theorem SpellsSizes.lt_sizeBound (hs : SpellsSizes cs w h) : w < sizeBound ∧ h < sizeBound := by
  obtain ⟨left, right, -, -, ⟨_, -, -, -, -, hw⟩, ⟨_, -, -, -, -, hh⟩⟩ := hs
  exact ⟨hw, hh⟩

/-- Sizes in decimal have no `x`, so the first one is the one between them. -/
theorem spellsSizes_toDigits (hw : w < sizeBound) (hh : h < sizeBound) :
    SpellsSizes (Nat.toDigits 10 w ++ [' '] ++ 'x' :: ' ' :: Nat.toDigits 10 h) w h := by
  have hx : 'x' ∉ Nat.toDigits 10 w ++ [' '] := by
    rw [List.mem_append, not_or]
    exact ⟨not_mem_toDigits (by decide), by decide⟩
  have hblank : ∀ c ∈ [' '], isBlank c := List.forall_mem_singleton.mpr (by decide)
  have htrim : ∀ n, trim (Nat.toDigits 10 n) = Nat.toDigits 10 n := fun n =>
    trim_eq_self fun c hc => isBlank_of_isDigit (isDigit_of_mem_toDigits c hc)
  refine ⟨_, _, rfl, hx, ?_, ?_⟩
  · rw [trim_append_right hblank, htrim]
    exact spellsSize_toDigits hw
  · rw [← List.singleton_append, trim_append_left hblank, htrim]
    exact spellsSize_toDigits hh

end WordTiles.Text
