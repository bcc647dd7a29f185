import WordTiles.Proofs.Elementwise
import WordTiles.Proofs.Text.Lines
import WordTiles.Text.Decimal
import WordTiles.Text.Split

/-! Pieces of a saved text that are read back: the parts between separators, short of the blanks around
them, and bytes in hexadecimal. -/

namespace WordTiles.Text

variable {sep c : Char} {cs gap : List Char} {parts : List (List Char)} {n d : Nat}

/-! ### Parts between separators -/

theorem split_eq_splitOn (sep : Char) (cs : List Char) : split sep cs = cs.splitOn sep := by
  induction cs with
  | nil => rw [List.splitOn_nil, split]
  | cons c cs ih =>
    rw [split, List.splitOn_cons_eq_if_modifyHead, ih]
    by_cases hc : c = sep
    · rw [if_pos hc, if_pos (beq_iff_eq.mpr hc)]
    · rw [if_neg hc, if_neg (mt beq_iff_eq.mp hc)]
      cases hparts : cs.splitOn sep with
      | nil => exact absurd hparts (List.splitOn_ne_nil sep cs)
      | cons part parts => rfl

/-- Parts with blanks on both sides of the separators come back without them. -/
theorem map_trim_split (hsep : ¬ isBlank sep) (hgap : ∀ c ∈ gap, isBlank c)
    (hparts : ∀ part ∈ parts, ∀ c ∈ part, c ≠ sep ∧ ¬ isBlank c) (hne : parts ≠ []) :
    (split sep ((gap ++ sep :: gap).intercalate parts)).map trim = parts := by
  have hsepgap : sep ∉ gap := fun h => hsep (hgap sep h)
  -- A part after a separator begins with a gap, and the first one might as well.
  suffices h : ∀ lead, (∀ c ∈ lead, isBlank c) →
      (split sep (lead ++ (gap ++ sep :: gap).intercalate parts)).map trim = parts from
    h [] fun _ hc => absurd hc List.not_mem_nil
  induction parts with
  | nil => exact absurd rfl hne
  | cons part parts ih =>
    intro lead hlead
    rw [List.forall_mem_cons] at hparts
    obtain ⟨hpart, hrest⟩ := hparts
    have hblank : ∀ c ∈ part, ¬ isBlank c := fun c hc => (hpart c hc).2
    have hsepfront : sep ∉ lead ++ part := by
      rw [List.mem_append, not_or]
      exact ⟨fun h => hsep (hlead sep h), fun h => (hpart sep h).1 rfl⟩
    cases parts with
    | nil =>
      rw [List.intercalate_singleton, split_eq_splitOn, List.splitOn_eq_singleton hsepfront,
        List.map_singleton, trim_append_left hlead, trim_eq_self hblank]
    | cons next parts =>
      have hcut : lead ++ (gap ++ sep :: gap).intercalate (part :: next :: parts) =
          (lead ++ part ++ gap) ++
            sep :: (gap ++ (gap ++ sep :: gap).intercalate (next :: parts)) := by
        simp only [List.intercalate_cons_cons, List.append_assoc, List.cons_append]
      have hsepleft : sep ∉ lead ++ part ++ gap := by
        rw [List.mem_append, not_or]
        exact ⟨hsepfront, hsepgap⟩
      rw [hcut, split_eq_splitOn, List.splitOn_append_cons_self_of_not_mem hsepleft, List.map_cons,
        trim_append_right hgap, trim_append_left hlead, trim_eq_self hblank, ← split_eq_splitOn,
        ih hrest (List.cons_ne_nil _ _) gap hgap]

/-! ### Bytes in hexadecimal -/

theorem hexValue?_digitChar : ∀ d < 16, hexValue? d.digitChar = some d := by decide

/-- The digits of a number stand for it. -/
theorem exists_hexValues (n : Nat) :
    ∃ ds, (Nat.toDigits 16 n).mapM hexValue? = some ds ∧ ofDigits 16 ds = n := by
  induction n using Nat.strongRecOn with
  | ind n ih =>
    by_cases hn : n < 16
    · refine ⟨[n], ?_, ?_⟩
      · simp [Nat.toDigits_of_lt_base hn, hexValue?_digitChar n hn]
      · simp [ofDigits]
    · obtain ⟨ds, hds, hvalue⟩ := ih (n / 16) (by omega)
      have hlast : hexValue? (n % 16).digitChar = some (n % 16) :=
        hexValue?_digitChar _ (Nat.mod_lt _ (by decide))
      refine ⟨ds ++ [n % 16], ?_, ?_⟩
      · simp [Nat.toDigits_of_base_le (by decide : 1 < 16) (Nat.le_of_not_lt hn), hds, hlast]
      · rw [ofDigits, List.foldl_append, ← ofDigits, hvalue, List.foldl_cons, List.foldl_nil]
        exact Nat.div_add_mod n 16

theorem exists_hexValue_of_mem (h : c ∈ Nat.toDigits 16 n) : ∃ d, hexValue? c = some d := by
  obtain ⟨ds, hds, -⟩ := exists_hexValues n
  obtain ⟨d, -, hd⟩ := Elementwise.exists_of_mem_source hds h
  exact ⟨d, hd⟩

theorem isBlank_of_hexValue? (h : hexValue? c = some d) : ¬ isBlank c := by
  have hrange : 0x30 ≤ c.toNat ∧ c.toNat ≤ 0x66 := by
    rw [hexValue?] at h
    split_ifs at h with hdigit hlower hupper
    · have h09 : 0x30 ≤ c.toNat ∧ c.toNat ≤ 0x39 := Char.isDigit_iff_toNat.mp hdigit
      omega
    · have haf : 0x61 ≤ c.toNat ∧ c.toNat ≤ 0x66 := hlower
      omega
    · have hAF : 0x41 ≤ c.toNat ∧ c.toNat ≤ 0x46 := hupper
      omega
  simp only [isBlank, decide_eq_true_eq]
  omega

theorem readHexByte?_toDigits (hn : n < 256) : readHexByte? (Nat.toDigits 16 n) = some n := by
  obtain ⟨ds, hds, hvalue⟩ := exists_hexValues n
  have hdrop : dropPlus (Nat.toDigits 16 n) = Nat.toDigits 16 n := by
    rw [dropPlus]
    intro cs hcs
    obtain ⟨d, hd⟩ := exists_hexValue_of_mem (c := '+') (n := n) (hcs ▸ List.mem_cons_self)
    exact absurd hd (by simp [hexValue?])
  rw [readHexByte?, hdrop, readDigits?, if_neg (by simp), hds, Option.map_some, hvalue]
  exact Option.filter_eq_some_iff.mpr ⟨rfl, decide_eq_true hn⟩

end WordTiles.Text
