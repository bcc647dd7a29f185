import Mathlib.Data.List.DropRight
import WordTiles.Text.Blank
import WordTiles.Text.Line

/-! What reading by lines gives back. A row written with a line feed after it is read as one line,
short of a carriage return at its end; no line holds a line feed. Trimming takes blanks off both ends
and nothing else, so a trimmed text has nothing left to trim. -/

namespace WordTiles.Text

variable {cs ds row line : List Char}

/-! ### Lines -/

/-- A row as it is read back: a carriage return at its end counts as part of the line end. -/
def chomp (row : List Char) : List Char :=
  if row.getLast? = some '\r' then row.dropLast else row

theorem chomp_cons {c : Char} (h : row ≠ [] ∨ c ≠ '\r') : chomp (c :: row) = c :: chomp row := by
  cases row with
  | nil =>
    have hc : c ≠ '\r' := h.resolve_left (not_not_intro rfl)
    simp [chomp, hc]
  | cons d row =>
    simp only [chomp, List.getLast?_cons_cons, List.dropLast_cons_cons]
    split <;> rfl

theorem chomp_eq_self (h : row.getLast? ≠ some '\r') : chomp row = row := if_neg h

/-- A row and a line feed are one line, whatever text comes after them. -/
theorem lines_append (h : '\n' ∉ row) (rest : List Char) :
    lines (row ++ '\n' :: rest) = chomp row :: lines rest := by
  induction row with
  | nil => rw [List.nil_append, lines]; rfl
  | cons c row ih =>
    rw [List.mem_cons, not_or] at h
    by_cases hcr : row = [] ∧ c = '\r'
    · obtain ⟨rfl, rfl⟩ := hcr
      simp [lines, chomp]
    · -- the character stands inside the line, so the line is the rest of it with this in front
      have hc : row ≠ [] ∨ c ≠ '\r' := by tauto
      have hnext : ∀ cs, c = '\r' → row ++ '\n' :: rest = '\n' :: cs → False := by
        intro cs hcr' hcs
        cases row with
        | nil => simp_all
        | cons d row => simp_all
      rw [List.cons_append, lines, ih h.2, chomp_cons hc]
      · exact fun hn => h.1 hn.symm
      · exact hnext

theorem lines_flatMap {rows : List (List Char)} (h : ∀ row ∈ rows, '\n' ∉ row) (rest : List Char) :
    lines (rows.flatMap (· ++ ['\n']) ++ rest) = rows.map chomp ++ lines rest := by
  induction rows with
  | nil => rfl
  | cons row rows ih =>
    rw [List.forall_mem_cons] at h
    rw [List.flatMap_cons, List.append_assoc, List.append_assoc, List.singleton_append,
      lines_append h.1, ih h.2, List.map_cons, List.cons_append]

theorem not_mem_of_mem_lines (h : line ∈ lines cs) : '\n' ∉ line := by
  fun_induction lines cs generalizing line with
  | case1 => exact absurd h List.not_mem_nil
  | case2 cs ih =>
    rcases List.mem_cons.mp h with rfl | h
    · exact List.not_mem_nil
    · exact ih h
  | case3 cs ih =>
    rcases List.mem_cons.mp h with rfl | h
    · exact List.not_mem_nil
    · exact ih h
  | case4 c cs hn _ _ _ =>
    obtain rfl := List.mem_singleton.mp h
    exact fun hc => hn (List.mem_singleton.mp hc).symm
  | case5 c cs hn _ l ls hls ih =>
    rw [hls] at ih
    rcases List.mem_cons.mp h with rfl | h
    · rw [List.mem_cons, not_or]
      exact ⟨fun hc => hn hc.symm, ih List.mem_cons_self⟩
    · exact ih (List.mem_cons_of_mem l h)

/-! ### Trimming -/

theorem trim_eq (cs : List Char) : trim cs = (cs.dropWhile isBlank).rdropWhile isBlank := rfl

theorem trim_subset : trim cs ⊆ cs := by
  rw [trim_eq]
  exact List.Subset.trans (List.rdropWhile_prefix isBlank _).subset (List.dropWhile_subset isBlank)

/-- The first character of a trimmed text is not blank: it is the one of the text without the blanks
before it. -/
theorem dropWhile_trim (cs : List Char) : (trim cs).dropWhile isBlank = trim cs := by
  rw [trim_eq, List.dropWhile_eq_self_iff]
  intro hl
  have hhead := (List.rdropWhile_prefix isBlank (cs.dropWhile isBlank)).getElem hl
  rw [hhead]
  exact List.dropWhile_eq_self_iff.mp (List.dropWhile_idempotent isBlank cs) _

theorem trim_trim (cs : List Char) : trim (trim cs) = trim cs := by
  rw [trim_eq (trim cs), dropWhile_trim, trim_eq, List.rdropWhile_idempotent]

theorem getLast?_trim_ne {c : Char} (hc : isBlank c) : (trim cs).getLast? ≠ some c := by
  intro h
  obtain ⟨hne, rfl⟩ := List.mem_getLast?_eq_getLast (Option.mem_def.mpr h)
  exact List.rdropWhile_last_not isBlank _ hne hc

theorem trim_eq_nil_iff : trim cs = [] ↔ ∀ c ∈ cs, isBlank c := by
  rw [trim_eq, List.rdropWhile_eq_nil_iff]
  constructor
  · intro h
    rw [← List.dropWhile_eq_nil_iff]
    by_contra hne
    have hhead := List.head_dropWhile_not isBlank hne
    rw [h _ (List.head_mem hne)] at hhead
    cases hhead
  · intro h
    rw [List.dropWhile_eq_nil_iff.mpr h]
    exact fun _ => (absurd · List.not_mem_nil)

theorem trim_append_left (h : ∀ c ∈ ds, isBlank c) : trim (ds ++ cs) = trim cs := by
  rw [trim, List.dropWhile_append_of_pos h, trim]

theorem trim_append_right (h : ∀ c ∈ ds, isBlank c) : trim (cs ++ ds) = trim cs := by
  rw [trim, List.dropWhile_append]
  split
  · rename_i hcs
    rw [List.dropWhile_eq_nil_iff.mpr h, trim, List.isEmpty_iff.mp hcs]
  · have hrev : ∀ c ∈ ds.reverse, isBlank c := fun c hc => h c (List.mem_reverse.mp hc)
    rw [List.reverse_append, List.dropWhile_append_of_pos hrev, trim]

theorem trim_eq_self (h : ∀ c ∈ cs, ¬ isBlank c) : trim cs = cs := by
  have hfront : cs.dropWhile isBlank = cs :=
    List.dropWhile_eq_self_iff.mpr fun hl => h _ (List.getElem_mem hl)
  rw [trim_eq, hfront, List.rdropWhile_eq_self_iff]
  exact fun hne => h _ (List.getLast_mem hne)

end WordTiles.Text
