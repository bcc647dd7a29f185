import WordTiles.Proofs.Level.Grammar

/-! Which levels come back from their text. Reading a text gives legible levels only, and it gives
back every list of legible levels except that a carriage return at the end of a row is lost with the
line end and a blank takes its place. So a list of levels is read back as it was exactly if all its
levels are legible and no row ends in a carriage return. Levels that were read are legible, so their
text is always read, and read once more it changes nothing. -/

namespace WordTiles.Level

open Text

variable {l : Level} {ls : List Level} {width height : Nat} {row : Row}
  {lines rows : List Row}

/-! ### Legible levels -/

/-- A level whose text can be read. Sizes are read with 64 bits; the name is what stands on a line,
without blanks at its ends, and no character ends a line too early. -/
structure IsLegible (l : Level) : Prop where
  validate : l.validate = .ok ()
  width : l.width < sizeBound
  height : l.height < sizeBound
  name : l.name.toList ≠ []
  trim_name : trim l.name.toList = l.name.toList
  nameLine : '\n' ∉ l.name.toList
  rowLines : ∀ row ∈ l.things ++ l.words, '\n' ∉ row

/-- A block gives a legible level: what it has stood on lines. -/
theorem Block.IsWhole.isLegible {b : Block} (h : b.IsWhole) (hlines : ∀ line ∈ b.lines, '\n' ∉ line) :
    b.level.IsLegible := by
  obtain ⟨hwidth, hheight⟩ := h.sizeLine.lt_sizeBound
  simp only [Block.lines, Block.body, List.forall_mem_cons, List.forall_mem_append] at hlines
  obtain ⟨hname, -, hthings, hwords⟩ := hlines
  have hchars : b.level.name.toList = trim b.nameLine := String.toList_ofList
  exact {
    validate := validate_eq_ok_iff.mpr (isShaped_ofRows h.width h.height)
    width := hwidth
    height := hheight
    name := by rw [hchars, ne_eq, trim_eq_nil_iff]; exact h.nameLine
    trim_name := by rw [hchars, trim_trim]
    nameLine := by rw [hchars]; exact fun hmem => hname (trim_subset hmem)
    rowLines := List.forall_mem_append.mpr
      ⟨not_mem_of_mem_fitRows (by decide) hthings, not_mem_of_mem_fitRows (by decide) hwords⟩ }

theorem Begins.isLegible (h : Begins lines ls rows) (hlines : ∀ line ∈ lines, '\n' ∉ line) :
    ∀ l ∈ ls, l.IsLegible := by
  induction h with
  | refl => exact fun _ => (absurd · List.not_mem_nil)
  | blank _ _ ih => exact ih (List.forall_mem_cons.mp hlines).2
  | block hb _ ih =>
    obtain ⟨hblock, hrest⟩ := List.forall_mem_append.mp hlines
    exact List.forall_mem_cons.mpr ⟨hb.isLegible hblock, ih hrest⟩

theorem isLegible_of_parse {text : String} (h : parse text = .ok ls) :
    ∀ l ∈ ls, l.IsLegible :=
  (readLines_eq_iff.mp h).isLegible fun _ => not_mem_of_mem_lines

/-! ### Reading what was written -/

/-- The lines of a level after its name, and the lines that follow: each row is short of a carriage
return at its end. -/
def lineBlock (l : Level) (rest : List Row) : List Row :=
  sizeText l.width l.height :: (l.things.map chomp ++ (l.words.map chomp ++ rest))

/-- The level that reading gives back: what the rows have lost is filled up with blanks. -/
def reread (l : Level) : Level :=
  ofRows l.name l.width l.height (l.things.map chomp) (l.words.map chomp)

theorem sizeText_eq (width height : Nat) : sizeText width height =
    Nat.toDigits 10 width ++ [' '] ++ 'x' :: ' ' :: Nat.toDigits 10 height := by
  simp [sizeText]

theorem not_mem_sizeText {c : Char} (hdigit : ¬ c.isDigit) (h : c ∉ [' ', 'x']) :
    c ∉ sizeText width height := by
  rw [List.mem_cons, List.mem_singleton, not_or] at h
  simp [sizeText_eq, not_mem_toDigits hdigit, h]

/-- The lines of a legible level are those that were written, and the text after it has its own. -/
theorem lines_chars (h : l.IsLegible) (rest : List Char) :
    Text.lines (l.chars ++ rest) = l.name.toList :: l.lineBlock (Text.lines rest) := by
  have hrows : ∀ row ∈ l.name.toList :: sizeText l.width l.height :: (l.things ++ l.words),
      '\n' ∉ row := by
    rw [List.forall_mem_cons, List.forall_mem_cons]
    exact ⟨h.nameLine, not_mem_sizeText (by decide) (by decide), h.rowLines⟩
  have hname : chomp l.name.toList = l.name.toList := by
    rw [← h.trim_name]
    exact chomp_eq_self (getLast?_trim_ne (by decide))
  have hsize : chomp (sizeText l.width l.height) = sizeText l.width l.height :=
    chomp_eq_self fun hlast =>
      not_mem_sizeText (by decide) (by decide) (List.mem_of_getLast? hlast)
  have hchars : l.chars = (l.name.toList :: sizeText l.width l.height ::
      (l.things ++ l.words)).flatMap rowText := by
    simp [chars]
  calc Text.lines (l.chars ++ rest)
      = (l.name.toList :: sizeText l.width l.height :: (l.things ++ l.words)).map chomp ++
          Text.lines rest := by rw [hchars]; exact lines_flatMap hrows rest
    _ = l.name.toList :: l.lineBlock (Text.lines rest) := by simp [hname, hsize, lineBlock]

/-- The lines of a level, as a block. -/
def block (l : Level) : Block where
  nameLine := l.name.toList
  sizeLine := sizeText l.width l.height
  width := l.width
  height := l.height
  things := l.things.map chomp
  words := l.words.map chomp

theorem isWhole_block (h : l.IsLegible) : l.block.IsWhole := by
  have hshape : l.IsShaped := validate_eq_ok_iff.mp h.validate
  exact {
    nameLine := by
      rw [IsBlankLine, ← trim_eq_nil_iff, block, h.trim_name]
      exact h.name
    sizeLine := by
      rw [block, sizeText_eq]
      exact spellsSizes_toDigits h.width h.height
    width := hshape.width
    height := hshape.height
    things := (List.length_map _).trans hshape.things.height
    words := (List.length_map _).trans hshape.words.height }

theorem level_block (h : l.IsLegible) : l.block.level = l.reread := by
  have hname : l.block.name = l.name := by
    rw [Block.name, block, h.trim_name, String.ofList_toList]
  rw [Block.level, hname]
  rfl

theorem lines_block (l : Level) (rest : List Row) :
    l.block.lines ++ rest = l.name.toList :: l.lineBlock rest := by
  simp [Block.lines, Block.body, block, lineBlock]

theorem begins_lines_flatMap (h : ∀ l ∈ ls, l.IsLegible) :
    Begins (Text.lines (ls.flatMap chars)) (ls.map reread) [] := by
  induction ls with
  | nil => exact .refl []
  | cons l ls ih =>
    rw [List.forall_mem_cons] at h
    rw [List.flatMap_cons, lines_chars h.1, ← lines_block, List.map_cons, ← level_block h.1]
    exact .block (isWhole_block h.1) (ih h.2)

theorem parse_text_of_isLegible (h : ∀ l ∈ ls, l.IsLegible) :
    parse (String.join (ls.map text)) = .ok (ls.map reread) := by
  have hchars : (String.join (ls.map text)).toList = ls.flatMap chars := by
    simp [String.toList_join, List.flatMap_map, text]
  rw [parse, hchars, readLines_eq_iff]
  exact begins_lines_flatMap h

/-! ### What comes back unchanged -/

/-- A carriage return at the end of a row is taken for part of the line end, and a blank comes back in
its place. -/
theorem fit_chomp_concat (h : (row ++ ['\r']).length = width) :
    fit width blankTile (chomp (row ++ ['\r'])) = row ++ [blankTile] := by
  have hchomp : chomp (row ++ ['\r']) = row := by simp [chomp]
  rw [hchomp]
  simp [fit, ← h]

/-- A row comes back as it was unless it ends in a carriage return. -/
theorem fit_chomp_eq_self_iff (h : row.length = width) :
    fit width blankTile (chomp row) = row ↔ row.getLast? ≠ some '\r' := by
  constructor
  · intro hback hlast
    obtain ⟨row, rfl⟩ := List.getLast?_eq_some_iff.mp hlast
    rw [fit_chomp_concat h, List.append_cancel_left_eq] at hback
    exact absurd hback (by decide)
  · intro hlast
    rw [chomp_eq_self hlast, fit_of_length_eq h]

/-- No row comes back with a carriage return at its end. -/
theorem getLast?_fit_chomp_ne (h : row.length = width) :
    (fit width blankTile (chomp row)).getLast? ≠ some '\r' := by
  by_cases hlast : row.getLast? = some '\r'
  · obtain ⟨row, rfl⟩ := List.getLast?_eq_some_iff.mp hlast
    rw [fit_chomp_concat h, List.getLast?_concat]
    decide
  · rwa [(fit_chomp_eq_self_iff h).mpr hlast]

theorem map_eq_self_iff {α : Type} {f : α → α} {as : List α} :
    as.map f = as ↔ ∀ a ∈ as, f a = a := by
  simpa using List.map_inj_left (l := as) (f := f) (g := id)

theorem fitRows_map_chomp_eq_self_iff (h : IsRectangle width height rows) :
    fitRows width height (rows.map chomp) = rows ↔ ∀ row ∈ rows, row.getLast? ≠ some '\r' := by
  rw [fitRows_of_length_eq (by rw [List.length_map, h.height]), List.map_map,
    map_eq_self_iff]
  exact forall₂_congr fun row hrow => fit_chomp_eq_self_iff (h.width row hrow)

theorem reread_eq_self_iff (h : l.IsShaped) :
    l.reread = l ↔ ∀ row ∈ l.things ++ l.words, row.getLast? ≠ some '\r' := by
  rw [List.forall_mem_append, ← fitRows_map_chomp_eq_self_iff h.things,
    ← fitRows_map_chomp_eq_self_iff h.words, Level.ext_iff]
  simp [reread, ofRows]

example : reread ⟨"Tiny", 2, 1, [['r', '\r']], [['R', 'I']]⟩ =
    ⟨"Tiny", 2, 1, [['r', ' ']], [['R', 'I']]⟩ := rfl

/-- A level that its text gives back. -/
structure IsFaithful (l : Level) : Prop extends l.IsLegible where
  rowEnds : ∀ row ∈ l.things ++ l.words, row.getLast? ≠ some '\r'

/-- The texts of levels, one after the other, are read back as those levels exactly if each of them
is faithful. -/
theorem parse_join_text_eq_ok_iff :
    parse (String.join (ls.map text)) = .ok ls ↔ ∀ l ∈ ls, l.IsFaithful := by
  constructor
  · intro h l hl
    have hlegible : ∀ l ∈ ls, l.IsLegible := isLegible_of_parse h
    have hback : ls.map reread = ls := by
      rw [parse_text_of_isLegible hlegible] at h
      exact Except.ok.inj h
    have hself : l.reread = l := map_eq_self_iff.mp hback l hl
    have hshape : l.IsShaped := validate_eq_ok_iff.mp (hlegible l hl).validate
    exact ⟨hlegible l hl, (reread_eq_self_iff hshape).mp hself⟩
  · intro h
    have hback : ls.map reread = ls := map_eq_self_iff.mpr fun l hl =>
      (reread_eq_self_iff (validate_eq_ok_iff.mp (h l hl).validate)).mpr (h l hl).rowEnds
    rw [parse_text_of_isLegible fun l hl => (h l hl).toIsLegible, hback]

/-! ### Levels that have been read -/

theorem getLast?_ne_of_mem_fitRows (h : IsRectangle width height rows) :
    ∀ row ∈ fitRows width height (rows.map chomp), row.getLast? ≠ some '\r' := by
  rw [fitRows_of_length_eq (by rw [List.length_map, h.height])]
  simp only [List.forall_mem_map]
  exact fun row hrow => getLast?_fit_chomp_ne (h.width row hrow)

/-- What has come back once comes back unchanged. -/
theorem reread_reread (h : l.IsShaped) : l.reread.reread = l.reread := by
  have hshape : l.reread.IsShaped := isShaped_ofRows h.width h.height
  rw [reread_eq_self_iff hshape, List.forall_mem_append]
  exact ⟨getLast?_ne_of_mem_fitRows h.things, getLast?_ne_of_mem_fitRows h.words⟩

/-- The text of levels that were read can be read again. It gives back the levels as they were exactly
if none of their rows ends in a carriage return, as a row does that was cut off right after one or had
one before no line feed; and what it gives back comes back unchanged from then on. -/
theorem parse_join_text_of_parse {t : String} (h : parse t = .ok ls) :
    (parse (String.join (ls.map text)) = .ok ls ↔
      ∀ l ∈ ls, ∀ row ∈ l.things ++ l.words, row.getLast? ≠ some '\r') ∧
    parse (String.join (ls.map text)) = .ok (ls.map reread) ∧
    parse (String.join ((ls.map reread).map text)) = .ok (ls.map reread) := by
  have hlegible : ∀ l ∈ ls, l.IsLegible := isLegible_of_parse h
  have hshape : ∀ l ∈ ls, l.IsShaped := fun l hl => validate_eq_ok_iff.mp (hlegible l hl).validate
  have hagain : parse (String.join (ls.map text)) = .ok (ls.map reread) :=
    parse_text_of_isLegible hlegible
  have hstable : (ls.map reread).map reread = ls.map reread := by
    rw [List.map_map]
    exact List.map_congr_left fun l hl => reread_reread (hshape l hl)
  refine ⟨?_, hagain, ?_⟩
  · rw [hagain, Except.ok.injEq, map_eq_self_iff]
    exact forall₂_congr fun l hl => reread_eq_self_iff (hshape l hl)
  · rw [parse_text_of_isLegible (isLegible_of_parse hagain), hstable]

/-- A carriage return inside a row stays where it is. -/
theorem parse_join_text_inside :
    parse "T\n3 x 1\nb\rX\nBI\n" = .ok [⟨"T", 3, 1, [['b', '\r', 'X']], [['B', 'I', ' ']]⟩] ∧
    parse (String.join ([⟨"T", 3, 1, [['b', '\r', 'X']], [['B', 'I', ' ']]⟩].map text)) =
      .ok [⟨"T", 3, 1, [['b', '\r', 'X']], [['B', 'I', ' ']]⟩] := by
  have h : parse "T\n3 x 1\nb\rX\nBI\n" =
      .ok [⟨"T", 3, 1, [['b', '\r', 'X']], [['B', 'I', ' ']]⟩] := by decide +kernel
  exact ⟨h, (parse_join_text_of_parse h).1.mpr (by decide)⟩

/-- A row that is cut off right after a carriage return does not come back. -/
theorem not_parse_join_text_cut :
    parse "T\n2 x 1\nb\rX\nBI\n" = .ok [⟨"T", 2, 1, [['b', '\r']], [['B', 'I']]⟩] ∧
    parse (String.join ([⟨"T", 2, 1, [['b', '\r']], [['B', 'I']]⟩].map text)) ≠
      .ok [⟨"T", 2, 1, [['b', '\r']], [['B', 'I']]⟩] := by
  decide +kernel

end WordTiles.Level
