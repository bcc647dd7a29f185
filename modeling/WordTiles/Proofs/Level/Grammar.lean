import WordTiles.Level.Text
import WordTiles.Proofs.Level.Shape
import WordTiles.Proofs.Text.Sizes

/-! The grammar of level texts. The lines of a text are blocks with blank lines between them: a name, a
size, and as many rows for each layer as the size says. Reading a text that consists of whole blocks
gives their levels. Otherwise what stands behind the whole blocks at its front is a name with something
else than the rest of a block after it, and reading fails with what is wrong there. All this is so where
memory never runs out. -/

namespace WordTiles.Level

open Text

/-! ### The grammar -/

def IsBlankLine (line : Row) : Prop := ∀ c ∈ line, isBlank c

/-- A level as it stands in a text. -/
structure Block where
  nameLine : Row
  sizeLine : Row
  width : Nat
  height : Nat
  things : List Row
  words : List Row

namespace Block

/-- What follows the name. -/
def body (b : Block) : List Row := b.sizeLine :: (b.things ++ b.words)

def lines (b : Block) : List Row := b.nameLine :: b.body

/-- The name without the blanks around it. -/
def name (b : Block) : String := String.ofList (trim b.nameLine)

/-- The level that a block stands for, its rows cut off or filled up to the width. -/
def level (b : Block) : Level := ofRows b.name b.width b.height b.things b.words

/-- A block that has a name, gives a size that is not zero, and has all its rows. -/
structure IsWhole (b : Block) : Prop where
  nameLine : ¬ IsBlankLine b.nameLine
  sizeLine : SpellsSizes b.sizeLine b.width b.height
  width : b.width ≠ 0
  height : b.height ≠ 0
  things : b.things.length = b.height
  words : b.words.length = b.height

end Block

/-- The lines begin with blocks of these levels and blank lines between them, and end with the others. -/
inductive Begins : List Row → List Level → List Row → Prop where
  | refl (rest : List Row) : Begins rest [] rest
  | blank {line : Row} {lines : List Row} {ls : List Level} {rest : List Row} :
      IsBlankLine line → Begins lines ls rest → Begins (line :: lines) ls rest
  | block {b : Block} {lines : List Row} {ls : List Level} {rest : List Row} :
      b.IsWhole → Begins lines ls rest → Begins (b.lines ++ lines) (b.level :: ls) rest

/-- What is wrong with lines that should begin with the body of a block of this name. -/
inductive Fault (name : String) : List Row → LevelError → Prop where
  | noSize : Fault name [] (.noSize name)
  | badSize {line : Row} {rows : List Row} :
      (∀ width height, ¬ SpellsSizes line width height) →
      Fault name (line :: rows) (.badSize name (String.ofList line))
  | fewThings {line : Row} {width height : Nat} {rows : List Row} :
      SpellsSizes line width height → rows.length < height →
      Fault name (line :: rows) (.shortLayer name .things height rows.length)
  | fewWords {line : Row} {width height : Nat} {things words : List Row} :
      SpellsSizes line width height → things.length = height → words.length < height →
      Fault name (line :: (things ++ words)) (.shortLayer name .words height words.length)
  | noCells {line : Row} {width height : Nat} {rows : List Row} :
      SpellsSizes line width height → 2 * height ≤ rows.length → width = 0 ∨ height = 0 →
      Fault name (line :: rows) (.emptyGrid name width height)

/-- What a list of lines stands for: the levels of its blocks if it consists of whole blocks, and
otherwise the fault of the first block that is not whole. -/
def Spells (lines : List Row) : Except LevelError (List Level) → Prop
  | .ok ls => Begins lines ls []
  | .error e => ∃ ls nameLine rest, Begins lines ls (nameLine :: rest) ∧ ¬ IsBlankLine nameLine ∧
      Fault (String.ofList (trim nameLine)) rest e

/-! ### Reading one block -/

variable {l : Level} {ls : List Level} {name : String} {width height : Nat} {line nameLine : Row}
  {lines rows rest : List Row} {e : LevelError} {r : Except LevelError (List Level)} {b : Block}
  {m : Type → Type} [Monad m] [MonadExcept LevelError m] {memory : Memory m}

theorem isEmpty_trim_iff : (trim line).isEmpty ↔ IsBlankLine line := by
  rw [List.isEmpty_iff, trim_eq_nil_iff, IsBlankLine]

/-- The check of a level made from rows can find nothing wrong but its size. -/
theorem validate_ofRows {things words : List Row} : (ofRows name width height things words).validate =
    if width = 0 ∨ height = 0 then .error (.emptyGrid name width height) else .ok () := by
  split
  · rename_i h0
    have hfault : (ofRows name width height things words).fault? =
        some (.emptyGrid name width height) := if_pos h0
    rw [validate, hfault]
  · rename_i h0
    rw [not_or] at h0
    exact validate_eq_ok_iff.mpr (isShaped_ofRows h0.1 h0.2)

/-- Where memory is granted it makes no difference to a layer. -/
theorem readLayer_of_granted {layer : Layer} [LawfulMonad m] (hrows : memory.rows height = pure ())
    (hcells : rows.take height = [] ∨ memory.cells width = pure ()) :
    readLayer memory name layer width height rows =
      if rows.length < height then throw (.shortLayer name layer height rows.length)
      else pure ((rows.take height).map (fit width blankTile)) := by
  have hread : (rows.take height).mapM (fun line => do
      memory.cells width
      return fit width blankTile line) = pure ((rows.take height).map (fit width blankTile)) := by
    rcases hcells with hnil | hcells
    · rw [hnil]
      rfl
    · simp only [hcells, pure_bind]
      exact List.mapM_pure
  rw [readLayer, hrows, pure_bind, hread, pure_bind, List.length_map, List.length_take]
  by_cases h : rows.length < height
  · rw [Nat.min_eq_right (Nat.le_of_lt h)]
  · rw [Nat.min_eq_left (Nat.le_of_not_lt h), if_neg (Nat.lt_irrefl height), if_neg h]

theorem readLayer_endless {layer : Layer} : readLayer .endless name layer width height rows =
    if rows.length < height then .error (.shortLayer name layer height rows.length)
    else .ok ((rows.take height).map (fit width blankTile)) :=
  readLayer_of_granted rfl (.inr rfl)

theorem readBlock_of_readSizes?_eq_none (hsize : readSizes? line = none) :
    readBlock .endless name (line :: rows) = .error (.badSize name (String.ofList line)) := by
  simp only [readBlock, hsize]
  rfl

/-- After a size, the number of the lines that are left decides what comes of them. Where there are enough,
the rows that are read one by one are those of the level that is made of the lines. -/
theorem readBlock_cons (hsize : readSizes? line = some (width, height)) :
    readBlock .endless name (line :: rows) =
      if rows.length < height then .error (.shortLayer name .things height rows.length)
      else if rows.length - height < height then
        .error (.shortLayer name .words height (rows.length - height))
      else if width = 0 ∨ height = 0 then .error (.emptyGrid name width height)
      else .ok (ofRows name width height (rows.take height) ((rows.drop height).take height)) := by
  simp only [readBlock, hsize, readLayer_endless, List.length_drop]
  split
  · rfl
  · rename_i hthings
    split
    · rfl
    · rename_i hwords
      let level := ofRows name width height (rows.take height) ((rows.drop height).take height)
      have hlevel : level = _ := ofRows_of_length_eq (List.length_take_of_le (by omega))
        (List.length_take_of_le (by rw [List.length_drop]; omega))
      have hvalidate : level.validate = _ := validate_ofRows
      trans (do
        MonadExcept.ofExcept level.validate
        return level)
      · rw [hlevel]
        rfl
      · rw [hvalidate]
        split <;> rfl

theorem fault_of_readBlock (h : readBlock .endless name lines = .error e) : Fault name lines e := by
  cases lines with
  | nil =>
    cases h
    exact .noSize
  | cons line rows =>
    cases hsize : readSizes? line with
    | none =>
      rw [readBlock_of_readSizes?_eq_none hsize] at h
      cases h
      refine .badSize fun width height hspells => ?_
      rw [readSizes?_eq_some_iff.mpr hspells] at hsize
      cases hsize
    | some size =>
      obtain ⟨width, height⟩ := size
      have hspells := readSizes?_eq_some_iff.mp hsize
      rw [readBlock_cons hsize] at h
      split_ifs at h with hthings hwords h0
      · cases h
        exact .fewThings hspells hthings
      · cases h
        have hfault : Fault name (line :: (rows.take height ++ rows.drop height))
            (.shortLayer name .words height (rows.drop height).length) :=
          .fewWords hspells (by rw [List.length_take]; omega) (by rwa [List.length_drop])
        rwa [List.take_append_drop, List.length_drop] at hfault
      · cases h
        exact .noCells hspells (by omega) h0

theorem Fault.readBlock (h : Fault name lines e) : readBlock .endless name lines = .error e := by
  cases h with
  | noSize => rfl
  | @badSize line rows hnone =>
    have hsize : readSizes? line = none := by
      by_contra hsome
      obtain ⟨⟨width, height⟩, hsome⟩ := Option.ne_none_iff_exists'.mp hsome
      exact hnone width height (readSizes?_eq_some_iff.mp hsome)
    exact readBlock_of_readSizes?_eq_none hsize
  | fewThings hspells hthings =>
    rw [readBlock_cons (readSizes?_eq_some_iff.mpr hspells), if_pos hthings]
  | @fewWords line width height things words hspells hthings hwords =>
    have hleft : (things ++ words).length - height = words.length := by
      rw [List.length_append, hthings, Nat.add_sub_cancel_left]
    rw [readBlock_cons (readSizes?_eq_some_iff.mpr hspells), hleft, List.length_append, hthings,
      if_neg (by omega), if_pos hwords]
  | noCells hspells hrows h0 =>
    rw [readBlock_cons (readSizes?_eq_some_iff.mpr hspells), if_neg (by omega), if_neg (by omega),
      if_pos h0]

theorem Block.IsWhole.readBlock (h : b.IsWhole) (rest : List Row) :
    readBlock .endless b.name (b.body ++ rest) = .ok b.level := by
  have hthings := h.things
  have hwords := h.words
  have h0 : ¬ (b.width = 0 ∨ b.height = 0) := not_or.mpr ⟨h.width, h.height⟩
  rw [body, List.cons_append, readBlock_cons (readSizes?_eq_some_iff.mpr h.sizeLine)]
  simp only [List.length_append, hthings, hwords]
  rw [if_neg (by omega), if_neg (by omega), if_neg h0, List.append_assoc, List.take_left' hthings,
    List.drop_left' hthings, List.take_left' hwords, level]

theorem Block.IsWhole.length_body (h : b.IsWhole) : b.body.length = b.level.blockLength := by
  rw [body, List.length_cons, List.length_append, h.things, h.words]
  simp only [blockLength, level, ofRows]
  omega

/-- What is read as a level is the body of a whole block. -/
theorem exists_block_of_readBlock (hname : ¬ IsBlankLine nameLine)
    (h : readBlock .endless (String.ofList (trim nameLine)) lines = .ok l) :
    ∃ b : Block, b.IsWhole ∧ b.level = l ∧ nameLine :: lines = b.lines ++ lines.drop l.blockLength := by
  cases lines with
  | nil => cases h
  | cons line rows =>
    cases hsize : readSizes? line with
    | none =>
      rw [readBlock_of_readSizes?_eq_none hsize] at h
      cases h
    | some size =>
      obtain ⟨width, height⟩ := size
      rw [readBlock_cons hsize] at h
      split_ifs at h with hthings hwords h0
      cases h
      rw [not_or] at h0
      let b : Block :=
        ⟨nameLine, line, width, height, rows.take height, (rows.drop height).take height⟩
      have hb : b.IsWhole := {
        nameLine := hname
        sizeLine := readSizes?_eq_some_iff.mp hsize
        width := h0.1
        height := h0.2
        things := List.length_take_of_le (by omega)
        words := List.length_take_of_le (by rw [List.length_drop]; omega) }
      have hrows : line :: rows = b.body ++ (rows.drop height).drop height := by
        simp only [b, Block.body, List.cons_append, List.append_assoc, List.take_append_drop]
      have hrest : (line :: rows).drop b.level.blockLength = (rows.drop height).drop height := by
        rw [hrows, List.drop_left' hb.length_body]
      refine ⟨b, hb, rfl, congrArg (nameLine :: ·) ?_⟩
      exact hrows.trans (congrArg (b.body ++ ·) hrest.symm)

/-! ### Reading lines -/

theorem readLines_blank (h : IsBlankLine line) :
    readLines memory (line :: lines) = readLines memory lines := by
  rw [readLines, if_pos (isEmpty_trim_iff.mpr h)]

theorem readLines_of_name (h : ¬ IsBlankLine nameLine) : readLines memory (nameLine :: rest) = (do
    let level ← readBlock memory (String.ofList (trim nameLine)) rest
    let levels ← readLines memory (rest.drop level.blockLength)
    return level :: levels) := by
  rw [readLines, if_neg (mt isEmpty_trim_iff.mp h)]

theorem readLines_cons (hname : ¬ IsBlankLine nameLine) : readLines .endless (nameLine :: rest) =
    (readBlock .endless (String.ofList (trim nameLine)) rest).bind fun level =>
      (readLines .endless (rest.drop level.blockLength)).map (level :: ·) :=
  readLines_of_name hname

theorem Block.IsWhole.readLines (h : b.IsWhole) (rest : List Row) :
    readLines .endless (b.lines ++ rest) = (readLines .endless rest).map (b.level :: ·) := by
  rw [lines, List.cons_append, readLines_cons h.nameLine, ← Block.name, h.readBlock, Except.bind,
    List.drop_left' h.length_body]

theorem Fault.readLines (hname : ¬ IsBlankLine nameLine)
    (h : Fault (String.ofList (trim nameLine)) rest e) :
    readLines .endless (nameLine :: rest) = .error e := by
  rw [readLines_cons hname, h.readBlock, Except.bind]

/-- Reading takes the blocks at the front of a text, whatever comes after them. -/
theorem Begins.readLines (h : Begins lines ls rest) :
    readLines .endless lines = (readLines .endless rest).map (ls ++ ·) := by
  induction h with
  | refl rest => cases Level.readLines .endless rest <;> rfl
  | blank hline _ ih => rw [readLines_blank hline, ih]
  | @block b lines ls rest hb _ ih =>
    rw [hb.readLines, ih]
    cases Level.readLines .endless rest <;> rfl

theorem readLines_of_spells (h : Spells lines r) : readLines .endless lines = r := by
  cases r with
  | ok ls =>
    rw [Begins.readLines h, readLines]
    exact congrArg Except.ok (List.append_nil ls)
  | error e =>
    obtain ⟨ls, nameLine, rest, hbegins, hname, hfault⟩ := h
    rw [hbegins.readLines, hfault.readLines hname]
    rfl

theorem Spells.blank (hline : IsBlankLine line) (h : Spells lines r) : Spells (line :: lines) r := by
  cases r with
  | ok ls => exact .blank hline h
  | error e =>
    obtain ⟨ls, nameLine, rest, hbegins, hfault⟩ := h
    exact ⟨ls, nameLine, rest, .blank hline hbegins, hfault⟩

theorem Spells.block (hb : b.IsWhole) (h : Spells lines r) :
    Spells (b.lines ++ lines) (r.map (b.level :: ·)) := by
  cases r with
  | ok ls => exact .block hb h
  | error e =>
    obtain ⟨ls, nameLine, rest, hbegins, hfault⟩ := h
    exact ⟨b.level :: ls, nameLine, rest, .block hb hbegins, hfault⟩

/-- Every list of lines stands for what is read from it. -/
theorem spells_readLines (lines : List Row) : Spells lines (readLines .endless lines) := by
  induction lines using readLines.induct with
  | case1 =>
    rw [readLines]
    exact .refl []
  | case2 line rest hblank ih =>
    have hline := isEmpty_trim_iff.mp hblank
    rw [readLines_blank hline]
    exact ih.blank hline
  | case3 line rest hname ih =>
    rw [isEmpty_trim_iff] at hname
    rw [readLines_cons hname]
    cases hblock : readBlock .endless (String.ofList (trim line)) rest with
    | error e => exact ⟨[], line, rest, .refl _, hname, fault_of_readBlock hblock⟩
    | ok l =>
      obtain ⟨b, hb, rfl, hlines⟩ := exists_block_of_readBlock hname hblock
      rw [hlines]
      exact (ih b.level).block hb

theorem readLines_eq_iff : readLines .endless lines = r ↔ Spells lines r :=
  ⟨fun h => h ▸ spells_readLines lines, readLines_of_spells⟩

/-! ### Reading a text -/

theorem Begins.isShaped (h : Begins lines ls rest) : ∀ l ∈ ls, l.IsShaped := by
  induction h with
  | refl => exact fun _ => (absurd · List.not_mem_nil)
  | blank _ _ ih => exact ih
  | block hb _ ih => exact List.forall_mem_cons.mpr ⟨isShaped_ofRows hb.width hb.height, ih⟩

theorem Fault.ne_raggedRow (h : Fault name lines e) (level : String) (layer : Layer)
    (row expected found : Nat) : e ≠ .raggedRow level layer row expected found := by
  cases h <;> exact fun he => by cases he

/-- What is read from a text, where memory never runs out, is what its lines stand for, and nothing else. So
the levels that are read pass their check, and no text has a ragged row. -/
theorem parse_eq_iff_spells (t : String) :
    (∀ r, parse t = r ↔ Spells (Text.lines t.toList) r) ∧
    (∀ ls, parse t = .ok ls → ∀ l ∈ ls, l.validate = .ok ()) ∧
    ∀ level layer row expected found,
      parse t ≠ .error (.raggedRow level layer row expected found) := by
  refine ⟨fun r => readLines_eq_iff, fun ls h l hl => ?_, fun level layer row expected found h => ?_⟩
  · have hbegins : Begins (Text.lines t.toList) ls [] := readLines_eq_iff.mp h
    exact validate_eq_ok_iff.mpr (hbegins.isShaped l hl)
  · obtain ⟨_, _, _, _, _, hfault⟩ := readLines_eq_iff.mp h
    exact hfault.ne_raggedRow level layer row expected found rfl

end WordTiles.Level
