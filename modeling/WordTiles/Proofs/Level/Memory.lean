import WordTiles.Proofs.Level.Grammar

/-! Level texts and the memory they ask for. A block asks for the rows of a layer before any of them is read,
and for the cells of a row when its line is there. Where a block that is reached asks for too much nothing
comes of the text, not even an error. Otherwise the memory makes no difference, and the text is read as it is
where memory never runs out. -/

namespace WordTiles.Level

open Text

variable {bytes width height : Nat} {name : String} {layer : Layer} {ls : List Level} {line : Row}
  {lines rows rest : List Row} {b : Block}

/-! ### Asking for too much -/

/-- Lines that should begin with the body of a block ask for more than so many bytes at once. -/
inductive Outgrows (bytes : Nat) : List Row → Prop where
  | rows {line : Row} {width height : Nat} {rows : List Row} :
      SpellsSizes line width height → bytes < 24 * height → Outgrows bytes (line :: rows)
  | cells {line row : Row} {width height : Nat} {rows : List Row} :
      SpellsSizes line width height → height ≠ 0 → bytes < 4 * width →
      Outgrows bytes (line :: row :: rows)

/-- Behind whole blocks the lines have a name, and what follows it asks for more than so many bytes at
once. -/
def AsksTooMuch (bytes : Nat) (lines : List Row) : Prop :=
  ∃ ls nameLine rest, Begins lines ls (nameLine :: rest) ∧ ¬ IsBlankLine nameLine ∧
    Outgrows bytes rest

theorem AsksTooMuch.blank (hline : IsBlankLine line) (h : AsksTooMuch bytes lines) :
    AsksTooMuch bytes (line :: lines) := by
  obtain ⟨ls, nameLine, rest, hbegins, hname⟩ := h
  exact ⟨ls, nameLine, rest, .blank hline hbegins, hname⟩

theorem AsksTooMuch.block (hb : b.IsWhole) (h : AsksTooMuch bytes lines) :
    AsksTooMuch bytes (b.lines ++ lines) := by
  obtain ⟨ls, nameLine, rest, hbegins, hname⟩ := h
  exact ⟨b.level :: ls, nameLine, rest, .block hb hbegins, hname⟩

/-! ### Steps of a reader -/

section Steps

variable {α β : Type} {x : ExceptT LevelError Option α} {y : Except LevelError α}
  {f : α → ExceptT LevelError Option β} {g : α → Except LevelError β}

theorem run_bind_of_run_eq_some (hx : x.run = some y)
    (hf : ∀ a, y = .ok a → (f a).run = some (g a)) : (x >>= f).run = some (y >>= g) := by
  rw [ExceptT.run_bind, hx]
  cases y with
  | error e => rfl
  | ok a => exact hf a rfl

theorem run_bind_of_run_eq_none (hx : x.run = none) : (x >>= f).run = none := by
  rw [ExceptT.run_bind, hx]
  rfl

end Steps

/-! ### Requests -/

section Requests

variable {need : Nat}

theorem guard_of_le (h : need ≤ bytes) :
    (liftM (guard (need ≤ bytes) : Option Unit) : ExceptT LevelError Option Unit) = pure () := by
  rw [guard, if_pos h]
  rfl

theorem run_guard_of_lt (h : bytes < need) :
    (liftM (guard (need ≤ bytes) : Option Unit) : ExceptT LevelError Option Unit).run = none := by
  rw [guard, if_neg (Nat.not_le.mpr h)]
  rfl

end Requests

/-! ### One block -/

theorem run_readLayer (hrows : 24 * height ≤ bytes)
    (hcells : rows.take height = [] ∨ 4 * width ≤ bytes) :
    (readLayer (.upTo bytes) name layer width height rows).run =
      some (readLayer .endless name layer width height rows) := by
  rw [readLayer_of_granted (guard_of_le hrows) (hcells.imp_right guard_of_le),
    readLayer_of_granted rfl (.inr rfl)]
  split <;> rfl

theorem run_readLayer_eq_none
    (h : bytes < 24 * height ∨ rows.take height ≠ [] ∧ bytes < 4 * width) :
    (readLayer (.upTo bytes) name layer width height rows).run = none := by
  by_cases hrows : bytes < 24 * height
  · exact run_bind_of_run_eq_none (run_guard_of_lt hrows)
  · obtain ⟨hne, hcells⟩ := h.resolve_left hrows
    obtain ⟨row, more, hcons⟩ := List.exists_cons_of_ne_nil hne
    have hgranted : (Memory.upTo bytes).rows height = pure () :=
      guard_of_le (Nat.le_of_not_lt hrows)
    rw [readLayer, hgranted, pure_bind, hcons, List.mapM_cons]
    -- The first row stops the reading of all of them, and that the reading of the layer.
    refine run_bind_of_run_eq_none (run_bind_of_run_eq_none (run_bind_of_run_eq_none ?_))
    exact run_guard_of_lt hcells

theorem Outgrows.run_readBlock (h : Outgrows bytes lines) :
    (readBlock (.upTo bytes) name lines).run = none := by
  cases h with
  | rows hspells hmany =>
    simp only [readBlock, readSizes?_eq_some_iff.mpr hspells]
    exact run_bind_of_run_eq_none (run_readLayer_eq_none (.inl hmany))
  | @cells line row width height rows hspells h0 hmany =>
    have hne : (row :: rows).take height ≠ [] := by simp [h0]
    simp only [readBlock, readSizes?_eq_some_iff.mpr hspells]
    exact run_bind_of_run_eq_none (run_readLayer_eq_none (.inr ⟨hne, hmany⟩))

theorem run_readBlock (h : ¬ Outgrows bytes lines) :
    (readBlock (.upTo bytes) name lines).run = some (readBlock .endless name lines) := by
  cases lines with
  | nil => rfl
  | cons line rows =>
    cases hsize : readSizes? line with
    | none =>
      simp only [readBlock, hsize]
      rfl
    | some size =>
      obtain ⟨width, height⟩ := size
      have hspells := readSizes?_eq_some_iff.mp hsize
      have hrows : 24 * height ≤ bytes := Nat.le_of_not_lt fun hmany => h (.rows hspells hmany)
      have hcells : rows.take height = [] ∨ 4 * width ≤ bytes := by
        by_contra hnot
        rw [not_or, Nat.not_le] at hnot
        obtain ⟨hne, hmany⟩ := hnot
        cases rows with
        | nil => exact hne List.take_nil
        | cons row rows =>
          have h0 : height ≠ 0 := fun h0 => hne (by rw [h0, List.take_zero])
          exact h (.cells hspells h0 hmany)
      -- The second layer asks for no more than the first has been granted.
      have hcells' : (rows.drop height).take height = [] ∨ 4 * width ≤ bytes :=
        hcells.imp_left fun hnil => by
          rcases List.take_eq_nil_iff.mp hnil with h0 | hnil
          · rw [h0, List.take_zero]
          · rw [hnil, List.drop_nil, List.take_nil]
      simp only [readBlock, hsize]
      refine run_bind_of_run_eq_some (run_readLayer hrows hcells) fun things _ => ?_
      refine run_bind_of_run_eq_some (run_readLayer hrows hcells') fun words _ => ?_
      cases (Level.mk name width height things words).validate <;> rfl

/-! ### Lines -/

theorem Begins.run_readLines (h : Begins lines ls rest)
    (hrest : (Level.readLines (.upTo bytes) rest).run = none) :
    (Level.readLines (.upTo bytes) lines).run = none := by
  induction h with
  | refl => exact hrest
  | blank hline _ ih =>
    rw [readLines_blank hline]
    exact ih hrest
  | @block b lines ls rest hb _ ih =>
    rw [Block.lines, List.cons_append, readLines_of_name hb.nameLine, ← Block.name]
    by_cases hblock : Outgrows bytes (b.body ++ lines)
    · exact run_bind_of_run_eq_none hblock.run_readBlock
    · rw [ExceptT.run_bind, run_readBlock hblock, hb.readBlock]
      refine run_bind_of_run_eq_none ?_
      rw [List.drop_left' hb.length_body]
      exact ih hrest

theorem AsksTooMuch.run_readLines (h : AsksTooMuch bytes lines) :
    (readLines (.upTo bytes) lines).run = none := by
  obtain ⟨ls, nameLine, rest, hbegins, hname, hrest⟩ := h
  refine hbegins.run_readLines ?_
  rw [readLines_of_name hname]
  exact run_bind_of_run_eq_none hrest.run_readBlock

theorem run_readLines (h : ¬ AsksTooMuch bytes lines) :
    (readLines (.upTo bytes) lines).run = some (readLines .endless lines) := by
  induction lines using readLines.induct with
  | case1 =>
    rw [readLines, readLines]
    rfl
  | case2 line rest hblank ih =>
    have hline := isEmpty_trim_iff.mp hblank
    rw [readLines_blank hline, readLines_blank hline]
    exact ih fun hrest => h (hrest.blank hline)
  | case3 line rest hname ih =>
    rw [isEmpty_trim_iff] at hname
    have hblock : ¬ Outgrows bytes rest := fun hrest => h ⟨[], line, rest, .refl _, hname, hrest⟩
    rw [readLines_of_name hname, readLines_of_name hname]
    refine run_bind_of_run_eq_some (run_readBlock hblock) fun level hlevel => ?_
    obtain ⟨b, hb, rfl, hlines⟩ := exists_block_of_readBlock hname hlevel
    have hrest : ¬ AsksTooMuch bytes (rest.drop b.level.blockLength) := fun hrest =>
      h (hlines ▸ hrest.block hb)
    exact run_bind_of_run_eq_some (ih b.level hrest) fun levels _ => rfl

/-! ### Texts -/

theorem parse_of_parse? {t : String} {r : Except LevelError (List Level)} (h : parse? t = some r) :
    parse t = r := by
  by_cases hmuch : AsksTooMuch mostBytes (Text.lines t.toList)
  · rw [parse?, hmuch.run_readLines] at h
    cases h
  · rw [parse?, run_readLines hmuch] at h
    exact Option.some.inj h

/-- What is read from a text is what its lines stand for, unless a block that is reached asks for more memory
than there can be: then nothing comes of the text. So the levels that are read pass their check, and no text
has a ragged row. -/
theorem parse?_eq_some_iff_spells (t : String) :
    (∀ r, parse? t = some r ↔
      Spells (Text.lines t.toList) r ∧ ¬ AsksTooMuch mostBytes (Text.lines t.toList)) ∧
    (parse? t = none ↔ AsksTooMuch mostBytes (Text.lines t.toList)) ∧
    (∀ ls, parse? t = some (.ok ls) → ∀ l ∈ ls, l.validate = .ok ()) ∧
    ∀ level layer row expected found,
      parse? t ≠ some (.error (.raggedRow level layer row expected found)) := by
  obtain ⟨hspells, hvalid, hragged⟩ := parse_eq_iff_spells t
  by_cases h : AsksTooMuch mostBytes (Text.lines t.toList)
  · have hnone : parse? t = none := h.run_readLines
    simp [hnone, h]
  · have hsome : parse? t = some (parse t) := run_readLines h
    refine ⟨fun r => ?_, ?_, fun ls hls => ?_, fun level layer row expected found herror => ?_⟩
    · rw [hsome, Option.some.injEq, hspells, and_iff_left h]
    · exact iff_of_false (by simp [hsome]) h
    · exact hvalid ls (Option.some.inj (hsome.symm.trans hls))
    · exact hragged level layer row expected found (Option.some.inj (hsome.symm.trans herror))

/-- The lines of this text stand for an error, as they have none of the rows that the size asks for, but the
program asks for memory for them all and stops. -/
theorem not_parse?_tall :
    Spells (Text.lines "T\n1 x 18446744073709551615\n".toList)
      (.error (.shortLayer "T" .things 18446744073709551615 0)) ∧
    parse? "T\n1 x 18446744073709551615\n" = none := by
  have hparse : parse "T\n1 x 18446744073709551615\n" =
      .error (.shortLayer "T" .things 18446744073709551615 0) := by decide +kernel
  exact ⟨((parse_eq_iff_spells _).1 _).mp hparse, by decide +kernel⟩

end WordTiles.Level
