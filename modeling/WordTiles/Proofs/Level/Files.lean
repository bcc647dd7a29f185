import WordTiles.Proofs.Level.Grammar
import WordTiles.Proofs.Text.LineEnds

/-! Level texts as files. Where a text that ends with a line is followed by another one, its levels are read
as before and then those of the other. A fault in it stays if no line that follows can mend it, which is so
where a size is wrong or gives no cells; where lines are missing, the next line changes what is wrong. The
line ends of a file do not matter. -/

namespace WordTiles

open Text

/-- A fault that is the same whatever lines follow. -/
def LevelError.isFinal : LevelError → Bool
  | badSize .. => true
  | emptyGrid .. => true
  | _ => false

namespace Level

variable {ls : List Level} {name : String} {nameLine : Row} {lines rest : List Row} {e : LevelError}

/-! ### Further lines -/

theorem Begins.append (h : Begins lines ls rest) (more : List Row) :
    Begins (lines ++ more) ls (rest ++ more) := by
  induction h with
  | refl rest => exact .refl _
  | blank hline _ ih => exact .blank hline ih
  | @block b lines ls rest hb _ ih =>
    rw [List.append_assoc]
    exact .block hb ih

theorem readLines_append_of_ok (h : readLines .endless lines = .ok ls) (more : List Row) :
    readLines .endless (lines ++ more) = (readLines .endless more).map (ls ++ ·) := by
  have hbegins : Begins lines ls [] := readLines_eq_iff.mp h
  exact (hbegins.append more).readLines

theorem Fault.append (h : Fault name rest e) (he : e.isFinal) (more : List Row) :
    Fault name (rest ++ more) e := by
  cases h with
  | noSize | fewThings | fewWords => cases he
  | badSize hnone => exact .badSize hnone
  | noCells hspells hrows h0 =>
    refine .noCells hspells ?_ h0
    exact hrows.trans (List.sublist_append_left _ more).length_le

theorem readLines_append_of_isFinal (h : readLines .endless lines = .error e) (he : e.isFinal)
    (more : List Row) : readLines .endless (lines ++ more) = .error e := by
  obtain ⟨ls, nameLine, rest, hbegins, hname, hfault⟩ := readLines_eq_iff.mp h
  have happend := (hbegins.append more).readLines
  rw [List.cons_append, (hfault.append he more).readLines hname] at happend
  exact happend

/-! ### Missing lines -/

/-- Where lines are missing, one more line leads to another fault or completes the block. -/
theorem Fault.readBlock_concat (h : Fault name rest e) (he : ¬ e.isFinal) :
    (∃ e', e' ≠ e ∧ Level.readBlock .endless name (rest ++ [[]]) = .error e') ∨
      ∃ l, Level.readBlock .endless name (rest ++ [[]]) = .ok l ∧ (rest ++ [[]]).drop l.blockLength = [] := by
  cases h with
  | badSize | noCells => exact absurd rfl he
  | noSize => exact .inl ⟨.badSize name "", by simp, rfl⟩
  | @fewThings line width height rows hspells hrows =>
    left
    rw [List.cons_append, readBlock_cons (readSizes?_eq_some_iff.mpr hspells), List.length_append,
      List.length_singleton]
    by_cases hmore : rows.length + 1 < height
    · exact ⟨_, by simp, if_pos hmore⟩
    · exact ⟨_, by simp, (if_neg hmore).trans (if_pos (by omega))⟩
  | @fewWords line width height things words hspells hthings hwords =>
    have hlength : (things ++ words ++ [[]]).length = height + (words.length + 1) := by
      rw [List.length_append, List.length_append, hthings, List.length_singleton, Nat.add_assoc]
    have hthings' : ¬ height + (words.length + 1) < height := by omega
    rw [List.cons_append, readBlock_cons (readSizes?_eq_some_iff.mpr hspells), hlength,
      Nat.add_sub_cancel_left, if_neg hthings']
    by_cases hmore : words.length + 1 < height
    · exact .inl ⟨_, by simp, if_pos hmore⟩
    · rw [if_neg hmore]
      by_cases h0 : width = 0 ∨ height = 0
      · exact .inl ⟨_, by simp, if_pos h0⟩
      · refine .inr ⟨_, if_neg h0, List.drop_eq_nil_of_le ?_⟩
        rw [List.length_cons, hlength]
        simp only [blockLength, ofRows]
        omega

/-- A fault that is not final does not stay, not even with an empty line after it. -/
theorem readLines_concat_ne (h : readLines .endless lines = .error e) (he : ¬ e.isFinal) :
    readLines .endless (lines ++ [[]]) ≠ .error e := by
  obtain ⟨ls, nameLine, rest, hbegins, hname, hfault⟩ := readLines_eq_iff.mp h
  have happend := (hbegins.append [[]]).readLines
  rw [List.cons_append] at happend
  intro hconcat
  rcases hfault.readBlock_concat he with ⟨e', hne, hblock⟩ | ⟨l, hblock, hdrop⟩
  · rw [(fault_of_readBlock hblock).readLines hname, hconcat] at happend
    exact hne (Except.error.inj happend).symm
  · rw [hconcat, readLines_cons hname, hblock, Except.bind, hdrop, readLines] at happend
    cases happend

/-! ### Texts one after the other -/

/-- Behind a text that reads well and ends with a line, another text is read as if it stood alone. Behind
one that does not read, the fault stays whatever follows exactly if it is final. -/
theorem parse_append (t : String) (h : EndsLine t.toList) :
    (∀ ls, parse t = .ok ls → ∀ u, parse (t ++ u) = (parse u).map (ls ++ ·)) ∧
    ∀ e, parse t = .error e → ((∀ u, parse (t ++ u) = .error e) ↔ e.isFinal) := by
  have happend : ∀ u, parse (t ++ u) = readLines .endless (Text.lines t.toList ++ Text.lines u.toList) := by
    intro u
    rw [parse, String.toList_append, lines_append_of_endsLine h]
  refine ⟨fun ls hok u => ?_, fun e herror => ⟨fun hall => ?_, fun he u => ?_⟩⟩
  · rw [happend]
    exact readLines_append_of_ok hok _
  · by_contra he
    exact readLines_concat_ne herror he ((happend "\n").symm.trans (hall "\n"))
  · rw [happend]
    exact readLines_append_of_isFinal herror he _

/-- Behind a small level, and behind a size that is none. -/
theorem parse_append_small :
    (EndsLine "A\n1 x 1\nb\nI\n".toList ∧
      parse "A\n1 x 1\nb\nI\n" = .ok [ofRows "A" 1 1 [['b']] [['I']]] ∧
      ∀ u, parse ("A\n1 x 1\nb\nI\n" ++ u) =
        (parse u).map ([ofRows "A" 1 1 [['b']] [['I']]] ++ ·)) ∧
    EndsLine "T\nfive by three\n".toList ∧
      parse "T\nfive by three\n" = .error (.badSize "T" "five by three") ∧
      ∀ u, parse ("T\nfive by three\n" ++ u) = .error (.badSize "T" "five by three") := by
  have hlevel : EndsLine "A\n1 x 1\nb\nI\n".toList := .inr (by decide +kernel)
  have hfault : EndsLine "T\nfive by three\n".toList := .inr (by decide +kernel)
  have hok : parse "A\n1 x 1\nb\nI\n" = .ok [ofRows "A" 1 1 [['b']] [['I']]] := by decide +kernel
  have herror : parse "T\nfive by three\n" = .error (.badSize "T" "five by three") := by
    decide +kernel
  exact ⟨⟨hlevel, hok, (parse_append _ hlevel).1 _ hok⟩, hfault, herror,
    ((parse_append _ hfault).2 _ herror).mpr rfl⟩

/-! ### Line ends -/

/-- A text without carriage returns is read as it is with a carriage return before each line feed, or
before some of them. -/
theorem parse_sameButLineEnds (t : String) (h : ¬ '\r' ∈ t.toList) :
    parse (String.ofList (withCarriageReturns t.toList)) = parse t ∧
    ∀ u : String, SameButLineEnds t.toList u.toList → parse u = parse t := by
  have hsame : ∀ u : String, SameButLineEnds t.toList u.toList → parse u = parse t :=
    fun u hu => congrArg (readLines .endless) (hu.lines_eq h)
  refine ⟨hsame _ ?_, hsame⟩
  rw [String.toList_ofList]
  exact sameButLineEnds_withCarriageReturns t.toList

/-- A level with a carriage return in all its line ends, and with one in its second line end. -/
theorem parse_sameButLineEnds_small :
    ¬ '\r' ∈ "T\n2 x 1\nbf\nBI".toList ∧
    parse "T\r\n2 x 1\r\nbf\r\nBI" = parse "T\n2 x 1\nbf\nBI" ∧
    parse "T\n2 x 1\r\nbf\nBI" = parse "T\n2 x 1\nbf\nBI" := by
  have h : ¬ '\r' ∈ "T\n2 x 1\nbf\nBI".toList := by decide +kernel
  obtain ⟨hall, hsome⟩ := parse_sameButLineEnds _ h
  refine ⟨h, ?_, hsome _ ?_⟩
  · have htext : String.ofList (withCarriageReturns "T\n2 x 1\nbf\nBI".toList) =
        "T\r\n2 x 1\r\nbf\r\nBI" := by decide +kernel
    rwa [htext] at hall
  · have hcs : SameButLineEnds ['T', '\n', '2', ' ', 'x', ' ', '1', '\n', 'b', 'f', '\n', 'B', 'I']
        ['T', '\n', '2', ' ', 'x', ' ', '1', '\r', '\n', 'b', 'f', '\n', 'B', 'I'] := by
      repeat' constructor
    exact hcs

end Level

end WordTiles
