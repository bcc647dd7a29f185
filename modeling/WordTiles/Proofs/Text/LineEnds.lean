import WordTiles.Proofs.Text.Lines

/-! Where lines end. The lines of two texts one after the other are those of the first and then those of the
second, if the first is empty or ends in a line feed. In a text without carriage returns any line feeds can
get one before them, and its lines stay what they are. -/

namespace WordTiles.Text

variable {cs ds : List Char}

/-- A character that ends no line stands at the front of the first line after it. -/
theorem lines_cons {c : Char} (hn : c ≠ '\n') (hr : c = '\r' → cs.head? ≠ some '\n') :
    lines (c :: cs) = (c :: (lines cs).headD []) :: (lines cs).tail := by
  have hnext : ∀ cs', c = '\r' → cs = '\n' :: cs' → False := by
    rintro cs' hc rfl
    exact hr hc rfl
  rw [lines]
  · cases lines cs <;> rfl
  · exact hn
  · exact hnext

theorem lines_eq_nil_iff : lines cs = [] ↔ cs = [] := by
  fun_cases lines cs <;> simp

/-! ### Texts one after the other -/

/-- The text is empty or ends in a line feed, so that what comes after it begins with a new line. -/
def EndsLine (cs : List Char) : Prop := cs = [] ∨ cs.getLast? = some '\n'

theorem EndsLine.of_cons {c : Char} (h : EndsLine (c :: cs)) : EndsLine cs := by
  cases cs with
  | nil => exact .inl rfl
  | cons c' cs => exact .inr (h.resolve_left (List.cons_ne_nil c _))

theorem EndsLine.eq_of_singleton {c : Char} (h : EndsLine [c]) : c = '\n' :=
  Option.some.inj (h.resolve_left (List.cons_ne_nil c _))

theorem lines_append_of_endsLine (h : EndsLine cs) (ds : List Char) :
    lines (cs ++ ds) = lines cs ++ lines ds := by
  fun_induction lines cs with
  | case1 => rfl
  | case2 cs ih => rw [List.cons_append, lines, ih h.of_cons, List.cons_append]
  | case3 cs ih =>
    rw [List.cons_append, List.cons_append, lines, ih h.of_cons.of_cons, List.cons_append]
  | case4 c cs hn _ hlines _ =>
    -- a last line without a line feed
    cases cs with
    | nil => exact absurd h.eq_of_singleton hn
    | cons c' cs => exact absurd (lines_eq_nil_iff.mp hlines) (List.cons_ne_nil c' cs)
  | case5 c cs hn hr line rest hlines ih =>
    have hnext : c = '\r' → (cs ++ ds).head? ≠ some '\n' := by
      intro hc hhead
      cases cs with
      | nil => cases hlines
      | cons c' cs => exact hr cs hc (congrArg (· :: cs) (Option.some.inj hhead))
    rw [List.cons_append, lines_cons hn hnext, ih h.of_cons, hlines]
    rfl

/-! ### Other line ends -/

/-- The second text is the first with a carriage return put before some of the line feeds. -/
inductive SameButLineEnds : List Char → List Char → Prop
  | nil : SameButLineEnds [] []
  | cons {cs ds : List Char} (c : Char) : SameButLineEnds cs ds → SameButLineEnds (c :: cs) (c :: ds)
  | crlf {cs ds : List Char} :
      SameButLineEnds cs ds → SameButLineEnds ('\n' :: cs) ('\r' :: '\n' :: ds)

/-- A text with a carriage return put before each line feed. -/
def withCarriageReturns (cs : List Char) : List Char :=
  cs.flatMap fun c => if c = '\n' then ['\r', '\n'] else [c]

theorem sameButLineEnds_withCarriageReturns (cs : List Char) :
    SameButLineEnds cs (withCarriageReturns cs) := by
  induction cs with
  | nil => exact .nil
  | cons c cs ih =>
    rw [withCarriageReturns, List.flatMap_cons]
    by_cases hc : c = '\n'
    · subst hc
      exact ih.crlf
    · rw [if_neg hc]
      exact ih.cons c

theorem SameButLineEnds.lines_eq (h : SameButLineEnds cs ds) (hcs : '\r' ∉ cs) :
    lines ds = lines cs := by
  induction h with
  | nil => rfl
  | crlf _ ih =>
    rw [lines, lines, ih (List.not_mem_of_not_mem_cons hcs)]
  | @cons cs ds c _ ih =>
    have ih := ih (List.not_mem_of_not_mem_cons hcs)
    by_cases hn : c = '\n'
    · rw [hn, lines, lines, ih]
    · have hr : c ≠ '\r' := fun hc => hcs (hc ▸ List.mem_cons_self)
      rw [lines_cons hn fun hc => absurd hc hr, lines_cons hn fun hc => absurd hc hr, ih]

end WordTiles.Text
