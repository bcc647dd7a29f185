import Mathlib.Data.String.Basic
import WordTiles.Proofs.Rules.Reading
import WordTiles.Proofs.Table
import WordTiles.Proofs.Word.Sets

/-! Which sentences a board spells, and in which order they are read. A word plays in a cell the part of
the tile with its text there that has the highest number. A sentence is spelled by a subject, the linking
word one step on and a word for its complement two steps on, where the steps are reckoned with 32 bits.
The reading finds each such sentence once, in an order that the sentences alone determine. -/

namespace WordTiles

open Std

variable {b : Board} {operator word : String} {c : Cell} {r : Role} {m : WordMap} {s t : Sentence}
  {axis : Axis}

/-! ### Sentences of a board -/

namespace Board

/-- Of the tiles in the cell with this text, the one with the highest number plays this part. -/
def Plays (b : Board) (c : Cell) (word : String) (r : Role) : Prop :=
  ∃ id, b.word? id = some ⟨word, r⟩ ∧ b.cell? id = some c ∧
    ∀ k w, b.word? k = some w → w.text = word → b.cell? k = some c → k ≤ id

/-- A word in the cell says this of a subject: a word that names a property, or another subject. -/
inductive Offers (b : Board) (c : Cell) : Complement → Prop
  | property {word : String} {p : Property} (h : b.Plays c word .property)
      (hp : Property.ofWord? word = some p) : Offers b c (.properties {p})
  | noun {name : String} (h : b.Plays c name .subject) : Offers b c (.noun name)

structure Spells (b : Board) (operator : String) (s : Sentence) : Prop where
  subject : b.Plays s.origin s.subject .subject
  operator : b.Plays (s.origin.onward s.axis.direction 1) operator .operator
  complement : b.Offers (s.origin.onward s.axis.direction 2) s.complement

/-- No word tile stands in the last column or the last row that has coordinates of 32 bits. -/
def WordsWithin (b : Board) : Prop :=
  ∀ id c, b.isWord id → b.cell? id = some c → c.Fits ∧ c.x ≠ 0x7fffffff ∧ c.y ≠ 0x7fffffff

theorem Plays.onward_eq (h : b.Plays c word r) (hb : b.WordsWithin) (axis : Axis) :
    c.onward axis.direction 1 = c.step axis.direction := by
  obtain ⟨id, hw, hc, -⟩ := h
  obtain ⟨⟨hx, hy⟩, hlastx, hlasty⟩ := hb id c (by rw [isWord_eq_isSome, hw]; rfl) hc
  have hfits : (c.step axis.direction).Fits := by
    rw [Cell.step_eq]
    cases axis <;> constructor <;> dsimp only [Axis.direction, Direction.delta] <;> omega
  exact Cell.onward_of_fits hfits

/-- Where no step leaves the coordinates of 32 bits, the words of a sentence stand side by side. -/
theorem spells_iff_of_wordsWithin (hb : b.WordsWithin) : b.Spells operator s ↔
    b.Plays s.origin s.subject .subject ∧
    b.Plays (s.origin.step s.axis.direction) operator .operator ∧
    b.Offers (s.origin.offset s.axis.direction 2) s.complement := by
  have hstep : b.Plays s.origin s.subject .subject →
      s.origin.onward s.axis.direction 1 = s.origin.step s.axis.direction :=
    fun h => h.onward_eq hb s.axis
  -- The third cell is one step on from the second, where the linking word stands.
  have hthird : b.Plays (s.origin.step s.axis.direction) operator .operator →
      s.origin.onward s.axis.direction 2 = s.origin.offset s.axis.direction 2 := by
    intro h
    have htwo : ((s.origin.step s.axis.direction).offset s.axis.direction 1) =
        s.origin.offset s.axis.direction 2 := Cell.offset_offset ..
    calc s.origin.onward s.axis.direction 2
        = (s.origin.step s.axis.direction).onward s.axis.direction 1 := by
          rw [Cell.onward, Cell.onward, htwo]
      _ = (s.origin.step s.axis.direction).step s.axis.direction := h.onward_eq hb s.axis
      _ = s.origin.offset s.axis.direction 2 := htwo
  constructor
  · rintro ⟨hs, ho, hk⟩
    rw [hstep hs] at ho
    rw [hthird ho] at hk
    exact ⟨hs, ho, hk⟩
  · rintro ⟨hs, ho, hk⟩
    exact ⟨hs, (hstep hs).symm ▸ ho, (hthird ho).symm ▸ hk⟩

end Board

/-! ### The order of reading -/

/-- Along an axis one cell comes before the other: row by row, or column by column. -/
def Axis.Earlier : Axis → Cell → Cell → Prop
  | .horizontal, c, d => c.y < d.y ∨ c.y = d.y ∧ c.x < d.x
  | .vertical, c, d => c.x < d.x ∨ c.x = d.x ∧ c.y < d.y

/-- Single properties in the order of their words, then nouns in the order of the alphabet. -/
def Complement.Earlier : Complement → Complement → Prop
  | .properties ps, .properties qs => ∃ p q : Property, ps = {p} ∧ qs = {q} ∧ p.word < q.word
  | .properties _, .noun _ => True
  | .noun _, .properties _ => False
  | .noun m, .noun n => m < n

/-- Horizontal sentences come first; then the cell decides where they begin, then the subject, then
what is said of it. -/
def Sentence.Earlier (s t : Sentence) : Prop :=
  s.axis = .horizontal ∧ t.axis = .vertical ∨
  s.axis = t.axis ∧ (s.axis.Earlier s.origin t.origin ∨
    s.origin = t.origin ∧ (s.subject < t.subject ∨
      s.subject = t.subject ∧ s.complement.Earlier t.complement))

theorem Axis.Earlier.asymm {d : Cell} (h : axis.Earlier c d) : ¬ axis.Earlier d c := by
  cases axis <;> simp only [Axis.Earlier] at h ⊢ <;> omega

theorem Axis.Earlier.ne {d : Cell} (h : axis.Earlier c d) : c ≠ d := by
  rintro rfl
  exact h.asymm h

theorem Complement.Earlier.asymm {k l : Complement} (h : k.Earlier l) : ¬ l.Earlier k := by
  intro h'
  cases k with
  | properties ps =>
    cases l with
    | properties qs =>
      obtain ⟨p, q, rfl, rfl, hlt⟩ := h
      obtain ⟨q', p', hq, hp, hgt⟩ := h'
      rw [PropertySet.singleton_inj] at hp hq
      subst hp hq
      exact lt_asymm hlt hgt
    | noun => exact h'
  | noun m =>
    cases l with
    | properties => exact h
    | noun n => exact lt_asymm (α := String) h h'

theorem Sentence.Earlier.asymm (h : s.Earlier t) : ¬ t.Earlier s := by
  intro h'
  rcases h with ⟨hs, ht⟩ | ⟨haxis, h⟩
  · rcases h' with ⟨ht', -⟩ | ⟨haxis, -⟩
    · rw [ht] at ht'; cases ht'
    · rw [hs, ht] at haxis; cases haxis
  · rcases h' with ⟨ht, hs⟩ | ⟨-, h'⟩
    · rw [hs, ht] at haxis; cases haxis
    · rw [← haxis] at h'
      rcases h with h | ⟨horigin, h⟩
      · rcases h' with h' | ⟨horigin, -⟩
        · exact h.asymm h'
        · exact h.ne horigin.symm
      · rcases h' with h' | ⟨-, h'⟩
        · exact h'.ne horigin.symm
        · rcases h with h | ⟨hsubject, h⟩
          · rcases h' with h' | ⟨hsubject, -⟩
            · exact lt_asymm h h'
            · exact h.ne hsubject.symm
          · rcases h' with h' | ⟨-, h'⟩
            · exact h'.ne hsubject.symm
            · exact h.asymm h'

/-! ### Words -/

namespace WordMap

theorem wordsAt_place {d : Cell} {w : WordTile} : (m.place d w).wordsAt c =
    if d = c then (m.wordsAt d).insert w.text w.role else m.wordsAt c := by
  simp [place, wordsAt, ExtTreeMap.getD_insert]

/-- The part that a tile on the board would play if the word in question were its text. -/
def claim (b : Board) (c : Cell) (word : String) (e : EntityId × WordTile) : Option Role :=
  if b.cell? e.1 = some c ∧ e.2.text = word then some e.2.role else none

theorem claim_eq_some_iff {e : EntityId × WordTile} : claim b c word e = some r ↔
    b.cell? e.1 = some c ∧ e.2 = ⟨word, r⟩ := by
  rw [claim, WordTile.ext_iff, ← and_assoc]
  split
  · rename_i h
    rw [and_iff_right h, Option.some.injEq]
  · rename_i h
    exact iff_of_false (by simp) fun h' => h h'.1

/-- Puts a tile onto the cell where it stands. -/
def lay (b : Board) (m : WordMap) (e : EntityId × WordTile) : WordMap :=
  match b.cell? e.1 with
  | some c => m.place c e.2
  | none => m

theorem ofBoard_eq (b : Board) : ofBoard b = b.words.toList.foldl (lay b) ∅ :=
  ExtTreeMap.foldl_eq_foldl_toList

theorem role?_lay {e : EntityId × WordTile} :
    (lay b m e).role? c word = (claim b c word e).or (m.role? c word) := by
  rw [lay, claim]
  cases b.cell? e.1 with
  | none => simp
  | some d =>
    simp only [role?, wordsAt_place, Option.some.injEq]
    by_cases hd : d = c
    · subst hd
      by_cases hw : e.2.text = word <;> simp [hw, ExtTreeMap.getElem?_insert]
    · simp [hd]

/-- Of the tiles that claim a part for the word, the last one decides. -/
theorem role?_ofBoard_eq (b : Board) (c : Cell) (word : String) :
    (ofBoard b).role? c word = (b.words.toList.filterMap (claim b c word)).getLast? := by
  have hnone : (∅ : WordMap).role? c word = none := by simp [role?, wordsAt]
  rw [ofBoard_eq, Table.look_foldl (fun m : WordMap => m.role? c word) (claim b c word)
    (fun _ _ => role?_lay), hnone, Option.or_none]

theorem mem_toList_words {id : EntityId} {w : WordTile} :
    (id, w) ∈ b.words.toList ↔ b.word? id = some w :=
  ExtTreeMap.mem_toList_iff_getElem?_eq_some

theorem toList_words_ascending (b : Board) : b.words.toList.Pairwise fun e e' => e.1 < e'.1 :=
  ExtTreeMap.ordered_keys_toList.imp Nat.compare_eq_lt.mp

/-- Tiles are put onto the map in ascending order, so the last one has the highest number. -/
theorem role?_ofBoard : (ofBoard b).role? c word = some r ↔ b.Plays c word r := by
  rw [role?_ofBoard_eq, Table.getLast?_filterMap_eq_some_iff (fun _ _ => Nat.lt_asymm)
    (toList_words_ascending b)]
  constructor
  · rintro ⟨⟨id, w⟩, hmem, hclaim, hlast⟩
    obtain ⟨hc, rfl⟩ := claim_eq_some_iff.mp hclaim
    refine ⟨id, mem_toList_words.mp hmem, hc, fun k w hw htext hk => ?_⟩
    have hclaim' : claim b c word (k, w) = some w.role :=
      claim_eq_some_iff.mpr ⟨hk, by rw [← htext]⟩
    rcases hlast (k, w) (mem_toList_words.mpr hw) w.role hclaim' with heq | hlt
    · exact (Prod.mk.inj heq).1.le
    · exact hlt.le
  · rintro ⟨id, hw, hc, hlast⟩
    refine ⟨(id, ⟨word, r⟩), mem_toList_words.mpr hw, claim_eq_some_iff.mpr ⟨hc, rfl⟩, ?_⟩
    rintro ⟨k, w⟩ hmem r' hclaim
    obtain ⟨hk, rfl⟩ := claim_eq_some_iff.mp hclaim
    have hwk := mem_toList_words.mp hmem
    rcases (hlast k _ hwk rfl hk).eq_or_lt with rfl | hlt
    · exact .inl (Prod.ext rfl (Option.some.inj (hwk.symm.trans hw)))
    · exact .inr hlt

theorem mem_wordsWith : word ∈ m.wordsWith c r ↔ m.role? c word = some r := by
  rw [wordsWith, Table.mem_keys_filter, role?]
  simp

theorem wordsWith_ascending (m : WordMap) (c : Cell) (r : Role) :
    (m.wordsWith c r).Pairwise (· < ·) :=
  ExtTreeMap.ordered_keys.imp compare_lt_iff_lt.mp

/-! ### What is found -/

theorem mem_complements {k : Complement} : k ∈ m.complements c ↔
    (∃ word p, m.role? c word = some .property ∧ Property.ofWord? word = some p ∧
      k = .properties {p}) ∨
    ∃ name, m.role? c name = some .subject ∧ k = .noun name := by
  simp only [complements, List.mem_append, List.mem_filterMap, List.mem_map, mem_wordsWith,
    Option.map_eq_some_iff]
  constructor
  · rintro (⟨word, hw, p, hp, rfl⟩ | ⟨name, hn, rfl⟩)
    · exact .inl ⟨word, p, hw, hp, rfl⟩
    · exact .inr ⟨name, hn, rfl⟩
  · rintro (⟨word, p, hw, hp, rfl⟩ | ⟨name, hn, rfl⟩)
    · exact .inl ⟨word, hw, p, hp, rfl⟩
    · exact .inr ⟨name, hn, rfl⟩

theorem mem_complements_ofBoard {k : Complement} :
    k ∈ (ofBoard b).complements c ↔ b.Offers c k := by
  simp only [mem_complements, role?_ofBoard]
  constructor
  · rintro (⟨word, p, hw, hp, rfl⟩ | ⟨name, hn, rfl⟩)
    · exact .property hw hp
    · exact .noun hn
  · rintro (⟨hw, hp⟩ | hn)
    · exact .inl ⟨_, _, hw, hp, rfl⟩
    · exact .inr ⟨_, hn, rfl⟩

theorem mem_sentencesAt : s ∈ m.sentencesAt operator axis c ↔ s.axis = axis ∧ s.origin = c ∧
    m.role? (c.onward axis.direction 1) operator = some .operator ∧
    m.role? c s.subject = some .subject ∧
    s.complement ∈ m.complements (c.onward axis.direction 2) := by
  rw [sentencesAt]
  split
  · rename_i hop
    simp only [List.mem_flatMap, List.mem_map, mem_wordsWith]
    constructor
    · rintro ⟨subject, hs, k, hk, rfl⟩
      exact ⟨rfl, rfl, hop, hs, hk⟩
    · rintro ⟨rfl, rfl, -, hs, hk⟩
      exact ⟨_, hs, _, hk, rfl⟩
  · rename_i hop
    exact iff_of_false List.not_mem_nil fun h => hop h.2.2.1

theorem mem_byRows : c ∈ m.byRows ↔ c ∈ m := by
  simp only [byRows, List.mem_map, ExtTreeSet.mem_toList, ExtTreeSet.mem_ofList,
    List.contains_iff_mem, ExtTreeMap.mem_keys]
  constructor
  · rintro ⟨_, ⟨d, hd, rfl⟩, rfl⟩
    rwa [Cell.transpose_transpose]
  · intro h
    exact ⟨c.transpose, ⟨c, h, rfl⟩, Cell.transpose_transpose c⟩

/-- Where a word plays a part the map has an entry, so that the scan comes by. -/
theorem mem_of_role? (h : m.role? c word = some r) : c ∈ m := by
  by_contra hc
  rw [role?, wordsAt, ExtTreeMap.getD_eq_fallback hc] at h
  simp at h

theorem mem_sentences :
    s ∈ m.sentences operator ↔ s ∈ m.sentencesAt operator s.axis s.origin := by
  simp only [sentences, List.mem_append, List.mem_flatMap]
  constructor
  · rintro (⟨c, -, h⟩ | ⟨c, -, h⟩) <;>
    · obtain ⟨haxis, horigin, -⟩ := mem_sentencesAt.mp h
      rwa [haxis, horigin]
  · intro h
    have horigin : s.origin ∈ m := mem_of_role? (mem_sentencesAt.mp h).2.2.2.1
    cases haxis : s.axis with
    | horizontal => exact .inl ⟨s.origin, mem_byRows.mpr horigin, haxis ▸ h⟩
    | vertical => exact .inr ⟨s.origin, ExtTreeMap.mem_keys.mpr horigin, haxis ▸ h⟩

theorem mem_sentences_ofBoard : s ∈ (ofBoard b).sentences operator ↔ b.Spells operator s := by
  simp only [mem_sentences, mem_sentencesAt, role?_ofBoard, mem_complements_ofBoard, true_and]
  exact ⟨fun ⟨ho, hs, hk⟩ => ⟨hs, ho, hk⟩, fun ⟨hs, ho, hk⟩ => ⟨ho, hs, hk⟩⟩

/-! ### In which order -/

theorem complements_pairwise (m : WordMap) (c : Cell) :
    (m.complements c).Pairwise Complement.Earlier := by
  rw [complements, List.pairwise_append, List.pairwise_filterMap, List.pairwise_map]
  refine ⟨(m.wordsWith_ascending c .property).imp ?_, m.wordsWith_ascending c .subject, ?_⟩
  · intro v w hvw k hk l hl
    obtain ⟨p, hp, rfl⟩ := Option.map_eq_some_iff.mp hk
    obtain ⟨q, hq, rfl⟩ := Option.map_eq_some_iff.mp hl
    rw [← Property.word_of_ofWord? hp, ← Property.word_of_ofWord? hq] at hvw
    exact ⟨p, q, rfl, rfl, hvw⟩
  · intro k hk l hl
    obtain ⟨w, -, hw⟩ := List.mem_filterMap.mp hk
    obtain ⟨p, -, rfl⟩ := Option.map_eq_some_iff.mp hw
    obtain ⟨name, -, rfl⟩ := List.mem_map.mp hl
    trivial

theorem sentencesAt_pairwise (m : WordMap) (operator : String) (axis : Axis) (c : Cell) :
    (m.sentencesAt operator axis c).Pairwise Sentence.Earlier := by
  rw [sentencesAt]
  split
  · rw [List.pairwise_flatMap]
    refine ⟨fun subject _ => ?_, (m.wordsWith_ascending c .subject).imp ?_⟩
    · rw [List.pairwise_map]
      exact (m.complements_pairwise _).imp fun h => .inr ⟨rfl, .inr ⟨rfl, .inr ⟨rfl, h⟩⟩⟩
    · intro v w hvw s hs t ht
      obtain ⟨k, -, rfl⟩ := List.mem_map.mp hs
      obtain ⟨l, -, rfl⟩ := List.mem_map.mp ht
      exact .inr ⟨rfl, .inr ⟨rfl, .inl hvw⟩⟩
  · exact .nil

theorem byRows_pairwise (m : WordMap) : m.byRows.Pairwise Axis.horizontal.Earlier := by
  rw [byRows, List.pairwise_map]
  exact ExtTreeSet.ordered_toList.imp Cell.compare_eq_lt_iff.mp

theorem byColumns_pairwise (m : WordMap) : m.byColumns.Pairwise Axis.vertical.Earlier :=
  ExtTreeMap.ordered_keys.imp Cell.compare_eq_lt_iff.mp

/-- Cells that are scanned in the order of their axis give their sentences in order. -/
theorem flatMap_sentencesAt_pairwise {cells : List Cell} (h : cells.Pairwise axis.Earlier) :
    (cells.flatMap (m.sentencesAt operator axis)).Pairwise Sentence.Earlier := by
  rw [List.pairwise_flatMap]
  refine ⟨fun c _ => m.sentencesAt_pairwise operator axis c, h.imp ?_⟩
  intro c d hcd s hs t ht
  obtain ⟨rfl, rfl, -⟩ := mem_sentencesAt.mp hs
  obtain ⟨haxis, rfl, -⟩ := mem_sentencesAt.mp ht
  exact .inr ⟨haxis.symm, .inl hcd⟩

theorem sentences_pairwise (m : WordMap) (operator : String) :
    (m.sentences operator).Pairwise Sentence.Earlier := by
  rw [sentences, List.pairwise_append]
  refine ⟨flatMap_sentencesAt_pairwise m.byRows_pairwise,
    flatMap_sentencesAt_pairwise m.byColumns_pairwise, fun s hs t ht => ?_⟩
  obtain ⟨_, -, hs⟩ := List.mem_flatMap.mp hs
  obtain ⟨_, -, ht⟩ := List.mem_flatMap.mp ht
  exact .inl ⟨(mem_sentencesAt.mp hs).1, (mem_sentencesAt.mp ht).1⟩

/-- The sentences that are read off a board are those it spells, each once, in the order of reading;
and they are the same on every board with the same words in the same cells. -/
theorem sentences_of_board (b : Board) (operator : String) :
    let sentences := (ofBoard b).sentences operator
    (∀ s, s ∈ sentences ↔ b.Spells operator s) ∧ sentences.Nodup ∧
      sentences.Pairwise Sentence.Earlier ∧
      ∀ b', b.SameWords b' → (ofBoard b').sentences operator = sentences := by
  intro sentences
  have hpairwise : sentences.Pairwise Sentence.Earlier := sentences_pairwise _ _
  refine ⟨fun _ => mem_sentences_ofBoard, hpairwise.imp fun h => ?_, hpairwise, fun b' h => ?_⟩
  · rintro rfl
    exact h.asymm h
  · rw [ofBoard_of_sameWords h]

/-- A sentence that begins in the last column but one goes on in the first. -/
example :
    let tiles : List (WordTile × Cell) := [(⟨"Wall", .subject⟩, ⟨2147483646, 0⟩),
      (⟨"Is", .operator⟩, ⟨2147483647, 0⟩), (⟨"Stop", .property⟩, ⟨-2147483648, 0⟩)]
    let b := tiles.foldl (fun (b : Board) (w, c) =>
      (b.spawn.attach .word b.nextId w).attach .cell b.nextId c) ∅
    (ofBoard b).sentences "Is" =
      [⟨"Wall", .properties {.stop}, .horizontal, ⟨2147483646, 0⟩⟩] := by
  decide +kernel

end WordMap

end WordTiles
