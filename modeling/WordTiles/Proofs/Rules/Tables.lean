import WordTiles.Proofs.Rules.Spelling

/-! The tables that a board spells, in closed form. A name has the properties that some sentence gives
to it, all of them together. It turns into what the winner among the sentences that rename it says: one
that is read after all the others. Nothing else is in the tables, and nothing of what was in them
before. -/

namespace WordTiles

open Std

variable {b : Board} {operator name target : String} {s : Sentence} {ss : List Sentence}
  {t : PropertyTable} {r : Renaming}

/-! ### What sentences say -/

/-- The sentence gives these properties to the name. -/
def Sentence.Gives (s : Sentence) (name : String) (ps : PropertySet) : Prop :=
  s.subject = name ∧ s.complement = .properties ps

/-- The sentence turns the name into this one. -/
def Sentence.Renames (s : Sentence) (name target : String) : Prop :=
  s.subject = name ∧ s.complement = .noun target

/-- Among the sentences of a board that rename the name, this one wins: a vertical one before all
horizontal ones, of one axis the one that begins last in the order of that axis, and of those that
begin in one cell the one with the greatest target. -/
structure Board.Wins (b : Board) (operator name target : String) (s : Sentence) : Prop where
  spelled : b.Spells operator s
  renames : s.Renames name target
  vertical : ∀ s' target', b.Spells operator s' → s'.Renames name target' →
    s'.axis = .vertical → s.axis = .vertical
  origin : ∀ s' target', b.Spells operator s' → s'.Renames name target' →
    s'.axis = s.axis → s'.origin = s.origin ∨ s.axis.Earlier s'.origin s.origin
  target : ∀ s' target', b.Spells operator s' → s'.Renames name target' →
    s'.axis = s.axis → s'.origin = s.origin → target' ≤ target

/-! ### Properties add up -/

namespace Rulebook

theorem mem_addProperties :
    name ∈ addProperties t s ↔ (∃ ps, s.Gives name ps) ∨ name ∈ t := by
  cases hs : s.complement with
  | properties ps =>
    simp [addProperties, hs, PropertyTable.give, Sentence.Gives, ExtTreeMap.mem_insert]
  | noun target => simp [addProperties, hs, Sentence.Gives]

theorem getLsbD_of_addProperties {i : Nat} :
    ((addProperties t s).of name).bits.getLsbD i = true ↔
      (∃ ps, s.Gives name ps ∧ ps.bits.getLsbD i = true) ∨
        (t.of name).bits.getLsbD i = true := by
  cases hs : s.complement with
  | properties ps =>
    rw [addProperties, hs, PropertyTable.of_give]
    by_cases hname : s.subject = name
    · subst hname
      rw [if_pos rfl, PropertySet.getLsbD_union, or_comm]
      simp [Sentence.Gives, hs]
    · simp [Sentence.Gives, hname]
  | noun target => simp [addProperties, hs, Sentence.Gives]

theorem mem_foldl_addProperties :
    name ∈ ss.foldl addProperties ∅ ↔ ∃ s ∈ ss, ∃ ps, s.Gives name ps := by
  rw [Table.foldl_iff (P := fun t : PropertyTable => name ∈ t) (f := addProperties)
    (fun _ _ => mem_addProperties), or_iff_left ExtTreeMap.not_mem_empty]

theorem isUnion_foldl_addProperties : ((ss.foldl addProperties ∅).of name).IsUnion
    fun ps => ∃ s ∈ ss, s.Gives name ps := by
  intro i
  rw [Table.foldl_iff (P := fun t : PropertyTable => (t.of name).bits.getLsbD i = true)
    (f := addProperties) (fun _ _ => getLsbD_of_addProperties), PropertyTable.of_empty,
    PropertySet.getLsbD_empty]
  constructor
  · rintro (⟨s, hs, ps, hgives, hi⟩ | h)
    · exact ⟨ps, ⟨s, hs, hgives⟩, hi⟩
    · cases h
  · rintro ⟨ps, ⟨s, hs, hgives⟩, hi⟩
    exact .inl ⟨s, hs, ps, hgives, hi⟩

/-! ### The last renaming holds -/

/-- What the sentence turns the name into. -/
def newNameOf (name : String) (s : Sentence) : Option String :=
  match s.complement with
  | .properties _ => none
  | .noun target => if s.subject = name then some target else none

theorem newNameOf_eq_some_iff : newNameOf name s = some target ↔ s.Renames name target := by
  cases hs : s.complement <;> simp [newNameOf, hs, Sentence.Renames]

theorem getElem?_addRenaming :
    (addRenaming r s)[name]? = (newNameOf name s).or r[name]? := by
  cases hs : s.complement with
  | properties ps => simp [addRenaming, newNameOf, hs]
  | noun target =>
    by_cases hname : s.subject = name <;>
      simp [addRenaming, newNameOf, hs, hname, ExtTreeMap.getElem?_insert]

theorem mem_addRenaming :
    name ∈ addRenaming r s ↔ (∃ target, s.Renames name target) ∨ name ∈ r := by
  cases hs : s.complement with
  | properties ps => simp [addRenaming, hs, Sentence.Renames]
  | noun target => simp [addRenaming, hs, Sentence.Renames, ExtTreeMap.mem_insert]

theorem mem_foldl_addRenaming :
    name ∈ ss.foldl addRenaming ∅ ↔ ∃ s ∈ ss, ∃ target, s.Renames name target := by
  rw [Table.foldl_iff (P := fun r : Renaming => name ∈ r) (f := addRenaming)
    (fun _ _ => mem_addRenaming), or_iff_left ExtTreeMap.not_mem_empty]

theorem getElem?_foldl_addRenaming (hss : ss.Pairwise Sentence.Earlier) :
    (ss.foldl addRenaming ∅)[name]? = some target ↔
      ∃ s ∈ ss, s.Renames name target ∧
        ∀ s' ∈ ss, ∀ target', s'.Renames name target' → s' = s ∨ s'.Earlier s := by
  have hlook := Table.look_foldl (fun r : Renaming => r[name]?) (newNameOf name)
    (fun _ _ => getElem?_addRenaming) ss ∅
  rw [hlook, ExtTreeMap.getElem?_empty, Option.or_none,
    Table.getLast?_filterMap_eq_some_iff (fun _ _ h => h.asymm) hss]
  simp only [newNameOf_eq_some_iff]

end Rulebook

/-- Two sentences that rename the same thing are read in the order of their axes, their cells and their
targets. -/
theorem Sentence.Renames.earlier_iff {s' : Sentence} {target' : String}
    (hs : s.Renames name target) (hs' : s'.Renames name target') :
    s'.Earlier s ↔ s'.axis = .horizontal ∧ s.axis = .vertical ∨ s'.axis = s.axis ∧
      (s'.axis.Earlier s'.origin s.origin ∨ s'.origin = s.origin ∧ target' < target) := by
  obtain ⟨rfl, hs⟩ := hs
  obtain ⟨hname, hs'⟩ := hs'
  rw [Sentence.Earlier, hname, hs, hs', Complement.Earlier]
  simp

/-- The winner is the sentence that is read after all others that rename the name. -/
theorem Board.wins_iff : b.Wins operator name target s ↔
    b.Spells operator s ∧ s.Renames name target ∧
      ∀ s', b.Spells operator s' → ∀ target', s'.Renames name target' → s' = s ∨ s'.Earlier s := by
  constructor
  · intro h
    refine ⟨h.spelled, h.renames, fun s' hs' target' hr' => ?_⟩
    rw [Sentence.Renames.earlier_iff h.renames hr']
    by_cases haxis : s'.axis = s.axis
    · rcases h.origin s' target' hs' hr' haxis with horigin | hearlier
      · rcases (h.target s' target' hs' hr' haxis horigin).eq_or_lt with rfl | hlt
        · obtain ⟨hsubject, hcomplement⟩ := h.renames
          left
          rw [Sentence.ext_iff, hsubject, hcomplement]
          exact ⟨hr'.1, hr'.2, haxis, horigin⟩
        · exact .inr (.inr ⟨haxis, .inr ⟨horigin, hlt⟩⟩)
      · rw [← haxis] at hearlier
        exact .inr (.inr ⟨haxis, .inl hearlier⟩)
    · cases ht : s'.axis with
      | horizontal =>
        cases hs : s.axis with
        | horizontal => exact absurd (ht.trans hs.symm) haxis
        | vertical => exact .inr (.inl ⟨rfl, rfl⟩)
      | vertical => exact absurd (ht.trans (h.vertical s' target' hs' hr' ht).symm) haxis
  · rintro ⟨hs, hr, hall⟩
    have hlast : ∀ s' target', b.Spells operator s' → s'.Renames name target' → s' = s ∨
        s'.axis = .horizontal ∧ s.axis = .vertical ∨ s'.axis = s.axis ∧
          (s'.axis.Earlier s'.origin s.origin ∨ s'.origin = s.origin ∧ target' < target) :=
      fun s' target' hs' hr' => (hall s' hs' target' hr').imp_right (hr.earlier_iff hr').mp
    refine ⟨hs, hr, fun s' target' hs' hr' ht => ?_, fun s' target' hs' hr' haxis => ?_,
      fun s' target' hs' hr' haxis horigin => ?_⟩
    · rcases hlast s' target' hs' hr' with rfl | ⟨ht', -⟩ | ⟨haxis, -⟩
      · exact ht
      · rw [ht] at ht'; cases ht'
      · exact haxis ▸ ht
    · rcases hlast s' target' hs' hr' with rfl | ⟨ht, hs⟩ | ⟨-, hearlier | ⟨horigin, -⟩⟩
      · exact .inl rfl
      · rw [ht, hs] at haxis; cases haxis
      · exact .inr (haxis ▸ hearlier)
      · exact .inl horigin
    · rcases hlast s' target' hs' hr' with rfl | ⟨ht, hs⟩ | ⟨-, hearlier | ⟨-, hlt⟩⟩
      · exact (Complement.noun.inj (hr'.2.symm.trans hr.2)).le
      · rw [ht, hs] at haxis; cases haxis
      · exact absurd horigin hearlier.ne
      · exact hlt.le

/-! ### The tables of a board -/

/-- The rules that are read off a board, whatever rules were in force: a name is listed with properties
exactly if some sentence gives it any, and has all that are given to it; it turns into another exactly if
some sentence says so, and into the one that the winner says. -/
theorem Rulebook.tables_of_board (r : Rulebook) (b : Board) :
    let tables := r.update b
    (∀ name, name ∈ tables.properties ↔ ∃ s, b.Spells r.operator s ∧ ∃ ps, s.Gives name ps) ∧
    (∀ name, (tables.properties.of name).IsUnion
      fun ps => ∃ s, b.Spells r.operator s ∧ s.Gives name ps) ∧
    (∀ name, ¬ name ∈ tables.properties → tables.properties.of name = ∅) ∧
    (∀ name, name ∈ tables.renames ↔
      ∃ s, b.Spells r.operator s ∧ ∃ target, s.Renames name target) ∧
    (∀ name target, tables.renames[name]? = some target ↔
      ∃ s, b.Wins r.operator name target s) ∧
    tables = ({ operator := r.operator } : Rulebook).update b := by
  intro tables
  have hproperties : tables.properties =
      ((WordMap.ofBoard b).sentences r.operator).foldl addProperties ∅ := rfl
  have hrenames : tables.renames =
      ((WordMap.ofBoard b).sentences r.operator).foldl addRenaming ∅ := rfl
  refine ⟨fun name => ?_, fun name => ?_, fun name h => ExtTreeMap.getD_eq_fallback h,
    fun name => ?_, fun name target => ?_, rfl⟩
  · simp only [hproperties, mem_foldl_addProperties, WordMap.mem_sentences_ofBoard]
  · rw [hproperties]
    simp only [← WordMap.mem_sentences_ofBoard]
    exact isUnion_foldl_addProperties
  · simp only [hrenames, mem_foldl_addRenaming, WordMap.mem_sentences_ofBoard]
  · simp only [hrenames, getElem?_foldl_addRenaming (WordMap.sentences_pairwise _ _),
      WordMap.mem_sentences_ofBoard, Board.wins_iff]

end WordTiles
