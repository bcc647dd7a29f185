import WordTiles.Board.Basic

/-! The properties that the rules in force give to names, and through its name to each entity.
A word tile has a name too, but no properties by it. -/

namespace WordTiles

open Std

/-- Names and their properties. A name may be listed with the empty set. -/
abbrev PropertyTable := ExtTreeMap String PropertySet

namespace PropertyTable

/-- The properties of a name; none if it is not listed. -/
def of (t : PropertyTable) (name : String) : PropertySet := t.getD name ∅

/-- Adds properties to those a name already has. -/
def give (t : PropertyTable) (name : String) (ps : PropertySet) : PropertyTable :=
  t.insert name (t.of name ∪ ps)

/-- The listed names that have all of `ps`, in ascending order. -/
def namesWith (t : PropertyTable) (ps : PropertySet) : List String :=
  (t.filter fun _ qs => ps ⊆ qs).keys

/-- The properties of an entity: those of its name, and none for a word tile. -/
def ofEntity (t : PropertyTable) (b : Board) (id : EntityId) : PropertySet :=
  if b.isWord id then ∅ else ((b.name? id).map t.of).getD ∅

/-- The entities that have a property, in ascending order. -/
def entitiesWith (t : PropertyTable) (b : Board) (p : Property) : List EntityId :=
  b.names.keys.filter fun id => p ∈ t.ofEntity b id

@[simp] theorem of_empty (name : String) : of ∅ name = ∅ := by
  simp [of]

theorem of_give (t : PropertyTable) (name other : String) (ps : PropertySet) :
    (t.give name ps).of other = if name = other then t.of name ∪ ps else t.of other := by
  simp [give, of, ExtTreeMap.getD_insert]

theorem mem_ofEntity {t : PropertyTable} {b : Board} {p : Property} {id : EntityId} :
    p ∈ t.ofEntity b id ↔ ¬ b.isWord id ∧ ∃ name, b.name? id = some name ∧ p ∈ t.of name := by
  rw [ofEntity]
  by_cases hw : b.isWord id
  · simp [hw]
  · cases hn : b.name? id <;> simp [hw]

theorem mem_entitiesWith {t : PropertyTable} {b : Board} {p : Property} {id : EntityId} :
    id ∈ t.entitiesWith b p ↔ p ∈ t.ofEntity b id := by
  simp only [entitiesWith, List.mem_filter, decide_eq_true_eq, and_iff_right_iff_imp]
  intro h
  rw [ExtTreeMap.mem_keys, ExtTreeMap.mem_iff_isSome_getElem?]
  cases hn : b.name? id with
  | none => simp [ofEntity, hn] at h
  | some name => exact Option.isSome_of_eq_some hn

theorem entitiesWith_ascending (t : PropertyTable) (b : Board) (p : Property) :
    (t.entitiesWith b p).Pairwise (· < ·) :=
  (ExtTreeMap.ordered_keys.imp Nat.compare_eq_lt.mp).filter _

end PropertyTable

end WordTiles
