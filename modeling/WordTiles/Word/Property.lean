/-! The six properties that a rule can give to a name, and sets of them. A set is a byte: the lowest
six bits stand for the properties in their fixed order, the two others have no name but are kept. -/

namespace WordTiles

inductive Property where
  | you | win | stop | push | sink | kill
deriving DecidableEq, Repr, Inhabited

namespace Property

def all : List Property := [you, win, stop, push, sink, kill]

/-- The word on a tile that names the property; case matters. -/
def word : Property → String
  | you => "You"
  | win => "Win"
  | stop => "Stop"
  | push => "Push"
  | sink => "Sink"
  | kill => "Kill"

/-- The place of the property in the fixed order. -/
def index : Property → Nat
  | you => 0
  | win => 1
  | stop => 2
  | push => 3
  | sink => 4
  | kill => 5

/-- The property that a word names. -/
def ofWord? (w : String) : Option Property := all.find? fun p => p.word == w

@[simp] theorem mem_all (p : Property) : p ∈ all := by cases p <;> decide

@[simp] theorem ofWord?_word (p : Property) : ofWord? p.word = some p := by cases p <;> decide

theorem word_of_ofWord? {w : String} {p : Property} (h : ofWord? w = some p) : p.word = w := by
  simpa using List.find?_some h

end Property

/-- A set of properties. -/
@[ext] structure PropertySet where
  bits : BitVec 8
deriving DecidableEq, Repr, Inhabited

namespace PropertySet

instance : EmptyCollection PropertySet := ⟨⟨0⟩⟩

instance : Union PropertySet := ⟨fun s t => ⟨s.bits ||| t.bits⟩⟩

instance : Singleton Property PropertySet := ⟨fun p => ⟨BitVec.twoPow 8 p.index⟩⟩

instance : Membership Property PropertySet := ⟨fun s p => s.bits.getLsbD p.index = true⟩

instance (p : Property) (s : PropertySet) : Decidable (p ∈ s) :=
  inferInstanceAs (Decidable (s.bits.getLsbD p.index = true))

/-- Whether every bit of `t` is in `s`. -/
instance : HasSubset PropertySet := ⟨fun t s => s.bits &&& t.bits = t.bits⟩

instance (s t : PropertySet) : Decidable (t ⊆ s) :=
  inferInstanceAs (Decidable (s.bits &&& t.bits = t.bits))

/-- Whether the two sets share a bit. -/
def meets (s t : PropertySet) : Bool := s.bits &&& t.bits != 0

def ofList (ps : List Property) : PropertySet := ps.foldl (fun s p => s ∪ {p}) ∅

/-- The properties in the set, in the fixed order. -/
def toList (s : PropertySet) : List Property := Property.all.filter (· ∈ s)

/-- The set as it is shown to a player. -/
def text (s : PropertySet) : String :=
  "\x7b" ++ ", ".intercalate (s.toList.map Property.word) ++ "\x7d"

theorem mem_def {p : Property} {s : PropertySet} : p ∈ s ↔ s.bits.getLsbD p.index = true := Iff.rfl

@[simp] theorem not_mem_empty (p : Property) : ¬ p ∈ (∅ : PropertySet) := by
  cases p <;> decide

@[simp] theorem mem_union {p : Property} {s t : PropertySet} : p ∈ s ∪ t ↔ p ∈ s ∨ p ∈ t := by
  change (s.bits ||| t.bits).getLsbD p.index = true ↔ _
  simp [mem_def]

@[simp] theorem mem_singleton {p q : Property} : p ∈ ({q} : PropertySet) ↔ p = q := by
  cases p <;> cases q <;> decide

@[simp] theorem mem_toList {p : Property} {s : PropertySet} : p ∈ s.toList ↔ p ∈ s := by
  simp [toList]

end PropertySet

end WordTiles
