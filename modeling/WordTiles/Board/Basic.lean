import Std.Data.ExtTreeMap
import Std.Data.ExtTreeSet
import WordTiles.Grid.Direction
import WordTiles.Word.Role

/-! The board: the live entities and what each of them carries, one column for each kind of
component. A board is a plain value, so keeping a board is all it takes to come back to it. The
columns are independent of the live set: an entity that is not live may still carry a component. -/

namespace WordTiles

open Std

/-- Entities are numbered in the order of their creation. -/
abbrev EntityId := Nat

/-- What a program does that asks for the number after the last one. -/
inductive Overflow where
  /-- It stops. -/
  | stops
  /-- It begins again with zero. -/
  | wraps
deriving DecidableEq, Repr

namespace EntityId

/-- The last number that has 32 bits. -/
def last : EntityId := 0xffffffff

def next? (id : EntityId) (o : Overflow) : Option EntityId :=
  if id < last then some (id + 1)
  else match o with
    | .stops => none
    | .wraps => some 0

/-- The entity as it is shown to a player. -/
def text (id : EntityId) : String := "Entity(" ++ toString id ++ ")"

end EntityId

/-- The kinds of component. An entity carries at most one component of each kind. -/
inductive Kind where
  | cell | name | word
deriving DecidableEq, Repr, Inhabited

namespace Kind

/-- What a component of each kind holds. -/
@[reducible] def Value : Kind → Type
  | cell => Cell
  | name => String
  | word => WordTile

/-- Cells and names can be replaced and edited; a word tile stays what it is. -/
def editable : Kind → Bool
  | cell => true
  | name => true
  | word => false

end Kind

@[ext] structure Board where
  nextId : EntityId := 0
  live : ExtTreeSet EntityId := ∅
  cells : ExtTreeMap EntityId Cell := ∅
  names : ExtTreeMap EntityId String := ∅
  words : ExtTreeMap EntityId WordTile := ∅
deriving DecidableEq

namespace Board

instance : EmptyCollection Board := ⟨{}⟩

instance : Inhabited Board := ⟨∅⟩

/-! ### Entities -/

/-- Creates an entity without components. Its number is `nextId` of the board before. Here the numbers have
no end; a level with more tiles than there are numbers of 32 bits is left out. -/
def spawn (b : Board) : Board :=
  { b with nextId := b.nextId + 1, live := b.live.insert b.nextId }

/-- Creates an entity where numbers have 32 bits. Nothing is changed where there is no next number. -/
def create? (b : Board) (o : Overflow) : Option Board :=
  (b.nextId.next? o).map fun next => { b.spawn with nextId := next }

/-- Removes a live entity with all it carries. Where the entity is not live nothing changes. -/
def destroy (b : Board) (id : EntityId) : Board :=
  if id ∈ b.live then
    { b with
      live := b.live.erase id
      cells := b.cells.erase id
      names := b.names.erase id
      words := b.words.erase id }
  else b

def destroyAll (b : Board) (ids : List EntityId) : Board := ids.foldl destroy b

/-! ### Components -/

def column (b : Board) : (k : Kind) → ExtTreeMap EntityId k.Value
  | .cell => b.cells
  | .name => b.names
  | .word => b.words

def setColumn (b : Board) : (k : Kind) → ExtTreeMap EntityId k.Value → Board
  | .cell, column => { b with cells := column }
  | .name, column => { b with names := column }
  | .word, column => { b with words := column }

/-- The entities that carry a component of the kind, in ascending order. -/
def carriers (b : Board) (k : Kind) : List EntityId := (b.column k).keys

/-- Only a live entity is given a component, and a word tile only if it has none yet. -/
def canAttach (b : Board) (k : Kind) (id : EntityId) : Bool :=
  id ∈ b.live ∧ (k.editable ∨ ¬ id ∈ b.column k)

/-- Gives an entity a component, in place of any other of the kind. -/
def attach (b : Board) (k : Kind) (id : EntityId) (v : k.Value) : Board :=
  if b.canAttach k id then b.setColumn k ((b.column k).insert id v) else b

/-- An edit asks for a component that is there, not for a live entity. -/
def canEdit (b : Board) (k : Kind) (id : EntityId) : Bool :=
  k.editable ∧ id ∈ b.column k

def edit (b : Board) (k : Kind) (id : EntityId) (f : k.Value → k.Value) : Board :=
  if b.canEdit k id then b.setColumn k ((b.column k).modify id f) else b

/-! ### Queries -/

def cell? (b : Board) (id : EntityId) : Option Cell := b.cells[id]?

def name? (b : Board) (id : EntityId) : Option String := b.names[id]?

def word? (b : Board) (id : EntityId) : Option WordTile := b.words[id]?

def isWord (b : Board) (id : EntityId) : Bool := id ∈ b.words

/-- The entities in a cell, in ascending order. -/
def occupants (b : Board) (c : Cell) : List EntityId :=
  (b.cells.filter fun _ c' => c' = c).keys

/-- Puts an entity that stands somewhere onto another cell. -/
def relocate (b : Board) (id : EntityId) (c : Cell) : Board :=
  { b with cells := b.cells.modify id fun _ => c }

end Board

end WordTiles
