import WordTiles.Rules.PropertyTable
import WordTiles.Rules.Renaming
import WordTiles.Rules.Sentence

/-! The rules in force. They are read off the board as a whole, so a rule ends when its sentence is
broken. Properties from several sentences add up; of two renamings of one name the one that is read
later holds. -/

namespace WordTiles

open Std

structure Rulebook where
  /-- The linking word. -/
  operator : String
  properties : PropertyTable := ∅
  renames : Renaming := ∅
  sentences : List Sentence := []
deriving DecidableEq

namespace Rulebook

/-- What a sentence adds to the properties. -/
def addProperties (t : PropertyTable) (s : Sentence) : PropertyTable :=
  match s.complement with
  | .properties ps => t.give s.subject ps
  | .noun _ => t

/-- What a sentence adds to the renaming. -/
def addRenaming (t : Renaming) (s : Sentence) : Renaming :=
  match s.complement with
  | .properties _ => t
  | .noun name => t.insert s.subject name

/-- The rules that a list of sentences spells. -/
def ofSentences (operator : String) (sentences : List Sentence) : Rulebook where
  operator := operator
  properties := sentences.foldl addProperties ∅
  renames := sentences.foldl addRenaming ∅
  sentences := sentences

/-- The rules that stand on a board. -/
def ofBoard (operator : String) (b : Board) : Rulebook :=
  ofSentences operator ((WordMap.ofBoard b).sentences operator)

/-- Reads the rules anew; of the old ones only the linking word counts. -/
def update (r : Rulebook) (b : Board) : Rulebook := ofBoard r.operator b

def youEntities (r : Rulebook) (b : Board) : List EntityId := r.properties.entitiesWith b .you

def winEntities (r : Rulebook) (b : Board) : List EntityId := r.properties.entitiesWith b .win

/-- The name that an entity turns into. Word tiles keep theirs. -/
def newName (r : Rulebook) (b : Board) (id : EntityId) (name : String) : String :=
  if b.isWord id then name else r.renames.follow name

/-- The entities whose name changes, in ascending order. -/
def renamed (r : Rulebook) (b : Board) : List EntityId :=
  (b.names.filter fun id name => r.newName b id name ≠ name).keys

/-- Renames every thing on the board. -/
def rename (r : Rulebook) (b : Board) : Board :=
  { b with names := b.names.map (r.newName b) }

end Rulebook

end WordTiles
