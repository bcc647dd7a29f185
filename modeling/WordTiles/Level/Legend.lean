import WordTiles.Level.Basic

/-! What the characters of a level stand for. -/

namespace WordTiles

open Std

/-- A thing or a word tile, and the picture a host shows for it. -/
@[ext] structure Blueprint where
  name : String
  sprite : String
  isWord : Bool
deriving DecidableEq, Repr, Inhabited

abbrev Legend := ExtTreeMap Char Blueprint

namespace Legend

/-- The lowest character that stands for a thing or a word of this name. -/
def charFor? (l : Legend) (name : String) (isWord : Bool) : Option Char :=
  (l.toList.find? fun (_, b) => b.name = name ∧ b.isWord = isWord).map Prod.fst

/-- Entries that all stand for things, or all for words. -/
def entries (isWord : Bool) (rows : List (Char × String × String)) : List (Char × Blueprint) :=
  rows.map fun (c, name, sprite) => (c, ⟨name, sprite, isWord⟩)

/-- The usual legend: small letters for things, capital letters for words. -/
def standard : Legend :=
  ExtTreeMap.ofList <|
    entries false
    [('h', "Hedge", "hedge.png"),
     ('w', "Wall", "wall.png"),
     ('r', "Rock", "rock.png"),
     ('b', "BigBlue", "bigblue.png"),
     ('f', "Flag", "flag.png"),
     ('l', "Floor", "floor.png"),
     ('g', "Grass", "grass.png"),
     ('a', "Water", "water.png"),
     ('v', "Lava", "lava.png")] ++
    entries true
    [('W', "Wall", "word-wall.png"),
     ('R', "Rock", "word-rock.png"),
     ('F', "Flag", "word-flag.png"),
     ('B', "BigBlue", "word-bigblue.png"),
     ('I', "Is", "word-is.png"),
     ('S', "Stop", "word-stop.png"),
     ('P', "Push", "word-push.png"),
     ('V', "Lava", "word-lava.png"),
     ('A', "Water", "word-water.png"),
     ('Y', "You", "word-you.png"),
     ('X', "Win", "word-win.png"),
     ('N', "Sink", "word-sink.png"),
     ('K', "Kill", "word-kill.png")]

end Legend

end WordTiles
