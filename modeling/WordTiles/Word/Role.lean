import WordTiles.Word.Property

/-! Word tiles: the text a tile shows and the part it plays in a sentence. -/

namespace WordTiles

/-- The part a word plays: what the sentence is about, the linking word, or a property. -/
inductive Role where
  | subject | operator | property
deriving DecidableEq, Repr, Inhabited

/-- The part a word plays when `operator` links sentences. The linking word comes first, even if it
also names a property. -/
def Role.classify (word operator : String) : Role :=
  if word = operator then .operator
  else if (Property.ofWord? word).isSome then .property
  else .subject

/-- What makes an entity a word tile. -/
@[ext] structure WordTile where
  text : String
  role : Role
deriving DecidableEq, Repr, Inhabited

end WordTiles
