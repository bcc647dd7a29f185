/-! Documents: the values that saved games and settings are made of. -/

namespace WordTiles

inductive Document where
  | null
  | bool (b : Bool)
  | int (n : Int)
  /-- A number written with a point or an exponent. It is no integer even if its value is one, and as
  nothing that is saved here reads it, its value is not kept. -/
  | decimal
  | text (s : String)
  | list (ds : List Document)
  | record (fields : List (String × Document))
deriving Inhabited

namespace Document

/-- The fields of a record by name. A list that gives all the fields in order will do for one. -/
def fields? (names : List String) : Document → Option (String → Option Document)
  | record fields => some fun name => fields.lookup name
  | list ds =>
    if ds.length = names.length then some fun name => (names.zip ds).lookup name else none
  | _ => none

/-- As `fields?`, for a record with a value to fall back on for each field. The list may end early. -/
def someFields? (names : List String) : Document → Option (String → Option Document)
  | record fields => some fun name => fields.lookup name
  | list ds =>
    if ds.length ≤ names.length then some fun name => (names.zip ds).lookup name else none
  | _ => none

/-- A named alternative and what it holds: a text alone, or a record with a single field. -/
def variant? : Document → Option (String × Option Document)
  | text name => some (name, none)
  | record [(name, d)] => some (name, some d)
  | _ => none

end Document

end WordTiles
