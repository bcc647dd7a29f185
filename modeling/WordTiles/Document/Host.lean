import WordTiles.Document.Saved

/-! How settings and levels are saved, and what a game tells its host. -/

namespace WordTiles.Codec

def blueprint : Codec Blueprint where
  write b := .record [
    ("name", text.write b.name),
    ("sprite", text.write b.sprite),
    ("is_word", bool.write b.isWord)]
  read? d := do
    let fields ← d.fields? ["name", "sprite", "is_word"]
    return {
      name := ← text.field? fields "name"
      sprite := ← text.field? fields "sprite"
      isWord := ← bool.field? fields "is_word" }

def legend : Codec Legend where
  write l := .record [("entries", (map charKey blueprint).write l)]
  read? d := do
    let fields ← d.fields? ["entries"]
    (map charKey blueprint).field? fields "entries"

/-- A setting that is not given has its usual value. -/
def settings : Codec Settings where
  write s := .record [
    ("hard_blockers", (list text).write s.blockers),
    ("operator_word", text.write s.operator),
    ("history_limit", (option size).write s.historyLimit),
    ("blueprints", legend.write s.legend)]
  read? d := do
    let usual : Settings := {}
    let fields ← d.someFields? ["hard_blockers", "operator_word", "history_limit", "blueprints"]
    return {
      blockers := ← (list text).fieldOr? usual.blockers fields "hard_blockers"
      operator := ← text.fieldOr? usual.operator fields "operator_word"
      historyLimit := ← (option size).fieldOr? usual.historyLimit fields "history_limit"
      legend := ← legend.fieldOr? usual.legend fields "blueprints" }

def layer : Codec (List Row) := list (list char)

/-- A level is saved as it is, whether or not its layers have the right size. -/
def level : Codec Level where
  write l := .record [
    ("name", text.write l.name),
    ("width", size.write l.width),
    ("height", size.write l.height),
    ("gameplay", layer.write l.things),
    ("rules", layer.write l.words)]
  read? d := do
    let fields ← d.fields? ["name", "width", "height", "gameplay", "rules"]
    return {
      name := ← text.field? fields "name"
      width := ← size.field? fields "width"
      height := ← size.field? fields "height"
      things := ← layer.field? fields "gameplay"
      words := ← layer.field? fields "rules" }

/-- An event about an entity. -/
private def writeAbout (name : String) (id : EntityId) (c : Cell) : Document :=
  .record [(name, .record [("entity", entityId.write id), ("position", cell.write c)])]

private def readAbout (event : EntityId → Cell → Event) (fields : String → Option Document) :
    Option Event :=
  return event (← entityId.field? fields "entity") (← cell.field? fields "position")

def event : Codec Event where
  write
    | .levelLoaded name => .record [("LevelLoaded", .record [("name", text.write name)])]
    | .destroyed id c => writeAbout "EntityDestroyed" id c
    | .becameYou id c => writeAbout "BecameYou" id c
    | .becameWin id c => writeAbout "BecameWin" id c
    | .victory => .text "Victory"
    | .defeat => .text "Defeat"
  read? d :=
    match d.variant? with
    | some ("Victory", none) => some .victory
    | some ("Victory", some .null) => some .victory
    | some ("Defeat", none) => some .defeat
    | some ("Defeat", some .null) => some .defeat
    | some (name, some (.record fields)) =>
      let fields := fun name => fields.lookup name
      match name with
      | "LevelLoaded" => (text.field? fields "name").map .levelLoaded
      | "EntityDestroyed" => readAbout .destroyed fields
      | "BecameYou" => readAbout .becameYou fields
      | "BecameWin" => readAbout .becameWin fields
      | _ => none
    | _ => none

def sprite : Codec Sprite where
  write s := .record [
    ("entity", entityId.write s.id),
    ("position", cell.write s.cell),
    ("name", text.write s.name),
    ("is_word", bool.write s.isWord)]
  read? d := do
    let fields ← d.fields? ["entity", "position", "name", "is_word"]
    return {
      id := ← entityId.field? fields "entity"
      cell := ← cell.field? fields "position"
      name := ← text.field? fields "name"
      isWord := ← bool.field? fields "is_word" }

end WordTiles.Codec
