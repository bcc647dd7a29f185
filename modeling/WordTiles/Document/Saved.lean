import WordTiles.Document.Label
import WordTiles.Word.Flags

/-! How a board, its rules and its history are saved. -/

namespace WordTiles.Codec

/-- Coordinates have 32 bits with a sign. -/
def coordinate : Codec Int := int (-0x80000000) 0x80000000

/-- Entity numbers have 32 bits. -/
def idBound : Nat := 0x100000000

def entityId : Codec EntityId := nat idBound

/-- Sizes of levels and limits of histories. -/
def size : Codec Nat := nat Text.sizeBound

def cell : Codec Cell where
  write c := .record [("x", coordinate.write c.x), ("y", coordinate.write c.y)]
  read? d := do
    let fields ← d.fields? ["x", "y"]
    return {
      x := ← coordinate.field? fields "x"
      y := ← coordinate.field? fields "y" }

def bounds : Codec Bounds where
  write b := .record [("width", coordinate.write b.width), ("height", coordinate.write b.height)]
  read? d := do
    let fields ← d.fields? ["width", "height"]
    return {
      width := ← coordinate.field? fields "width"
      height := ← coordinate.field? fields "height" }

def propertySet : Codec PropertySet where
  write s := .text s.flagText
  read? d := (text.read? d).bind PropertySet.ofFlagText?

def wordTile : Codec WordTile where
  write w := .record [("word", text.write w.text), ("role", role.write w.role)]
  read? d := do
    let fields ← d.fields? ["word", "role"]
    return {
      text := ← text.field? fields "word"
      role := ← role.field? fields "role" }

/-- A column of a board, by entity. -/
def column {α : Type} (c : Codec α) : Codec (Std.ExtTreeMap EntityId α) := map (natKey idBound) c

def board : Codec Board where
  write b := .record [
    ("next_id", entityId.write b.nextId),
    ("alive", (set entityId).write b.live),
    ("positions", (column cell).write b.cells),
    ("names", (column text).write b.names),
    ("words", (column wordTile).write b.words)]
  read? d := do
    let fields ← d.fields? ["next_id", "alive", "positions", "names", "words"]
    return {
      nextId := ← entityId.field? fields "next_id"
      live := ← (set entityId).field? fields "alive"
      cells := ← (column cell).field? fields "positions"
      names := ← (column text).field? fields "names"
      words := ← (column wordTile).field? fields "words" }

def complement : Codec Complement where
  write
    | .properties ps => .record [("Property", propertySet.write ps)]
    | .noun name => .record [("Subject", text.write name)]
  read? d :=
    match d.variant? with
    | some ("Property", some d) => (propertySet.read? d).map .properties
    | some ("Subject", some d) => (text.read? d).map .noun
    | _ => none

def sentence : Codec Sentence where
  write s := .record [
    ("subject", text.write s.subject),
    ("complement", complement.write s.complement),
    ("axis", axis.write s.axis),
    ("origin", cell.write s.origin)]
  read? d := do
    let fields ← d.fields? ["subject", "complement", "axis", "origin"]
    return {
      subject := ← text.field? fields "subject"
      complement := ← complement.field? fields "complement"
      axis := ← axis.field? fields "axis"
      origin := ← cell.field? fields "origin" }

def rulebook : Codec Rulebook where
  write r := .record [
    ("operator_word", text.write r.operator),
    ("active", (map textKey propertySet).write r.properties),
    ("transformations", (map textKey text).write r.renames),
    ("sentences", (list sentence).write r.sentences)]
  read? d := do
    let fields ← d.fields? ["operator_word", "active", "transformations", "sentences"]
    return {
      operator := ← text.field? fields "operator_word"
      properties := ← (map textKey propertySet).field? fields "active"
      renames := ← (map textKey text).field? fields "transformations"
      sentences := ← (list sentence).field? fields "sentences" }

/-- The kept boards are saved with the oldest first. -/
def history : Codec History where
  write h := .record [
    ("history", (list board).write h.past.reverse),
    ("pending", bool.write h.isOpen),
    ("initial", (option board).write h.start),
    ("limit", (option size).write h.limit)]
  read? d := do
    let fields ← d.fields? ["history", "pending", "initial", "limit"]
    return {
      past := (← (list board).field? fields "history").reverse
      isOpen := ← bool.field? fields "pending"
      start := ← (option board).fieldOrNull? fields "initial"
      limit := ← (option size).fieldOrNull? fields "limit" }

end WordTiles.Codec
