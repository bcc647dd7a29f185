import WordTiles.Document.Codec
import WordTiles.Play.Game

/-! The names by which choices are saved. -/

namespace WordTiles

def Direction.label : Direction → String
  | up => "Up"
  | down => "Down"
  | left => "Left"
  | right => "Right"

def Role.label : Role → String
  | subject => "Subject"
  | operator => "Operator"
  | property => "Property"

def Role.all : List Role := [subject, operator, property]

def Axis.label : Axis → String
  | horizontal => "Horizontal"
  | vertical => "Vertical"

def Axis.all : List Axis := [horizontal, vertical]

def Action.label : Action → String
  | move d => "Move" ++ d.label
  | undo => "Undo"
  | restart => "Restart"

def Outcome.label : Outcome → String
  | win => "Win"
  | lose => "Lose"
  | playing => "Continue"

def Outcome.all : List Outcome := [win, lose, playing]

def TurnResult.label : TurnResult → String
  | carriedOn => "Continue"
  | moved => "Moved"
  | nothingMoved => "NoOp"
  | won => "Win"
  | lost => "Lose"

def TurnResult.all : List TurnResult := [carriedOn, moved, nothingMoved, won, lost]

namespace Codec

def direction : Codec Direction := choice Direction.all Direction.label

def role : Codec Role := choice Role.all Role.label

def axis : Codec Axis := choice Axis.all Axis.label

def action : Codec Action := choice Action.all Action.label

def outcome : Codec Outcome := choice Outcome.all Outcome.label

def turnResult : Codec TurnResult := choice TurnResult.all TurnResult.label

end Codec

end WordTiles
