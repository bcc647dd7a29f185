import Std.Data.ExtTreeMap
import Std.Data.ExtTreeSet
import WordTiles.Document.Basic
import WordTiles.Text.Decimal

/-! Ways to save values as documents and to read them back, built up from those of their parts. -/

namespace WordTiles

open Std

/-- A way to write values of a type, and to read them. -/
structure Codec (α : Type) where
  write : α → Document
  read? : Document → Option α

namespace Codec

variable {α β κ : Type}

/-! ### Scalars -/

/-- Integers from `low` to below `high`. -/
def int (low high : Int) : Codec Int where
  write n := .int n
  read?
    | .int n => if low ≤ n ∧ n < high then some n else none
    | _ => none

/-- Natural numbers below a bound. -/
def nat (bound : Nat) : Codec Nat where
  write n := .int n
  read? d := ((int 0 bound).read? d).map Int.toNat

def bool : Codec Bool where
  write b := .bool b
  read?
    | .bool b => some b
    | _ => none

def text : Codec String where
  write s := .text s
  read?
    | .text s => some s
    | _ => none

/-- The character of a text of one character. -/
def onlyChar? (s : String) : Option Char :=
  match s.toList with
  | [c] => some c
  | _ => none

def char : Codec Char where
  write c := .text c.toString
  read? d := (text.read? d).bind onlyChar?

/-- A choice among values with names. -/
def choice (all : List α) (name : α → String) : Codec α where
  write a := .text (name a)
  read? d :=
    match d.variant? with
    | some (s, none) => all.find? fun a => name a == s
    | some (s, some .null) => all.find? fun a => name a == s
    | _ => none

/-! ### Collections -/

def list (c : Codec α) : Codec (List α) where
  write as := .list (as.map c.write)
  read?
    | .list ds => ds.mapM c.read?
    | _ => none

def option (c : Codec α) : Codec (Option α) where
  write
    | none => .null
    | some a => c.write a
  read?
    | .null => some none
    | d => (c.read? d).map some

/-- A set is saved as a sorted list; the list that is read may be in any order, with repetitions. -/
def set [Ord α] [TransOrd α] (c : Codec α) : Codec (ExtTreeSet α) where
  write s := (list c).write s.toList
  read? d := ((list c).read? d).map fun as => ExtTreeSet.ofList as

/-- A way to write values as the names of fields. -/
structure Key (κ : Type) where
  write : κ → String
  read? : String → Option κ

/-- A map is saved as a record with a field for each entry. -/
def map [Ord κ] [TransOrd κ] (k : Key κ) (c : Codec β) : Codec (ExtTreeMap κ β) where
  write m := .record (m.toList.map fun (key, b) => (k.write key, c.write b))
  read?
    | .record fields =>
      (fields.mapM fun (name, d) => do return (← k.read? name, ← c.read? d)).map fun entries =>
        ExtTreeMap.ofList entries
    | _ => none

def textKey : Key String := ⟨id, some⟩

def charKey : Key Char := ⟨Char.toString, onlyChar?⟩

/-- Numbers below a bound, in decimal without any zeros in front. -/
def natKey (bound : Nat) : Key Nat where
  write n := toString n
  read? s := (Text.readDigits? 10 Text.digitValue? s.toList).filter fun n =>
    n < bound ∧ toString n = s

/-! ### Fields -/

/-- Reads a field that has to be there. -/
def field? (c : Codec α) (fields : String → Option Document) (name : String) : Option α :=
  (fields name).bind c.read?

/-- Reads a field that is null if it is not there. -/
def fieldOrNull? (c : Codec α) (fields : String → Option Document) (name : String) : Option α :=
  c.read? ((fields name).getD .null)

/-- Reads a field that has a value to fall back on. -/
def fieldOr? (c : Codec α) (fallback : α) (fields : String → Option Document) (name : String) :
    Option α :=
  match fields name with
  | none => some fallback
  | some d => c.read? d

end Codec

end WordTiles
