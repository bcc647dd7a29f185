import WordTiles.Board.Lemmas
import WordTiles.Rules.Rulebook

/-! How a turn ends. Every YOU thing that shares its cell with another thing that kills is destroyed,
all of them judged on the board as it was; then the game is lost without YOU, won where YOU and WIN
share a cell, and goes on otherwise. Word tiles neither kill nor win. -/

namespace WordTiles

inductive Outcome where
  | win | lose | playing
deriving DecidableEq, Repr, Inhabited

/-- The outcome, the board that is left, and what was destroyed, with its cell. -/
structure Verdict where
  outcome : Outcome
  board : Board
  destroyed : List (EntityId × Cell)
deriving DecidableEq

namespace Rulebook

/-- Whether some entity in the cell, other than those `excepted`, has the property. -/
def anyIn (r : Rulebook) (b : Board) (c : Cell) (p : Property) (excepted : EntityId → Bool) : Bool :=
  (b.occupants c).any fun id => ¬ excepted id ∧ p ∈ r.properties.ofEntity b id

/-- The YOU things that stand with another thing that kills, in ascending order. -/
def doomed (r : Rulebook) (b : Board) : List (EntityId × Cell) :=
  (r.youEntities b).filterMap fun id => (b.cell? id).bind fun c =>
    if r.anyIn b c .kill (· = id) then some (id, c) else none

/-- Whether some YOU thing stands with a thing that wins; it may be that thing itself. -/
def wins (r : Rulebook) (b : Board) : Bool :=
  (r.youEntities b).any fun id => (b.cell? id).any fun c => r.anyIn b c .win fun _ => false

def outcome (r : Rulebook) (b : Board) : Outcome :=
  if (r.youEntities b).isEmpty then .lose
  else if r.wins b then .win
  else .playing

/-- Destroys the doomed and decides on the board that is left. -/
def judge (r : Rulebook) (b : Board) : Verdict :=
  let doomed := r.doomed b
  let left := b.destroyAll (doomed.map Prod.fst)
  { outcome := r.outcome left
    board := left
    destroyed := doomed.filter fun d => d.1 ∈ b.live }

section

variable {r : Rulebook} {b : Board} {id : EntityId} {c : Cell}

theorem anyIn_iff {p : Property} {excepted : EntityId → Bool} : r.anyIn b c p excepted ↔
    ∃ other, b.cell? other = some c ∧ ¬ excepted other ∧ p ∈ r.properties.ofEntity b other := by
  simp only [anyIn, List.any_eq_true, Board.mem_occupants, decide_eq_true_eq]

theorem mem_doomed : (id, c) ∈ r.doomed b ↔ id ∈ r.youEntities b ∧ b.cell? id = some c ∧
    ∃ other, b.cell? other = some c ∧ other ≠ id ∧ .kill ∈ r.properties.ofEntity b other := by
  rw [doomed, List.mem_filterMap]
  simp only [Option.bind_eq_some_iff, Option.ite_none_right_eq_some, Option.some.injEq,
    Prod.mk.injEq, anyIn_iff, decide_eq_true_eq]
  constructor
  · rintro ⟨_, hyou, _, hc, hkill, rfl, rfl⟩
    exact ⟨hyou, hc, hkill⟩
  · rintro ⟨hyou, hc, hkill⟩
    exact ⟨id, hyou, c, hc, hkill, rfl, rfl⟩

theorem wins_iff : r.wins b ↔ ∃ id ∈ r.youEntities b, ∃ c, b.cell? id = some c ∧
    ∃ other, b.cell? other = some c ∧ .win ∈ r.properties.ofEntity b other := by
  simp only [wins, List.any_eq_true, Option.any_eq_true, anyIn_iff, Bool.false_eq_true,
    not_false_eq_true, true_and]

end

end Rulebook

end WordTiles
