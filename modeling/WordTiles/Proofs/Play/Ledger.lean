import Mathlib.Data.List.DropRight
import WordTiles.Proofs.Play.Requests

/-! The history against a ledger of turns, for calls in any order. A history keeps the board of an open turn
in one list with those of the turns that are closed, and a flag tells them apart. The ledger keeps the open
turn by itself and the closed ones in the order in which they were closed. Whatever is called, and whatever
happens to the board between the calls, the two go back to the same boards. -/

namespace WordTiles

/-- What can be called while a history is kept. The board and the rules in force may be replaced by any
others at any time. -/
inductive HistoryCall where
  | replace (b : Board) (r : Rulebook)
  | beginLevel (b : Board)
  | openTurn
  | closeTurn (moved : Bool)
  | undo
  | restart

/-- Calls one after the other. -/
def callAll {σ : Type} (call : σ → HistoryCall → σ × Bool) (s : σ) (cs : List HistoryCall) : σ :=
  cs.foldl (fun s c => (call s c).1) s

/-- The game after a call, and whether it has gone back to a board that was kept. -/
def Game.call (g : Game) : HistoryCall → Game × Bool
  | .replace b r => ({ g with board := b, rules := r }, false)
  | .beginLevel b => ({ g with history := g.history.beginLevel b }, false)
  | .openTurn => ({ g with history := g.history.openTurn g.board }, false)
  | .closeTurn moved => ({ g with history := g.history.closeTurn moved }, false)
  | .undo => (g.undo?.getD g, g.undo?.isSome)
  | .restart => (g.restart?.getD g, g.restart?.isSome)

/-- A board with its rules, and the turns that led to it. -/
structure Ledger where
  board : Board
  rules : Rulebook
  /-- The boards before the turns that were closed, the oldest first. -/
  turns : List Board := []
  /-- The board before the turn that is open. -/
  opened : Option Board := none
  start : Option Board := none
  limit : Option Nat

namespace Ledger

/-- A ledger without any turn, before any level is loaded. -/
def fresh (s : Settings) : Ledger :=
  { board := ∅, rules := { operator := s.operator }, limit := s.historyLimit }

/-- Drops the oldest turns until no more than the limit are left. -/
def keep : Option Nat → List Board → List Board
  | none, turns => turns
  | some n, turns => turns.rtake n

/-- Puts a board in place of the current one and reads the rules there. -/
def goTo (k : Ledger) (b : Board) : Ledger := { k with board := b, rules := k.rules.update b }

/-- A turn that is opened takes the place of one that is still open. A turn that is closed is noted if
something moved. The latest turn can be taken back unless one is open, and the start of a level, if there
is one, is gone back to with no turn left. -/
def call (k : Ledger) : HistoryCall → Ledger × Bool
  | .replace b r => ({ k with board := b, rules := r }, false)
  | .beginLevel b => ({ k with turns := [], opened := none, start := some b }, false)
  | .openTurn => ({ k with opened := some k.board }, false)
  | .closeTurn moved => match k.opened with
    | none => (k, false)
    | some b =>
      let turns := if moved then keep k.limit (k.turns ++ [b]) else k.turns
      ({ k with turns, opened := none }, false)
  | .undo => match k.opened, k.turns.getLast? with
    | none, some b => ({ k.goTo b with turns := k.turns.dropLast }, true)
    | _, _ => (k, false)
  | .restart => match k.start with
    | none => (k, false)
    | some b => ({ k.goTo b with turns := [], opened := none }, true)

variable {k : Ledger} {b : Board} {turns : List Board} {moved : Bool} {n : Nat}

theorem reverse_rtake : (turns.rtake n).reverse = turns.reverse.take n := by
  rw [List.rtake_eq_reverse_take_reverse, List.reverse_reverse]

theorem length_rtake_le : (turns.rtake n).length ≤ n := by
  rw [← List.length_reverse, reverse_rtake]
  exact List.length_take_le n _

theorem call_closeTurn_of_none (ho : k.opened = none) :
    k.call (.closeTurn moved) = (k, false) := by
  simp only [call, ho]

theorem call_closeTurn_of_some (ho : k.opened = some b) : k.call (.closeTurn moved) =
    ({ k with
      turns := if moved then keep k.limit (k.turns ++ [b]) else k.turns
      opened := none }, false) := by
  simp only [call, ho]

theorem call_undo_of_some (ho : k.opened = some b) : k.call .undo = (k, false) := by
  simp only [call, ho]

theorem call_undo_of_nil (ht : k.turns = []) : k.call .undo = (k, false) := by
  rw [call, ht, List.getLast?_nil]
  cases k.opened <;> rfl

theorem call_undo_of_concat (ho : k.opened = none) (ht : k.turns = turns ++ [b]) :
    k.call .undo = ({ k.goTo b with turns, opened := none }, true) := by
  simp only [call, goTo, ho, ht, List.getLast?_concat, List.dropLast_concat]

theorem limit_call (k : Ledger) (c : HistoryCall) : (k.call c).1.limit = k.limit := by
  cases c with
  | replace | beginLevel | openTurn => rfl
  | closeTurn | undo | restart =>
    rw [call]
    split <;> rfl

theorem limit_callAll (k : Ledger) (cs : List HistoryCall) :
    (callAll call k cs).limit = k.limit := by
  induction cs generalizing k with
  | nil => rfl
  | cons c cs ih => exact (ih (k.call c).1).trans (limit_call k c)

end Ledger

namespace Game

variable {g : Game} {k : Ledger} {b : Board}

/-- The game stands where its ledger does, and its history keeps the boards of the ledger, the latest
first. -/
structure Matches (g : Game) (k : Ledger) : Prop where
  board : g.board = k.board
  rules : g.rules = k.rules
  past : g.history.past = k.opened.toList ++ k.turns.reverse
  isOpen : g.history.isOpen = k.opened.isSome
  start : g.history.start = k.start
  limit : g.history.limit = k.limit
  length_le : ∀ n ∈ k.limit, k.turns.length ≤ n

theorem matches_fresh (s : Settings) : (fresh s).Matches (.fresh s) where
  board := rfl
  rules := rfl
  past := rfl
  isOpen := rfl
  start := rfl
  limit := rfl
  length_le n _ := Nat.zero_le n

namespace Matches

theorem committed (h : g.Matches k) : g.history.committed = k.turns.reverse := by
  rw [History.committed, h.isOpen, h.past]
  cases k.opened <;> rfl

theorem undoDepth (h : g.Matches k) : g.undoDepth = k.turns.length := by
  rw [Game.undoDepth, History.depth, h.committed, List.length_reverse]

/-- Where a turn is open there is a board for it. -/
theorem length_past (h : g.Matches k) :
    g.history.past.length = g.undoDepth + g.history.isOpen.toNat := by
  rw [h.undoDepth, h.isOpen, h.past, List.length_append, List.length_reverse, Nat.add_comm]
  cases k.opened <;> rfl

/-! ### One call -/

theorem beginLevel (h : g.Matches k) : ({ g with history := g.history.beginLevel b }).Matches
    { k with turns := [], opened := none, start := some b } where
  board := h.board
  rules := h.rules
  past := rfl
  isOpen := rfl
  start := rfl
  limit := h.limit
  length_le n _ := Nat.zero_le n

theorem openTurn (h : g.Matches k) : ({ g with history := g.history.openTurn g.board }).Matches
    { k with opened := some k.board } where
  board := h.board
  rules := h.rules
  past := congrArg₂ List.cons h.board h.committed
  isOpen := rfl
  start := h.start
  limit := h.limit
  length_le := h.length_le

/-- The latest boards of the history are those that are left when the oldest are dropped. -/
theorem trim (h : g.Matches k) :
    g.history.trim (b :: k.turns.reverse) = (Ledger.keep k.limit (k.turns ++ [b])).reverse := by
  have hreverse : b :: k.turns.reverse = (k.turns ++ [b]).reverse := by
    rw [List.reverse_append]
    rfl
  rw [History.trim, h.limit, hreverse]
  cases k.limit with
  | none => rfl
  | some n => exact Ledger.reverse_rtake.symm

theorem closeTurn (h : g.Matches k) (moved : Bool) :
    (g.call (.closeTurn moved)).2 = (k.call (.closeTurn moved)).2 ∧
      (g.call (.closeTurn moved)).1.Matches (k.call (.closeTurn moved)).1 := by
  have hpast := h.past
  rw [Game.call, History.closeTurn, h.isOpen]
  cases ho : k.opened with
  | none =>
    rw [Ledger.call_closeTurn_of_none ho]
    exact ⟨rfl, h⟩
  | some b =>
    rw [ho, Option.toList_some, List.singleton_append] at hpast
    rw [Ledger.call_closeTurn_of_some ho, hpast]
    refine ⟨rfl, h.board, h.rules, ?_, rfl, h.start, h.limit, ?_⟩
    · cases moved with
      | false => rfl
      | true => exact h.trim
    · intro n hn
      cases moved with
      | false => exact h.length_le n hn
      | true =>
        have hkeep : Ledger.keep k.limit (k.turns ++ [b]) = (k.turns ++ [b]).rtake n := by
          rw [Option.mem_def.mp hn, Ledger.keep]
        exact hkeep ▸ Ledger.length_rtake_le

/-- Both go to a board with the turns before it, and read the rules there. -/
theorem resume (h : g.Matches k) {past : History} {turns : List Board}
    (hpast : past = { g.history with past := turns.reverse, isOpen := false })
    (hlength : turns.length ≤ k.turns.length) :
    (g.resume (b, past)).Matches { k.goTo b with turns, opened := none } := by
  subst hpast
  exact {
    board := rfl
    rules := congrArg (·.update b) h.rules
    past := rfl
    isOpen := rfl
    start := h.start
    limit := h.limit
    length_le := fun n hn => hlength.trans (h.length_le n hn) }

theorem undo (h : g.Matches k) : (g.call .undo).2 = (k.call .undo).2 ∧
    (g.call .undo).1.Matches (k.call .undo).1 := by
  have hpast := h.past
  have hopen := h.isOpen
  rw [Game.call, Game.undo?, History.undo?]
  cases ho : k.opened with
  | some b =>
    rw [ho, Option.isSome_some] at hopen
    rw [Ledger.call_undo_of_some ho, if_pos hopen]
    exact ⟨rfl, h⟩
  | none =>
    rw [ho, Option.isSome_none] at hopen
    rw [ho, Option.toList_none, List.nil_append] at hpast
    rw [if_neg (Bool.eq_false_iff.mp hopen), hpast]
    rcases List.eq_nil_or_concat' k.turns with ht | ⟨turns, b, ht⟩
    · rw [Ledger.call_undo_of_nil ht, ht]
      exact ⟨rfl, h⟩
    · -- the last turn of the ledger is the first board of the history
      have hlength : turns.length ≤ k.turns.length := by rw [ht, List.length_append]; omega
      rw [Ledger.call_undo_of_concat ho ht, ht, List.reverse_append]
      exact ⟨rfl, h.resume (by rw [← hopen]; rfl) hlength⟩

theorem restart (h : g.Matches k) : (g.call .restart).2 = (k.call .restart).2 ∧
    (g.call .restart).1.Matches (k.call .restart).1 := by
  rw [Game.call, Game.restart?, History.restart?, h.start, Ledger.call]
  cases hs : k.start with
  | none => exact ⟨rfl, h⟩
  | some b =>
    have hstart := h.start.trans hs
    have hnone : ([] : List Board).length ≤ k.turns.length := Nat.zero_le _
    exact ⟨rfl, h.resume (by rw [← hstart]; rfl) hnone⟩

theorem call (h : g.Matches k) (c : HistoryCall) :
    (g.call c).2 = (k.call c).2 ∧ (g.call c).1.Matches (k.call c).1 := by
  cases c with
  | replace b r => exact ⟨rfl, rfl, rfl, h.past, h.isOpen, h.start, h.limit, h.length_le⟩
  | beginLevel b => exact ⟨rfl, h.beginLevel⟩
  | openTurn => exact ⟨rfl, h.openTurn⟩
  | closeTurn moved => exact h.closeTurn moved
  | undo => exact h.undo
  | restart => exact h.restart

theorem callAll (h : g.Matches k) (cs : List HistoryCall) :
    (callAll Game.call g cs).Matches (callAll Ledger.call k cs) := by
  induction cs generalizing g k with
  | nil => exact h
  | cons c cs ih => exact ih (h.call c).2

end Matches

/-- Whatever has been called, in whatever order, the game has the board, the rules and the start of its
ledger, it can take back as many turns as the ledger has noted, never more than the limit, its history
keeps one more board exactly while a turn is open, and the next call will be answered alike. -/
theorem calls_match_ledger (s : Settings) (cs : List HistoryCall) :
    let g := callAll call (fresh s) cs
    let k := callAll Ledger.call (.fresh s) cs
    g.board = k.board ∧ g.rules = k.rules ∧ g.history.start = k.start ∧
    g.history.isOpen = k.opened.isSome ∧ g.undoDepth = k.turns.length ∧
    g.history.past.length = g.undoDepth + g.history.isOpen.toNat ∧
    (∀ n ∈ s.historyLimit, g.undoDepth ≤ n) ∧
    ∀ c, (g.call c).2 = (k.call c).2 := by
  intro g k
  have h : g.Matches k := (matches_fresh s).callAll cs
  refine ⟨h.board, h.rules, h.start, h.isOpen, h.undoDepth, h.length_past, fun n hn => ?_,
    fun c => (h.call c).1⟩
  rw [h.undoDepth]
  exact h.length_le n ((Ledger.limit_callAll (.fresh s) cs).symm ▸ hn)

end Game

end WordTiles
