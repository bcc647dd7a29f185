import WordTiles.Proofs.Play.Boards
import WordTiles.Proofs.Rules.Renamed

/-! The names on the boards of a game. Every board that a game keeps has been through a renaming by the
rules it spells itself, so no name on it turns into another by them. Going back to such a board brings
its names and its rules together again, and there is nothing to rename. -/

namespace WordTiles

variable {operator : String} {b b' : Board}

/-- No name on the board turns into another by the rules that the board spells. -/
def Board.IsNamed (operator : String) (b : Board) : Prop :=
  (Rulebook.ofBoard operator b).Settles b

/-- What is renamed and then judged by the rules of a board still spells these rules. -/
theorem Board.isNamed_of_sameWords (hb : b.SameWords b')
    (h : (Rulebook.ofBoard operator b).Settles b') : b'.IsNamed operator := by
  rwa [IsNamed, Rulebook.ofBoard_of_sameWords hb]

namespace Game

variable {g g' : Game} {l : Level} {s : Settings} {t : Turn}

/-- The linking word in force is this one, and all boards are named by the rules they spell with it. -/
structure HasNamedBoards (operator : String) (g : Game) : Prop where
  operator_eq : g.rules.operator = operator
  boards : g.AllBoards g.bounds (Board.IsNamed operator)

theorem isNamed_empty (operator : String) : Board.IsNamed operator ∅ := by
  intro id name hn
  rw [Board.name?_empty] at hn
  cases hn

theorem hasNamedBoards_fresh (s : Settings) : (fresh s).HasNamedBoards s.operator where
  operator_eq := rfl
  boards := {
    bounds := rfl
    current := isNamed_empty s.operator
    start := fun b hb => by cases hb
    past := fun b hb => absurd hb List.not_mem_nil }

/-- Things are renamed by the rules of the board after the movement; the verdict leaves words and
names as they are. -/
theorem isNamed_conclude : (g.conclude t).1.board.IsNamed g.rules.operator := by
  have hwords := (Rulebook.sameWords_rename (g.rules.update t.board) t.board).trans
    (Rulebook.sameWords_judge (g.rules.update t.board) _)
  have hsettled := (Rulebook.settles_rename (g.rules.update t.board) t.board).judge
  rw [board_conclude]
  exact Board.isNamed_of_sameWords hwords hsettled

theorem isNamed_load (h : g.load l = .ok g') : g'.board.IsNamed g.rules.operator := by
  rw [load_eq_ok h]
  exact Board.isNamed_of_sameWords (Rulebook.sameWords_rename _ _) (Rulebook.settles_rename _ _)

theorem HasNamedBoards.conclude (h : g.HasNamedBoards operator) :
    (g.conclude t).1.HasNamedBoards operator where
  operator_eq := by rw [rules_conclude, Rulebook.operator_update, h.operator_eq]
  boards := by
    rw [bounds_conclude]
    exact h.boards.conclude (h.operator_eq ▸ isNamed_conclude)

/-- A level that has just been loaded is the only board that is kept. -/
theorem HasNamedBoards.load (h : g.HasNamedBoards operator) (hl : g.load l = .ok g') :
    g'.HasNamedBoards operator := by
  have hnamed := isNamed_load hl
  rw [h.operator_eq] at hnamed
  rw [load_eq_ok hl] at hnamed ⊢
  exact ⟨(Rulebook.operator_update _ _).trans h.operator_eq, {
    bounds := rfl
    current := hnamed
    start := fun b hb => Option.some.inj hb ▸ hnamed
    past := fun b hb => absurd hb List.not_mem_nil }⟩

theorem invariant_hasNamedBoards (operator : String) : Invariant (HasNamedBoards operator) where
  keepTurn moved h := ⟨h.operator_eq, h.boards.keepTurn moved⟩
  conclude _ h := h.conclude
  resume h hb := ⟨(Rulebook.operator_update _ _).trans h.operator_eq, h.boards.resume hb⟩
  drain h := ⟨h.operator_eq, h.boards.bounds, h.boards.current, h.boards.start, h.boards.past⟩
  load h hl := h.load hl

/-- Renaming by any rules changes the names of things and nothing else, each to the end of its walk;
the renamed are those whose name has changed, in ascending order; and then nothing is left to rename.
Whatever a host has asked of a game, nothing on its board is left to rename by the rules in force. -/
theorem renamed_once :
    (∀ (r : Rulebook) (b : Board),
      (∃ names, r.rename b = { b with names }) ∧
      (∀ id, (r.rename b).name? id =
        if b.isWord id then b.name? id else (b.name? id).map r.renames.follow) ∧
      (r.renamed b).Pairwise (· < ·) ∧
      (∀ id, id ∈ r.renamed b ↔ (r.rename b).name? id ≠ b.name? id) ∧
      r.renamed (r.rename b) = [] ∧ r.rename (r.rename b) = r.rename b) ∧
    ∀ (s : Settings) (rs : List Request),
      let g := (fresh s).serveAll rs
      g.rules.renamed g.board = [] ∧ g.rules.rename g.board = g.board := by
  constructor
  · intro r b
    have hsettled := r.settles_rename b
    exact ⟨⟨_, rfl⟩, fun _ => Rulebook.name?_rename_eq, r.renamed_ascending b,
      fun _ => Rulebook.mem_renamed_iff_ne, hsettled.renamed_eq_nil, hsettled.rename_eq_self⟩
  · intro s rs g
    have hset : g.HasSettings s := (invariant_hasSettings s).serveAll (hasSettings_fresh s) rs
    have hcurrent : g.IsCurrent := invariant_isCurrent.serveAll (isCurrent_fresh s) rs
    have hnamed : g.HasNamedBoards s.operator :=
      (invariant_hasNamedBoards s.operator).serveAll (hasNamedBoards_fresh s) rs
    have hsettled : g.rules.Settles g.board := by
      rw [show g.rules = _ from hcurrent, hset.settings]
      exact hnamed.boards.current
    exact ⟨hsettled.renamed_eq_nil, hsettled.rename_eq_self⟩

end Game

end WordTiles
