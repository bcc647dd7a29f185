import WordTiles.Proofs.Board.Fate
import WordTiles.Proofs.Rules.Reading
import WordTiles.Proofs.Table

/-! Renaming done once is done. A walk along a renaming ends at a name from which it would not go on:
one without an entry, or one on a cycle, where it comes back to where it began. So the new names are
final, and renaming the same board again changes nothing. -/

namespace WordTiles

open Std

/-! ### Walks -/

namespace Renaming

variable {t : Renaming} {name other next : String}

/-- A walk that does not end at a name without an entry has not come by it. -/
theorem follow_erase_of_ne (h : follow (t.erase other) name ≠ other) :
    t.follow name = follow (t.erase other) name := by
  fun_induction follow t name with
  | case1 t name hname =>
    rw [follow_of_none]
    rw [Table.getElem?_erase_eq, hname, ite_self]
  | case2 t name next hname ih =>
    by_cases hother : other = name
    · subst hother
      exact absurd (follow_of_none (Table.getElem?_erase_eq.trans (if_pos rfl))) h
    · have hstep : (t.erase other)[name]? = some next := by
        rwa [Table.getElem?_erase_eq, if_neg hother]
      rw [follow_of_some hstep, Table.erase_comm] at h ⊢
      exact ih h

/-- A walk from where a walk has ended goes nowhere. Either it ended where it began, so that it goes
round a cycle, or it has left its first name for good. -/
theorem follow_follow (t : Renaming) (name : String) :
    t.follow (t.follow name) = t.follow name := by
  fun_induction follow t name with
  | case1 t name hname => exact follow_of_none hname
  | case2 t name next hname ih =>
    by_cases hcycle : follow (t.erase name) next = name
    · rw [hcycle, follow_of_some hname, hcycle]
    · rw [follow_erase_of_ne (by rwa [ih]), ih]

end Renaming

/-! ### Boards -/

namespace Rulebook

variable {r : Rulebook} {b : Board} {id : EntityId} {name : String}

/-- No name on the board turns into another. -/
def Settles (r : Rulebook) (b : Board) : Prop :=
  ∀ id name, b.name? id = some name → r.newName b id name = name

theorem newName_newName : r.newName b id (r.newName b id name) = r.newName b id name := by
  rw [newName]
  split
  · rfl
  · rename_i hw
    rw [newName, if_neg hw, Renaming.follow_follow]

theorem name?_rename_eq : (r.rename b).name? id =
    if b.isWord id then b.name? id else (b.name? id).map r.renames.follow := by
  rw [name?_rename]
  cases b.name? id with
  | none => simp
  | some name =>
    rw [Option.map_some, newName]
    split <;> rfl

theorem settles_rename (r : Rulebook) (b : Board) : r.Settles (r.rename b) := by
  intro id name hn
  rw [name?_rename, Option.map_eq_some_iff] at hn
  obtain ⟨old, -, rfl⟩ := hn
  exact newName_newName

theorem mem_renamed :
    id ∈ r.renamed b ↔ ∃ name, b.name? id = some name ∧ r.newName b id name ≠ name := by
  rw [renamed, Table.mem_keys_filter]
  simp only [decide_eq_true_eq, Board.name?]

/-- The renamed are those whose name is another afterwards. -/
theorem mem_renamed_iff_ne : id ∈ r.renamed b ↔ (r.rename b).name? id ≠ b.name? id := by
  rw [mem_renamed, name?_rename]
  cases b.name? id with
  | none => simp
  | some name => simp

theorem renamed_ascending (r : Rulebook) (b : Board) : (r.renamed b).Pairwise (· < ·) :=
  ExtTreeMap.ordered_keys.imp Nat.compare_eq_lt.mp

namespace Settles

theorem renamed_eq_nil (h : r.Settles b) : r.renamed b = [] := by
  rw [List.eq_nil_iff_forall_not_mem]
  intro id hid
  obtain ⟨name, hn, hne⟩ := mem_renamed.mp hid
  exact hne (h id name hn)

theorem rename_eq_self (h : r.Settles b) : r.rename b = b := by
  have hnames : b.names.map (r.newName b) = b.names := by
    apply ExtTreeMap.ext_getElem?
    intro id
    change (r.rename b).name? id = b.name? id
    by_contra hne
    have hid := mem_renamed_iff_ne.mpr hne
    rw [h.renamed_eq_nil] at hid
    exact List.not_mem_nil hid
  rw [rename, hnames]

/-- Destroying things that are no word tiles leaves the names of the others. -/
theorem judge (h : r.Settles b) : r.Settles (r.judge b).board := by
  intro id name hn
  have hname : b.name? id = some name := by
    rcases Board.carries_destroyAll b _ id with hgone | ⟨hkept, -⟩
    · rw [Rulebook.judge, hgone.name] at hn
      cases hn
    · exact hkept.name.symm.trans hn
  rw [newName, (r.sameWords_judge b).isWord]
  exact h id name hname

end Settles

end Rulebook

end WordTiles
