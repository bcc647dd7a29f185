import Std.Data.ExtTreeMap

/-! Renamings: a table that says what things of a name turn into, and the walk along it. The walk
goes from name to name and ends at a name without an entry or at the first name it meets again. -/

namespace WordTiles

open Std

abbrev Renaming := ExtTreeMap String String

namespace Renaming

theorem size_erase_lt {t : Renaming} {name next : String} (h : t[name]? = some next) :
    (t.erase name).size < t.size := by
  have hm : name ∈ t := ExtTreeMap.mem_iff_isSome_getElem?.mpr (by simp [h])
  have h0 : t.size ≠ 0 := fun h0 => by
    simp [ExtTreeMap.eq_empty_iff_size_eq_zero.mpr h0] at hm
  rw [ExtTreeMap.size_erase, if_pos (ExtTreeMap.contains_iff_mem.mpr hm)]
  omega

/-- The end of the walk from a name. An entry that has been used is taken away, so that a name met
again has none. -/
def follow (t : Renaming) (name : String) : String :=
  match _h : t[name]? with
  | none => name
  | some next => follow (t.erase name) next
termination_by t.size
decreasing_by exact size_erase_lt ‹_›

theorem follow_of_none {t : Renaming} {name : String} (h : t[name]? = none) :
    t.follow name = name := by
  rw [follow]; split <;> simp_all

theorem follow_of_some {t : Renaming} {name next : String} (h : t[name]? = some next) :
    t.follow name = follow (t.erase name) next := by
  rw [follow]; split <;> simp_all

end Renaming

end WordTiles
