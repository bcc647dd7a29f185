import WordTiles.Proofs.Table
import WordTiles.Word.Property

/-! Sets of properties bit by bit: those of single properties, and unions. Bits that have no name count
too. -/

namespace WordTiles.PropertySet

variable {s t : PropertySet} {family : PropertySet → Prop} {i : Nat}

theorem singleton_inj {p q : Property} : ({p} : PropertySet) = {q} ↔ p = q := by
  refine ⟨fun h => ?_, fun h => h ▸ rfl⟩
  have hp : p ∈ ({p} : PropertySet) := mem_singleton.mpr rfl
  rwa [h, mem_singleton] at hp

theorem getLsbD_union :
    (s ∪ t).bits.getLsbD i = true ↔ s.bits.getLsbD i = true ∨ t.bits.getLsbD i = true := by
  change (s.bits ||| t.bits).getLsbD i = true ↔ _
  rw [BitVec.getLsbD_or, Bool.or_eq_true]

theorem getLsbD_empty : (∅ : PropertySet).bits.getLsbD i = false :=
  BitVec.getLsbD_zero

theorem getLsbD_singleton {p : Property} :
    ({p} : PropertySet).bits.getLsbD i = true ↔ i = p.index := by
  have hp : p.index < 8 := by cases p <;> decide
  change (BitVec.twoPow 8 p.index).getLsbD i = true ↔ _
  rw [BitVec.getLsbD_twoPow, decide_eq_true hp, Bool.true_and, decide_eq_true_eq, eq_comm]

/-- The set has exactly the bits, with or without a name, that the sets of a family have. -/
def IsUnion (s : PropertySet) (family : PropertySet → Prop) : Prop :=
  ∀ i, s.bits.getLsbD i = true ↔ ∃ t, family t ∧ t.bits.getLsbD i = true

/-- A family has only one union. -/
theorem IsUnion.eq (hs : s.IsUnion family) (ht : t.IsUnion family) : s = t := by
  rw [PropertySet.ext_iff]
  refine BitVec.eq_of_getLsbD_eq fun i _ => Bool.eq_iff_iff.mpr ?_
  rw [hs i, ht i]

theorem isUnion_foldl (ts : List PropertySet) : (ts.foldl (· ∪ ·) ∅).IsUnion (· ∈ ts) := by
  intro i
  rw [Table.foldl_iff (P := fun s : PropertySet => s.bits.getLsbD i = true)
    (Q := fun t => t.bits.getLsbD i = true) (fun _ _ => getLsbD_union.trans or_comm), getLsbD_empty]
  simp

end WordTiles.PropertySet
