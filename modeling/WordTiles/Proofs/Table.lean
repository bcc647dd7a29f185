import Std.Data.ExtTreeMap

/-! Lookups in tables. The keys of a filtered table are those of the entries that are kept, and a table is
built anew from its entries. Where the elements of a list are put into a table one after the other, what
is added stays, and of what is overwritten the last writer decides. -/

namespace WordTiles.Table

open Std

/-! ### Leaving out -/

section Erase

variable {κ α : Type} [Ord κ] [TransOrd κ] [LawfulEqOrd κ] {m : ExtTreeMap κ α} {k k' : κ}

theorem getElem?_erase_eq [DecidableEq κ] :
    (m.erase k)[k']? = if k = k' then none else m[k']? := by
  simp only [ExtTreeMap.getElem?_erase, LawfulEqCmp.compare_eq_iff_eq]

theorem erase_comm (m : ExtTreeMap κ α) (k k' : κ) :
    (m.erase k).erase k' = (m.erase k').erase k := by
  classical
  apply ExtTreeMap.ext_getElem?
  intro j
  simp only [getElem?_erase_eq]
  split <;> split <;> rfl

theorem mem_keys_filter {p : κ → α → Bool} :
    k ∈ (m.filter p).keys ↔ ∃ a, m[k]? = some a ∧ p k a := by
  rw [ExtTreeMap.mem_keys, ExtTreeMap.mem_iff_isSome_getElem?, ExtTreeMap.getElem?_filter',
    Option.isSome_iff_exists]
  simp only [Option.filter_eq_some_iff]

end Erase

/-! ### Building from a list -/

section OfList

variable {κ α : Type} [Ord κ] [TransOrd κ] [LawfulEqOrd κ] {m : ExtTreeMap κ α} {k : κ} {a : α}
  {l : List (κ × α)}

theorem mem_of_getElem?_ofList (h : (ExtTreeMap.ofList l compare)[k]? = some a) : (k, a) ∈ l := by
  let _ : BEq κ := beqOfOrd
  rw [ExtTreeMap.ofList_eq_insertMany_empty, ExtTreeMap.getElem?_insertMany_list,
    ExtTreeMap.getElem?_empty, Option.or_none, List.findSomeRev?_eq_findSome?_reverse] at h
  obtain ⟨⟨k', a'⟩, hmem, hwrite⟩ := List.exists_of_findSome?_eq_some h
  obtain ⟨hk, ha⟩ := Option.ite_none_right_eq_some.mp hwrite
  obtain rfl := Option.some.inj ha
  obtain rfl := LawfulEqCmp.compare_eq_iff_eq.mp hk
  exact List.mem_reverse.mp hmem

/-- A table is built anew from its entries, in any order. -/
theorem ofList_of_perm (h : m.toList.Perm l) : ExtTreeMap.ofList l compare = m := by
  have hdistinct : l.Pairwise fun e e' => ¬ compare e.1 e'.1 = .eq := by
    refine (h.pairwise_iff fun hne heq => hne ?_).mp ExtTreeMap.distinct_keys_toList
    rw [LawfulEqCmp.compare_eq_iff_eq] at heq ⊢
    exact heq.symm
  apply ExtTreeMap.ext_getElem?
  intro k
  cases hk : m[k]? with
  | some a =>
    have hmem : (k, a) ∈ l := h.subset (ExtTreeMap.mem_toList_iff_getElem?_eq_some.mpr hk)
    exact ExtTreeMap.getElem?_ofList_of_mem ReflCmp.compare_self hdistinct hmem
  | none =>
    cases hl : (ExtTreeMap.ofList l compare)[k]? with
    | none => rfl
    | some a =>
      have hmem := h.symm.subset (mem_of_getElem?_ofList hl)
      rw [ExtTreeMap.mem_toList_iff_getElem?_eq_some, hk] at hmem
      cases hmem

end OfList

/-! ### Adding -/

/-- What each element may make true, and leaves true, is true in the end if some element made it so. -/
theorem foldl_iff {σ α : Type} {P : σ → Prop} {Q : α → Prop} {f : σ → α → σ}
    (h : ∀ s a, P (f s a) ↔ Q a ∨ P s) (l : List α) (s : σ) :
    P (l.foldl f s) ↔ (∃ a ∈ l, Q a) ∨ P s := by
  induction l generalizing s with
  | nil => simp
  | cons a l ih =>
    rw [List.foldl_cons, ih, h]
    simp only [List.mem_cons, exists_eq_or_imp]
    rw [or_assoc, or_left_comm]

/-! ### Overwriting -/

section Overwrite

variable {σ α β : Type} {write : α → Option β} {f : σ → α → σ} {R : α → α → Prop} {l : List α}
  {b : β}

/-- What each element leaves alone unless it writes to it is, in the end, what was written last. -/
theorem look_foldl (look : σ → Option β) (write : α → Option β)
    (h : ∀ s a, look (f s a) = (write a).or (look s)) (l : List α) (s : σ) :
    look (l.foldl f s) = (l.filterMap write).getLast?.or (look s) := by
  induction l generalizing s with
  | nil => rfl
  | cons a l ih =>
    rw [List.foldl_cons, ih, h]
    cases hw : write a with
    | none => rw [List.filterMap_cons_none hw, Option.none_or]
    | some b =>
      rw [List.filterMap_cons_some hw, List.getLast?_cons, Option.some_or]
      cases (l.filterMap write).getLast? <;> rfl

theorem exists_of_getLast?_filterMap (h : (l.filterMap write).getLast? = some b) :
    ∃ before a after, l = before ++ a :: after ∧ write a = some b ∧
      ∀ a' ∈ after, write a' = none := by
  obtain ⟨bs, hbs⟩ := List.getLast?_eq_some_iff.mp h
  obtain ⟨before, rest, rfl, -, hrest⟩ := List.filterMap_eq_append_iff.mp hbs
  obtain ⟨skipped, a, after, rfl, -, hwrite, hafter⟩ := List.filterMap_eq_cons_iff.mp hrest
  rw [List.filterMap_eq_nil_iff] at hafter
  exact ⟨before ++ skipped, a, after, (List.append_assoc ..).symm, hwrite, hafter⟩

/-- In a list in order, the last writer is the one that comes after all others. -/
theorem getLast?_filterMap_eq_some_iff (hR : ∀ a a', R a a' → ¬ R a' a) (hl : l.Pairwise R) :
    (l.filterMap write).getLast? = some b ↔
      ∃ a ∈ l, write a = some b ∧ ∀ a' ∈ l, ∀ b', write a' = some b' → a' = a ∨ R a' a := by
  have hmax : ∀ {b}, (l.filterMap write).getLast? = some b →
      ∃ a ∈ l, write a = some b ∧ ∀ a' ∈ l, ∀ b', write a' = some b' → a' = a ∨ R a' a := by
    intro b h
    obtain ⟨before, a, after, rfl, hwrite, hafter⟩ := exists_of_getLast?_filterMap h
    refine ⟨a, by simp, hwrite, fun a' ha' b' hb' => ?_⟩
    rcases List.mem_append.mp ha' with hmem | hmem
    · exact .inr ((List.pairwise_append.mp hl).2.2 a' hmem a List.mem_cons_self)
    · rcases List.mem_cons.mp hmem with rfl | hmem
      · exact .inl rfl
      · rw [hafter a' hmem] at hb'
        cases hb'
  refine ⟨hmax, ?_⟩
  rintro ⟨a, ha, hwrite, hall⟩
  have hne : l.filterMap write ≠ [] := List.ne_nil_of_mem (List.mem_filterMap.mpr ⟨a, ha, hwrite⟩)
  have hlast := List.getLast?_eq_some_getLast hne
  obtain ⟨a₀, ha₀, hwrite₀, hall₀⟩ := hmax hlast
  have heq : a₀ = a := by
    rcases hall₀ a ha b hwrite with h | h
    · exact h.symm
    · exact (hall a₀ ha₀ _ hwrite₀).resolve_right (hR _ _ h)
  rw [hlast, ← hwrite₀, heq, hwrite]

end Overwrite

end WordTiles.Table
