import Mathlib.Data.List.Forall2

/-! Lists that agree element by element, and reading a list that way: it succeeds exactly if every
element can be read. -/

namespace WordTiles.Elementwise

variable {α β : Type} {R : α → β → Prop} {f : β → Option α} {as : List α} {bs : List β} {a : α}
  {b : β}

theorem exists_right (h : List.Forall₂ R as bs) (ha : a ∈ as) : ∃ b ∈ bs, R a b := by
  induction h with
  | nil => exact absurd ha List.not_mem_nil
  | cons hab _ ih =>
    rcases List.mem_cons.mp ha with rfl | ha
    · exact ⟨_, List.mem_cons_self, hab⟩
    · obtain ⟨b, hb, hr⟩ := ih ha
      exact ⟨b, List.mem_cons_of_mem _ hb, hr⟩

theorem mapM_eq_some_iff : bs.mapM f = some as ↔ List.Forall₂ (fun a b => f b = some a) as bs := by
  induction bs generalizing as with
  | nil => simp [eq_comm]
  | cons b bs ih =>
    simp only [List.mapM_cons, Option.bind_eq_bind, Option.bind_eq_some_iff, Option.pure_def,
      Option.some.injEq, ih, List.forall₂_cons_right_iff]
    constructor
    · rintro ⟨a, ha, as, has, rfl⟩
      exact ⟨a, as, ha, has, rfl⟩
    · rintro ⟨a, as, ha, has, rfl⟩
      exact ⟨a, ha, as, has, rfl⟩

theorem exists_of_mem_read (h : bs.mapM f = some as) (ha : a ∈ as) : ∃ b ∈ bs, f b = some a :=
  exists_right (mapM_eq_some_iff.mp h) ha

theorem exists_of_mem_source (h : bs.mapM f = some as) (hb : b ∈ bs) : ∃ a ∈ as, f b = some a :=
  exists_right (mapM_eq_some_iff.mp h).flip hb

end WordTiles.Elementwise
