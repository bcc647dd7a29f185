import WordTiles.Document.Basic
import WordTiles.Proofs.Elementwise

/-! The order of fields. A record means the same in whatever order its fields stand, and what keeps or
hands on a document may put them into an order of its own, at every depth. Lists keep their order. A
record with different names still has each of its fields afterwards. -/

namespace WordTiles.Document

/-- The same document but for the order of the fields in its records. -/
inductive Reordered : Document → Document → Prop
  | null : Reordered .null .null
  | bool (b : Bool) : Reordered (.bool b) (.bool b)
  | int (n : Int) : Reordered (.int n) (.int n)
  | decimal : Reordered .decimal .decimal
  | text (s : String) : Reordered (.text s) (.text s)
  | list {ds es : List Document} : List.Forall₂ Reordered ds es → Reordered (.list ds) (.list es)
  | record {fields others : List (String × Document)} {values : List Document} :
      List.Forall₂ Reordered (fields.map Prod.snd) values →
      ((fields.map Prod.fst).zip values).Perm others → Reordered (.record fields) (.record others)

namespace Reordered

variable {d : Document} {ds es : List Document} {fields others : List (String × Document)}
  {name : String}

theorem refl : (d : Document) → d.Reordered d
  | .null => .null
  | .bool b => .bool b
  | .int n => .int n
  | .decimal => .decimal
  | .text s => .text s
  | .list ds => .list (List.forall₂_same.mpr fun d _ => refl d)
  | .record fields => by
    have hvalues : List.Forall₂ Reordered (fields.map Prod.snd) (fields.map Prod.snd) := by
      refine List.forall₂_same.mpr fun d hd => ?_
      obtain ⟨f, hf, hfd⟩ := List.mem_map.mp hd
      exact hfd ▸ refl f.2
    have hzip : (fields.map Prod.fst).zip (fields.map Prod.snd) = fields := by
      rw [← List.unzip_fst, ← List.unzip_snd, List.zip_unzip]
    exact .record hvalues (.of_eq hzip)
termination_by d => sizeOf d
decreasing_by
  · have hlt := List.sizeOf_lt_of_mem ‹_›
    simp only [Document.list.sizeOf_spec]
    omega
  · have hlt := List.sizeOf_lt_of_mem hf
    have hle : sizeOf f.2 < sizeOf f := by cases f; simp only [Prod.mk.sizeOf_spec]; omega
    simp only [Document.record.sizeOf_spec]
    omega

/-! ### Fields -/

theorem lookup_of_mem (hn : (fields.map Prod.fst).Nodup) (h : (name, d) ∈ fields) :
    fields.lookup name = some d := by
  obtain ⟨before, after, rfl⟩ := List.append_of_mem h
  rw [List.lookup_eq_some_iff]
  refine ⟨before, after, rfl, fun f hf => bne_iff_ne.mpr ?_⟩
  rintro rfl
  rw [List.map_append, List.map_cons] at hn
  exact (List.nodup_append.mp hn).2.2 f.1 (List.mem_map_of_mem hf) f.1 List.mem_cons_self rfl

/-- What a record of others has under a name. -/
def Has (others : List (String × Document)) (name : String) (d : Document) : Prop :=
  ∃ e, others.lookup name = some e ∧ d.Reordered e

theorem forall₂_zip {values : List Document}
    (h : List.Forall₂ Reordered (fields.map Prod.snd) values) :
    List.Forall₂ (fun f g => g.1 = f.1 ∧ f.2.Reordered g.2) fields
      ((fields.map Prod.fst).zip values) := by
  induction fields generalizing values with
  | nil => exact .nil
  | cons f fields ih =>
    obtain ⟨e, rest, hd, hrest, rfl⟩ := List.forall₂_cons_left_iff.mp h
    exact .cons ⟨rfl, hd⟩ (ih hrest)

/-- Reordering a record gives a record with the same fields. -/
theorem of_record (h : (Document.record fields).Reordered d) (hn : (fields.map Prod.fst).Nodup) :
    ∃ others, d = .record others ∧ ∀ name v, (name, v) ∈ fields → Has others name v := by
  cases h with
  | @record _ others values hvalues hperm =>
    have hlength : fields.length = values.length := by rw [← hvalues.length_eq, List.length_map]
    have hnames : ((fields.map Prod.fst).zip values).map Prod.fst = fields.map Prod.fst :=
      List.map_fst_zip (by rw [List.length_map]; exact Nat.le_of_eq hlength)
    have hn' : (others.map Prod.fst).Nodup := by
      rwa [← (hperm.map Prod.fst).nodup_iff, hnames]
    refine ⟨others, rfl, fun name v hv => ?_⟩
    obtain ⟨⟨_, e⟩, he, rfl, hr⟩ := Elementwise.exists_right (forall₂_zip hvalues) hv
    exact ⟨e, lookup_of_mem hn' (hperm.subset he), hr⟩

/-- A record with one field has only one order. -/
theorem variant (h : (Document.record [(name, d)]).Reordered e) :
    ∃ d', e.variant? = some (name, some d') ∧ d.Reordered d' := by
  cases h with
  | @record _ others values hvalues hperm =>
    obtain ⟨d', rest, hd, hrest, rfl⟩ := List.forall₂_cons_left_iff.mp hvalues
    obtain rfl := List.forall₂_nil_left_iff.mp hrest
    obtain rfl := List.singleton_perm.mp hperm
    exact ⟨d', rfl, hd⟩

end Reordered

end WordTiles.Document
