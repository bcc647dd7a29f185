import Mathlib.Data.List.Basic
import Mathlib.Data.List.GetD
import WordTiles.Grid.Bounds
import WordTiles.Level.Basic

/-! The shape of a level that passes its check: it has cells, and both layers are rectangles of its
size. Such a level lists all cells within its size, row by row, and no others. Rows cut off or filled up
to a size have that shape. -/

namespace WordTiles.Level

variable {l : Level} {name : String} {width height : Nat} {rows things words : List Row}

/-! ### Levels that pass their check -/

/-- A layer of `height` rows of `width` characters each. -/
structure IsRectangle (width height : Nat) (rows : List Row) : Prop where
  height : rows.length = height
  width : ∀ row ∈ rows, row.length = width

/-- The grid is not empty and both layers have its size. -/
structure IsShaped (l : Level) : Prop where
  width : l.width ≠ 0
  height : l.height ≠ 0
  things : IsRectangle l.width l.height l.things
  words : IsRectangle l.width l.height l.words

theorem layerFault?_eq_none_iff {layer : Layer} :
    l.layerFault? layer = none ↔ IsRectangle l.width l.height (l.layer layer) := by
  have hrows : (∀ x ∈ (l.layer layer).zipIdx, ¬ decide (x.1.length ≠ l.width)) ↔
      ∀ row ∈ l.layer layer, row.length = l.width := by
    constructor
    · intro h row hrow
      obtain ⟨i, hi, rfl⟩ := List.mem_iff_getElem.mp hrow
      simpa using h ((l.layer layer)[i], i) (List.mk_mem_zipIdx_iff_getElem?.mpr (by simp [hi]))
    · rintro h ⟨row, i⟩ hx
      simpa using h row (List.fst_mem_of_mem_zipIdx hx)
  rw [layerFault?]
  by_cases hlen : (l.layer layer).length = l.height
  · simp only [ne_eq, hlen, not_true, if_false, Option.map_eq_none_iff]
    rw [List.find?_eq_none]
    exact ⟨fun h => ⟨hlen, hrows.mp h⟩, fun h => hrows.mpr h.width⟩
  · simp only [ne_eq, hlen, not_false_iff, if_true]
    exact iff_of_false (by simp) fun h => hlen h.height

theorem validate_eq_ok_iff : l.validate = .ok () ↔ l.IsShaped := by
  have hfault : l.validate = .ok () ↔ l.fault? = none := by
    rw [validate]
    cases l.fault? <;> simp
  rw [hfault, fault?]
  split
  · rename_i h0
    refine iff_of_false (by simp) fun h => ?_
    exact h0.elim h.width h.height
  · rename_i h0
    rw [not_or] at h0
    rw [Option.or_eq_none_iff, layerFault?_eq_none_iff, layerFault?_eq_none_iff]
    exact ⟨fun h => ⟨h0.1, h0.2, h.1, h.2⟩, fun h => ⟨h.things, h.words⟩⟩

/-- The board of a level. -/
def bounds (l : Level) : Bounds := ⟨l.width, l.height⟩

/-! ### Tiles in reading order -/

/-- The character of a layer in a cell. -/
def tile (l : Level) (layer : Layer) (x y : Nat) : Char :=
  ((l.layer layer).getD y []).getD x blankTile

/-- The characters of both layers with their cells: row by row, each row from left to right, and in a
cell the thing before the word. -/
def tiles (l : Level) : List (Cell × Char) :=
  (List.range l.height).flatMap fun (y : Nat) => (List.range l.width).flatMap fun (x : Nat) =>
    [(⟨x, y⟩, l.tile .things x y), (⟨x, y⟩, l.tile .words x y)]

theorem zipIdx_zip_eq {α β : Type} {as : List α} {bs : List β} {n : Nat} (a : α) (b : β)
    (ha : as.length = n) (hb : bs.length = n) :
    (as.zip bs).zipIdx = (List.range n).map fun i => ((as.getD i a, bs.getD i b), i) := by
  apply List.ext_getElem
  · simp [ha, hb]
  · intro i hi _
    have hin : i < n := by simpa [ha, hb] using hi
    simp [ha ▸ hin, hb ▸ hin]

theorem IsRectangle.length_getD (h : IsRectangle width height rows) {y : Nat} (hy : y < height) :
    (rows.getD y []).length = width := by
  rw [← h.height] at hy
  rw [List.getD_eq_getElem rows [] hy]
  exact h.width _ (List.getElem_mem hy)

theorem IsShaped.cells_eq (h : l.IsShaped) : l.cells =
    (List.range l.height).flatMap fun (y : Nat) => (List.range l.width).map fun (x : Nat) =>
      (⟨x, y⟩, l.tile .things x y, l.tile .words x y) := by
  rw [cells, zipIdx_zip_eq [] [] h.things.height h.words.height, List.flatMap_map]
  refine List.flatMap_congr fun y hy => ?_
  rw [List.mem_range] at hy
  dsimp only
  rw [zipIdx_zip_eq blankTile blankTile (h.things.length_getD hy) (h.words.length_getD hy),
    List.map_map]
  rfl

/-- The cells of a level, each with its two characters, list its tiles in reading order. -/
theorem IsShaped.flatMap_cells (h : l.IsShaped) :
    (l.cells.flatMap fun (c, thing, word) => [(c, thing), (c, word)]) = l.tiles := by
  simp only [h.cells_eq, tiles, List.flatMap_assoc, List.flatMap_map]

/-- The tiles of a level lie on its board. -/
theorem contains_of_mem_tiles {c : Cell} {char : Char} (h : (c, char) ∈ l.tiles) :
    l.bounds.contains c := by
  simp only [tiles, List.mem_flatMap, List.mem_range, List.mem_cons, Prod.mk.injEq,
    List.not_mem_nil, or_false] at h
  obtain ⟨y, hy, x, hx, hcell⟩ := h
  have hc : c = ⟨x, y⟩ := hcell.elim And.left And.left
  simp only [hc, Bounds.contains, bounds, decide_eq_true_eq]
  omega

/-! ### Rows of a size -/

theorem fit_of_length_eq {α : Type} {n : Nat} {filling : α} {as : List α} (h : as.length = n) :
    fit n filling as = as := by
  simp [fit, ← h]

@[simp] theorem length_fit {α : Type} (n : Nat) (filling : α) (as : List α) :
    (fit n filling as).length = n := by
  rw [fit, List.length_append, List.length_take, List.length_replicate]
  omega

theorem eq_filling_of_mem_fit {α : Type} {n : Nat} {filling a : α} {as : List α}
    (h : a ∈ fit n filling as) (has : a ∉ as) : a = filling := by
  rcases List.mem_append.mp h with h | h
  · exact absurd (List.mem_of_mem_take h) has
  · exact List.eq_of_mem_replicate h

theorem isRectangle_fitRows : IsRectangle width height (fitRows width height rows) where
  height := by rw [fitRows, List.length_map, length_fit]
  width := by
    intro row hrow
    obtain ⟨row', -, rfl⟩ := List.mem_map.mp hrow
    exact length_fit width blankTile row'

/-- Only blanks are filled in, so no other character gets into the rows. -/
theorem not_mem_of_mem_fitRows {c : Char} (hc : c ≠ blankTile) (h : ∀ row ∈ rows, c ∉ row) :
    ∀ row ∈ fitRows width height rows, c ∉ row := by
  intro row hrow hmem
  obtain ⟨row', hrow', rfl⟩ := List.mem_map.mp hrow
  refine hc (eq_filling_of_mem_fit hmem fun hc' => ?_)
  by_cases hin : row' ∈ rows
  · exact h row' hin hc'
  · obtain rfl := eq_filling_of_mem_fit hrow' hin
    exact List.not_mem_nil hc'

theorem fitRows_of_length_eq (h : rows.length = height) :
    fitRows width height rows = rows.map (fit width blankTile) := by
  rw [fitRows, fit_of_length_eq h]

/-- A level made of the right number of rows has these rows, each cut off or filled up for itself. -/
theorem ofRows_of_length_eq (hthings : things.length = height) (hwords : words.length = height) :
    ofRows name width height things words =
      { name, width, height
        things := things.map (fit width blankTile)
        words := words.map (fit width blankTile) } := by
  rw [ofRows, fitRows_of_length_eq hthings, fitRows_of_length_eq hwords]

theorem isShaped_ofRows (hw : width ≠ 0) (hh : height ≠ 0) :
    (ofRows name width height things words).IsShaped where
  width := hw
  height := hh
  things := isRectangle_fitRows
  words := isRectangle_fitRows

end WordTiles.Level
