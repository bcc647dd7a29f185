import WordTiles.Document.Host
import WordTiles.Proofs.Document.Keeps
import WordTiles.Proofs.Word.Flags

/-! What is saved comes back. Boards, rules, histories, settings and levels whose numbers have the size
that is kept of them are read from what was written for them, and no others are ever read. -/

namespace WordTiles

open Std

/-! ### Values of the right size -/

structure Board.Fits (b : Board) : Prop where
  nextId : b.nextId < Codec.idBound
  live : ∀ id ∈ b.live, id < Codec.idBound
  cells : (∀ id ∈ b.cells, id < Codec.idBound) ∧ ∀ (id : EntityId) c, b.cells[id]? = some c → c.Fits
  names : ∀ id ∈ b.names, id < Codec.idBound
  words : ∀ id ∈ b.words, id < Codec.idBound

def Sentence.Fits (s : Sentence) : Prop := s.origin.Fits

/-- The tables hold texts only. -/
def Rulebook.Fits (r : Rulebook) : Prop := ∀ s ∈ r.sentences, s.Fits

structure History.Fits (h : History) : Prop where
  past : ∀ b ∈ h.past, b.Fits
  start : ∀ b ∈ h.start, b.Fits
  limit : ∀ n ∈ h.limit, n < Text.sizeBound

def Settings.Fits (s : Settings) : Prop := ∀ n ∈ s.historyLimit, n < Text.sizeBound

/-- The layers need not have the size of the level. -/
structure Level.Fits (l : Level) : Prop where
  width : l.width < Text.sizeBound
  height : l.height < Text.sizeBound

namespace Codec

open Document.Reordered (of_record)

/-! ### Parts of boards and rules -/

theorem keeps_coordinate : coordinate.Keeps fun n => -0x80000000 ≤ n ∧ n < 0x80000000 :=
  keeps_int _ _

theorem keeps_entityId : entityId.Keeps fun id => id < idBound := keeps_nat _

theorem keeps_size : size.Keeps fun n => n < Text.sizeBound := keeps_nat _

theorem keeps_cell : cell.Keeps Cell.Fits where
  comesBack {c d} hc h := by
    obtain ⟨others, rfl, hget⟩ := of_record h (by simp)
    have hx : coordinate.field? _ "x" = some c.x :=
      keeps_coordinate.field? hc.x (hget _ _ (by simp))
    have hy : coordinate.field? _ "y" = some c.y :=
      keeps_coordinate.field? hc.y (hget _ _ (by simp))
    simp [cell, Document.fields?, hx, hy]
  fits {c d} h := by
    simp only [cell, Option.bind_eq_bind, Option.bind_eq_some_iff, Option.pure_def,
      Option.some.injEq] at h
    obtain ⟨fields, -, x, hx, y, hy, rfl⟩ := h
    exact ⟨keeps_coordinate.of_field? hx, keeps_coordinate.of_field? hy⟩

theorem keepsAll_propertySet : propertySet.KeepsAll where
  comesBack {s d} _ h := by
    have htext : text.read? d = some s.flagText := keepsAll_text.comesBack trivial h
    simp only [propertySet, htext, Option.bind_some, PropertySet.ofFlagText?_flagText]
  fits _ := trivial

theorem keepsAll_role : role.KeepsAll :=
  keepsAll_choice (fun a => by cases a <;> decide) (fun a b => by cases a <;> cases b <;> decide)

theorem keepsAll_axis : axis.KeepsAll :=
  keepsAll_choice (fun a => by cases a <;> decide) (fun a b => by cases a <;> cases b <;> decide)

theorem keepsAll_wordTile : wordTile.KeepsAll where
  comesBack {w d} _ h := by
    obtain ⟨others, rfl, hget⟩ := of_record h (by simp)
    have htext : text.field? _ "word" = some w.text :=
      keepsAll_text.field? trivial (hget _ _ (by simp))
    have hrole : role.field? _ "role" = some w.role :=
      keepsAll_role.field? trivial (hget _ _ (by simp))
    simp [wordTile, Document.fields?, htext, hrole]
  fits _ := trivial

theorem keepsAll_complement : complement.KeepsAll where
  comesBack {k d} _ h := by
    cases k with
    | properties ps =>
      obtain ⟨e, hvariant, hps⟩ := Document.Reordered.variant h
      simp [complement, hvariant, keepsAll_propertySet.comesBack trivial hps]
    | noun name =>
      obtain ⟨e, hvariant, hname⟩ := Document.Reordered.variant h
      simp [complement, hvariant, keepsAll_text.comesBack trivial hname]
  fits _ := trivial

theorem keeps_sentence : sentence.Keeps Sentence.Fits where
  comesBack {s d} hs h := by
    obtain ⟨others, rfl, hget⟩ := of_record h (by simp)
    have hsubject : text.field? _ "subject" = some s.subject :=
      keepsAll_text.field? trivial (hget _ _ (by simp))
    have hcomplement : complement.field? _ "complement" = some s.complement :=
      keepsAll_complement.field? trivial (hget _ _ (by simp))
    have haxis : axis.field? _ "axis" = some s.axis :=
      keepsAll_axis.field? trivial (hget _ _ (by simp))
    have horigin : cell.field? _ "origin" = some s.origin :=
      keeps_cell.field? hs (hget _ _ (by simp))
    simp [sentence, Document.fields?, hsubject, hcomplement, haxis, horigin]
  fits {s d} h := by
    simp only [sentence, Option.bind_eq_bind, Option.bind_eq_some_iff, Option.pure_def,
      Option.some.injEq] at h
    obtain ⟨fields, -, _, -, _, -, _, -, origin, horigin, rfl⟩ := h
    exact keeps_cell.of_field? horigin

/-! ### Boards, rules and histories -/

theorem keeps_column {α : Type} {c : Codec α} {P : α → Prop} (hc : c.Keeps P) :
    (column c).Keeps fun m =>
      (∀ id ∈ m, id < idBound) ∧ ∀ (id : EntityId) a, m[id]? = some a → P a :=
  Keeps.map (keeps_natKey idBound) hc

theorem keeps_column_of_keepsAll {α : Type} {c : Codec α} (hc : c.KeepsAll) :
    (column c).Keeps fun m => ∀ id ∈ m, id < idBound :=
  (keeps_column hc).congr fun m => by simp

theorem keeps_board : board.Keeps Board.Fits where
  comesBack {b d} hb h := by
    obtain ⟨others, rfl, hget⟩ := of_record h (by simp)
    have hnext : entityId.field? _ "next_id" = some b.nextId :=
      keeps_entityId.field? hb.nextId (hget _ _ (by simp))
    have hlive : (set entityId).field? _ "alive" = some b.live :=
      keeps_entityId.set.field? hb.live (hget _ _ (by simp))
    have hcells : (column cell).field? _ "positions" = some b.cells :=
      (keeps_column keeps_cell).field? hb.cells (hget _ _ (by simp))
    have hnames : (column text).field? _ "names" = some b.names :=
      (keeps_column_of_keepsAll keepsAll_text).field? hb.names (hget _ _ (by simp))
    have hwords : (column wordTile).field? _ "words" = some b.words :=
      (keeps_column_of_keepsAll keepsAll_wordTile).field? hb.words (hget _ _ (by simp))
    simp [board, Document.fields?, hnext, hlive, hcells, hnames, hwords]
  fits {b d} h := by
    simp only [board, Option.bind_eq_bind, Option.bind_eq_some_iff, Option.pure_def,
      Option.some.injEq] at h
    obtain ⟨fields, -, next, hnext, live, hlive, cells, hcells, names, hnames, words, hwords,
      rfl⟩ := h
    exact {
      nextId := keeps_entityId.of_field? hnext
      live := keeps_entityId.set.of_field? hlive
      cells := (keeps_column keeps_cell).of_field? hcells
      names := (keeps_column_of_keepsAll keepsAll_text).of_field? hnames
      words := (keeps_column_of_keepsAll keepsAll_wordTile).of_field? hwords }

theorem board_read?_null : board.read? .null = none := rfl

theorem size_read?_null : size.read? .null = none := rfl

theorem keeps_rulebook : rulebook.Keeps Rulebook.Fits where
  comesBack {r d} hr h := by
    obtain ⟨others, rfl, hget⟩ := of_record h (by simp)
    have hoperator : text.field? _ "operator_word" = some r.operator :=
      keepsAll_text.field? trivial (hget _ _ (by simp))
    have hproperties : (map textKey propertySet).field? _ "active" = some r.properties :=
      (keepsAll_map keeps_textKey keepsAll_propertySet).field? trivial (hget _ _ (by simp))
    have hrenames : (map textKey text).field? _ "transformations" = some r.renames :=
      (keepsAll_map keeps_textKey keepsAll_text).field? trivial (hget _ _ (by simp))
    have hsentences : (list sentence).field? _ "sentences" = some r.sentences :=
      keeps_sentence.list.field? hr (hget _ _ (by simp))
    simp [rulebook, Document.fields?, hoperator, hproperties, hrenames, hsentences]
  fits {r d} h := by
    simp only [rulebook, Option.bind_eq_bind, Option.bind_eq_some_iff, Option.pure_def,
      Option.some.injEq] at h
    obtain ⟨fields, -, _, -, _, -, _, -, sentences, hsentences, rfl⟩ := h
    exact keeps_sentence.list.of_field? hsentences

theorem keeps_history : history.Keeps History.Fits where
  comesBack {h d} hh hd := by
    obtain ⟨others, rfl, hget⟩ := of_record hd (by simp)
    have hpast : (list board).field? _ "history" = some h.past.reverse :=
      keeps_board.list.field? (fun b hb => hh.past b (List.mem_reverse.mp hb)) (hget _ _ (by simp))
    have hopen : bool.field? _ "pending" = some h.isOpen :=
      keepsAll_bool.field? trivial (hget _ _ (by simp))
    have hstart : (option board).fieldOrNull? _ "initial" = some h.start :=
      (keeps_board.option board_read?_null).fieldOrNull? hh.start (hget _ _ (by simp))
    have hlimit : (option size).fieldOrNull? _ "limit" = some h.limit :=
      (keeps_size.option size_read?_null).fieldOrNull? hh.limit (hget _ _ (by simp))
    simp [history, Document.fields?, hpast, hopen, hstart, hlimit]
  fits {h d} hread := by
    simp only [history, Option.bind_eq_bind, Option.bind_eq_some_iff, Option.pure_def,
      Option.some.injEq] at hread
    obtain ⟨fields, -, past, hpast, _, -, start, hstart, limit, hlimit, rfl⟩ := hread
    exact {
      past := fun b hb => keeps_board.list.of_field? hpast b (List.mem_reverse.mp hb)
      start := (keeps_board.option board_read?_null).of_fieldOrNull? hstart
      limit := (keeps_size.option size_read?_null).of_fieldOrNull? hlimit }

/-! ### Settings and levels -/

theorem keepsAll_blueprint : blueprint.KeepsAll where
  comesBack {b d} _ h := by
    obtain ⟨others, rfl, hget⟩ := of_record h (by simp)
    have hname : text.field? _ "name" = some b.name :=
      keepsAll_text.field? trivial (hget _ _ (by simp))
    have hsprite : text.field? _ "sprite" = some b.sprite :=
      keepsAll_text.field? trivial (hget _ _ (by simp))
    have hword : bool.field? _ "is_word" = some b.isWord :=
      keepsAll_bool.field? trivial (hget _ _ (by simp))
    simp [blueprint, Document.fields?, hname, hsprite, hword]
  fits _ := trivial

theorem keepsAll_legend : legend.KeepsAll where
  comesBack {l d} _ h := by
    obtain ⟨others, rfl, hget⟩ := of_record h (by simp)
    have hentries : (map charKey blueprint).field? _ "entries" = some l :=
      (keepsAll_map keeps_charKey keepsAll_blueprint).field? trivial (hget _ _ (by simp))
    simp [legend, Document.fields?, hentries]
  fits _ := trivial

theorem keeps_settings : settings.Keeps Settings.Fits where
  comesBack {s d} hs h := by
    obtain ⟨others, rfl, hget⟩ := of_record h (by simp)
    have hblockers fallback : (list text).fieldOr? fallback _ "hard_blockers" = some s.blockers :=
      (keepsAll_list keepsAll_text).fieldOr? trivial fallback (hget _ _ (by simp))
    have hoperator fallback : text.fieldOr? fallback _ "operator_word" = some s.operator :=
      keepsAll_text.fieldOr? trivial fallback (hget _ _ (by simp))
    have hlimit fallback :
        (option size).fieldOr? fallback _ "history_limit" = some s.historyLimit :=
      (keeps_size.option size_read?_null).fieldOr? hs fallback (hget _ _ (by simp))
    have hlegend fallback : legend.fieldOr? fallback _ "blueprints" = some s.legend :=
      keepsAll_legend.fieldOr? trivial fallback (hget _ _ (by simp))
    simp [settings, Document.someFields?, hblockers, hoperator, hlimit, hlegend]
  fits {s d} h := by
    simp only [settings, Option.bind_eq_bind, Option.bind_eq_some_iff, Option.pure_def,
      Option.some.injEq] at h
    obtain ⟨fields, -, _, -, _, -, limit, hlimit, _, -, rfl⟩ := h
    exact (keeps_size.option size_read?_null).of_fieldOr? (fun _ hn => by cases hn) hlimit

theorem keepsAll_layer : layer.KeepsAll := keepsAll_list (keepsAll_list keepsAll_char)

theorem keeps_level : level.Keeps Level.Fits where
  comesBack {l d} hl h := by
    obtain ⟨others, rfl, hget⟩ := of_record h (by simp)
    have hname : text.field? _ "name" = some l.name :=
      keepsAll_text.field? trivial (hget _ _ (by simp))
    have hwidth : size.field? _ "width" = some l.width :=
      keeps_size.field? hl.width (hget _ _ (by simp))
    have hheight : size.field? _ "height" = some l.height :=
      keeps_size.field? hl.height (hget _ _ (by simp))
    have hthings : layer.field? _ "gameplay" = some l.things :=
      keepsAll_layer.field? trivial (hget _ _ (by simp))
    have hwords : layer.field? _ "rules" = some l.words :=
      keepsAll_layer.field? trivial (hget _ _ (by simp))
    simp [level, Document.fields?, hname, hwidth, hheight, hthings, hwords]
  fits {l d} h := by
    simp only [level, Option.bind_eq_bind, Option.bind_eq_some_iff, Option.pure_def,
      Option.some.injEq] at h
    obtain ⟨fields, -, _, -, width, hwidth, height, hheight, _, -, _, -, rfl⟩ := h
    exact ⟨keeps_size.of_field? hwidth, keeps_size.of_field? hheight⟩

/-! ### All that is saved -/

/-- Everything that is saved comes back as it was, in whatever order the fields of its records stand by
then, and only values that can be saved are ever read. -/
theorem saved_comesBack :
    propertySet.KeepsAll ∧ board.Keeps Board.Fits ∧ rulebook.Keeps Rulebook.Fits ∧
      history.Keeps History.Fits ∧ settings.Keeps Settings.Fits ∧ level.Keeps Level.Fits :=
  ⟨keepsAll_propertySet, keeps_board, keeps_rulebook, keeps_history, keeps_settings, keeps_level⟩

end Codec

end WordTiles
