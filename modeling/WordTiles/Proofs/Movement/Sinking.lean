import WordTiles.Proofs.Movement.Replay

/-! What sinks. Only in the cell of an arrival does anything drown, and it is destroyed there and then. So
of what has drowned in a turn each report tells one arrival, all else is what it was, and in a cell that
has been entered no sinking thing stands with another: the last arrival has seen to that. Where it says
that something stands in a cell, live entities are meant. -/

namespace WordTiles

open Board

variable {φ : Physics} {d : Direction} {b : Board} {t t' : Turn} {m k s : EntityId} {c e : Cell}
  {ids : List EntityId}

namespace Physics

/-- In cell `c`, in which `m` has just arrived, thing `k` drowns: there are at least two entities, one of
them a sinking thing, and `k` is not a sinking thing that has itself just arrived. -/
structure Drowns (φ : Physics) (b : Board) (c : Cell) (m k : EntityId) : Prop where
  live : k ∈ b.live
  cell : b.cell? k = some c
  notWord : ¬ b.isWord k
  crowded : 2 ≤ (b.occupants c).length
  sinks : ∃ s, b.cell? s = some c ∧ φ.isSink b s
  spared : ¬ (k = m ∧ φ.isSink b m)

/-- If a sinking thing stands in the cell it is the only thing there. -/
def IsSunk (φ : Physics) (b : Board) (c : Cell) : Prop :=
  ∀ s ∈ b.live, b.cell? s = some c → φ.isSink b s →
    ∀ k ∈ b.live, b.cell? k = some c → ¬ b.isWord k → k = s

theorem isSink_of_kept {b' : Board} (h : Kept b b' k) : φ.isSink b' k = φ.isSink b k := by
  simp only [isSink, PropertyTable.ofEntity_of_kept h]

theorem not_isWord_of_isSink (h : φ.isSink b k) : ¬ b.isWord k :=
  (PropertyTable.mem_ofEntity.mp (of_decide_eq_true h)).1

/-! ### Those that drown -/

theorem mem_drowned : k ∈ φ.drowned b c m ↔ 2 ≤ (b.occupants c).length ∧
    (∃ s, b.cell? s = some c ∧ φ.isSink b s) ∧ b.cell? k = some c ∧ ¬ b.isWord k ∧
      ¬ (k = m ∧ φ.isSink b m) := by
  have hsink : (b.occupants c).any (φ.isSink b) ↔ ∃ s, b.cell? s = some c ∧ φ.isSink b s := by
    simp only [List.any_eq_true, mem_occupants]
  rw [← hsink, drowned]
  split
  · rename_i h
    rw [List.mem_filter, mem_occupants, decide_eq_true_eq]
    exact ⟨fun hk => ⟨h.1, h.2, hk⟩, fun hk => hk.2.2⟩
  · rename_i h
    exact iff_of_false List.not_mem_nil fun hk => h ⟨hk.1, hk.2.1⟩

theorem drowns_iff : φ.Drowns b c m k ↔ k ∈ φ.drowned b c m ∧ k ∈ b.live := by
  rw [mem_drowned]
  constructor
  · rintro ⟨hl, hc, hw, hcrowd, hsink, hspared⟩
    exact ⟨⟨hcrowd, hsink, hc, hw, hspared⟩, hl⟩
  · rintro ⟨⟨hcrowd, hsink, hc, hw, hspared⟩, hl⟩
    exact ⟨hl, hc, hw, hcrowd, hsink, hspared⟩

theorem drowned_nodup (φ : Physics) (b : Board) (c : Cell) (m : EntityId) :
    (φ.drowned b c m).Nodup := by
  have hn : (b.occupants c).Nodup := (occupants_ascending b c).imp Nat.ne_of_lt
  simp only [drowned]
  split
  · exact hn.filter _
  · exact List.nodup_nil

/-- Next to a sinking thing nothing is spared but a sinking thing that has just arrived. -/
theorem eq_mover_of_not_drowns (hd : ¬ φ.Drowns b c m k) (hl : k ∈ b.live)
    (hc : b.cell? k = some c) (hw : ¬ b.isWord k) (hs : b.cell? s = some c) (hsink : φ.isSink b s)
    (hne : k ≠ s) : k = m ∧ φ.isSink b m := by
  by_contra hspared
  refine hd ⟨hl, hc, hw, ?_, ⟨s, hs, hsink⟩, hspared⟩
  have hk := mem_occupants.mpr hc
  have hs := mem_occupants.mpr hs
  generalize b.occupants c = here at hk hs
  match here with
  | [] => cases hk
  | [_] => exact absurd ((List.mem_singleton.mp hk).trans (List.mem_singleton.mp hs).symm) hne
  | _ :: _ :: _ => exact Nat.le_add_left 2 _

/-! ### The board without them -/

theorem gone_drowned (h : φ.Drowns b c m k) : Gone b (b.destroyAll (φ.drowned b c m)) k := by
  obtain ⟨hd, hl⟩ := drowns_iff.mp h
  exact gone_destroyAll hd hl

theorem stays_drowned (h : ¬ φ.Drowns b c m k) :
    Stays b (b.destroyAll (φ.drowned b c m)) k :=
  stays_destroyAll fun hd => h (drowns_iff.mpr hd)

theorem isSunk_drowned : φ.IsSunk (b.destroyAll (φ.drowned b c m)) c := by
  have hleft : ∀ k ∈ (b.destroyAll (φ.drowned b c m)).live,
      ¬ φ.Drowns b c m k ∧ Stays b (b.destroyAll (φ.drowned b c m)) k := fun k hk => by
    have hd : ¬ φ.Drowns b c m k := fun hd => (gone_drowned hd).dead hk
    exact ⟨hd, stays_drowned hd⟩
  intro s hs hcs hsink k hk hck hw
  obtain ⟨hds, hstays⟩ := hleft s hs
  obtain ⟨hdk, hstayk⟩ := hleft k hk
  rw [hstays.cell] at hcs
  rw [hstayk.cell] at hck
  rw [isSink_of_kept hstays.toKept] at hsink
  rw [hstayk.isWord] at hw
  by_contra hne
  -- both have been spared, and only one of them has just arrived
  obtain ⟨rfl, hsinkk⟩ := eq_mover_of_not_drowns hdk (hstayk.live.mp hk) hck hw hcs hsink hne
  obtain ⟨he, -⟩ := eq_mover_of_not_drowns hds (hstays.live.mp hs) hcs (not_isWord_of_isSink hsink)
    hck hsinkk (Ne.symm hne)
  exact hne he.symm

end Physics

namespace Turn

/-! ### One arrival -/

theorem mem_drowned_live_iff :
    k ∈ (φ.drowned (t.board.relocate m c) c m).filter (· ∈ t.board.live) ↔
      φ.Drowns (t.board.relocate m c) c m k := by
  rw [List.mem_filter, decide_eq_true_eq, Physics.drowns_iff]
  rfl

theorem map_fst_destroyed_arrive : (t.arrive φ m c).destroyed.map Prod.fst =
    t.destroyed.map Prod.fst ++
      (φ.drowned (t.board.relocate m c) c m).filter (· ∈ t.board.live) := by
  rw [arrive, sink, List.map_append, List.map_map]
  exact congrArg _ (List.map_id _)

theorem mem_destroyed_arrive : (k, e) ∈ (t.arrive φ m c).destroyed ↔
    (k, e) ∈ t.destroyed ∨ e = c ∧ φ.Drowns (t.board.relocate m c) c m k := by
  rw [arrive, sink, List.mem_append, List.mem_map, ← mem_drowned_live_iff]
  refine or_congr_right ⟨?_, ?_⟩
  · rintro ⟨k', hk, he⟩
    obtain ⟨rfl, rfl⟩ := Prod.mk.inj he
    exact ⟨rfl, hk⟩
  · rintro ⟨rfl, hk⟩
    exact ⟨k, hk, rfl⟩

theorem gone_arrive (h : φ.Drowns (t.board.relocate m c) c m k) :
    Gone t.board (t.arrive φ m c).board k :=
  (kept_relocate t.board m k c).gone (Physics.gone_drowned h)

theorem kept_arrive (h : ¬ φ.Drowns (t.board.relocate m c) c m k) :
    Kept t.board (t.arrive φ m c).board k :=
  (kept_relocate t.board m k c).trans (Physics.stays_drowned h).toKept

/-- What stands in a cell after an arrival elsewhere stood there before. -/
theorem cell?_before_arrive (h : (t.arrive φ m e).board.cell? k = some c) (he : e ≠ c) :
    t.board.cell? k = some c ∧ Kept t.board (t.arrive φ m e).board k := by
  by_cases hk : k = m
  · subst hk
    have hcarries : Carries (fun _ => e) t.board (t.arrive φ k e).board k := carries_arrive_self
    rcases hcarries with hg | ⟨-, hcell⟩
    · rw [hg.cell] at h; cases h
    · obtain ⟨-, -, hec⟩ := Option.map_eq_some_iff.mp (hcell.symm.trans h)
      exact absurd hec he
  · have hcarries := carries_arrive (φ := φ) (t := t) (c := e) hk
    refine ⟨?_, hcarries.kept h⟩
    rcases hcarries with hg | ⟨-, hcell⟩
    · rw [hg.cell] at h; cases h
    · rw [hcell, Option.map_id_fun'] at h
      exact h

/-- Where no sinking thing stands with another it stays so: an arrival in the cell sees to it, and one
elsewhere brings nothing in. -/
theorem isSunk_arrive (h : φ.IsSunk t.board c) : φ.IsSunk (t.arrive φ m e).board c := by
  by_cases he : e = c
  · subst he
    exact Physics.isSunk_drowned
  · intro s hs hcs hsink k hk hck hw
    obtain ⟨hcs, hkepts⟩ := cell?_before_arrive hcs he
    obtain ⟨hck, hkeptk⟩ := cell?_before_arrive hck he
    rw [Physics.isSink_of_kept hkepts] at hsink
    rw [hkeptk.isWord] at hw
    exact h s (hkepts.live.mp hs) hcs hsink k (hkeptk.live.mp hk) hck hw

/-! ### All arrivals of a turn -/

/-- Cells that have been entered are sunk. -/
theorem isSunk_of_enters {t₀ : Turn} (h : t.replay? φ d ids = some t')
    (henters : t.Enters φ d ids t₀ m c) : φ.IsSunk t'.board c := by
  refine replay?_induction (P := fun ids t' => ∀ t₀ m c, t.Enters φ d ids t₀ m c →
    φ.IsSunk t'.board c) ?_ ?_ h t₀ m c henters
  · exact fun t₀ m c hin => absurd hin not_enters_nil
  · intro ids t₁ m' p hr ih hp t₀ m c hin
    rcases (enters_concat hr hp).mp hin with hin | ⟨-, -, rfl⟩
    · exact isSunk_arrive (ih t₀ m c hin)
    · exact Physics.isSunk_drowned

/-- What is reported as destroyed has drowned at an arrival, and all that has drowned is reported. -/
theorem mem_destroyed_iff (hstart : t.destroyed = []) (h : t.replay? φ d ids = some t') :
    (k, c) ∈ t'.destroyed ↔ ∃ t₀ m, t.Enters φ d ids t₀ m c ∧
      φ.Drowns (t₀.board.relocate m c) c m k := by
  refine replay?_induction (P := fun ids t' => (k, c) ∈ t'.destroyed ↔ ∃ t₀ m,
    t.Enters φ d ids t₀ m c ∧ φ.Drowns (t₀.board.relocate m c) c m k) ?_ ?_ h
  · rw [hstart]
    exact iff_of_false List.not_mem_nil fun ⟨_, _, hin, _⟩ => not_enters_nil hin
  · intro ids t₁ m' p hr ih hp
    rw [mem_destroyed_arrive, ih]
    constructor
    · rintro (⟨t₀, m, hin, hd⟩ | ⟨rfl, hd⟩)
      · exact ⟨t₀, m, (enters_concat hr hp).mpr (.inl hin), hd⟩
      · exact ⟨t₁, m', (enters_concat hr hp).mpr (.inr ⟨rfl, rfl, rfl⟩), hd⟩
    · rintro ⟨t₀, m, hin, hd⟩
      rcases (enters_concat hr hp).mp hin with hin | ⟨rfl, rfl, rfl⟩
      · exact .inl ⟨t₀, m, hin, hd⟩
      · exact .inr ⟨rfl, hd⟩

/-- Since the board was `b`, those that are reported as destroyed, each of them once, were things and
are gone; the others are kept, and no number has been given. -/
structure Accounts (b : Board) (t : Turn) : Prop where
  once : (t.destroyed.map Prod.fst).Nodup
  gone : ∀ k ∈ t.destroyed.map Prod.fst, ¬ b.isWord k ∧ Gone b t.board k
  kept : ∀ k, k ∉ t.destroyed.map Prod.fst → Kept b t.board k
  nextId : t.board.nextId = b.nextId

namespace Accounts

theorem start (b : Board) : Accounts b { board := b } where
  once := List.nodup_nil
  gone k hk := by cases hk
  kept k _ := .refl b k
  nextId := rfl

theorem not_drowns (h : t.Accounts b) (hk : k ∈ t.destroyed.map Prod.fst) :
    ¬ φ.Drowns (t.board.relocate m c) c m k := fun hd => (h.gone k hk).2.dead hd.live

theorem arrive (h : t.Accounts b) : (t.arrive φ m c).Accounts b where
  once := by
    rw [map_fst_destroyed_arrive]
    refine List.nodup_append.mpr ⟨h.once, (Physics.drowned_nodup φ _ c m).filter _, ?_⟩
    rintro k hk _ hd rfl
    exact h.not_drowns hk (mem_drowned_live_iff.mp hd)
  gone k hk := by
    rw [map_fst_destroyed_arrive, List.mem_append, mem_drowned_live_iff] at hk
    rcases hk with hk | hd
    · obtain ⟨hw, hg⟩ := h.gone k hk
      have hcarries : ∃ f, Carries f t.board (t.arrive φ m c).board k := exists_carries_arrive k
      obtain ⟨f, hcarries⟩ := hcarries
      exact ⟨hw, hcarries.gone hg⟩
    · have hkept := h.kept k fun hk => h.not_drowns hk hd
      exact ⟨fun hw => hd.notWord (hkept.isWord.trans hw), hkept.gone (gone_arrive hd)⟩
  kept k hk := by
    rw [map_fst_destroyed_arrive, List.mem_append, mem_drowned_live_iff, not_or] at hk
    exact (h.kept k hk.1).trans (kept_arrive hk.2)
  nextId := nextId_destroyAll.trans h.nextId

theorem of_replay? (h : ({ board := b } : Turn).replay? φ d ids = some t) : t.Accounts b :=
  replay?_induction (P := fun _ t => t.Accounts b) (.start b) (fun _ _ _ _ _ h _ => h.arrive) h

end Accounts

/-- What sinking comes to in the turn of any movers. The turn is the steps of those it reports as moved. In
every cell that was entered a sinking thing is the only thing. Those that are reported as destroyed are
those that drowned at an entry of their cell, each is reported once, was no word tile, and is gone. All
others are as live as before, with their names and word tiles, and no number has been given. -/
theorem resolve_sinks (φ : Physics) (d : Direction) (b : Board) (ms : List EntityId) :
    let start : Turn := { board := b }
    let t := resolve φ d ms start
    start.replay? φ d t.moved = some t ∧
    (∀ t₀ m c, start.Enters φ d t.moved t₀ m c → φ.IsSunk t.board c) ∧
    (∀ k c, (k, c) ∈ t.destroyed ↔ ∃ t₀ m, start.Enters φ d t.moved t₀ m c ∧
      φ.Drowns (t₀.board.relocate m c) c m k) ∧
    (t.destroyed.map Prod.fst).Nodup ∧
    (∀ k ∈ t.destroyed.map Prod.fst, ¬ b.isWord k ∧ Gone b t.board k) ∧
    (∀ k, k ∉ t.destroyed.map Prod.fst → Kept b t.board k) ∧
    t.board.nextId = b.nextId := by
  intro start t
  have hreplay : start.replay? φ d t.moved = some t := replay?_moved φ d ms b
  have haccounts := Accounts.of_replay? hreplay
  exact ⟨hreplay, fun t₀ m c => isSunk_of_enters hreplay, fun k c => mem_destroyed_iff rfl hreplay,
    haccounts.once, haccounts.gone, haccounts.kept, haccounts.nextId⟩

/-- A thing that is YOU pushes a word onto water, which sinks; the rock that lay in the water, and the
water itself, are destroyed, and the word floats. -/
theorem resolve_sinks_under_word :
    let φ : Physics :=
      { properties := ((∅ : PropertyTable).give "BigBlue" {.you}).give "Water" {.sink}
        blockers := ["Hedge"], bounds := ⟨4, 1⟩ }
    let b := ((((∅ : Board).addThing "BigBlue" ⟨0, 0⟩).addThing "Word" ⟨1, 0⟩).attach .word 1
      ⟨"Word", .subject⟩ |>.addThing "Rock" ⟨2, 0⟩).addThing "Water" ⟨2, 0⟩
    let start : Turn := { board := b }
    let t := resolve φ .right [0] start
    t.destroyed = [(2, ⟨2, 0⟩), (3, ⟨2, 0⟩)] ∧ start.Enters φ .right t.moved start 1 ⟨2, 0⟩ ∧
      φ.IsSunk t.board ⟨2, 0⟩ ∧ Gone b t.board 3 ∧ Kept b t.board 1 := by
  intro φ b start t
  have hdestroyed : t.destroyed = [(2, ⟨2, 0⟩), (3, ⟨2, 0⟩)] := by decide +kernel
  have henters : start.Enters φ .right t.moved start 1 ⟨2, 0⟩ :=
    ⟨[], [0], ⟨1, 0⟩, by decide +kernel, rfl, by decide +kernel, by decide +kernel⟩
  obtain ⟨-, hsunk, -, -, hgone, hkept, -⟩ := resolve_sinks φ .right b [0]
  refine ⟨hdestroyed, henters, hsunk start 1 ⟨2, 0⟩ henters, (hgone 3 ?_).2, hkept 1 ?_⟩
  · decide +kernel
  · decide +kernel

end Turn

end WordTiles
