import Mathlib.Data.List.Perm.Basic
import WordTiles.Document.Codec
import WordTiles.Proofs.Document.Reordered
import WordTiles.Proofs.Table
import WordTiles.Proofs.Text.Sizes

/-! Codecs that keep what they save. A value that fits comes back from what was written for it, in
whatever order the fields of records stand then, and every value that is read fits. Collections keep what
fits entry by entry, so the law of a codec follows from those of the codecs it is made of. -/

namespace WordTiles

open Std

namespace Codec

variable {α β κ : Type} {c : Codec α} {P : α → Prop} {a : α} {d : Document}

/-- The codec is for the values with the property: they come back, and no others are ever read. -/
structure Keeps (c : Codec α) (P : α → Prop) : Prop where
  comesBack : ∀ {a d}, P a → (c.write a).Reordered d → c.read? d = some a
  fits : ∀ {a d}, c.read? d = some a → P a

/-- The codec is for all values. -/
abbrev KeepsAll (c : Codec α) : Prop := c.Keeps fun _ => True

theorem Keeps.congr {Q : α → Prop} (h : c.Keeps P) (hPQ : ∀ a, P a ↔ Q a) : c.Keeps Q :=
  funext (fun a => propext (hPQ a)) ▸ h

/-! ### Scalars -/

theorem keeps_int (low high : Int) : (int low high).Keeps fun n => low ≤ n ∧ n < high where
  comesBack hn h := by
    cases h
    exact if_pos hn
  fits {n d} h := by
    cases d with
    | int m =>
      obtain ⟨hm, hn⟩ := Option.ite_none_right_eq_some.mp h
      exact Option.some.inj hn ▸ hm
    | _ => cases h

theorem keeps_nat (bound : Nat) : (nat bound).Keeps fun n => n < bound where
  comesBack {n d} hn h := by
    have hint : (int 0 bound).read? d = some (n : Int) :=
      (keeps_int 0 bound).comesBack ⟨by omega, by omega⟩ h
    simp only [nat, hint, Option.map_some, Int.toNat_natCast]
  fits h := by
    obtain ⟨n, hn, rfl⟩ := Option.map_eq_some_iff.mp h
    obtain ⟨hlow, hhigh⟩ := (keeps_int 0 bound).fits hn
    omega

theorem keepsAll_bool : bool.KeepsAll where
  comesBack _ h := by cases h; rfl
  fits _ := trivial

theorem keepsAll_text : text.KeepsAll where
  comesBack _ h := by cases h; rfl
  fits _ := trivial

theorem onlyChar?_toString (c : Char) : onlyChar? c.toString = some c := by
  simp [onlyChar?]

theorem keepsAll_char : char.KeepsAll where
  comesBack {c d} _ h := by
    have htext : text.read? d = some c.toString := keepsAll_text.comesBack trivial h
    simp only [char, htext, Option.bind_some, onlyChar?_toString]
  fits _ := trivial

theorem keepsAll_choice {all : List α} {name : α → String} (hall : ∀ a, a ∈ all)
    (hname : ∀ a b, name a = name b → a = b) : (choice all name).KeepsAll where
  comesBack {a d} _ h := by
    cases h
    have hfind : all.find? (fun b => name b == name a) = some a := by
      cases hb : all.find? (fun b => name b == name a) with
      | none => exact absurd (beq_self_eq_true (name a)) (List.find?_eq_none.mp hb a (hall a))
      | some b =>
        have heq := List.find?_some hb
        rw [hname b a (beq_iff_eq.mp heq)]
    exact hfind
  fits _ := trivial

/-! ### Collections -/

theorem Keeps.list (h : c.Keeps P) : (list c).Keeps fun as => ∀ a ∈ as, P a where
  comesBack {as d} has hd := by
    cases hd with
    | list hds =>
      rw [List.forall₂_map_left_iff] at hds
      apply Elementwise.mapM_eq_some_iff.mpr
      induction hds with
      | nil => exact .nil
      | cons ha _ ih =>
        rw [List.forall_mem_cons] at has
        exact .cons (h.comesBack has.1 ha) (ih has.2)
  fits {as d} hread := by
    cases d with
    | list ds =>
      intro a ha
      obtain ⟨e, -, he⟩ := Elementwise.exists_of_mem_read hread ha
      exact h.fits he
    | _ => cases hread

theorem keepsAll_list (h : c.KeepsAll) : (Codec.list c).KeepsAll := h.list.congr fun as => by simp

/-- What may be missing is told apart from null if nothing is read from null. -/
theorem Keeps.option (h : c.Keeps P) (hnull : c.read? .null = none) :
    (option c).Keeps fun o => ∀ a ∈ o, P a where
  comesBack {o d} ho hd := by
    cases o with
    | none =>
      cases hd
      rfl
    | some a =>
      have ha : c.read? d = some a := h.comesBack (ho a rfl) hd
      cases d with
      | null => cases hnull.symm.trans ha
      | _ => exact congrArg (Option.map some) ha
  fits {o d} hread := by
    rintro a rfl
    have ha : (c.read? d).map some = some (some a) := by
      cases d with
      | null => cases hread
      | _ => exact hread
    obtain ⟨a', ha', heq⟩ := Option.map_eq_some_iff.mp ha
    exact h.fits (ha'.trans heq)

section Ordered

variable [Ord α] [TransOrd α] [LawfulEqOrd α]

theorem mem_ofList {as : List α} : a ∈ ExtTreeSet.ofList as compare ↔ a ∈ as := by
  classical
  rw [ExtTreeSet.mem_ofList, List.contains_iff_mem]

theorem Keeps.set (h : c.Keeps P) : (set c).Keeps fun s => ∀ a ∈ s, P a where
  comesBack {s d} hs hd := by
    have hlist : (Codec.list c).read? d = some s.toList :=
      h.list.comesBack (fun a ha => hs a (ExtTreeSet.mem_toList.mp ha)) hd
    have hset : ExtTreeSet.ofList s.toList compare = s :=
      ExtTreeSet.ext_mem fun a => by rw [mem_ofList, ExtTreeSet.mem_toList]
    simp only [Codec.set, hlist, Option.map_some, hset]
  fits {s d} hread := by
    obtain ⟨as, has, rfl⟩ := Option.map_eq_some_iff.mp hread
    intro a ha
    exact h.list.fits has a (mem_ofList.mp ha)

end Ordered

/-! ### Maps -/

/-- The names are for the keys with the property. -/
structure Key.Keeps (k : Key κ) (K : κ → Prop) : Prop where
  comesBack : ∀ {key}, K key → k.read? (k.write key) = some key
  fits : ∀ {s key}, k.read? s = some key → K key

theorem keeps_textKey : textKey.Keeps fun _ => True := ⟨fun _ => rfl, fun _ => trivial⟩

theorem keeps_charKey : charKey.Keeps fun _ => True :=
  ⟨fun _ => onlyChar?_toString _, fun _ => trivial⟩

theorem keeps_natKey (bound : Nat) : (natKey bound).Keeps fun n => n < bound where
  comesBack {n} hn := by
    have hdigits : (toString n).toList = Nat.toDigits 10 n := Nat.toList_repr
    have hread : Text.readDigits? 10 Text.digitValue? (Nat.toDigits 10 n) = some n :=
      Text.readDigits?_eq_some_iff.mpr
        ⟨Nat.toDigits_ne_nil, Text.isDigit_of_mem_toDigits, Nat.ofDigitChars_ten_toDigits⟩
    simp only [natKey, hdigits, hread]
    exact Option.filter_eq_some_iff.mpr ⟨rfl, by simpa using hn⟩
  fits {s n} h := by
    obtain ⟨-, hn⟩ := Option.filter_eq_some_iff.mp h
    exact (of_decide_eq_true hn).1

section Map

variable {k : Key κ} {K : κ → Prop} {entry : κ × α}

/-- Reads one field of a map. -/
def readField? (k : Key κ) (c : Codec α) (f : String × Document) : Option (κ × α) := do
  return (← k.read? f.1, ← c.read? f.2)

theorem readField?_eq_some_iff {f : String × Document} :
    readField? k c f = some entry ↔ k.read? f.1 = some entry.1 ∧ c.read? f.2 = some entry.2 := by
  simp only [readField?, Option.bind_eq_bind, Option.bind_eq_some_iff, Option.pure_def,
    Option.some.injEq]
  constructor
  · rintro ⟨key, hkey, a, ha, rfl⟩
    exact ⟨hkey, ha⟩
  · rintro ⟨hkey, ha⟩
    exact ⟨_, hkey, _, ha, rfl⟩

/-- The fields of a record that was put into another order are the entries in another order. -/
theorem exists_entries (hk : k.Keeps K) (hc : c.Keeps P) {entries : List (κ × α)}
    {fields : List (String × Document)} (hfit : ∀ e ∈ entries, K e.1 ∧ P e.2)
    (hd : (Document.record (entries.map fun e => (k.write e.1, c.write e.2))).Reordered
      (.record fields)) :
    ∃ others, entries.Perm others ∧ fields.mapM (readField? k c) = some others := by
  cases hd with
  | record hvalues hperm =>
    have hread : ∀ (e : κ × α) (f : String × Document), (K e.1 ∧ P e.2) ∧ f.1 = k.write e.1 ∧
        (c.write e.2).Reordered f.2 → readField? k c f = some e := by
      rintro e f ⟨⟨hkey, ha⟩, hname, hf⟩
      exact readField?_eq_some_iff.mpr ⟨hname ▸ hk.comesBack hkey, hc.comesBack ha hf⟩
    have hfields := (List.forall₂_and_left entries _).mpr
      ⟨hfit, List.forall₂_map_left_iff.mp (Document.Reordered.forall₂_zip hvalues)⟩
    obtain ⟨others, hall, hothers⟩ := List.perm_comp_forall₂ hperm.symm
      (List.Forall₂.flip (R := fun f e => readField? k c f = some e) (hfields.imp hread))
    exact ⟨others, hothers.symm, Elementwise.mapM_eq_some_iff.mpr hall.flip⟩

variable [Ord κ] [TransOrd κ] [LawfulEqOrd κ]

theorem Keeps.map (hk : k.Keeps K) (hc : c.Keeps P) :
    (Codec.map k c).Keeps fun m : ExtTreeMap κ α =>
      (∀ key ∈ m, K key) ∧ ∀ (key : κ) (a : α), m[key]? = some a → P a where
  comesBack {m d} hm hd := by
    have hfit : ∀ e ∈ m.toList, K e.1 ∧ P e.2 := fun e he =>
      have hentry := ExtTreeMap.mem_toList_iff_getElem?_eq_some.mp he
      have hkey := ExtTreeMap.mem_iff_isSome_getElem?.mpr (Option.isSome_of_eq_some hentry)
      ⟨hm.1 e.1 hkey, hm.2 e.1 e.2 hentry⟩
    cases d with
    | record fields =>
      obtain ⟨others, hperm, hread⟩ := exists_entries hk hc hfit hd
      change (fields.mapM (readField? k c)).map _ = _
      rw [hread, Option.map_some, Table.ofList_of_perm hperm]
    | _ => cases hd
  fits {m d} hread := by
    cases d with
    | record fields =>
      obtain ⟨entries, hentries, rfl⟩ := Option.map_eq_some_iff.mp hread
      have hfit : ∀ key a, (ExtTreeMap.ofList entries compare)[key]? = some a → K key ∧ P a := by
        intro key a ha
        obtain ⟨f, -, hf⟩ := Elementwise.exists_of_mem_read hentries
          (Table.mem_of_getElem?_ofList ha)
        obtain ⟨hkey, hread⟩ := readField?_eq_some_iff.mp hf
        exact ⟨hk.fits hkey, hc.fits hread⟩
      exact ⟨fun key hkey => (hfit key _ (ExtTreeMap.getElem?_eq_some_getElem hkey)).1,
        fun key a ha => (hfit key a ha).2⟩
    | _ => cases hread

theorem keepsAll_map (hk : k.Keeps fun _ => True) (hc : c.KeepsAll) : (Codec.map k c).KeepsAll :=
  (Keeps.map hk hc).congr fun m => by simp

end Map

/-! ### Fields -/

section Fields

variable {fallback : α} {others : List (String × Document)} {fields : String → Option Document}
  {name : String}

theorem Keeps.field? (hc : c.Keeps P) (ha : P a)
    (h : Document.Reordered.Has others name (c.write a)) :
    c.field? (fun name => others.lookup name) name = some a := by
  obtain ⟨d, hd, hr⟩ := h
  simp only [Codec.field?, hd, Option.bind_some, hc.comesBack ha hr]

theorem Keeps.fieldOrNull? (hc : c.Keeps P) (ha : P a)
    (h : Document.Reordered.Has others name (c.write a)) :
    c.fieldOrNull? (fun name => others.lookup name) name = some a := by
  obtain ⟨d, hd, hr⟩ := h
  simp only [Codec.fieldOrNull?, hd, Option.getD_some, hc.comesBack ha hr]

theorem Keeps.fieldOr? (hc : c.Keeps P) (ha : P a) (fallback : α)
    (h : Document.Reordered.Has others name (c.write a)) :
    c.fieldOr? fallback (fun name => others.lookup name) name = some a := by
  obtain ⟨d, hd, hr⟩ := h
  simp only [Codec.fieldOr?, hd, hc.comesBack ha hr]

theorem Keeps.of_field? (hc : c.Keeps P) (h : c.field? fields name = some a) : P a := by
  obtain ⟨d, -, hd⟩ := Option.bind_eq_some_iff.mp h
  exact hc.fits hd

theorem Keeps.of_fieldOrNull? (hc : c.Keeps P) (h : c.fieldOrNull? fields name = some a) : P a :=
  hc.fits h

theorem Keeps.of_fieldOr? (hc : c.Keeps P) (hfallback : P fallback)
    (h : c.fieldOr? fallback fields name = some a) : P a := by
  rw [Codec.fieldOr?] at h
  split at h
  · exact Option.some.inj h ▸ hfallback
  · exact hc.fits h

end Fields

end Codec

end WordTiles
