import Pinhead.LuaJson

/-!
# Pairs that an encoding drops

A table may hold a sequence and other pairs besides. The encoder decides by the length
alone: if there is a sequence it writes an array of it and looks at no other pair. A table
without one becomes an object whose members are named by the texts of the keys, and where
two keys have one text the later pair takes the place of the earlier.

An encoding is lossless if each pair of each table has a place of its own in the JSON: the
element at the index that is its key, or the member named by the text of its key.
-/
namespace Pinhead.DroppedPairs
open OrderedMaps LuaJson

/-! ## Places -/

/-- Where a value may stand in an array or an object; elements count from one as in Lua. -/
inductive Slot where
  | element (i : ℕ)
  | member (name : String)
  deriving DecidableEq

def elements : ℕ → List Json → List (Slot × Json)
  | _, [] => []
  | n, j :: items => (.element n, j) :: elements (n + 1) items

def slots : Json → List (Slot × Json)
  | .array items => elements 1 items
  | .object fields => fields.map fun f => (.member f.1, f.2)
  | _ => []

/-- A sequence with gaps has no pairs at the gaps. -/
def sequencePairs : ℕ → List LuaValue → List (LuaKey × LuaValue)
  | _, [] => []
  | n, v :: vs =>
      if v.isNil then sequencePairs (n + 1) vs else (.integer n, v) :: sequencePairs (n + 1) vs

def tablePairs (sequence : List LuaValue) (fields : List (LuaKey × LuaValue)) :
    List (LuaKey × LuaValue) := sequencePairs 1 sequence ++ fields

/-- The place that a key asks for. -/
def Names (key : LuaKey) : Slot → Prop
  | .element i => key = .integer i
  | .member name => keyToString key = .ok name

/-- Each pair of each table has its own place, and the value there represents its value. -/
inductive Represents : LuaValue → Json → Prop
  | nil : Represents .nil .null
  | boolean (b : Bool) : Represents (.boolean b) (.bool b)
  | integer (i : ℤ) : Represents (.integer i) (.integer i)
  | number (n : ℚ) : Represents (.number n) (.float n)
  | string (s : String) : Represents (.string s) (.string s)
  | table {sequence : List LuaValue} {fields : List (LuaKey × LuaValue)} {j : Json}
      (places : List ((LuaKey × LuaValue) × Slot × Json)) :
      places.map Prod.fst = tablePairs sequence fields →
      (places.map Prod.snd).Subperm (slots j) →
      (∀ p ∈ places, Names p.1.1 p.2.1) → (∀ p ∈ places, Represents p.1.2 p.2.2) →
      Represents (.table sequence fields) j

/-- Nothing is dropped without an error. -/
def Kept (v : LuaValue) : Prop :=
  (∃ e, luaToJson v = .error e) ∨ ∃ j, luaToJson v = .ok j ∧ Represents v j

/-! ## Values -/

mutual

/-- Induction over the values of a table, those of its sequence and those of its fields. -/
theorem value_induction {P : LuaValue → Prop}
    (scalar : ∀ v, (∀ sequence fields, v ≠ .table sequence fields) → P v)
    (table : ∀ sequence fields, (∀ v ∈ sequence, P v) → (∀ e ∈ fields, P e.2) →
      P (.table sequence fields)) : (v : LuaValue) → P v
  | .table sequence fields => table sequence fields (items_induction scalar table sequence)
      (fields_induction scalar table fields)
  | .nil => scalar .nil fun _ _ => LuaValue.noConfusion
  | .boolean b => scalar (.boolean b) fun _ _ => LuaValue.noConfusion
  | .integer i => scalar (.integer i) fun _ _ => LuaValue.noConfusion
  | .number n => scalar (.number n) fun _ _ => LuaValue.noConfusion
  | .nonFinite => scalar .nonFinite fun _ _ => LuaValue.noConfusion
  | .string s => scalar (.string s) fun _ _ => LuaValue.noConfusion
  | .badString e => scalar (.badString e) fun _ _ => LuaValue.noConfusion
  | .other => scalar .other fun _ _ => LuaValue.noConfusion

theorem items_induction {P : LuaValue → Prop}
    (scalar : ∀ v, (∀ sequence fields, v ≠ .table sequence fields) → P v)
    (table : ∀ sequence fields, (∀ v ∈ sequence, P v) → (∀ e ∈ fields, P e.2) →
      P (.table sequence fields)) : (vs : List LuaValue) → ∀ v ∈ vs, P v
  | [] => fun _ hv => absurd hv List.not_mem_nil
  | v :: vs =>
      List.forall_mem_cons.mpr ⟨value_induction scalar table v, items_induction scalar table vs⟩

theorem fields_induction {P : LuaValue → Prop}
    (scalar : ∀ v, (∀ sequence fields, v ≠ .table sequence fields) → P v)
    (table : ∀ sequence fields, (∀ v ∈ sequence, P v) → (∀ e ∈ fields, P e.2) →
      P (.table sequence fields)) :
    (fields : List (LuaKey × LuaValue)) → ∀ e ∈ fields, P e.2
  | [] => fun _ he => absurd he List.not_mem_nil
  | (_, v) :: fields => List.forall_mem_cons.mpr
      ⟨value_induction scalar table v, fields_induction scalar table fields⟩

end

mutual

/-- The encoder has JSON for the value and for every value and key that it visits. -/
def encodable : LuaValue → Bool
  | .nonFinite | .badString _ | .other => false
  | .table (v :: sequence) _ => itemsEncodable (v :: sequence)
  | .table [] fields => fieldsEncodable fields
  | _ => true

def itemsEncodable : List LuaValue → Bool
  | [] => true
  | v :: vs => encodable v && itemsEncodable vs

def fieldsEncodable : List (LuaKey × LuaValue) → Bool
  | [] => true
  | (.string _, v) :: fields | (.integer _, v) :: fields | (.number _, v) :: fields =>
      encodable v && fieldsEncodable fields
  | _ => false

end

/-- The text of a key that has one. -/
def keyText : LuaKey → String
  | .string s | .number s => s
  | .integer i => toString i
  | .badString _ | .other _ => ""

mutual

/-- No table that is visited has both a sequence and other pairs, or two keys with one text
and no sequence. -/
def Unmixed : LuaValue → Prop
  | .table (v :: sequence) fields => fields = [] ∧ ItemsUnmixed (v :: sequence)
  | .table [] fields => (fields.map fun e => keyText e.1).Nodup ∧ FieldsUnmixed fields
  | _ => True

def ItemsUnmixed : List LuaValue → Prop
  | [] => True
  | v :: vs => Unmixed v ∧ ItemsUnmixed vs

def FieldsUnmixed : List (LuaKey × LuaValue) → Prop
  | [] => True
  | (_, v) :: fields => Unmixed v ∧ FieldsUnmixed fields

end

mutual

/-- The tables are tables: a key occurs once, and the keys of the sequence do not occur
among the other pairs. -/
def Proper : LuaValue → Prop
  | .table sequence fields =>
      (fields.map Prod.fst).Nodup ∧
        (∀ e ∈ fields, e.2 ≠ .nil ∧ ∀ n < sequence.length, e.1 ≠ .integer (n + 1 : ℕ)) ∧
        ItemsProper sequence ∧ FieldsProper fields
  | _ => True

def ItemsProper : List LuaValue → Prop
  | [] => True
  | v :: vs => Proper v ∧ ItemsProper vs

def FieldsProper : List (LuaKey × LuaValue) → Prop
  | [] => True
  | (_, v) :: fields => Proper v ∧ FieldsProper fields

end

theorem itemsEncodable_iff {vs : List LuaValue} :
    itemsEncodable vs = true ↔ ∀ v ∈ vs, encodable v = true := by
  induction vs with
  | nil => simp [itemsEncodable]
  | cons v vs ih => simp [itemsEncodable, ih]

theorem itemsUnmixed_iff {vs : List LuaValue} : ItemsUnmixed vs ↔ ∀ v ∈ vs, Unmixed v := by
  induction vs with
  | nil => simp [ItemsUnmixed]
  | cons v vs ih => simp [ItemsUnmixed, ih]

theorem fieldsUnmixed_iff {fields : List (LuaKey × LuaValue)} :
    FieldsUnmixed fields ↔ ∀ e ∈ fields, Unmixed e.2 := by
  induction fields with
  | nil => simp [FieldsUnmixed]
  | cons e fields ih => simp [FieldsUnmixed, ih]

theorem itemsProper_iff {vs : List LuaValue} : ItemsProper vs ↔ ∀ v ∈ vs, Proper v := by
  induction vs with
  | nil => simp [ItemsProper]
  | cons v vs ih => simp [ItemsProper, ih]

theorem fieldsProper_iff {fields : List (LuaKey × LuaValue)} :
    FieldsProper fields ↔ ∀ e ∈ fields, Proper e.2 := by
  induction fields with
  | nil => simp [FieldsProper]
  | cons e fields ih => simp [FieldsProper, ih]

/-- A key has a text or the encoder refuses it. -/
theorem keyToString_ok {k : LuaKey} {s : String} (h : keyToString k = .ok s) : keyText k = s := by
  cases k with
  | string t => exact Except.ok.inj h
  | integer i => exact Except.ok.inj h
  | number t => exact Except.ok.inj h
  | badString e => cases h
  | other t => cases h

theorem fieldsEncodable_iff {fields : List (LuaKey × LuaValue)} : fieldsEncodable fields = true ↔
    ∀ e ∈ fields, keyToString e.1 = .ok (keyText e.1) ∧ encodable e.2 = true := by
  induction fields with
  | nil => simp [fieldsEncodable]
  | cons e fields ih =>
      obtain ⟨k, v⟩ := e
      cases k with
      | string s => simp [fieldsEncodable, ih, keyToString, keyText]
      | integer i => simp [fieldsEncodable, ih, keyToString, keyText]
      | number s => simp [fieldsEncodable, ih, keyToString, keyText]
      | badString e => simp [fieldsEncodable, keyToString]
      | other s => simp [fieldsEncodable, keyToString]

theorem exists_forall₂_iff {α β : Type} {R : α → β → Prop} {xs : List α} :
    (∃ ys, List.Forall₂ R xs ys) ↔ ∀ x ∈ xs, ∃ y, R x y := by
  constructor
  · rintro ⟨ys, h⟩ x hx
    induction h with
    | nil => cases hx
    | cons hxy _ ih =>
        rcases List.mem_cons.mp hx with rfl | hx
        · exact ⟨_, hxy⟩
        · exact ih hx
  · exact exists_forall₂

theorem luaToJson_sequence {v : LuaValue} {vs : List LuaValue}
    {fields : List (LuaKey × LuaValue)} {j : Json} :
    luaToJson (.table (v :: vs) fields) = .ok j ↔
      ∃ js, List.Forall₂ (fun v j => luaToJson v = .ok j) (v :: vs) js ∧ j = .array js := by
  rw [luaToJson, bind_ok]
  constructor
  · rintro ⟨js, hjs, hj⟩
    exact ⟨js, itemsToJson_ok.mp hjs, (Except.ok.inj hj).symm⟩
  · rintro ⟨js, hjs, rfl⟩
    exact ⟨js, itemsToJson_ok.mpr hjs, rfl⟩

theorem luaToJson_record {fields : List (LuaKey × LuaValue)} {j : Json} :
    luaToJson (.table [] fields) = .ok j ↔
      ∃ fs, List.Forall₂ Encodes fields fs ∧ j = .object (sortEntries fs) := by
  rw [luaToJson, bind_ok]
  constructor
  · rintro ⟨map, hmap, hj⟩
    obtain ⟨fs, hfs, hresult⟩ := fieldsToJson_ok.mp hmap
    refine ⟨fs, hfs, ?_⟩
    rw [← Except.ok.inj hj, ← hresult]
    rfl
  · rintro ⟨fs, hfs, rfl⟩
    exact ⟨_, fieldsToJson_ok.mpr ⟨fs, hfs, rfl⟩, rfl⟩

/-- What the encoder has JSON for. -/
theorem encodable_iff (v : LuaValue) : (∃ j, luaToJson v = .ok j) ↔ encodable v = true := by
  induction v using value_induction with
  | scalar v hv =>
      cases v with
      | table sequence fields => exact absurd rfl (hv sequence fields)
      | _ => simp [luaToJson, encodable]
  | table sequence fields hitems hfields =>
      cases sequence with
      | cons v vs =>
          simp only [luaToJson_sequence, encodable, itemsEncodable_iff]
          rw [exists_comm]
          simp only [exists_and_left, exists_eq, and_true]
          rw [exists_forall₂_iff]
          exact forall₂_congr hitems
      | nil =>
          simp only [luaToJson_record, encodable, fieldsEncodable_iff]
          rw [exists_comm]
          simp only [exists_and_left, exists_eq, and_true]
          rw [exists_forall₂_iff]
          refine forall₂_congr fun e he => ?_
          rw [← hfields e he]
          constructor
          · rintro ⟨f, hkey, hvalue⟩
            exact ⟨by rw [hkey, keyToString_ok hkey], _, hvalue⟩
          · rintro ⟨hkey, j, hj⟩
            exact ⟨(keyText e.1, j), hkey, hj⟩

/-! ## Arrays -/

theorem mem_elements {n i : ℕ} {j : Json} {items : List Json} :
    (Slot.element i, j) ∈ elements n items ↔ n ≤ i ∧ items[i - n]? = some j := by
  induction items generalizing n with
  | nil => simp [elements]
  | cons k items ih =>
      rw [elements, List.mem_cons, ih, Prod.mk.injEq, Slot.element.injEq]
      by_cases hi : i = n
      · subst hi
        simp [eq_comm]
      · by_cases hlt : n + 1 ≤ i
        · rw [show i - n = i - (n + 1) + 1 by omega, List.getElem?_cons_succ]
          simp [hi, hlt, Nat.le_of_succ_le hlt]
        · simp [hi, hlt]
          omega

theorem element_of_mem {n : ℕ} {slot : Slot × Json} {items : List Json}
    (h : slot ∈ elements n items) : ∃ i, slot.1 = .element i := by
  induction items generalizing n with
  | nil => cases h
  | cons j items ih =>
      rcases List.mem_cons.mp h with rfl | h
      · exact ⟨n, rfl⟩
      · exact ih h

theorem mem_sequencePairs {n i : ℕ} {v : LuaValue} {vs : List LuaValue}
    (h : vs[i]? = some v) (hnil : v ≠ .nil) : (.integer (n + i : ℕ), v) ∈ sequencePairs n vs := by
  induction vs generalizing n i with
  | nil => cases h
  | cons w vs ih =>
      rw [sequencePairs]
      cases i with
      | zero =>
          obtain rfl := Option.some.inj h
          rw [LuaValue.isNil_eq_false hnil]
          exact List.mem_cons_self
      | succ i =>
          have hrest := @ih (n + 1) i h
          rw [show n + 1 + i = n + (i + 1) by omega] at hrest
          split
          · exact hrest
          · exact List.mem_cons_of_mem _ hrest

/-- Pairs and elements side by side, where there is a pair. -/
theorem sequence_places {n : ℕ} {vs : List LuaValue} {js : List Json}
    (h : List.Forall₂ Represents vs js) :
    ∃ places : List ((LuaKey × LuaValue) × Slot × Json),
      places.map Prod.fst = sequencePairs n vs ∧
      (places.map Prod.snd).Sublist (elements n js) ∧
      (∀ p ∈ places, Names p.1.1 p.2.1) ∧ ∀ p ∈ places, Represents p.1.2 p.2.2 := by
  induction h generalizing n with
  | nil => exact ⟨[], rfl, List.Sublist.refl _, by simp, by simp⟩
  | @cons v j vs js hv _ ih =>
      obtain ⟨places, hpairs, hslots, hnames, hrepresents⟩ := @ih (n + 1)
      rw [sequencePairs, elements]
      split
      · exact ⟨places, hpairs, hslots.cons _, hnames, hrepresents⟩
      · refine ⟨((.integer n, v), .element n, j) :: places, ?_, hslots.cons_cons _, ?_, ?_⟩
        · rw [List.map_cons, hpairs]
        · exact List.forall_mem_cons.mpr ⟨rfl, hnames⟩
        · exact List.forall_mem_cons.mpr ⟨hv, hrepresents⟩

theorem represents_nil {j : Json} (h : luaToJson .nil = .ok j) : Represents .nil j := by
  obtain rfl := Except.ok.inj h
  exact .nil

/-- In an array a pair stands at the index that is its key. -/
theorem Represents.element {sequence : List LuaValue} {fields : List (LuaKey × LuaValue)}
    {js : List Json} (h : Represents (.table sequence fields) (.array js))
    {e : LuaKey × LuaValue} (he : e ∈ tablePairs sequence fields) :
    ∃ i j, e.1 = .integer (i + 1 : ℕ) ∧ js[i]? = some j ∧ Represents e.2 j := by
  cases h with
  | table places hpairs hslots hnames hvalues =>
      rw [← hpairs] at he
      obtain ⟨p, hp, rfl⟩ := List.mem_map.mp he
      have hslot := hslots.subset (List.mem_map_of_mem hp)
      have hname := hnames p hp
      obtain ⟨i, hi⟩ := element_of_mem hslot
      rw [hi] at hname
      have hmem : (Slot.element i, p.2.2) ∈ elements 1 js := hi ▸ hslot
      obtain ⟨hpos, hget⟩ := mem_elements.mp hmem
      refine ⟨i - 1, p.2.2, ?_, hget, hvalues p hp⟩
      rw [Nat.sub_add_cancel hpos]
      exact hname

section
variable {v : LuaValue} {vs : List LuaValue} {fields : List (LuaKey × LuaValue)} {js : List Json}

/-- The items are represented by the elements in their order. -/
theorem Represents.items (hrepresents : Represents (.table (v :: vs) fields) (.array js))
    (h : List.Forall₂ (fun v j => luaToJson v = .ok j) (v :: vs) js) :
    List.Forall₂ Represents (v :: vs) js := by
  rw [List.forall₂_iff_get]
  refine ⟨h.length_eq, fun i hi hj => ?_⟩
  have hget : (v :: vs)[i]? = some ((v :: vs).get ⟨i, hi⟩) := List.getElem?_eq_getElem hi
  by_cases hnil : (v :: vs).get ⟨i, hi⟩ = .nil
  · have hjson := (List.forall₂_iff_get.mp h).2 i hi hj
    rw [hnil] at hjson ⊢
    exact represents_nil hjson
  · have hmem := mem_sequencePairs (n := 1) hget hnil
    obtain ⟨k, j, hkey, hk, hrep⟩ := hrepresents.element (List.mem_append_left _ hmem)
    have hik : k = i := by
      have hint := LuaKey.integer.inj hkey
      omega
    rw [hik, List.getElem?_eq_getElem hj] at hk
    obtain rfl : js.get ⟨i, hj⟩ = j := Option.some.inj hk
    exact hrep

theorem represents_sequence
    (hfields : ∀ e ∈ fields, ∀ n < (v :: vs).length, e.1 ≠ .integer (n + 1 : ℕ))
    (h : List.Forall₂ (fun v j => luaToJson v = .ok j) (v :: vs) js) :
    Represents (.table (v :: vs) fields) (.array js) ↔
      fields = [] ∧ List.Forall₂ Represents (v :: vs) js := by
  constructor
  · intro hrepresents
    refine ⟨?_, hrepresents.items h⟩
    by_contra hne
    obtain ⟨e, he⟩ := List.exists_mem_of_ne_nil fields hne
    obtain ⟨i, j, hkey, hget, -⟩ := hrepresents.element (List.mem_append_right _ he)
    refine hfields e he i ?_ hkey
    rw [h.length_eq]
    exact (List.getElem?_eq_some_iff.mp hget).1
  · rintro ⟨rfl, hrepresents⟩
    obtain ⟨places, hpairs, hslots, hnames, hvalues⟩ := sequence_places (n := 1) hrepresents
    refine .table places ?_ hslots.subperm hnames hvalues
    rw [hpairs, tablePairs, List.append_nil]

end

/-! ## Objects -/

section
variable {fields : List (LuaKey × LuaValue)} {fs : List (String × Json)}

theorem texts_of_encodes (h : List.Forall₂ Encodes fields fs) :
    fields.map (fun e => keyText e.1) = fs.map Prod.fst := by
  induction h with
  | nil => rfl
  | cons he _ ih => rw [List.map_cons, List.map_cons, ih, keyToString_ok he.1]

/-- Two pairs with one text would need two members of one name. -/
theorem Represents.texts (h : Represents (.table [] fields) (.object (sortEntries fs))) :
    (fields.map fun e => keyText e.1).Nodup := by
  cases h with
  | table places hpairs hslots hnames hvalues =>
      have hname (p : (LuaKey × LuaValue) × Slot × Json) (hp : p ∈ places) :
          p.2.1 = .member (keyText p.1.1) := by
        obtain ⟨f, -, hf⟩ := List.mem_map.mp (hslots.subset (List.mem_map_of_mem hp))
        have hkey := hnames p hp
        rw [← hf] at hkey ⊢
        rw [keyToString_ok hkey]
      have htexts : (places.map Prod.snd).map Prod.fst =
          (fields.map fun e => keyText e.1).map Slot.member := by
        rw [show fields = places.map Prod.fst from hpairs.symm, List.map_map, List.map_map,
          List.map_map]
        exact List.map_congr_left hname
      have hmembers : ((slots (.object (sortEntries fs))).map Prod.fst).Nodup := by
        rw [slots, List.map_map]
        have hsorted : ((sortEntries fs).map Prod.fst).Nodup :=
          List.pairwise_map.mpr ((sorted_sortEntries fs).imp fun hlt => hlt.ne)
        exact (List.map_map (f := Prod.fst) (g := Slot.member) ▸
          hsorted.map fun _ _ heq => Slot.member.inj heq)
      obtain ⟨chosen, hperm, hsub⟩ := hslots
      have hchosen := (hperm.map Prod.fst).nodup_iff.mp (hmembers.sublist (hsub.map Prod.fst))
      rw [htexts] at hchosen
      exact hchosen.of_map _

/-- The members are those of the pairs if no two have one name. -/
theorem Represents.members (hrepresents : Represents (.table [] fields) (.object (sortEntries fs)))
    (h : List.Forall₂ Encodes fields fs) :
    List.Forall₂ (fun e f => Represents e.2 f.2) fields fs := by
  have htexts := hrepresents.texts
  rw [texts_of_encodes h] at htexts
  rw [List.forall₂_iff_get]
  refine ⟨h.length_eq, fun i hi hj => ?_⟩
  cases hrepresents with
  | table places hpairs hslots hnames hvalues =>
      have hmem : fields.get ⟨i, hi⟩ ∈ places.map Prod.fst := by
        rw [hpairs]
        exact List.get_mem fields ⟨i, hi⟩
      obtain ⟨p, hp, hpair⟩ := List.mem_map.mp hmem
      obtain ⟨f, hf, hslot⟩ := List.mem_map.mp (hslots.subset (List.mem_map_of_mem hp))
      have hkey := hnames p hp
      have hvalue := hvalues p hp
      rw [← hslot, hpair] at hkey hvalue
      have hencodes := (List.forall₂_iff_get.mp h).2 i hi hj
      have hname : f.1 = (fs.get ⟨i, hj⟩).1 := by
        rw [← keyToString_ok hkey, ← keyToString_ok hencodes.1]
      have hfs : f ∈ fs := (perm_sortEntries htexts).mem_iff.mp hf
      have hsame : f = fs.get ⟨i, hj⟩ :=
        List.inj_on_of_nodup_map htexts hfs (List.get_mem fs ⟨i, hj⟩) hname
      rw [hsame] at hvalue
      exact hvalue

theorem represents_record (h : List.Forall₂ Encodes fields fs) :
    Represents (.table [] fields) (.object (sortEntries fs)) ↔
      (fields.map fun e => keyText e.1).Nodup ∧
        List.Forall₂ (fun e f => Represents e.2 f.2) fields fs := by
  constructor
  · exact fun hrepresents => ⟨hrepresents.texts, hrepresents.members h⟩
  · rintro ⟨htexts, hrepresents⟩
    rw [texts_of_encodes h] at htexts
    let places := (fields.zip fs).map fun p => (p.1, Slot.member p.2.1, p.2.2)
    have hzip (p : (LuaKey × LuaValue) × String × Json) (hp : p ∈ fields.zip fs) :
        Encodes p.1 p.2 ∧ Represents p.1.2 p.2.2 :=
      ⟨(List.forall₂_iff_zip.mp h).2 hp, (List.forall₂_iff_zip.mp hrepresents).2 hp⟩
    refine .table places ?_ ?_ ?_ ?_
    · rw [List.map_map]
      exact List.map_fst_zip h.length_eq.le
    · have hsnd : (fields.zip fs).map Prod.snd = fs := List.map_snd_zip h.length_eq.ge
      have hslots : places.map Prod.snd = fs.map fun f => (Slot.member f.1, f.2) := by
        conv_rhs => rw [← hsnd]
        rw [List.map_map, List.map_map]
        rfl
      rw [hslots]
      exact ((perm_sortEntries htexts).symm.map _).subperm
    · rw [List.forall_mem_map]
      exact fun p hp => (hzip p hp).1.1
    · rw [List.forall_mem_map]
      exact fun p hp => (hzip p hp).2

end

/-! ## All values -/

theorem forall₂_iff_forall {α β : Type} {R S : α → β → Prop} {P : α → Prop} {xs : List α}
    {ys : List β} (h : List.Forall₂ R xs ys) (hiff : ∀ x ∈ xs, ∀ y, R x y → (S x y ↔ P x)) :
    List.Forall₂ S xs ys ↔ ∀ x ∈ xs, P x := by
  induction h with
  | nil => simp
  | cons hxy _ ih =>
      obtain ⟨hx, hxs⟩ := List.forall_mem_cons.mp hiff
      rw [List.forall₂_cons, List.forall_mem_cons, hx _ hxy, ih hxs]

/-- The JSON of a value represents it if no table on the way is mixed. -/
theorem represents_iff {v : LuaValue} (hv : Proper v) {j : Json} (h : luaToJson v = .ok j) :
    Represents v j ↔ Unmixed v := by
  induction v using value_induction generalizing j with
  | scalar v hscalar =>
      cases v with
      | table sequence fields => exact absurd rfl (hscalar sequence fields)
      | nil =>
          obtain rfl := Except.ok.inj h
          exact iff_of_true .nil trivial
      | boolean b =>
          obtain rfl := Except.ok.inj h
          exact iff_of_true (.boolean b) trivial
      | integer i =>
          obtain rfl := Except.ok.inj h
          exact iff_of_true (.integer i) trivial
      | number n =>
          obtain rfl := Except.ok.inj h
          exact iff_of_true (.number n) trivial
      | string s =>
          obtain rfl := Except.ok.inj h
          exact iff_of_true (.string s) trivial
      | _ => cases h
  | table sequence fields hitems hfields =>
      obtain ⟨-, houtside, hproper, hproper'⟩ := hv
      cases sequence with
      | cons v vs =>
          obtain ⟨js, hjs, rfl⟩ := luaToJson_sequence.mp h
          rw [represents_sequence (fun e he => (houtside e he).2) hjs]
          refine and_congr_right' ?_
          rw [itemsUnmixed_iff]
          exact forall₂_iff_forall hjs fun v hv j hj =>
            hitems v hv (itemsProper_iff.mp hproper v hv) hj
      | nil =>
          obtain ⟨fs, hfs, rfl⟩ := luaToJson_record.mp h
          rw [represents_record hfs]
          refine and_congr_right' ?_
          rw [fieldsUnmixed_iff]
          exact forall₂_iff_forall hfs fun e he f hf =>
            hfields e he (fieldsProper_iff.mp hproper' e he) hf.2

end Pinhead.DroppedPairs
