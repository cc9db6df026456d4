import Mathlib.Data.Rat.Defs
import Mathlib.Data.Prod.Lex
import Mathlib.Data.String.Basic
import Pinhead.OrderedMaps

/-!
# Lua values and JSON values

Both directions of the conversion behind `json.enc`, `json.dec` and the document store. A
Lua table is one type for sequences and records: it is seen here as the values at
`1..raw_len` and the other pairs in the order in which `pairs` meets them. The JSON of a
table with a sequence is an array, whatever else the table holds.

LuaJIT has a single number type, the double; a number without a fraction that fits into 64
bits is handed to the server as an integer.
-/
namespace Pinhead.LuaJson
open OrderedMaps

/-! ## Values -/

/-- A key of a table. A string that is not UTF-8 is known by the error of its conversion, a
number with a fraction by the text it prints as. -/
inductive LuaKey where
  | string (text : String)
  | badString (error : String)
  | integer (i : ℤ)
  | number (text : String)
  | other (name : String)
  deriving DecidableEq, Repr

inductive LuaValue where
  | nil
  | boolean (b : Bool)
  | integer (i : ℤ)
  | number (n : ℚ)
  | nonFinite
  | string (text : String)
  | badString (error : String)
  | table (sequence : List LuaValue) (fields : List (LuaKey × LuaValue))
  | other
  deriving Repr

/-- Numbers are integers where the reader has one for them. An object lists its fields in
the order in which the map of the library goes through them. -/
inductive Json where
  | null
  | bool (b : Bool)
  | integer (i : ℤ)
  | float (n : ℚ)
  | string (text : String)
  | array (items : List Json)
  | object (fields : List (String × Json))
  deriving Repr

namespace LuaValue

def isNil : LuaValue → Bool
  | .nil => true
  | _ => false

/-- A double as the server sees it. -/
def ofNumber (n : ℚ) : LuaValue :=
  if n.den = 1 ∧ -2 ^ 63 ≤ n.num ∧ n.num < 2 ^ 63 then .integer n.num else .number n

end LuaValue

/-- The nearest double of an integer, the even one of two. -/
def nearestDouble (i : ℤ) : ℤ :=
  if i.natAbs ≤ 2 ^ 53 then i
  else
    let unit := 2 ^ (Nat.log2 i.natAbs - 52)
    let quotient := i.natAbs / unit
    let rest := i.natAbs % unit
    let rounded :=
      if 2 * rest < unit then quotient
      else if unit < 2 * rest then quotient + 1
      else quotient + quotient % 2
    i.sign * (rounded * unit)

/-- A 64-bit integer given to Lua becomes a double. -/
def LuaValue.ofInteger (i : ℤ) : LuaValue := .ofNumber (nearestDouble i)

theorem LuaValue.ofInteger_of_le {i : ℤ} (h : i.natAbs ≤ 2 ^ 53) : ofInteger i = .integer i := by
  rw [ofInteger, nearestDouble, if_pos h, ofNumber, Rat.den_intCast, Rat.num_intCast]
  exact if_pos (by omega)

/-- The length operator gives a border of a table: nothing stands behind it. With gaps in
the sequence there are several. -/
structure LuaJit where
  border : List LuaValue → ℕ
  border_le (vs : List LuaValue) : border vs ≤ vs.length
  border_last (vs : List LuaValue) (n : ℕ) : border vs = n + 1 → vs[n]? ≠ some .nil
  border_next (vs : List LuaValue) : border vs < vs.length → vs[border vs]? = some .nil

theorem LuaJit.border_eq_length (lua : LuaJit) {vs : List LuaValue}
    (h : ∀ v ∈ vs, v ≠ .nil) : lua.border vs = vs.length := by
  by_contra hne
  have hlt := lt_of_le_of_ne (lua.border_le vs) hne
  exact h _ (List.mem_of_getElem? (lua.border_next vs hlt)) rfl

/-! ## The first gap -/

def leadingBorder : List LuaValue → ℕ
  | [] => 0
  | v :: vs => if v.isNil then 0 else leadingBorder vs + 1

theorem isNil_eq_true {v : LuaValue} (h : v.isNil = true) : v = .nil := by
  cases v <;> first | rfl | cases h

theorem leadingBorder_le (vs : List LuaValue) : leadingBorder vs ≤ vs.length := by
  induction vs with
  | nil => exact le_refl _
  | cons v vs ih =>
      rw [leadingBorder, List.length_cons]
      split <;> omega

theorem leadingBorder_last (vs : List LuaValue) {n : ℕ} (h : n < leadingBorder vs) :
    vs[n]? ≠ some .nil := by
  induction vs generalizing n with
  | nil => cases h
  | cons v vs ih =>
      rw [leadingBorder] at h
      split at h
      · cases h
      · next hv =>
          cases n with
          | zero =>
              intro hnil
              obtain rfl := Option.some.inj hnil
              exact hv rfl
          | succ n => exact ih (Nat.lt_of_succ_lt_succ h)

theorem leadingBorder_next (vs : List LuaValue) (h : leadingBorder vs < vs.length) :
    vs[leadingBorder vs]? = some .nil := by
  induction vs with
  | nil => cases h
  | cons v vs ih =>
      rw [leadingBorder] at h ⊢
      split at h
      · next hv => rw [if_pos hv, isNil_eq_true hv]; rfl
      · next hv =>
          rw [if_neg hv]
          exact ih (Nat.lt_of_succ_lt_succ h)

/-- The border in front of the first gap. -/
def firstGap : LuaJit where
  border := leadingBorder
  border_le := leadingBorder_le
  border_last vs n h := leadingBorder_last vs (h ▸ Nat.lt_succ_self n)
  border_next := leadingBorder_next

/-! ## From Lua to JSON -/

def keyToString : LuaKey → Except String String
  | .string s => .ok s
  | .badString e => .error e
  | .integer i => .ok (toString i)
  | .number s => .ok s
  | .other _ => .error "object keys must be strings or numbers"

mutual

def luaToJson : LuaValue → Except String Json
  | .nil => .ok .null
  | .boolean b => .ok (.bool b)
  | .integer i => .ok (.integer i)
  | .number n => .ok (.float n)
  | .nonFinite => .error "cannot encode non-finite number"
  | .string s => .ok (.string s)
  | .badString e => .error e
  | .table (v :: sequence) _ => do return .array (← itemsToJson (v :: sequence))
  | .table [] fields => do return .object (← fieldsToJson fields [])
  | .other => .error "cannot encode this Lua type"

def itemsToJson : List LuaValue → Except String (List Json)
  | [] => .ok []
  | v :: vs => do
      let j ← luaToJson v
      return j :: (← itemsToJson vs)

/-- The pairs in turn, over the map filled so far. -/
def fieldsToJson : List (LuaKey × LuaValue) → List (String × Json) →
    Except String (List (String × Json))
  | [], map => .ok map
  | (k, v) :: fields, map => do
      let key ← keyToString k
      let j ← luaToJson v
      fieldsToJson fields (insertEntry key j map)

end

theorem bind_ok {α β : Type} {x : Except String α} {f : α → Except String β} {b : β} :
    x >>= f = .ok b ↔ ∃ a, x = .ok a ∧ f a = .ok b := by
  cases x with
  | ok a =>
      constructor
      · exact fun h => ⟨a, rfl, h⟩
      · rintro ⟨_, ⟨⟩, h⟩
        exact h
  | error e =>
      constructor
      · intro h
        cases h
      · rintro ⟨_, ha, _⟩
        cases ha

theorem itemsToJson_ok {vs : List LuaValue} {js : List Json} :
    itemsToJson vs = .ok js ↔ List.Forall₂ (fun v j => luaToJson v = .ok j) vs js := by
  induction vs generalizing js with
  | nil =>
      rw [itemsToJson, Except.ok.injEq, List.forall₂_nil_left_iff]
      exact eq_comm
  | cons v vs ih =>
      rw [itemsToJson, List.forall₂_cons_left_iff]
      constructor
      · intro h
        obtain ⟨j, hj, hrest⟩ := bind_ok.mp h
        obtain ⟨rest, hitems, hjs⟩ := bind_ok.mp hrest
        exact ⟨j, rest, hj, ih.mp hitems, (Except.ok.inj hjs).symm⟩
      · rintro ⟨j, rest, hj, hitems, rfl⟩
        rw [hj, ih.mpr hitems]
        rfl

/-- A pair with the member of the object it becomes. -/
def Encodes (e : LuaKey × LuaValue) (f : String × Json) : Prop :=
  keyToString e.1 = .ok f.1 ∧ luaToJson e.2 = .ok f.2

theorem fieldsToJson_ok {es : List (LuaKey × LuaValue)} {map result : List (String × Json)} :
    fieldsToJson es map = .ok result ↔ ∃ fs, List.Forall₂ Encodes es fs ∧
      fs.foldl (fun map f => insertEntry f.1 f.2 map) map = result := by
  induction es generalizing map with
  | nil =>
      rw [fieldsToJson, Except.ok.injEq]
      constructor
      · exact fun h => ⟨[], .nil, h⟩
      · rintro ⟨fs, hfs, hresult⟩
        rw [List.forall₂_nil_left_iff] at hfs
        rwa [hfs] at hresult
  | cons e es ih =>
      rw [fieldsToJson]
      constructor
      · intro h
        obtain ⟨key, hkey, hrest⟩ := bind_ok.mp h
        obtain ⟨j, hj, hfields⟩ := bind_ok.mp hrest
        obtain ⟨fs, hfs, hresult⟩ := ih.mp hfields
        exact ⟨(key, j) :: fs, .cons ⟨hkey, hj⟩ hfs, hresult⟩
      · rintro ⟨fs, hfs, hresult⟩
        obtain ⟨f, rest, ⟨hkey, hj⟩, hrest, rfl⟩ := List.forall₂_cons_left_iff.mp hfs
        rw [hkey, hj]
        exact ih.mpr ⟨rest, hrest, hresult⟩

/-! ## From JSON to Lua -/

/-- A new table with the values set at `1, 2, ..`; setting nil sets nothing. -/
def LuaJit.arrayTable (lua : LuaJit) (vs : List LuaValue) : LuaValue :=
  let n := lua.border vs
  .table (vs.take n) (((vs.drop n).zipIdx (n + 1)).filterMap fun e =>
    if e.1.isNil then none else some (.integer e.2, e.1))

/-- A new table with the values set at their keys. -/
def recordTable (fields : List (String × LuaValue)) : LuaValue :=
  .table [] (fields.filterMap fun e => if e.2.isNil then none else some (.string e.1, e.2))

mutual

/-- The number types of the JSON library never fail to decode. -/
def jsonToLua (lua : LuaJit) : Json → LuaValue
  | .null => .nil
  | .bool b => .boolean b
  | .integer i => .ofInteger i
  | .float n => .ofNumber n
  | .string s => .string s
  | .array items => lua.arrayTable (itemsToLua lua items)
  | .object fields => recordTable (membersToLua lua fields)

def itemsToLua (lua : LuaJit) : List Json → List LuaValue
  | [] => []
  | j :: items => jsonToLua lua j :: itemsToLua lua items

def membersToLua (lua : LuaJit) : List (String × Json) → List (String × LuaValue)
  | [] => []
  | (k, j) :: fields => (k, jsonToLua lua j) :: membersToLua lua fields

end

/-! ## Contents -/

/-- Keys are ordered by their kind first, strings by their characters. -/
def LuaKey.rank : LuaKey → ℕ ×ₗ ℤ ×ₗ String
  | .integer i => toLex (0, toLex (i, ""))
  | .number s => toLex (1, toLex (0, s))
  | .string s => toLex (2, toLex (0, s))
  | .badString e => toLex (3, toLex (0, e))
  | .other s => toLex (4, toLex (0, s))

theorem LuaKey.rank_injective : Function.Injective LuaKey.rank := by
  intro k l h
  cases k <;> cases l <;> simp_all [rank, Prod.ext_iff]

instance : LinearOrder LuaKey := LinearOrder.lift' LuaKey.rank LuaKey.rank_injective

theorem LuaKey.string_strictMono : StrictMono LuaKey.string := by
  intro s t h
  change (LuaKey.string s).rank < (LuaKey.string t).rank
  simpa [rank, Prod.Lex.toLex_lt_toLex] using h

namespace LuaValue

mutual

/-- The value with the fields of every table in key order. -/
def canonical : LuaValue → LuaValue
  | .table sequence fields =>
      .table (canonicalItems sequence) (sortEntries (canonicalFields fields))
  | v => v

def canonicalItems : List LuaValue → List LuaValue
  | [] => []
  | v :: vs => v.canonical :: canonicalItems vs

def canonicalFields : List (LuaKey × LuaValue) → List (LuaKey × LuaValue)
  | [] => []
  | (k, v) :: fields => (k, v.canonical) :: canonicalFields fields

end

/-- Tables count by their contents, not by the order of their fields. -/
def Same (v w : LuaValue) : Prop := v.canonical = w.canonical

mutual

/-- How deep tables are nested in the value. -/
def depth : LuaValue → ℕ
  | .table sequence fields => max (itemsDepth sequence) (fieldsDepth fields) + 1
  | _ => 0

def itemsDepth : List LuaValue → ℕ
  | [] => 0
  | v :: vs => max v.depth (itemsDepth vs)

def fieldsDepth : List (LuaKey × LuaValue) → ℕ
  | [] => 0
  | (_, v) :: fields => max v.depth (fieldsDepth fields)

end

/-- The values that the trip through JSON keeps. -/
inductive Lossless : LuaValue → Prop
  | boolean (b : Bool) : Lossless (.boolean b)
  | string (s : String) : Lossless (.string s)
  | integer {i : ℤ} : i.natAbs ≤ 2 ^ 53 → Lossless (.integer i)
  | sequence {vs : List LuaValue} : vs ≠ [] → (∀ v ∈ vs, Lossless v) → Lossless (.table vs [])
  | record {fields : List (String × LuaValue)} : (fields.map Prod.fst).Nodup →
      (∀ e ∈ fields, Lossless e.2) → Lossless (.table [] (fields.map (Prod.map .string id)))

theorem canonicalFields_eq_map (fields : List (LuaKey × LuaValue)) :
    canonicalFields fields = fields.map (Prod.map id canonical) := by
  induction fields with
  | nil => rfl
  | cons e fields ih => rw [canonicalFields, ih, List.map_cons]; rfl

theorem itemsDepth_le {vs : List LuaValue} {d : ℕ} :
    itemsDepth vs ≤ d ↔ ∀ v ∈ vs, v.depth ≤ d := by
  induction vs with
  | nil => simp [itemsDepth]
  | cons v vs ih => simp [itemsDepth, ih]

theorem fieldsDepth_le {fields : List (LuaKey × LuaValue)} {d : ℕ} :
    fieldsDepth fields ≤ d ↔ ∀ e ∈ fields, e.2.depth ≤ d := by
  induction fields with
  | nil => simp [fieldsDepth]
  | cons e fields ih => simp [fieldsDepth, ih]

theorem same_sequence {vs ws : List LuaValue} (h : List.Forall₂ Same vs ws) :
    Same (.table vs []) (.table ws []) := by
  rw [Same, canonical, canonical]
  congr 1
  induction h with
  | nil => rfl
  | cons hv _ ih => rw [canonicalItems, canonicalItems, hv, ih]

/-- A table with its fields in another order is the same table. -/
theorem same_of_perm {sequence : List LuaValue} {fields others : List (LuaKey × LuaValue)}
    (hkeys : (fields.map Prod.fst).Nodup) (hperm : fields.Perm others) :
    Same (.table sequence fields) (.table sequence others) := by
  have hnodup : ((fields.map (Prod.map id canonical)).map Prod.fst).Nodup := by
    rwa [List.map_map, show Prod.fst ∘ Prod.map id canonical = Prod.fst from rfl]
  rw [Same, canonical, canonical, canonicalFields_eq_map, canonicalFields_eq_map,
    sortEntries_perm hnodup (hperm.map _)]

end LuaValue

namespace Json

mutual

def depth : Json → ℕ
  | .array items => itemsDepth items + 1
  | .object fields => fieldsDepth fields + 1
  | _ => 0

def itemsDepth : List Json → ℕ
  | [] => 0
  | j :: items => max j.depth (itemsDepth items)

def fieldsDepth : List (String × Json) → ℕ
  | [] => 0
  | (_, j) :: fields => max j.depth (fieldsDepth fields)

end

theorem itemsDepth_le {items : List Json} {d : ℕ} :
    itemsDepth items ≤ d ↔ ∀ j ∈ items, j.depth ≤ d := by
  induction items with
  | nil => simp [itemsDepth]
  | cons j items ih => simp [itemsDepth, ih]

theorem fieldsDepth_le {fields : List (String × Json)} {d : ℕ} :
    fieldsDepth fields ≤ d ↔ ∀ e ∈ fields, e.2.depth ≤ d := by
  induction fields with
  | nil => simp [fieldsDepth]
  | cons e fields ih => simp [fieldsDepth, ih]

mutual

/-- The JSON with integers for the numbers that are integers written with a point or an
exponent. -/
def plain : Json → Json
  | .float n => if n.den = 1 ∧ n.num.natAbs ≤ 2 ^ 53 then .integer n.num else .float n
  | .array items => .array (plainItems items)
  | .object fields => .object (plainFields fields)
  | j => j

def plainItems : List Json → List Json
  | [] => []
  | j :: items => j.plain :: plainItems items

def plainFields : List (String × Json) → List (String × Json)
  | [] => []
  | (k, j) :: fields => (k, j.plain) :: plainFields fields

end

theorem plainItems_eq_map (items : List Json) : plainItems items = items.map plain := by
  induction items with
  | nil => rfl
  | cons j items ih => rw [plainItems, ih, List.map_cons]

theorem plainFields_eq_map (fields : List (String × Json)) :
    plainFields fields = fields.map (Prod.map id plain) := by
  induction fields with
  | nil => rfl
  | cons e fields ih => rw [plainFields, ih, List.map_cons]; rfl

/-- JSON that its text gives back: integers of 64 bits for numbers, and objects with their
fields in key order. -/
inductive Exact : Json → Prop
  | null : Exact .null
  | bool (b : Bool) : Exact (.bool b)
  | integer {i : ℤ} : -2 ^ 63 ≤ i → i < 2 ^ 64 → Exact (.integer i)
  | string (s : String) : Exact (.string s)
  | array {items : List Json} : (∀ j ∈ items, Exact j) → Exact (.array items)
  | object {fields : List (String × Json)} : Sorted fields → (∀ e ∈ fields, Exact e.2) →
      Exact (.object fields)

theorem Exact.plain_eq {j : Json} (h : j.Exact) : j.plain = j := by
  induction h with
  | @array items _ ih =>
      rw [plain, plainItems_eq_map, List.map_congr_left (g := id) ih, List.map_id]
  | @object fields _ _ ih =>
      have hfield (e : String × Json) (he : e ∈ fields) : e.map id plain = id e :=
        Prod.ext rfl (ih e he)
      rw [plain, plainFields_eq_map, List.map_congr_left hfield, List.map_id]
  | _ => rfl

end Json

/-! ## There and back -/

theorem ofNumber_ne_nil (n : ℚ) : LuaValue.ofNumber n ≠ .nil := by
  rw [LuaValue.ofNumber]
  split <;> simp

theorem jsonToLua_ne_nil (lua : LuaJit) {j : Json} (h : j ≠ .null) : jsonToLua lua j ≠ .nil := by
  cases j with
  | null => exact absurd rfl h
  | integer i => exact ofNumber_ne_nil _
  | float n => exact ofNumber_ne_nil n
  | _ => simp [jsonToLua, LuaJit.arrayTable, recordTable]

theorem itemsToLua_eq_map (lua : LuaJit) (items : List Json) :
    itemsToLua lua items = items.map (jsonToLua lua) := by
  induction items with
  | nil => rfl
  | cons j items ih => rw [itemsToLua, ih, List.map_cons]

theorem membersToLua_eq_map (lua : LuaJit) (fields : List (String × Json)) :
    membersToLua lua fields = fields.map (Prod.map id (jsonToLua lua)) := by
  induction fields with
  | nil => rfl
  | cons e fields ih => rw [membersToLua, ih, List.map_cons]; rfl

theorem LuaValue.isNil_eq_false {v : LuaValue} (h : v ≠ .nil) : v.isNil = false := by
  cases v <;> first | exact absurd rfl h | rfl

theorem LuaJit.arrayTable_eq (lua : LuaJit) {vs : List LuaValue} (h : ∀ v ∈ vs, v ≠ .nil) :
    lua.arrayTable vs = .table vs [] := by
  rw [arrayTable, lua.border_eq_length h, List.take_length, List.drop_length]
  rfl

theorem recordTable_eq {fields : List (String × LuaValue)} (h : ∀ e ∈ fields, e.2 ≠ .nil) :
    recordTable fields = .table [] (fields.map (Prod.map .string id)) := by
  rw [recordTable]
  congr 1
  induction fields with
  | nil => rfl
  | cons e fields ih =>
      obtain ⟨he, hfields⟩ := List.forall_mem_cons.mp h
      rw [List.filterMap_cons, ih hfields, LuaValue.isNil_eq_false he]
      rfl

mutual

/-- How a number is written makes no difference to Lua. -/
theorem jsonToLua_plain (lua : LuaJit) : (j : Json) → jsonToLua lua j.plain = jsonToLua lua j
  | .null => rfl
  | .bool _ => rfl
  | .integer _ => rfl
  | .string _ => rfl
  | .float n => by
      rw [Json.plain]
      split
      · next h =>
          rw [jsonToLua, jsonToLua, LuaValue.ofInteger, nearestDouble, if_pos h.2]
          congr 1
          exact Rat.den_eq_one_iff n |>.mp h.1
      · rfl
  | .array items => by rw [Json.plain, jsonToLua, jsonToLua, itemsToLua_plain lua items]
  | .object fields => by rw [Json.plain, jsonToLua, jsonToLua, membersToLua_plain lua fields]

theorem itemsToLua_plain (lua : LuaJit) :
    (items : List Json) → itemsToLua lua (Json.plainItems items) = itemsToLua lua items
  | [] => rfl
  | j :: items => by
      rw [Json.plainItems, itemsToLua, itemsToLua, jsonToLua_plain lua j,
        itemsToLua_plain lua items]

theorem membersToLua_plain (lua : LuaJit) :
    (fields : List (String × Json)) →
      membersToLua lua (Json.plainFields fields) = membersToLua lua fields
  | [] => rfl
  | (k, j) :: fields => by
      rw [Json.plainFields, membersToLua, membersToLua, jsonToLua_plain lua j,
        membersToLua_plain lua fields]

end

/-- The JSON of a value, complete enough to get the value back. -/
structure Faithful (v : LuaValue) (j : Json) : Prop where
  encodes : luaToJson v = .ok j
  notNull : j ≠ .null
  exact : j.Exact
  depth_le : j.depth ≤ v.depth
  decodes (lua : LuaJit) : (jsonToLua lua j).Same v

theorem exists_forall₂ {α β : Type} {R : α → β → Prop} {xs : List α}
    (h : ∀ x ∈ xs, ∃ y, R x y) : ∃ ys, List.Forall₂ R xs ys := by
  induction xs with
  | nil => exact ⟨[], .nil⟩
  | cons x xs ih =>
      obtain ⟨hx, hxs⟩ := List.forall_mem_cons.mp h
      obtain ⟨y, hy⟩ := hx
      obtain ⟨ys, hys⟩ := ih hxs
      exact ⟨y :: ys, .cons hy hys⟩

section Sequences

variable {vs : List LuaValue} {js : List Json}

theorem itemsToJson_eq (h : List.Forall₂ Faithful vs js) : itemsToJson vs = .ok js :=
  itemsToJson_ok.mpr (h.imp fun _ _ hj => hj.encodes)

theorem same_items (lua : LuaJit) (h : List.Forall₂ Faithful vs js) :
    List.Forall₂ LuaValue.Same (js.map (jsonToLua lua)) vs := by
  induction h with
  | nil => exact .nil
  | cons hv _ ih => exact .cons (hv.decodes lua) ih

theorem forall_of_faithful {P : Json → Prop} (h : List.Forall₂ Faithful vs js)
    (hP : ∀ v ∈ vs, ∀ j, Faithful v j → P j) : ∀ j ∈ js, P j := by
  induction h with
  | nil => simp
  | cons hv _ ih =>
      rw [List.forall_mem_cons] at hP ⊢
      exact ⟨hP.1 _ hv, ih hP.2⟩

theorem faithful_sequence (hne : vs ≠ []) (h : List.Forall₂ Faithful vs js) :
    Faithful (.table vs []) (.array js) := by
  have hnil (lua : LuaJit) : ∀ v ∈ js.map (jsonToLua lua), v ≠ .nil := by
    rw [List.forall_mem_map]
    exact forall_of_faithful h fun _ _ _ hj => jsonToLua_ne_nil lua hj.notNull
  constructor
  case encodes =>
    obtain ⟨v, rest, rfl⟩ := List.exists_cons_of_ne_nil hne
    rw [luaToJson, itemsToJson_eq h]
    rfl
  case notNull => simp
  case exact => exact .array (forall_of_faithful h fun _ _ _ hj => hj.exact)
  case depth_le =>
    apply Nat.succ_le_succ
    apply le_max_of_le_left
    rw [Json.itemsDepth_le]
    exact forall_of_faithful h fun v hv j hj =>
      hj.depth_le.trans (LuaValue.itemsDepth_le.mp (le_refl _) v hv)
  case decodes =>
    intro lua
    rw [jsonToLua, itemsToLua_eq_map, lua.arrayTable_eq (hnil lua)]
    exact LuaValue.same_sequence (same_items lua h)

end Sequences

section Records

/-- The same key, with the JSON of the value. -/
def FaithfulField (e : String × LuaValue) (f : String × Json) : Prop :=
  e.1 = f.1 ∧ Faithful e.2 f.2

variable {es : List (String × LuaValue)} {fs : List (String × Json)}

theorem fieldsToJson_eq (h : List.Forall₂ FaithfulField es fs) (map : List (String × Json)) :
    fieldsToJson (es.map (Prod.map .string id)) map =
      .ok (fs.foldl (fun map f => insertEntry f.1 f.2 map) map) := by
  refine fieldsToJson_ok.mpr ⟨fs, ?_, rfl⟩
  rw [List.forall₂_map_left_iff]
  exact h.imp fun _ _ he => ⟨congrArg Except.ok he.1, he.2.encodes⟩

theorem same_fields (lua : LuaJit) (h : List.Forall₂ FaithfulField es fs) :
    fs.map (Prod.map LuaKey.string (LuaValue.canonical ∘ jsonToLua lua)) =
      es.map (Prod.map LuaKey.string LuaValue.canonical) := by
  induction h with
  | nil => rfl
  | cons he _ ih =>
      have hvalue : (jsonToLua lua _).canonical = _ := he.2.decodes lua
      rw [List.map_cons, List.map_cons, ih, Prod.map_apply', Prod.map_apply', he.1,
        Function.comp_apply, hvalue]

theorem map_keys (h : List.Forall₂ FaithfulField es fs) : fs.map Prod.fst = es.map Prod.fst := by
  induction h with
  | nil => rfl
  | cons he _ ih => rw [List.map_cons, List.map_cons, ih, he.1]

theorem forall_fields_of_faithful {P : Json → Prop} (h : List.Forall₂ FaithfulField es fs)
    (hkeys : (es.map Prod.fst).Nodup) (hP : ∀ e ∈ es, ∀ j, Faithful e.2 j → P j) :
    ∀ f ∈ sortEntries fs, P f.2 := by
  rw [← map_keys h] at hkeys
  have hfs : ∀ f ∈ fs, P f.2 := by
    clear hkeys
    induction h with
    | nil => simp
    | cons he _ ih =>
        rw [List.forall_mem_cons] at hP ⊢
        exact ⟨hP.1 _ he.2, ih hP.2⟩
  exact fun f hf => hfs f ((perm_sortEntries hkeys).mem_iff.mp hf)

theorem faithful_record (hkeys : (es.map Prod.fst).Nodup) (h : List.Forall₂ FaithfulField es fs) :
    Faithful (.table [] (es.map (Prod.map .string id))) (.object (sortEntries fs)) := by
  have hnil (lua : LuaJit) :
      ∀ e ∈ (sortEntries fs).map (Prod.map id (jsonToLua lua)), e.2 ≠ .nil := by
    rw [List.forall_mem_map]
    exact forall_fields_of_faithful h hkeys fun _ _ _ hj => jsonToLua_ne_nil lua hj.notNull
  constructor
  case encodes =>
    rw [luaToJson, fieldsToJson_eq h]
    rfl
  case notNull => simp
  case exact =>
    exact .object (sorted_sortEntries fs)
      (forall_fields_of_faithful h hkeys fun _ _ _ hj => hj.exact)
  case depth_le =>
    apply Nat.succ_le_succ
    apply le_max_of_le_right
    rw [Json.fieldsDepth_le]
    refine forall_fields_of_faithful h hkeys fun e he j hj => hj.depth_le.trans ?_
    have hmem := List.mem_map_of_mem (f := Prod.map LuaKey.string id) he
    exact LuaValue.fieldsDepth_le.mp (le_refl _) _ hmem
  case decodes =>
    intro lua
    have hsorted := sorted_sortEntries (es.map (Prod.map LuaKey.string LuaValue.canonical))
    rw [jsonToLua, membersToLua_eq_map, recordTable_eq (hnil lua), LuaValue.Same,
      LuaValue.canonical, LuaValue.canonical, LuaValue.canonicalFields_eq_map,
      LuaValue.canonicalFields_eq_map, List.map_map, List.map_map, List.map_map,
      Prod.map_comp_map, Prod.map_comp_map]
    change LuaValue.table [] (sortEntries ((sortEntries fs).map
      (Prod.map LuaKey.string (LuaValue.canonical ∘ jsonToLua lua)))) =
      .table [] (sortEntries (es.map (Prod.map LuaKey.string LuaValue.canonical)))
    rw [← sortEntries_map LuaKey.string_strictMono, same_fields lua h,
      sortEntries_of_sorted hsorted]

end Records

/-- The trip through JSON keeps a value. -/
theorem LuaValue.Lossless.faithful {v : LuaValue} (h : v.Lossless) : ∃ j, Faithful v j := by
  induction h with
  | boolean b => exact ⟨.bool b, rfl, by simp, .bool b, le_refl _, fun _ => rfl⟩
  | string s => exact ⟨.string s, rfl, by simp, .string s, le_refl _, fun _ => rfl⟩
  | @integer i hi =>
      exact ⟨.integer i, rfl, by simp, .integer (by omega) (by omega), le_refl _, fun _ =>
        congrArg LuaValue.canonical (LuaValue.ofInteger_of_le hi)⟩
  | sequence hne _ ih =>
      obtain ⟨js, hjs⟩ := exists_forall₂ ih
      exact ⟨_, faithful_sequence hne hjs⟩
  | record hkeys _ ih =>
      obtain ⟨fs, hfs⟩ := exists_forall₂ (R := FaithfulField) fun e he =>
        (ih e he).imp' (fun j => (e.1, j)) fun _ hj => ⟨rfl, hj⟩
      exact ⟨_, faithful_record hkeys hfs⟩

end Pinhead.LuaJson
