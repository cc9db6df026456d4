import Pinhead.LuaJson

/-!
# JSON through Lua and back

An array and an object both become a table. The way back asks for the length of the table
alone: a table with a sequence is an array. The keys of an object are strings, also those
that look like numbers, so its table has no sequence; an array that is not empty and has no
null in it has one with all its items.

Lua goes through the pairs of a table in an order of its own. The table that comes back may
have its pairs in any order.
-/
namespace Pinhead.JsonRoundTrips
open OrderedMaps LuaJson

/-! ## Tables in another order -/

/-- The same value, with the pairs of its tables in another order at every depth. -/
inductive Reordered : LuaValue → LuaValue → Prop
  | refl (v : LuaValue) : Reordered v v
  | table {items : List (LuaValue × LuaValue)} {pairs : List (LuaKey × LuaValue × LuaValue)}
      {fields : List (LuaKey × LuaValue)} :
      (∀ p ∈ items, Reordered p.1 p.2) → (∀ e ∈ pairs, Reordered e.2.1 e.2.2) →
      fields.Perm (pairs.map fun e => (e.1, e.2.1)) →
      Reordered (.table (items.map Prod.fst) fields)
        (.table (items.map Prod.snd) (pairs.map fun e => (e.1, e.2.2)))

theorem forall₂_of_pairs {α β : Type} {R : α → β → Prop} {ps : List (α × β)}
    (h : ∀ p ∈ ps, R p.1 p.2) : List.Forall₂ R (ps.map Prod.fst) (ps.map Prod.snd) := by
  rw [List.forall₂_map_left_iff, List.forall₂_map_right_iff, List.forall₂_same]
  exact h

/-- The same key, with reordered values. -/
def ReorderedPair (e f : LuaKey × LuaValue) : Prop := e.1 = f.1 ∧ Reordered e.2 f.2

theorem reordered_table {vs : List LuaValue} {fields : List (LuaKey × LuaValue)} {v : LuaValue}
    (h : Reordered v (.table vs fields)) : ∃ ws others swapped, v = .table ws others ∧
      List.Forall₂ Reordered ws vs ∧ others.Perm swapped ∧
      List.Forall₂ ReorderedPair swapped fields := by
  cases h with
  | refl =>
      refine ⟨vs, fields, fields, rfl, ?_, List.Perm.refl _, ?_⟩
      · exact List.forall₂_same.mpr fun v _ => .refl v
      · exact List.forall₂_same.mpr fun e _ => ⟨rfl, .refl e.2⟩
  | table hitems hpairs hperm =>
      refine ⟨_, _, _, rfl, forall₂_of_pairs hitems, hperm, ?_⟩
      rw [List.forall₂_map_left_iff, List.forall₂_map_right_iff, List.forall₂_same]
      exact fun e he => ⟨rfl, hpairs e he⟩

/-! ## JSON as a value -/

mutual

/-- The value with the members of every object in key order. -/
def canonical : Json → Json
  | .array items => .array (canonicalItems items)
  | .object fields => .object (sortEntries (canonicalFields fields))
  | j => j

def canonicalItems : List Json → List Json
  | [] => []
  | j :: items => canonical j :: canonicalItems items

def canonicalFields : List (String × Json) → List (String × Json)
  | [] => []
  | (k, j) :: fields => (k, canonical j) :: canonicalFields fields

end

/-- Objects are unordered maps. -/
def Equal (j k : Json) : Prop := canonical j = canonical k

theorem canonicalItems_eq_map (items : List Json) : canonicalItems items = items.map canonical := by
  induction items with
  | nil => rfl
  | cons j items ih => rw [canonicalItems, ih, List.map_cons]

theorem canonicalFields_eq_map (fields : List (String × Json)) :
    canonicalFields fields = fields.map (Prod.map id canonical) := by
  induction fields with
  | nil => rfl
  | cons e fields ih =>
      rw [canonicalFields, ih, List.map_cons]
      rfl

theorem equal_array {js ks : List Json} (h : List.Forall₂ Equal js ks) :
    Equal (.array js) (.array ks) := by
  rw [Equal, canonical, canonical, canonicalItems_eq_map, canonicalItems_eq_map]
  congr 1
  induction h with
  | nil => rfl
  | cons hj _ ih => rw [List.map_cons, List.map_cons, hj, ih]

/-- The same key, with equal values. -/
def EqualMember (e f : String × Json) : Prop := e.1 = f.1 ∧ Equal e.2 f.2

theorem keys_eq {fs gs : List (String × Json)} (h : List.Forall₂ EqualMember fs gs) :
    fs.map Prod.fst = gs.map Prod.fst := by
  induction h with
  | nil => rfl
  | cons he _ ih => rw [List.map_cons, List.map_cons, he.1, ih]

/-- The order in which the members of an object come makes no difference. -/
theorem equal_object {others fs gs : List (String × Json)} (hperm : others.Perm fs)
    (hequal : List.Forall₂ EqualMember fs gs) (hkeys : (gs.map Prod.fst).Nodup) :
    Equal (.object (sortEntries others)) (.object gs) := by
  have hmap : fs.map (Prod.map id canonical) = gs.map (Prod.map id canonical) := by
    clear hperm hkeys
    induction hequal with
    | nil => rfl
    | @cons e f _ _ he _ ih =>
        rw [List.map_cons, List.map_cons, ih, Prod.map_apply', Prod.map_apply', he.1,
          show canonical e.2 = canonical f.2 from he.2]
  have hnodup : (others.map Prod.fst).Nodup := by
    rw [(hperm.map Prod.fst).nodup_iff, keys_eq hequal]
    exact hkeys
  have hnodup' : ((others.map (Prod.map id canonical)).map Prod.fst).Nodup := by
    rwa [List.map_map, show Prod.fst ∘ Prod.map id canonical = Prod.fst from rfl]
  rw [Equal, canonical, canonical, canonicalFields_eq_map, canonicalFields_eq_map,
    sortEntries_map strictMono_id, sortEntries_of_sorted (sorted_sortEntries others),
    ← sortEntries_map strictMono_id, sortEntries_perm hnodup' (hperm.map _), hmap]

/-! ## There and back -/

/-- No null, no empty array, and only integers that a double holds for numbers. -/
inductive Portable : Json → Prop
  | bool (b : Bool) : Portable (.bool b)
  | string (s : String) : Portable (.string s)
  | integer {i : ℤ} : i.natAbs ≤ 2 ^ 53 → Portable (.integer i)
  | array {items : List Json} : items ≠ [] → (∀ j ∈ items, Portable j) → Portable (.array items)
  | object {fields : List (String × Json)} : (fields.map Prod.fst).Nodup →
      (∀ e ∈ fields, Portable e.2) → Portable (.object fields)

theorem Portable.ne_null {j : Json} (h : Portable j) : j ≠ .null := by
  cases h <;> exact Json.noConfusion

/-- What has come back from Lua, whatever the order of the pairs. -/
def Returns (lua : LuaJit) (j : Json) : Prop :=
  ∀ v, Reordered v (jsonToLua lua j) → ∃ j', luaToJson v = .ok j' ∧ Equal j' j

section
variable {lua : LuaJit}

theorem returns_array {items : List Json} (hne : items ≠ []) (hnull : ∀ j ∈ items, j ≠ .null)
    (h : ∀ j ∈ items, Returns lua j) : Returns lua (.array items) := by
  intro v hv
  have hnil : ∀ v ∈ items.map (jsonToLua lua), v ≠ .nil := by
    rw [List.forall_mem_map]
    exact fun j hj => jsonToLua_ne_nil lua (hnull j hj)
  rw [jsonToLua, itemsToLua_eq_map, lua.arrayTable_eq hnil] at hv
  obtain ⟨ws, others, swapped, rfl, hws, -, -⟩ := reordered_table hv
  have hback : ∃ js, List.Forall₂ (fun v j => luaToJson v = .ok j) ws js ∧
      List.Forall₂ Equal js items := by
    clear hv hnil hne hnull
    rw [List.forall₂_map_right_iff] at hws
    induction hws with
    | nil => exact ⟨[], .nil, .nil⟩
    | @cons w j _ _ hw _ ih =>
        obtain ⟨hj, hitems⟩ := List.forall_mem_cons.mp h
        obtain ⟨k, hk, hequal⟩ := hj w hw
        obtain ⟨js, hjs, hequals⟩ := ih hitems
        exact ⟨k :: js, .cons hk hjs, .cons hequal hequals⟩
  obtain ⟨js, hjs, hequals⟩ := hback
  refine ⟨.array js, ?_, equal_array hequals⟩
  cases hws' : ws with
  | nil =>
      rw [hws'] at hws
      exact absurd (List.map_eq_nil_iff.mp (List.forall₂_nil_left_iff.mp hws)) hne
  | cons w rest =>
      rw [hws'] at hjs
      rw [luaToJson, itemsToJson_ok.mpr hjs]
      rfl

theorem returns_object {fields : List (String × Json)} (hkeys : (fields.map Prod.fst).Nodup)
    (hnull : ∀ e ∈ fields, e.2 ≠ .null) (h : ∀ e ∈ fields, Returns lua e.2) :
    Returns lua (.object fields) := by
  intro v hv
  have hnil : ∀ e ∈ fields.map (Prod.map id (jsonToLua lua)), e.2 ≠ .nil := by
    rw [List.forall_mem_map]
    exact fun e he => jsonToLua_ne_nil lua (hnull e he)
  rw [jsonToLua, membersToLua_eq_map, recordTable_eq hnil] at hv
  obtain ⟨ws, others, swapped, rfl, hws, hperm, hswapped⟩ := reordered_table hv
  obtain rfl := List.forall₂_nil_right_iff.mp hws
  have hback : ∃ fs, List.Forall₂ Encodes swapped fs ∧ List.Forall₂ EqualMember fs fields := by
    clear hv hnil hkeys hnull hperm hws
    rw [List.map_map, List.forall₂_map_right_iff] at hswapped
    induction hswapped with
    | nil => exact ⟨[], .nil, .nil⟩
    | @cons e f _ _ he _ ih =>
        obtain ⟨hf, hfields⟩ := List.forall_mem_cons.mp h
        obtain ⟨k, hk, hequal⟩ := hf e.2 he.2
        obtain ⟨fs, hfs, hequals⟩ := ih hfields
        refine ⟨(f.1, k) :: fs, .cons ⟨?_, hk⟩ hfs, .cons ⟨rfl, hequal⟩ hequals⟩
        rw [he.1]
        rfl
  obtain ⟨fs, hfs, hequals⟩ := hback
  obtain ⟨gs, hgs, hperm'⟩ := List.perm_comp_forall₂ hperm hfs
  refine ⟨.object (sortEntries gs), ?_, equal_object hperm' hequals hkeys⟩
  rw [luaToJson, fieldsToJson_ok.mpr ⟨gs, hgs, rfl⟩]
  rfl

theorem returns_scalar {j : Json} {v : LuaValue} (hlua : jsonToLua lua j = v)
    (htable : ∀ vs fields, v ≠ .table vs fields) (hjson : luaToJson v = .ok j) :
    Returns lua j := by
  intro w hw
  rw [hlua] at hw
  cases hw with
  | refl => exact ⟨j, hjson, rfl⟩
  | table _ _ _ => exact absurd rfl (htable _ _)

end

/-- JSON survives the trip through Lua. -/
theorem json_survives_lua (lua : LuaJit) {j : Json} (hj : Portable j) {v : LuaValue}
    (hv : Reordered v (jsonToLua lua j)) : ∃ j', luaToJson v = .ok j' ∧ Equal j' j := by
  have hreturns : Returns lua j := by
    clear hv
    induction hj with
    | bool b => exact returns_scalar rfl (fun _ _ => LuaValue.noConfusion) rfl
    | string s => exact returns_scalar rfl (fun _ _ => LuaValue.noConfusion) rfl
    | integer hi =>
        exact returns_scalar (LuaValue.ofInteger_of_le hi) (fun _ _ => LuaValue.noConfusion) rfl
    | array hne hitems ih =>
        exact returns_array hne (fun j hj => (hitems j hj).ne_null) ih
    | object hkeys hfields ih =>
        exact returns_object hkeys (fun e he => (hfields e he).ne_null) ih
  exact hreturns v hv

/-- An object whose only key looks like an index. -/
theorem json_survives_lua_index : ∃ j',
    luaToJson (.table [] [(.string "1", .integer 5)]) = .ok j' ∧
      Equal j' (.object [("1", .integer 5)]) := by
  have hportable : Portable (.object [("1", .integer 5)]) := by
    refine .object (List.nodup_singleton _) fun e he => ?_
    rw [List.mem_singleton.mp he]
    exact .integer (by decide)
  have htable : jsonToLua firstGap (.object [("1", .integer 5)]) =
      .table [] [(.string "1", .integer 5)] := rfl
  exact json_survives_lua firstGap hportable (htable ▸ .refl _)

end Pinhead.JsonRoundTrips
