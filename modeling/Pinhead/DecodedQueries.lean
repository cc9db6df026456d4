import Pinhead.PathQueries

/-!
# Queries and indexing

A script reaches into a document in two ways: it queries the text by a path, or it decodes the
text and indexes the tables. The query converts only the part it has reached; the decoder
converts everything, and drops nulls on the way. Both give the same value.
-/
namespace Pinhead.DecodedQueries
open ByteStrings LuaJson PathQueries

/-! ## Indexing -/

/-- The value at a key of the sequence. -/
def slot (sequence : List LuaValue) : LuaKey → Option LuaValue
  | .integer i => if 1 ≤ i then sequence[(i - 1).toNat]? else none
  | _ => none

/-- What a table has under a key, which is nil for a key that it does not have. Indexing
anything else is no access to a table. -/
def get : LuaValue → LuaKey → Option LuaValue
  | .table sequence fields, key =>
      some (match slot sequence key with
        | some v => v
        | none => (fields.lookup key).getD .nil)
  | _, _ => none

/-- Indexing again and again. -/
def walk (v : LuaValue) (keys : List LuaKey) : Option LuaValue := keys.foldlM get v

/-- Lua counts from one. -/
def keyOf : Step → LuaKey
  | .index i => .integer (i.val + 1)
  | .key k => .string k

/-- The keys of every object in the value are distinct, as they are in the map of the library. -/
def Distinct (val : Json) : Prop :=
  ∀ steps fields, descend val steps = some (.object fields) → (fields.map Prod.fst).Nodup

theorem Distinct.child {val w : Json} (h : Distinct val) {step : Step}
    (hw : child val step = some w) : Distinct w := by
  intro steps fields hdescend
  apply h (step :: steps) fields
  rw [descend, hw]
  exact hdescend

theorem distinct_of_children {val : Json}
    (hfields : ∀ fields, val = .object fields → (fields.map Prod.fst).Nodup)
    (hchild : ∀ step w, child val step = some w → Distinct w) : Distinct val := by
  intro steps fields h
  cases steps with
  | nil => exact hfields fields (Option.some.inj h)
  | cons step steps =>
      rw [descend] at h
      obtain ⟨w, hw, hdescend⟩ := Option.bind_eq_some_iff.mp h
      exact hchild step w hw steps fields hdescend

/-! ## One step -/

/-- The values behind the border of a table, which are kept under their numbers. -/
theorem lookup_zipIdx (vs : List LuaValue) (m k : ℕ) :
    (((vs.zipIdx m).filterMap fun e =>
      if e.1.isNil then none else some (LuaKey.integer e.2, e.1)).lookup (.integer k)).getD .nil =
      if m ≤ k then vs[k - m]?.getD .nil else .nil := by
  induction vs generalizing m with
  | nil => simp
  | cons v vs ih =>
      rw [List.zipIdx_cons, List.filterMap_cons]
      by_cases hk : k = m
      · subst hk
        cases hv : v.isNil with
        | true =>
            simp only [if_true]
            rw [ih, isNil_eq_true hv]
            simp
        | false => simp
      · have hindex : (if m ≤ k then (v :: vs)[k - m]?.getD .nil else .nil) =
            if m + 1 ≤ k then vs[k - (m + 1)]?.getD .nil else LuaValue.nil := by
          by_cases hle : m + 1 ≤ k
          · have hsub : k - m = k - (m + 1) + 1 := by omega
            rw [if_pos hle, if_pos (by omega), hsub, List.getElem?_cons_succ]
          · rw [if_neg hle, if_neg (by omega)]
        rw [hindex, ← ih (m + 1)]
        cases hv : v.isNil with
        | true => simp
        | false =>
            have hne : (LuaKey.integer k == LuaKey.integer m) = false := by simp [hk]
            simp [List.lookup_cons, hne]

theorem get_arrayTable (lua : LuaJit) (vs : List LuaValue) (i : ℕ) :
    get (lua.arrayTable vs) (.integer (i + 1)) = some (vs[i]?.getD .nil) := by
  have hle := lua.border_le vs
  have hslot : slot (vs.take (lua.border vs)) (.integer (i + 1)) =
      (vs.take (lua.border vs))[i]? := by
    rw [slot, if_pos (by omega)]
    congr 1
    omega
  rw [LuaJit.arrayTable, get, hslot]
  by_cases hi : i < lua.border vs
  · rw [List.getElem?_take_of_lt hi, List.getElem?_eq_getElem (by omega)]
    rfl
  · rw [List.getElem?_eq_none (by rw [List.length_take]; omega)]
    have hlookup := lookup_zipIdx (vs.drop (lua.border vs)) (lua.border vs + 1) (i + 1)
    rw [if_pos (by omega), List.getElem?_drop] at hlookup
    have hsum : lua.border vs + (i + 1 - (lua.border vs + 1)) = i := by omega
    rw [hsum] at hlookup
    exact congrArg some hlookup

/-- The keys of what a function keeps are keys of what it was given. -/
theorem lookup_dropped {fields : List (String × LuaValue)} {k : String}
    (h : k ∉ fields.map Prod.fst) :
    (fields.filterMap fun e =>
      if e.2.isNil then none else some (LuaKey.string e.1, e.2)).lookup (.string k) = none := by
  rw [List.lookup_eq_none_iff]
  intro e he
  obtain ⟨f, hf, hsome⟩ := List.mem_filterMap.mp he
  split at hsome
  · cases hsome
  · obtain rfl := Option.some.inj hsome
    have hne : k ≠ f.1 := fun hk => h (hk ▸ List.mem_map_of_mem hf)
    simp [hne]

theorem lookup_recordTable {fields : List (String × LuaValue)}
    (h : (fields.map Prod.fst).Nodup) (k : String) :
    ((fields.filterMap fun e =>
      if e.2.isNil then none else some (LuaKey.string e.1, e.2)).lookup (.string k)).getD .nil =
      (fields.lookup k).getD .nil := by
  induction fields with
  | nil => rfl
  | cons e fields ih =>
      obtain ⟨key, v⟩ := e
      obtain ⟨hkey, hfields⟩ := List.nodup_cons.mp h
      rw [List.filterMap_cons]
      by_cases hk : k = key
      · subst hk
        cases hv : v.isNil with
        | true =>
            simp only [if_true]
            rw [lookup_dropped hkey, isNil_eq_true hv]
            simp
        | false => simp
      · have hne : (k == key) = false := by simp [hk]
        have hne' : (LuaKey.string k == LuaKey.string key) = false := by simp [hk]
        rw [List.lookup_cons, hne, ← ih hfields]
        cases hv : v.isNil with
        | true => simp
        | false => simp [List.lookup_cons, hne']

theorem lookup_map {A B : Type} (f : A → B) (fields : List (String × A)) (k : String) :
    (fields.map (Prod.map id f)).lookup k = (fields.lookup k).map f := by
  induction fields with
  | nil => rfl
  | cons e fields ih =>
      obtain ⟨key, a⟩ := e
      rw [List.map_cons, Prod.map_apply, id_eq, List.lookup_cons, List.lookup_cons]
      cases k == key with
      | true => rfl
      | false => exact ih

theorem get_absent {sequence : List LuaValue} {fields : List (LuaKey × LuaValue)} {key : LuaKey}
    (hslot : slot sequence key = none) (hfields : ∀ e ∈ fields, e.1 ≠ key) :
    get (.table sequence fields) key = some .nil := by
  have hlookup : fields.lookup key = none := by
    rw [List.lookup_eq_none_iff]
    intro e he
    have hne : key ≠ e.1 := Ne.symm (hfields e he)
    simp [hne]
  rw [get, hslot, hlookup]
  rfl

theorem get_ofNumber (n : ℚ) (key : LuaKey) : get (.ofNumber n) key = none := by
  rw [LuaValue.ofNumber]
  split <;> rfl

theorem get_array (lua : LuaJit) (items : List Json) (step : Step) :
    get (jsonToLua lua (.array items)) (keyOf step) =
      some (((child (.array items) step).map (jsonToLua lua)).getD .nil) := by
  rw [jsonToLua, itemsToLua_eq_map]
  cases step with
  | index i =>
      rw [keyOf, get_arrayTable, List.getElem?_map]
      rfl
  | key k =>
      apply get_absent
      · rfl
      · intro e he hkey
        obtain ⟨f, _, hsome⟩ := List.mem_filterMap.mp he
        split at hsome
        · cases hsome
        · obtain rfl := Option.some.inj hsome
          cases hkey

theorem get_object (lua : LuaJit) {fields : List (String × Json)}
    (h : (fields.map Prod.fst).Nodup) (step : Step) :
    get (jsonToLua lua (.object fields)) (keyOf step) =
      some (((child (.object fields) step).map (jsonToLua lua)).getD .nil) := by
  rw [jsonToLua, membersToLua_eq_map, recordTable]
  cases step with
  | index i =>
      apply get_absent
      · simp [keyOf, slot]
      · intro e he hkey
        obtain ⟨f, _, hsome⟩ := List.mem_filterMap.mp he
        split at hsome
        · cases hsome
        · obtain rfl := Option.some.inj hsome
          cases hkey
  | key k =>
      have hslot : slot [] (keyOf (.key k)) = none := rfl
      have hmap : ((fields.map (Prod.map id (jsonToLua lua))).map Prod.fst).Nodup := by
        rw [List.map_map]
        exact h
      have hlookup := lookup_recordTable hmap k
      rw [lookup_map] at hlookup
      rw [get, hslot]
      exact congrArg some hlookup

/-- Only what was an array or an object can be indexed. -/
theorem get_scalar (lua : LuaJit) {val : Json} (harray : ∀ items, val ≠ .array items)
    (hobject : ∀ fields, val ≠ .object fields) (key : LuaKey) :
    get (jsonToLua lua val) key = none := by
  cases val with
  | array items => exact absurd rfl (harray items)
  | object fields => exact absurd rfl (hobject fields)
  | integer i => exact get_ofNumber _ key
  | float n => exact get_ofNumber n key
  | _ => rfl

/-- A part of a value is what its table has under the key of the part. -/
theorem get_child (lua : LuaJit) {val w : Json} (h : Distinct val) {step : Step}
    (hw : child val step = some w) : get (jsonToLua lua val) (keyOf step) =
      some (jsonToLua lua w) := by
  cases val with
  | array items => rw [get_array, hw]; rfl
  | object fields => rw [get_object lua (h [] fields rfl), hw]; rfl
  | _ => cases step <;> cases hw

/-- What is found in a table and is not nil is a part of the value. -/
theorem child_of_get (lua : LuaJit) {val : Json} (h : Distinct val) {step : Step} {v : LuaValue}
    (hv : get (jsonToLua lua val) (keyOf step) = some v) (hnil : v ≠ .nil) :
    ∃ w, child val step = some w ∧ v = jsonToLua lua w := by
  have hchild : some (((child val step).map (jsonToLua lua)).getD .nil) = some v := by
    cases val with
    | array items => rw [← get_array, hv]
    | object fields => rw [← get_object lua (h [] fields rfl), hv]
    | _ =>
        rw [get_scalar lua (by simp) (by simp)] at hv
        cases hv
  cases hw : child val step with
  | none =>
      rw [hw] at hchild
      exact absurd (Option.some.inj hchild).symm hnil
  | some w =>
      rw [hw] at hchild
      exact ⟨w, rfl, (Option.some.inj hchild).symm⟩

/-! ## Paths -/

/-- The key that a segment of a path stands for. -/
def Reads (segment : String) : Step → Prop
  | .index i => parseU64 segment.toList = some i.val
  | .key k => k = segment

theorem parseU64_lt {s : List Char} {n : ℕ} (h : parseU64 s = some n) : n < 2 ^ 64 := by
  unfold parseU64 at h
  generalize (if s.head? = some '+' then s.tail else s) = digits at h
  dsimp only at h
  split at h
  · split at h
    · next hlt =>
        obtain rfl := Option.some.inj h
        exact hlt
    · cases h
  · cases h

/-- A query goes down by steps that its segments stand for. -/
theorem queryStep_child {val w : Json} {segment : String} (h : queryStep val segment = .ok w) :
    ∃ step, Reads segment step ∧ child val step = some w := by
  cases val with
  | object fields =>
      rw [queryStep] at h
      split at h
      · next j hj =>
          obtain rfl := Except.ok.inj h
          exact ⟨.key segment, rfl, hj⟩
      · cases h
  | array items =>
      rw [queryStep] at h
      split at h
      · cases h
      · next i hi =>
          split at h
          · next j hj =>
              obtain rfl := Except.ok.inj h
              exact ⟨.index ⟨i, parseU64_lt hi⟩, hi, hj⟩
          · cases h
  | _ => cases h

theorem walk_cons {v : LuaValue} {key : LuaKey} {keys : List LuaKey} {u : LuaValue}
    (h : get v key = some u) : walk v (key :: keys) = walk u keys := by
  rw [walk, List.foldlM_cons, h]
  rfl

/-- The value that a query finds stands in the decoded tables. -/
theorem walk_of_queryLoop (lua : LuaJit) {segments : List String} {val w : Json}
    (hval : Distinct val) (h : queryLoop val segments = .ok w) :
    ∃ steps, List.Forall₂ Reads (segments.filter fun s => s ≠ "") steps ∧
      walk (jsonToLua lua val) (steps.map keyOf) = some (jsonToLua lua w) := by
  induction segments generalizing val with
  | nil =>
      obtain rfl := Except.ok.inj h
      exact ⟨[], .nil, rfl⟩
  | cons segment segments ih =>
      rw [queryLoop] at h
      split at h
      · next hempty =>
          obtain ⟨steps, hreads, hwalk⟩ := ih hval h
          refine ⟨steps, ?_, hwalk⟩
          rw [List.filter_cons_of_neg (by simp [hempty])]
          exact hreads
      · next hsegment =>
          obtain ⟨u, hstep, hrest⟩ := bind_ok.mp h
          obtain ⟨step, hreads, hchild⟩ := queryStep_child hstep
          obtain ⟨steps, hreadsAll, hwalk⟩ := ih (hval.child hchild) hrest
          refine ⟨step :: steps, ?_, ?_⟩
          · rw [List.filter_cons_of_pos (by simp [hsegment])]
            exact .cons hreads hreadsAll
          · rw [List.map_cons, walk_cons (get_child lua hval hchild)]
            exact hwalk

/-- Nothing is found behind nil. -/
theorem descend_of_walk (lua : LuaJit) {steps : List Step} {val : Json} (hval : Distinct val)
    {v : LuaValue} (h : walk (jsonToLua lua val) (steps.map keyOf) = some v) (hnil : v ≠ .nil) :
    ∃ w, descend val steps = some w ∧ v = jsonToLua lua w := by
  induction steps generalizing val with
  | nil => exact ⟨val, rfl, (Option.some.inj h).symm⟩
  | cons step steps ih =>
      rw [List.map_cons, walk, List.foldlM_cons] at h
      obtain ⟨u, hget, hrest⟩ := Option.bind_eq_some_iff.mp h
      have hu : u ≠ .nil := by
        intro hu
        subst hu
        cases steps with
        | nil => exact hnil (Option.some.inj hrest).symm
        | cons _ _ => cases hrest
      obtain ⟨w, hchild, rfl⟩ := child_of_get lua hval hget hu
      obtain ⟨x, hdescend, hx⟩ := ih (hval.child hchild) hrest
      refine ⟨x, ?_, hx⟩
      rw [descend, hchild]
      exact hdescend

/-- The document as a Lua value. -/
def decode (lua : LuaJit) (parser : String → Except String Json) (format text : String) :
    Except String LuaValue :=
  match parser text with
  | .error e => .error (format ++ " error: " ++ e)
  | .ok j => .ok (jsonToLua lua j)

/-- A document with an array in an object. -/
def usersDocument : Json := .object [("users", .array [.string "ada", .null, .string "bob"])]

theorem usersDocument_distinct : Distinct usersDocument := by
  have hscalar : ∀ w ∈ [Json.string "ada", .null, .string "bob"], Distinct w := by
    intro w hw
    apply distinct_of_children
    · rintro fields rfl
      simp at hw
    · intro step v hv
      simp only [List.mem_cons, List.not_mem_nil, or_false] at hw
      obtain rfl | rfl | rfl := hw <;> cases step <;> cases hv
  apply distinct_of_children
  · intro fields h
    cases h
    exact List.nodup_singleton _
  · intro step w hw
    cases step with
    | index i => cases hw
    | key k =>
        rw [usersDocument, child, List.lookup_cons] at hw
        split at hw
        next =>
          obtain rfl := Option.some.inj hw
          apply distinct_of_children
          · intro fields h
            cases h
          · intro step v hv
            cases step with
            | index i => exact hscalar v (List.mem_of_getElem? hv)
            | key k => cases hv
        next => cases hw

end Pinhead.DecodedQueries
