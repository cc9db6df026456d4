import Mathlib.Data.Set.Card
import Mathlib.Logic.Relation
import Mathlib.Tactic
import Pinhead.DroppedPairs

/-!
# Encoding a graph of tables

In Lua a table is a reference, and tables may refer to each other in any way. The encoder
follows the references and keeps no account of where it has been. On a graph without cycles
it goes down the tree that the graph unfolds into. A cycle it follows forever, unless
something that stands before it in the order of the visit cannot be encoded: the first error
ends the visit.

The recursion is bounded by a fuel, and the calls of the encoder are counted. It has no end
where no fuel is enough.
-/
namespace Pinhead.TableGraphs
open OrderedMaps LuaJson DroppedPairs Relation

/-! ## Heaps -/

/-- A value of a heap of `n` tables. -/
inductive HeapValue (n : ℕ) where
  | scalar (v : LuaValue) (plain : ∀ sequence fields, v ≠ .table sequence fields)
  | table (ref : Fin n)

structure HeapTable (n : ℕ) where
  sequence : List (HeapValue n)
  fields : List (LuaKey × HeapValue n)

abbrev Heap (n : ℕ) := Fin n → HeapTable n

/-- The pairs in the order of the visit; those of a sequence have no keys to convert. -/
def HeapTable.entries {n : ℕ} (t : HeapTable n) : List (Option LuaKey × HeapValue n) :=
  if t.sequence = [] then t.fields.map fun e => (some e.1, e.2)
  else t.sequence.map fun v => (none, v)

/-- The number of pairs that a visit of every table comes to. -/
def size {n : ℕ} (heap : Heap n) : ℕ :=
  ((List.finRange n).map fun ref => (heap ref).entries.length).sum

/-! ## The encoder -/

/-- A result and the number of calls made for it, or nothing when the fuel ran out. -/
abbrev Calls (α : Type) := Option (Except String α × ℕ)

def andThen {α β : Type} (x : Calls α) (f : α → Calls β) : Calls β :=
  match x with
  | none => none
  | some (.error e, c) => some (.error e, c)
  | some (.ok a, c) => (f a).map fun r => (r.1, c + r.2)

def keyName : Option LuaKey → Except String String
  | none => .ok ""
  | some k => keyToString k

/-- The loop of the encoder over the pairs of a table, over what is filled so far. -/
def visit {n : ℕ} {α : Type} (encode : HeapValue n → Calls Json) (add : α → String → Json → α) :
    List (Option LuaKey × HeapValue n) → α → Calls α
  | [], filled => some (.ok filled, 0)
  | (key, v) :: entries, filled =>
      match keyName key with
      | .error e => some (.error e, 0)
      | .ok name => andThen (encode v) fun j => visit encode add entries (add filled name j)

def addItem (items : List Json) (_ : String) (j : Json) : List Json := items ++ [j]

def addMember (map : List (String × Json)) (name : String) (j : Json) : List (String × Json) :=
  insertEntry name j map

/-- One call of the encoder. -/
def encode {n : ℕ} (heap : Heap n) : ℕ → HeapValue n → Calls Json
  | 0, _ => none
  | _ + 1, .scalar v _ => some (luaToJson v, 1)
  | fuel + 1, .table ref =>
      andThen (some (.ok (), 1)) fun _ =>
        if (heap ref).sequence = [] then
          andThen (visit (encode heap fuel) addMember (heap ref).entries []) fun map =>
            some (.ok (.object map), 0)
        else
          andThen (visit (encode heap fuel) addItem (heap ref).entries []) fun items =>
            some (.ok (.array items), 0)

/-! ## One loop -/

theorem andThen_some {α β : Type} {x : Calls α} {f : α → Calls β} {r : Except String β} {c : ℕ} :
    andThen x f = some (r, c) ↔ (∃ e, x = some (.error e, c) ∧ r = .error e) ∨
      ∃ a c₁ c₂, x = some (.ok a, c₁) ∧ f a = some (r, c₂) ∧ c = c₁ + c₂ := by
  match x with
  | none => simp [andThen]
  | some (.error e, d) => simp [andThen, eq_comm, and_comm]
  | some (.ok a, d) =>
      simp only [andThen, Option.map_eq_some_iff, Prod.mk.injEq, Prod.exists]
      constructor
      · rintro ⟨r', c', hf, rfl, rfl⟩
        exact .inr ⟨a, d, c', rfl, hf, rfl⟩
      · rintro (⟨e, he, -⟩ | ⟨a', c₁, c₂, ha, hf, rfl⟩)
        · cases he
        · cases ha
          exact ⟨r, c₂, hf, rfl, rfl⟩

/-- The call comes back. -/
def Ends {α : Type} (x : Calls α) : Prop := x ≠ none

theorem ends_andThen {α β : Type} {x : Calls α} {f : α → Calls β} :
    Ends (andThen x f) ↔ Ends x ∧ ∀ a c, x = some (.ok a, c) → Ends (f a) := by
  match x with
  | none => simp [andThen, Ends]
  | some (.error e, d) => simp [andThen, Ends]
  | some (.ok a, d) => simp [andThen, Ends]

section
variable {n : ℕ} {α : Type} {encode : HeapValue n → Calls Json} {add : α → String → Json → α}

/-- A loop ends if every pair it comes to is encoded in the end. -/
def LoopEnds (encode : HeapValue n → Calls Json) : List (Option LuaKey × HeapValue n) → Prop
  | [] => True
  | (key, v) :: entries => ∀ name, keyName key = .ok name →
      Ends (encode v) ∧ ∀ j c, encode v = some (.ok j, c) → LoopEnds encode entries

theorem ends_visit {entries : List (Option LuaKey × HeapValue n)} {filled : α} :
    Ends (visit encode add entries filled) ↔ LoopEnds encode entries := by
  induction entries generalizing filled with
  | nil => simp [visit, Ends, LoopEnds]
  | cons e entries ih =>
      obtain ⟨key, v⟩ := e
      rw [visit, LoopEnds]
      cases keyName key with
      | error err => simp [Ends]
      | ok name => simp [ends_andThen, ih]

/-- All that a loop can do with its first pair. -/
theorem visit_cons {key : Option LuaKey} {v : HeapValue n}
    {entries : List (Option LuaKey × HeapValue n)} {filled : α} {r : Except String α} {c : ℕ} :
    visit encode add ((key, v) :: entries) filled = some (r, c) ↔
      (∃ x, keyName key = .error x ∧ r = .error x ∧ c = 0) ∨
      (∃ name x, keyName key = .ok name ∧ encode v = some (.error x, c) ∧ r = .error x) ∨
      ∃ name j c₁ c₂, keyName key = .ok name ∧ encode v = some (.ok j, c₁) ∧
        visit encode add entries (add filled name j) = some (r, c₂) ∧ c = c₁ + c₂ := by
  rw [visit]
  cases keyName key with
  | error x => simp [eq_comm]
  | ok name => simp [andThen_some]

/-- A loop succeeds if every pair has a key and a value that can be encoded. -/
theorem visit_ok {entries : List (Option LuaKey × HeapValue n)} {filled result : α} {c : ℕ}
    (h : visit encode add entries filled = some (.ok result, c)) : ∀ e ∈ entries,
    (∃ name, keyName e.1 = .ok name) ∧ ∃ j d, encode e.2 = some (.ok j, d) := by
  induction entries generalizing filled c with
  | nil => exact fun e he => absurd he List.not_mem_nil
  | cons e entries ih =>
      rcases visit_cons.mp h with ⟨x, -, hr, -⟩ | ⟨name, x, -, -, hr⟩ |
        ⟨name, j, c₁, c₂, hkey, hj, hrest, -⟩
      · cases hr
      · cases hr
      · exact List.forall_mem_cons.mpr ⟨⟨⟨name, hkey⟩, j, c₁, hj⟩, ih hrest⟩

/-- It fails only where a key or a value cannot be encoded. -/
theorem visit_error {entries : List (Option LuaKey × HeapValue n)} {filled : α} {err : String}
    {c : ℕ} (h : visit encode add entries filled = some (.error err, c)) : ∃ e ∈ entries,
    (∃ x, keyName e.1 = .error x) ∨ ∃ x d, encode e.2 = some (.error x, d) := by
  induction entries generalizing filled c with
  | nil => cases h
  | cons e entries ih =>
      rcases visit_cons.mp h with ⟨x, hkey, -, -⟩ | ⟨name, x, -, hx, -⟩ |
        ⟨name, j, c₁, c₂, -, -, hrest, -⟩
      · exact ⟨e, List.mem_cons_self, .inl ⟨x, hkey⟩⟩
      · exact ⟨e, List.mem_cons_self, .inr ⟨x, c, hx⟩⟩
      · obtain ⟨e, he, hbad⟩ := ih hrest
        exact ⟨e, List.mem_cons_of_mem _ he, hbad⟩

theorem visit_calls {entries : List (Option LuaKey × HeapValue n)} {filled : α}
    {r : Except String α} {bound c : ℕ} (hbound : ∀ v r c, encode v = some (r, c) → c ≤ bound)
    (h : visit encode add entries filled = some (r, c)) : c ≤ entries.length * bound := by
  induction entries generalizing filled c with
  | nil =>
      cases h
      exact Nat.zero_le _
  | cons e entries ih =>
      rw [List.length_cons, Nat.succ_mul]
      rcases visit_cons.mp h with ⟨x, -, -, rfl⟩ | ⟨name, x, -, hx, -⟩ |
        ⟨name, j, c₁, c₂, -, hj, hrest, rfl⟩
      · exact Nat.zero_le _
      · exact (hbound e.2 _ c hx).trans (Nat.le_add_left _ _)
      · have hfirst := hbound e.2 _ c₁ hj
        have hrest := ih hrest
        omega

end

/-! ## Trees

More fuel changes no result, and on a value that unfolds into a tree the result is that of
the encoder of trees.
-/

section
variable {n : ℕ}

/-- The call for a table is counted, and its loop makes the JSON. -/
def counted {α : Type} (close : α → Json) (r : Except String α × ℕ) : Except String Json × ℕ :=
  (r.1.map close, 1 + r.2)

theorem encode_record (heap : Heap n) {ref : Fin n} (h : (heap ref).sequence = []) (fuel : ℕ) :
    encode heap (fuel + 1) (.table ref) =
      (visit (encode heap fuel) addMember (heap ref).entries []).map (counted .object) := by
  rw [encode, if_pos h]
  match visit (encode heap fuel) addMember (heap ref).entries [] with
  | none => rfl
  | some (.error e, c) => rfl
  | some (.ok map, c) => rfl

theorem encode_sequence (heap : Heap n) {ref : Fin n} (h : (heap ref).sequence ≠ []) (fuel : ℕ) :
    encode heap (fuel + 1) (.table ref) =
      (visit (encode heap fuel) addItem (heap ref).entries []).map (counted .array) := by
  rw [encode, if_neg h]
  match visit (encode heap fuel) addItem (heap ref).entries [] with
  | none => rfl
  | some (.error e, c) => rfl
  | some (.ok items, c) => rfl

/-- In either case a table is encoded by one loop over its pairs. -/
theorem encode_loop (heap : Heap n) (ref : Fin n) :
    ∃ (α : Type) (add : α → String → Json → α) (filled : α) (close : α → Json), ∀ fuel,
      encode heap (fuel + 1) (.table ref) =
        (visit (encode heap fuel) add (heap ref).entries filled).map (counted close) := by
  by_cases h : (heap ref).sequence = []
  · exact ⟨_, addMember, [], .object, encode_record heap h⟩
  · exact ⟨_, addItem, [], .array, encode_sequence heap h⟩

theorem visit_mono {α : Type} {encode encode' : HeapValue n → Calls Json}
    {add : α → String → Json → α} (hmono : ∀ v x, encode v = some x → encode' v = some x)
    {entries : List (Option LuaKey × HeapValue n)} {filled : α} {x : Except String α × ℕ}
    (h : visit encode add entries filled = some x) : visit encode' add entries filled = some x := by
  induction entries generalizing filled x with
  | nil => exact h
  | cons e entries ih =>
      obtain ⟨r, c⟩ := x
      rcases visit_cons.mp h with hkey | ⟨name, x, hkey, hx, hr⟩ |
        ⟨name, j, c₁, c₂, hkey, hj, hrest, hc⟩
      · exact visit_cons.mpr (.inl hkey)
      · exact visit_cons.mpr (.inr (.inl ⟨name, x, hkey, hmono e.2 _ hx, hr⟩))
      · exact visit_cons.mpr (.inr (.inr ⟨name, j, c₁, c₂, hkey, hmono e.2 _ hj, ih hrest, hc⟩))

theorem encode_succ {heap : Heap n} {fuel : ℕ} {v : HeapValue n} {x : Except String Json × ℕ}
    (h : encode heap fuel v = some x) : encode heap (fuel + 1) v = some x := by
  induction fuel generalizing v x with
  | zero => cases h
  | succ fuel ih =>
      cases v with
      | scalar v plain => exact h
      | table ref =>
          rcases encode_loop heap ref with ⟨α, add, filled, close, hloop⟩
          rw [hloop] at h ⊢
          obtain ⟨y, hy, rfl⟩ := Option.map_eq_some_iff.mp h
          exact Option.map_eq_some_iff.mpr ⟨y, visit_mono (fun _ _ => ih) hy, rfl⟩

/-- The tree of a value, down to a depth. -/
def unfold (heap : Heap n) : ℕ → HeapValue n → Option LuaValue
  | 0, _ => none
  | _ + 1, .scalar v _ => some v
  | depth + 1, .table ref => do
      let sequence ← (heap ref).sequence.mapM (unfold heap depth)
      let fields ← (heap ref).fields.mapM fun e => (unfold heap depth e.2).map (e.1, ·)
      return .table sequence fields

theorem visit_items {encode : HeapValue n → Calls Json} {unfold : HeapValue n → Option LuaValue}
    (hencode : ∀ v t, unfold v = some t → ∃ c, encode v = some (luaToJson t, c))
    {vs : List (HeapValue n)} {ts : List LuaValue} (h : vs.mapM unfold = some ts)
    (items : List Json) : ∃ c, visit encode addItem (vs.map (none, ·)) items =
      some ((itemsToJson ts).map (items ++ ·), c) := by
  induction vs generalizing ts items with
  | nil =>
      cases h
      exact ⟨0, by simp [visit, itemsToJson, Except.map]⟩
  | cons v vs ih =>
      rw [List.mapM_cons] at h
      obtain ⟨t, ht, h⟩ := Option.bind_eq_some_iff.mp h
      obtain ⟨ts, hts, h⟩ := Option.bind_eq_some_iff.mp h
      cases h
      obtain ⟨c, hc⟩ := hencode v t ht
      rw [List.map_cons, visit, itemsToJson]
      simp only [keyName, hc]
      cases luaToJson t with
      | error err => exact ⟨c, rfl⟩
      | ok j =>
          obtain ⟨d, hd⟩ := ih hts (items ++ [j])
          refine ⟨c + d, ?_⟩
          simp only [andThen, addItem, hd]
          cases itemsToJson ts with
          | error err => rfl
          | ok js => simp [Except.map, bind, Except.bind, pure, Except.pure]

theorem visit_members {encode : HeapValue n → Calls Json} {unfold : HeapValue n → Option LuaValue}
    (hencode : ∀ v t, unfold v = some t → ∃ c, encode v = some (luaToJson t, c))
    {fields : List (LuaKey × HeapValue n)} {ts : List (LuaKey × LuaValue)}
    (h : fields.mapM (fun e => (unfold e.2).map (e.1, ·)) = some ts)
    (map : List (String × Json)) : ∃ c, visit encode addMember
      (fields.map fun e => (some e.1, e.2)) map = some (fieldsToJson ts map, c) := by
  induction fields generalizing ts map with
  | nil =>
      cases h
      exact ⟨0, rfl⟩
  | cons e fields ih =>
      obtain ⟨k, v⟩ := e
      rw [List.mapM_cons] at h
      obtain ⟨t', ht, h⟩ := Option.bind_eq_some_iff.mp h
      obtain ⟨t, htree, rfl⟩ := Option.map_eq_some_iff.mp ht
      obtain ⟨ts, hts, h⟩ := Option.bind_eq_some_iff.mp h
      cases h
      obtain ⟨c, hc⟩ := hencode v t htree
      rw [List.map_cons, visit, fieldsToJson]
      simp only [keyName, hc]
      cases keyToString k with
      | error err => exact ⟨0, rfl⟩
      | ok name =>
          cases luaToJson t with
          | error err => exact ⟨c, rfl⟩
          | ok j =>
              obtain ⟨d, hd⟩ := ih hts (insertEntry name j map)
              refine ⟨c + d, ?_⟩
              simp only [andThen, addMember, hd]
              rfl

theorem encode_of_unfold {heap : Heap n} {depth : ℕ} {v : HeapValue n} {t : LuaValue}
    (h : unfold heap depth v = some t) : ∃ c, encode heap depth v = some (luaToJson t, c) := by
  induction depth generalizing v t with
  | zero => cases h
  | succ depth ih =>
      cases v with
      | scalar v plain =>
          cases h
          exact ⟨1, rfl⟩
      | table ref =>
          obtain ⟨sequence, hsequence, h⟩ := Option.bind_eq_some_iff.mp h
          obtain ⟨fields, hfields, h⟩ := Option.bind_eq_some_iff.mp h
          cases h
          have hencode : ∀ v t, unfold heap depth v = some t →
              ∃ c, encode heap depth v = some (luaToJson t, c) := fun _ _ => ih
          by_cases hempty : (heap ref).sequence = []
          · rw [hempty] at hsequence
            obtain rfl : sequence = [] := Option.some.inj hsequence.symm
            obtain ⟨c, hc⟩ := visit_members hencode hfields []
            rw [encode_record heap hempty, HeapTable.entries, if_pos hempty, hc, luaToJson]
            refine ⟨1 + c, ?_⟩
            cases fieldsToJson fields [] <;> rfl
          · obtain ⟨c, hc⟩ := visit_items hencode hsequence []
            rw [encode_sequence heap hempty, HeapTable.entries, if_neg hempty, hc]
            refine ⟨1 + c, ?_⟩
            cases hcons : (heap ref).sequence with
            | nil => exact absurd hcons hempty
            | cons x xs =>
                rw [hcons, List.mapM_cons] at hsequence
                obtain ⟨y, -, h⟩ := Option.bind_eq_some_iff.mp hsequence
                obtain ⟨ys, -, h⟩ := Option.bind_eq_some_iff.mp h
                cases h
                rw [luaToJson]
                cases itemsToJson (y :: ys) <;> rfl

end

/-! ## What the encoder gets past -/

section
variable {n : ℕ} {heap : Heap n}

/-- The encoder gets past the value: it unfolds into a finite tree that can be encoded. -/
inductive Clean (heap : Heap n) : HeapValue n → Prop
  | scalar {v : LuaValue} {plain} (encodes : encodable v = true) : Clean heap (.scalar v plain)
  | table {ref : Fin n} (keys : ∀ e ∈ (heap ref).entries, ∃ name, keyName e.1 = .ok name)
      (values : ∀ e ∈ (heap ref).entries, Clean heap e.2) : Clean heap (.table ref)

theorem encode_table {fuel : ℕ} {ref : Fin n} {r : Except String Json} {c : ℕ}
    (h : encode heap (fuel + 1) (.table ref) = some (r, c)) :
    ∃ (α : Type) (add : α → String → Json → α) (filled : α) (result : Except String α)
      (close : α → Json) (d : ℕ),
      visit (encode heap fuel) add (heap ref).entries filled = some (result, d) ∧
        r = result.map close ∧ c = 1 + d := by
  obtain ⟨α, add, filled, close, hloop⟩ := encode_loop heap ref
  rw [hloop] at h
  obtain ⟨⟨result, d⟩, hvisit, hr⟩ := Option.map_eq_some_iff.mp h
  cases hr
  exact ⟨α, add, filled, result, close, d, hvisit, rfl, rfl⟩

theorem ends_table {fuel : ℕ} {ref : Fin n} :
    Ends (encode heap (fuel + 1) (.table ref)) ↔
      LoopEnds (encode heap fuel) (heap ref).entries := by
  obtain ⟨α, add, filled, close, hloop⟩ := encode_loop heap ref
  rw [hloop, Ends, Ne, Option.map_eq_none_iff]
  exact ends_visit

theorem clean_of_ok {fuel : ℕ} {v : HeapValue n} {j : Json} {c : ℕ}
    (h : encode heap fuel v = some (.ok j, c)) : Clean heap v := by
  induction fuel generalizing v j c with
  | zero => cases h
  | succ fuel ih =>
      cases v with
      | scalar v plain =>
          have h : luaToJson v = .ok j := (Prod.ext_iff.mp (Option.some.inj h)).1
          exact .scalar ((encodable_iff v).mp ⟨j, h⟩)
      | table ref =>
          obtain ⟨α, add, filled, result, close, d, hvisit, hresult, -⟩ := encode_table h
          cases result with
          | error e => cases hresult
          | ok a =>
              have hvisited := visit_ok hvisit
              refine .table (fun e he => (hvisited e he).1) fun e he => ?_
              obtain ⟨-, j, d, hj⟩ := hvisited e he
              exact ih hj

theorem ok_of_clean {fuel : ℕ} {v : HeapValue n} (hv : Clean heap v) {r : Except String Json}
    {c : ℕ} (h : encode heap fuel v = some (r, c)) : ∃ j, r = .ok j := by
  induction fuel generalizing v r c with
  | zero => cases h
  | succ fuel ih =>
      cases hv with
      | scalar hencodes =>
          obtain ⟨j, hj⟩ := (encodable_iff _).mpr hencodes
          exact ⟨j, (Prod.ext_iff.mp (Option.some.inj h)).1.symm.trans hj⟩
      | table hkeys hvalues =>
          obtain ⟨α, add, filled, result, close, d, hvisit, rfl, -⟩ := encode_table h
          cases result with
          | ok a => exact ⟨close a, rfl⟩
          | error err =>
              obtain ⟨e, he, ⟨x, hx⟩ | ⟨x, d, hx⟩⟩ := visit_error hvisit
              · obtain ⟨name, hname⟩ := hkeys e he
                cases hname.symm.trans hx
              · obtain ⟨j, hj⟩ := ih (hvalues e he) hx
                cases hj

end

/-! ## Cycles -/

/-- One visit of the first table comes to the second. -/
def Visits {n : ℕ} (heap : Heap n) (r r' : Fin n) : Prop :=
  ∃ before key after, (heap r).entries = before ++ (key, .table r') :: after ∧
    (∀ e ∈ before, (∃ name, keyName e.1 = .ok name) ∧ Clean heap e.2) ∧
    ∃ name, keyName key = .ok name

/-- The visit of the value comes to a table from which it comes to that table again. -/
def Cyclic {n : ℕ} (heap : Heap n) (v : HeapValue n) : Prop :=
  ∃ r s, v = .table r ∧ ReflTransGen (Visits heap) r s ∧ TransGen (Visits heap) s s

section
variable {n : ℕ} {heap : Heap n}

/-- A loop that ends has come through what the encoder gets past to what stands behind it. -/
theorem LoopEnds.next {fuel : ℕ} {before after : List (Option LuaKey × HeapValue n)}
    {key : Option LuaKey} {v : HeapValue n} {name : String}
    (h : LoopEnds (encode heap fuel) (before ++ (key, v) :: after))
    (hbefore : ∀ e ∈ before, (∃ name, keyName e.1 = .ok name) ∧ Clean heap e.2)
    (hkey : keyName key = .ok name) : Ends (encode heap fuel v) := by
  induction before with
  | nil => exact (h name hkey).1
  | cons e before ih =>
      obtain ⟨⟨⟨x, hx⟩, hclean⟩, hbefore⟩ := List.forall_mem_cons.mp hbefore
      obtain ⟨hends, hrest⟩ := h x hx
      obtain ⟨⟨r, c⟩, hr⟩ := Option.ne_none_iff_exists'.mp hends
      obtain ⟨j, rfl⟩ := ok_of_clean hclean hr
      exact ih (hrest j c hr) hbefore

/-- A loop ends if each table that it comes to ends. -/
theorem loopEnds_of_visits {fuel : ℕ} {r : Fin n}
    (h : ∀ r', Visits heap r r' → Ends (encode heap (fuel + 1) (.table r')))
    {before entries : List (Option LuaKey × HeapValue n)}
    (hentries : (heap r).entries = before ++ entries)
    (hbefore : ∀ e ∈ before, (∃ name, keyName e.1 = .ok name) ∧ Clean heap e.2) :
    LoopEnds (encode heap (fuel + 1)) entries := by
  induction entries generalizing before with
  | nil => trivial
  | cons e entries ih =>
      obtain ⟨key, v⟩ := e
      refine fun name hname => ⟨?_, fun j c hj => @ih (before ++ [(key, v)]) ?_ ?_⟩
      · cases v with
        | scalar v plain => exact Option.some_ne_none _
        | table r' => exact h r' ⟨before, key, entries, hentries, hbefore, name, hname⟩
      · rw [hentries, List.append_assoc, List.singleton_append]
      · intro e he
        rcases List.mem_append.mp he with he | he
        · exact hbefore e he
        · obtain rfl := List.mem_singleton.mp he
          exact ⟨⟨name, hname⟩, clean_of_ok hj⟩

theorem ends_of_visits {fuel : ℕ} {r : Fin n}
    (h : ∀ r', Visits heap r r' → Ends (encode heap (fuel + 1) (.table r'))) :
    Ends (encode heap (fuel + 2) (.table r)) :=
  ends_table.mpr (loopEnds_of_visits h (List.nil_append _).symm fun _ he =>
    absurd he List.not_mem_nil)

theorem Visits.ends {fuel : ℕ} {r r' : Fin n} (h : Visits heap r r')
    (hends : Ends (encode heap (fuel + 1) (.table r))) : Ends (encode heap fuel (.table r')) := by
  obtain ⟨before, key, after, hentries, hbefore, name, hname⟩ := h
  have hloop := ends_table.mp hends
  rw [hentries] at hloop
  exact hloop.next hbefore hname

/-- A table from which a cycle is reached comes to another one. -/
theorem visits_of_cycle {r s : Fin n} (hreach : ReflTransGen (Visits heap) r s)
    (hcycle : TransGen (Visits heap) s s) :
    ∃ r', Visits heap r r' ∧ ReflTransGen (Visits heap) r' s := by
  rcases ReflTransGen.cases_head hreach with rfl | ⟨r', hstep, hrest⟩
  · obtain ⟨r', hstep, hrest⟩ := TransGen.head'_iff.mp hcycle
    exact ⟨r', hstep, hrest⟩
  · exact ⟨r', hstep, hrest⟩

/-- So the visit goes on under every fuel. -/
theorem not_ends_of_cycle (fuel : ℕ) {r s : Fin n} (hreach : ReflTransGen (Visits heap) r s)
    (hcycle : TransGen (Visits heap) s s) : ¬ Ends (encode heap fuel (.table r)) := by
  induction fuel generalizing r with
  | zero => exact fun hends => hends rfl
  | succ fuel ih =>
      obtain ⟨r', hvisits, hrest⟩ := visits_of_cycle hreach hcycle
      intro hends
      exact ih hrest (hvisits.ends hends)

/-- Without a cycle fewer tables are reached after each step. -/
theorem reached_lt {r r' : Fin n} (hvisits : Visits heap r r')
    (hcycle : ¬ TransGen (Visits heap) r' r') :
    {s | TransGen (Visits heap) r' s}.ncard < {s | TransGen (Visits heap) r s}.ncard := by
  refine Set.ncard_lt_ncard ⟨fun s hs => TransGen.head hvisits hs, fun hsub => ?_⟩
    (Set.toFinite _)
  exact hcycle (hsub (TransGen.single hvisits))

theorem ends_of_acyclic (fuel : ℕ) {r : Fin n}
    (hfuel : {s | TransGen (Visits heap) r s}.ncard ≤ fuel)
    (hcycle : ∀ s, ReflTransGen (Visits heap) r s → ¬ TransGen (Visits heap) s s) :
    Ends (encode heap (fuel + 2) (.table r)) := by
  induction fuel generalizing r with
  | zero =>
      refine ends_of_visits fun r' hvisits => ?_
      have hlt := reached_lt hvisits (hcycle r' (.single hvisits))
      omega
  | succ fuel ih =>
      refine ends_of_visits fun r' hvisits => ?_
      have hlt := reached_lt hvisits (hcycle r' (.single hvisits))
      exact ih (by omega) fun s hs => hcycle s (.head hvisits hs)

end

/-! ## The number of calls -/

section
variable {n : ℕ} {heap : Heap n}

theorem entries_le_size (heap : Heap n) (ref : Fin n) : (heap ref).entries.length ≤ size heap :=
  List.single_le_sum (fun _ _ => Nat.zero_le _) _
    (List.mem_map.mpr ⟨ref, List.mem_finRange ref, rfl⟩)

theorem encode_calls {fuel : ℕ} {v : HeapValue n} {r : Except String Json} {c : ℕ}
    (h : encode heap fuel v = some (r, c)) : c ≤ (size heap + 1) ^ fuel := by
  induction fuel generalizing v r c with
  | zero => cases h
  | succ fuel ih =>
      have hpos : 1 ≤ (size heap + 1) ^ fuel := Nat.one_le_pow _ _ (Nat.succ_pos _)
      cases v with
      | scalar v plain =>
          cases h
          exact Nat.one_le_pow _ _ (Nat.succ_pos _)
      | table ref =>
          obtain ⟨α, add, filled, result, close, d, hvisit, -, rfl⟩ := encode_table h
          calc 1 + d ≤ 1 + (heap ref).entries.length * (size heap + 1) ^ fuel :=
                Nat.add_le_add_left (visit_calls (fun v r c => ih) hvisit) 1
            _ ≤ 1 + size heap * (size heap + 1) ^ fuel := by
                gcongr
                exact entries_le_size heap ref
            _ ≤ (size heap + 1) ^ fuel * (size heap + 1) := by
                rw [Nat.mul_succ, Nat.mul_comm, Nat.add_comm]
                exact Nat.add_le_add_left hpos _

/-- The encoder comes back with a value or an error after a number of calls that the heap
bounds. -/
def Terminates (heap : Heap n) (v : HeapValue n) : Prop :=
  ∃ fuel r c, encode heap fuel v = some (r, c) ∧ c ≤ (size heap + 1) ^ (n + 2)

/-- The first error ends the visit: the table that stands in itself is not come to. -/
example : encode (fun _ : Fin 1 => ⟨[.scalar .other (fun _ _ => LuaValue.noConfusion), .table 0], []⟩)
    2 (.table 0) = some (.error "cannot encode this Lua type", 2) := rfl

/-- A table that stands in itself. -/
def selfContained : Heap 1 := fun _ => ⟨[.table 0], []⟩

theorem self_contained_visits : Visits selfContained 0 0 :=
  ⟨[], none, [], rfl, fun _ he => absurd he List.not_mem_nil, "", rfl⟩

end

end Pinhead.TableGraphs
