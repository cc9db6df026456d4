import Mathlib.Data.List.Sort
import Pinhead.ByteStrings
import Pinhead.CsvTexts
import Pinhead.NumberTexts

/-!
# Rows as comma-separated texts

A sequence of tables becomes a header and a record for each table. The header has the keys of
all the tables, each once and in order, and a table without one of the keys has an empty field
there. The way back looks at each field alone: it becomes an integer or a double if it reads
as one, nothing if it is empty, and a string otherwise.

The texts themselves are the work of a library.
-/
namespace Pinhead.CsvRows
open ByteStrings OrderedMaps LuaJson JsonTexts NumberTexts

/-! ## The library -/

/-- A writer of records, and a reader that takes the first record for the header. -/
structure Csv where
  Writer : Type
  fromWriter : Writer
  writeRecord : Writer → List String → Except String Writer
  flush : Writer → Except String Writer
  intoInner : Writer → Except String Bytes
  headers : String → Except String (List String)
  records : String → List (Except String (List String))

/-- Records of one length that is not zero are written to a text and read back from it. -/
def Csv.ReadsBack (csv : Csv) : Prop :=
  ∀ (header : List String) (rows : List (List String)), header ≠ [] →
    (∀ row ∈ rows, row.length = header.length) → ∃ w w' text,
      (header :: rows).foldlM csv.writeRecord csv.fromWriter = .ok w ∧ csv.flush w = .ok w' ∧
        csv.intoInner w' = .ok (asBytes text) ∧ csv.headers text = .ok header ∧
        csv.records text = rows.map .ok

/-! ## Encoding -/

def csvError {α : Type} (r : Except String α) : Except String α := r.mapError ("CSV error: " ++ ·)

def notRows : String := "CSV encode expects an array of objects"

def addKeys (columns : List String) : Json → List String
  | .object map => map.foldl (fun columns f =>
      if f.1 ∈ columns then columns else columns ++ [f.1]) columns
  | _ => columns

def columnsOf (rows : List Json) : List String :=
  (rows.foldl addKeys []).insertionSort (· ≤ ·)

/-- The field of a value; the JSON library writes those that are no strings. -/
def fieldText (toText : Json → String) : Option Json → String
  | none | some .null => ""
  | some (.string s) => s
  | some other => toText other

def writeRow (csv : Csv) (toText : Json → String) (columns : List String) (w : csv.Writer) :
    Json → Except String csv.Writer
  | .object map =>
      csvError (csv.writeRecord w (columns.map fun col => fieldText toText (map.lookup col)))
  | _ => .error notRows

def csvEncode (csv : Csv) (toText : Json → String) (val : LuaValue) : Except String String := do
  match ← luaToJson val with
  | .array rows =>
      let columns := columnsOf rows
      let w ← csvError (csv.writeRecord csv.fromWriter columns)
      let w ← rows.foldlM (writeRow csv toText columns) w
      let w ← csvError (csv.flush w)
      let data ← csvError (csv.intoInner w)
      return fromUtf8Lossy data
  | _ => .error notRows

/-! ## Decoding -/

/-- The value set for a field; an empty field sets nil. -/
def fieldValue (field : String) : LuaValue :=
  match parseI64 field with
  | some n => .ofInteger n
  | none =>
      match parseF64 field with
      | some (some n) => .ofNumber n
      | some none => .nonFinite
      | none => if field = "" then .nil else .string field

/-- Setting a pair of a table in place of one with the same key; nil takes it away. -/
def setField (fields : List (LuaKey × LuaValue)) (key : LuaKey) (v : LuaValue) :
    List (LuaKey × LuaValue) :=
  let others := fields.filter fun e => e.1 ≠ key
  if v.isNil then others else others ++ [(key, v)]

/-- Fields beyond the header have the empty key. -/
def rowTable (headers : List String) (record : List String) : LuaValue :=
  .table [] (record.zipIdx.foldl (fun fields field =>
    setField fields (.string (headers.getD field.2 "")) (fieldValue field.1)) [])

def csvDecode (csv : Csv) (lua : LuaJit) (text : String) : Except String LuaValue := do
  let headers ← csvError (csv.headers text)
  let rows ← (csv.records text).mapM fun row => do
    let record ← csvError row
    return rowTable headers record
  return lua.arrayTable rows

/-! ## Plain rows -/

inductive PlainCell : LuaValue → Prop
  | integer (i : ℤ) (small : i.natAbs ≤ 2 ^ 53) : PlainCell (.integer i)
  | string (s : String) (nonempty : s ≠ "") (noInteger : parseI64 s = none)
      (noFloat : parseF64 s = none) : PlainCell (.string s)

/-- A table of plain cells, with keys of one kind. -/
inductive PlainRow (Key : LuaKey → Prop) : LuaValue → Prop
  | table {fields : List (LuaKey × LuaValue)} (nodup : (fields.map Prod.fst).Nodup)
      (keys : ∀ e ∈ fields, Key e.1) (cells : ∀ e ∈ fields, PlainCell e.2) :
      PlainRow Key (.table [] fields)

/-- A key that is text. -/
def IsText (key : LuaKey) : Prop := ∃ s, key = .string s

/-- Some row has a key. -/
def HasKey (rows : List LuaValue) : Prop :=
  ∃ row ∈ rows, ∃ sequence e fields, row = .table sequence (e :: fields)

/-- The rows come back from their text. -/
def RoundTrips (csv : Csv) (toText : Json → String) (lua : LuaJit) (rows : List LuaValue) : Prop :=
  ∃ text v, csvEncode csv toText (.table rows []) = .ok text ∧ csvDecode csv lua text = .ok v ∧
    v.Same (.table rows [])

/-! ## Text rows -/

/-- A row by its texts and cells. -/
def tableOf (es : List (String × LuaValue)) : LuaValue := .table [] (es.map (Prod.map .string id))

structure Plain (es : List (String × LuaValue)) : Prop where
  nodup : (es.map Prod.fst).Nodup
  cells : ∀ e ∈ es, PlainCell e.2

theorem exists_texts {fields : List (LuaKey × LuaValue)} (h : ∀ e ∈ fields, IsText e.1) :
    ∃ es : List (String × LuaValue), fields = es.map (Prod.map .string id) := by
  induction fields with
  | nil => exact ⟨[], rfl⟩
  | cons e fields ih =>
      obtain ⟨⟨s, hs⟩, hfields⟩ := List.forall_mem_cons.mp h
      obtain ⟨es, hes⟩ := ih hfields
      exact ⟨(s, e.2) :: es, by rw [hes, List.map_cons, Prod.map_apply, ← hs]; rfl⟩

theorem PlainRow.exists_plain {row : LuaValue} (h : PlainRow IsText row) :
    ∃ es, Plain es ∧ row = tableOf es := by
  obtain @⟨fields, hnodup, hkeys, hcells⟩ := h
  obtain ⟨es, rfl⟩ := exists_texts hkeys
  refine ⟨es, ⟨?_, fun e he => hcells _ (List.mem_map_of_mem he)⟩, rfl⟩
  rw [List.map_map, show Prod.fst ∘ Prod.map LuaKey.string id =
    LuaKey.string ∘ (Prod.fst : String × LuaValue → String) from rfl, ← List.map_map] at hnodup
  exact hnodup.of_map _

theorem exists_plain_rows {rows : List LuaValue} (h : ∀ row ∈ rows, PlainRow IsText row) :
    ∃ tables : List (List (String × LuaValue)), (∀ es ∈ tables, Plain es) ∧
      rows = tables.map tableOf := by
  induction rows with
  | nil => exact ⟨[], fun _ hes => absurd hes List.not_mem_nil, rfl⟩
  | cons row rows ih =>
      obtain ⟨hrow, hrows⟩ := List.forall_mem_cons.mp h
      obtain ⟨es, hes, rfl⟩ := hrow.exists_plain
      obtain ⟨tables, htables, rfl⟩ := ih hrows
      exact ⟨es :: tables, List.forall_mem_cons.mpr ⟨hes, htables⟩, rfl⟩

/-! ## The JSON of the rows -/

def cellJson : LuaValue → Json
  | .integer i => .integer i
  | .string s => .string s
  | _ => .null

theorem PlainCell.luaToJson {v : LuaValue} (h : PlainCell v) : luaToJson v = .ok (cellJson v) := by
  cases h <;> rfl

def rowJson (es : List (String × LuaValue)) : Json :=
  .object (sortEntries (es.map (Prod.map id cellJson)))

theorem luaToJson_row {es : List (String × LuaValue)} (h : Plain es) :
    luaToJson (tableOf es) = .ok (rowJson es) := by
  have hencodes : List.Forall₂ Encodes (es.map (Prod.map .string id))
      (es.map (Prod.map id cellJson)) := by
    rw [List.forall₂_map_left_iff, List.forall₂_map_right_iff, List.forall₂_same]
    exact fun e he => ⟨rfl, (h.cells e he).luaToJson⟩
  rw [tableOf, luaToJson, fieldsToJson_ok.mpr ⟨_, hencodes, rfl⟩]
  rfl

theorem luaToJson_rows {tables : List (List (String × LuaValue))} (hne : tables ≠ [])
    (h : ∀ es ∈ tables, Plain es) :
    luaToJson (.table (tables.map tableOf) []) = .ok (.array (tables.map rowJson)) := by
  have hitems : itemsToJson (tables.map tableOf) = .ok (tables.map rowJson) := by
    rw [itemsToJson_ok, List.forall₂_map_left_iff, List.forall₂_map_right_iff, List.forall₂_same]
    exact fun es hes => luaToJson_row (h es hes)
  obtain ⟨es, rest, rfl⟩ := List.exists_cons_of_ne_nil hne
  rw [List.map_cons] at hitems ⊢
  rw [luaToJson, hitems]
  rfl

/-! ## The header -/

def keysOf : Json → List String
  | .object map => map.map Prod.fst
  | _ => []

theorem foldl_keys (map : List (String × Json)) {columns : List String} (h : columns.Nodup) :
    (map.foldl (fun columns f => if f.1 ∈ columns then columns else columns ++ [f.1])
        columns).Nodup ∧
      ∀ k, k ∈ map.foldl (fun columns f => if f.1 ∈ columns then columns else columns ++ [f.1])
        columns ↔ k ∈ columns ∨ k ∈ map.map Prod.fst := by
  induction map generalizing columns with
  | nil => exact ⟨h, fun k => (or_iff_left List.not_mem_nil).symm⟩
  | cons f map ih =>
      rw [List.foldl_cons]
      split
      · next hf =>
          refine ⟨(ih h).1, fun k => ?_⟩
          rw [(ih h).2, List.map_cons, List.mem_cons]
          constructor
          · exact Or.imp_right .inr
          · rintro (hk | rfl | hk)
            · exact .inl hk
            · exact .inl hf
            · exact .inr hk
      · next hf =>
          have hnodup : (columns ++ [f.1]).Nodup :=
            List.nodup_append_comm.mp (List.nodup_cons.mpr ⟨hf, h⟩)
          refine ⟨(ih hnodup).1, fun k => ?_⟩
          rw [(ih hnodup).2, List.mem_append, List.mem_singleton, List.map_cons, List.mem_cons,
            or_assoc]

theorem addKeys_spec (row : Json) {columns : List String} (h : columns.Nodup) :
    (addKeys columns row).Nodup ∧ ∀ k, k ∈ addKeys columns row ↔ k ∈ columns ∨ k ∈ keysOf row := by
  cases row with
  | object map => exact foldl_keys map h
  | _ => exact ⟨h, fun k => (or_iff_left List.not_mem_nil).symm⟩

theorem foldl_addKeys (rows : List Json) {columns : List String} (h : columns.Nodup) :
    (rows.foldl addKeys columns).Nodup ∧ ∀ k, k ∈ rows.foldl addKeys columns ↔
      k ∈ columns ∨ ∃ row ∈ rows, k ∈ keysOf row := by
  induction rows generalizing columns with
  | nil => simpa using h
  | cons row rows ih =>
      obtain ⟨hnodup, hmem⟩ := addKeys_spec row h
      refine ⟨(ih hnodup).1, fun k => ?_⟩
      rw [List.foldl_cons, (ih hnodup).2, hmem, List.exists_mem_cons_iff, or_assoc]

theorem columnsOf_nodup (rows : List Json) : (columnsOf rows).Nodup :=
  (List.perm_insertionSort _ _).nodup_iff.mpr (foldl_addKeys rows List.nodup_nil).1

theorem mem_columnsOf {rows : List Json} {k : String} :
    k ∈ columnsOf rows ↔ ∃ row ∈ rows, k ∈ keysOf row := by
  rw [columnsOf, (List.perm_insertionSort _ _).mem_iff, (foldl_addKeys rows List.nodup_nil).2]
  exact or_iff_right List.not_mem_nil

theorem Plain.nodup_json {es : List (String × LuaValue)} (h : Plain es) :
    ((es.map (Prod.map id cellJson)).map Prod.fst).Nodup := by
  rw [List.map_map]
  exact h.nodup

theorem mem_keysOf_row {es : List (String × LuaValue)} (h : Plain es) {k : String} :
    k ∈ keysOf (rowJson es) ↔ k ∈ es.map Prod.fst := by
  have hperm := (perm_sortEntries h.nodup_json).map Prod.fst
  rw [List.map_map] at hperm
  exact hperm.mem_iff

/-- The header has the keys of the rows. -/
theorem mem_header {tables : List (List (String × LuaValue))} (h : ∀ es ∈ tables, Plain es)
    {k : String} : k ∈ columnsOf (tables.map rowJson) ↔ ∃ es ∈ tables, k ∈ es.map Prod.fst := by
  rw [mem_columnsOf]
  constructor
  · rintro ⟨row, hrow, hk⟩
    obtain ⟨es, hes, rfl⟩ := List.mem_map.mp hrow
    exact ⟨es, hes, (mem_keysOf_row (h es hes)).mp hk⟩
  · rintro ⟨es, hes, hk⟩
    exact ⟨rowJson es, List.mem_map_of_mem hes, (mem_keysOf_row (h es hes)).mpr hk⟩

theorem Plain.nodup_keys {es : List (String × LuaValue)} (h : Plain es) :
    ((es.map (Prod.map LuaKey.string id)).map Prod.fst).Nodup := by
  have hkeys : (es.map (Prod.map LuaKey.string id)).map Prod.fst =
      (es.map Prod.fst).map LuaKey.string := by
    rw [List.map_map, List.map_map]
    rfl
  rw [hkeys]
  exact h.nodup.map fun _ _ => LuaKey.string.inj

/-! ## One cell -/

section
variable {toText : Json → String}

/-- The JSON library writes integers in decimal. -/
def WritesIntegers (toText : Json → String) : Prop :=
  ∀ i : ℤ, toText (.integer i) = String.ofList (writeInteger i)

theorem fieldValue_empty : fieldValue "" = .nil := by
  have hinteger : parseI64 "" = none := by decide
  have hfloat : parseF64 "" = none := by decide
  rw [fieldValue, hinteger, hfloat]
  exact if_pos rfl

theorem fieldValue_cell (htext : WritesIntegers toText) {v : LuaValue} (h : PlainCell v) :
    fieldValue (fieldText toText (some (cellJson v))) = v := by
  cases h with
  | integer i hsmall =>
      change fieldValue (toText (.integer i)) = _
      rw [htext, fieldValue, parseI64_write (by omega)]
      exact LuaValue.ofInteger_of_le hsmall
  | string s hne hinteger hfloat =>
      rw [cellJson, fieldText, fieldValue, hinteger, hfloat]
      exact if_neg hne

theorem PlainCell.ne_nil {v : LuaValue} (h : PlainCell v) : v ≠ .nil := by
  cases h <;> exact LuaValue.noConfusion

/-- The fields of a row, one for each column. -/
def record (toText : Json → String) (columns : List String) (es : List (String × LuaValue)) :
    List String :=
  columns.map fun col => fieldText toText ((es.lookup col).map cellJson)

theorem lookup_map_json (es : List (String × LuaValue)) (col : String) :
    (es.map (Prod.map id cellJson)).lookup col = (es.lookup col).map cellJson := by
  induction es with
  | nil => rfl
  | cons e es ih =>
      rw [List.map_cons, List.lookup_cons, List.lookup_cons, ih]
      dsimp only [Prod.map_fst, id]
      split <;> rfl

theorem writeRow_plain {csv : Csv} {columns : List String} {w : csv.Writer}
    {es : List (String × LuaValue)} (h : Plain es) :
    writeRow csv toText columns w (rowJson es) =
      csvError (csv.writeRecord w (record toText columns es)) := by
  rw [rowJson, writeRow, record]
  congr 2
  refine List.map_congr_left fun col _ => ?_
  rw [lookup_sortEntries h.nodup_json, lookup_map_json]

theorem foldlM_writeRow {csv : Csv} {columns : List String} {w w' : csv.Writer}
    {tables : List (List (String × LuaValue))} (h : ∀ es ∈ tables, Plain es)
    (hwrite : (tables.map (record toText columns)).foldlM csv.writeRecord w = .ok w') :
    (tables.map rowJson).foldlM (writeRow csv toText columns) w = .ok w' := by
  induction tables generalizing w with
  | nil => exact hwrite
  | cons es tables ih =>
      obtain ⟨hes, htables⟩ := List.forall_mem_cons.mp h
      rw [List.map_cons, List.foldlM_cons] at hwrite ⊢
      obtain ⟨next, hnext, hwrite⟩ := bind_ok.mp hwrite
      rw [writeRow_plain hes, hnext]
      exact ih htables hwrite

/-! ## One row -/

theorem setField_new {fields : List (LuaKey × LuaValue)} {key : LuaKey}
    (h : key ∉ fields.map Prod.fst) (v : LuaValue) :
    setField fields key v = if v.isNil then fields else fields ++ [(key, v)] := by
  have hfilter : fields.filter (fun e => e.1 ≠ key) = fields := by
    refine List.filter_eq_self.mpr fun e he => decide_eq_true ?_
    rintro rfl
    exact h (List.mem_map_of_mem he)
  rw [setField, hfilter]

/-- The pair that a column sets. -/
def columnPair (es : List (String × LuaValue)) (col : String) : Option (LuaKey × LuaValue) :=
  (es.lookup col).map fun v => (.string col, v)

theorem setField_column (htext : WritesIntegers toText) {es : List (String × LuaValue)}
    (h : Plain es) {fields : List (LuaKey × LuaValue)} {col : String}
    (hcol : LuaKey.string col ∉ fields.map Prod.fst) :
    setField fields (.string col) (fieldValue (fieldText toText ((es.lookup col).map cellJson))) =
      fields ++ (columnPair es col).toList := by
  rw [setField_new hcol, columnPair]
  cases hlookup : es.lookup col with
  | none =>
      rw [Option.map_none, fieldText, fieldValue_empty]
      exact (List.append_nil _).symm
  | some v =>
      have hcell := h.cells _ ((lookup_eq_some_iff_mem h.nodup).mp hlookup)
      rw [Option.map_some, fieldValue_cell htext hcell,
        LuaValue.isNil_eq_false hcell.ne_nil, if_neg Bool.false_ne_true]
      rfl

theorem mem_columns {es : List (String × LuaValue)} {columns : List String} {col : String}
    (h : LuaKey.string col ∈ (columns.filterMap (columnPair es)).map Prod.fst) :
    col ∈ columns := by
  obtain ⟨e, he, hcol⟩ := List.mem_map.mp h
  obtain ⟨other, hother, hpair⟩ := List.mem_filterMap.mp he
  obtain ⟨v, -, rfl⟩ := Option.map_eq_some_iff.mp hpair
  exact LuaKey.string.inj hcol ▸ hother

/-- The columns in turn, behind those that have been set. -/
theorem foldl_columns (htext : WritesIntegers toText) {es : List (String × LuaValue)}
    (h : Plain es) {before columns : List String} (hnodup : (before ++ columns).Nodup) :
    ((record toText columns es).zipIdx before.length).foldl (fun fields field =>
        setField fields (.string ((before ++ columns).getD field.2 "")) (fieldValue field.1))
        (before.filterMap (columnPair es)) =
      (before ++ columns).filterMap (columnPair es) := by
  induction columns generalizing before with
  | nil => rw [List.append_nil]; rfl
  | cons col columns ih =>
      have hkey : LuaKey.string col ∉ (before.filterMap (columnPair es)).map Prod.fst := by
        intro hmem
        have hcol := mem_columns hmem
        exact (List.disjoint_of_nodup_append hnodup) hcol List.mem_cons_self
      have hget : (before ++ col :: columns).getD before.length "" = col := by
        rw [List.getD, List.getElem?_append_right (le_refl _), Nat.sub_self]
        rfl
      have hstep : before.filterMap (columnPair es) ++ (columnPair es col).toList =
          (before ++ [col]).filterMap (columnPair es) := by
        rw [List.filterMap_append]
        cases hpair : columnPair es col <;> simp [hpair]
      have hnext : before ++ col :: columns = before ++ [col] ++ columns := by
        rw [List.append_assoc, List.singleton_append]
      rw [record, List.map_cons, List.zipIdx_cons, List.foldl_cons, hget,
        setField_column htext h hkey, hstep, hnext]
      rw [hnext] at hnodup
      have hrest := ih hnodup
      rw [List.length_append, List.length_singleton] at hrest
      exact hrest

/-- The row that is read has the pairs of the row that was written. -/
theorem perm_columns {es : List (String × LuaValue)} (h : Plain es) {columns : List String}
    (hnodup : columns.Nodup) (hkeys : ∀ e ∈ es, e.1 ∈ columns) :
    (columns.filterMap (columnPair es)).Perm (es.map (Prod.map .string id)) := by
  have hleft : (columns.filterMap (columnPair es)).Nodup := by
    refine hnodup.filterMap fun col other pair hcol hother => ?_
    obtain ⟨v, -, rfl⟩ := Option.map_eq_some_iff.mp hcol
    obtain ⟨w, -, hpair⟩ := Option.map_eq_some_iff.mp hother
    exact (LuaKey.string.inj (Prod.ext_iff.mp hpair).1).symm
  have hright := h.nodup_keys.of_map
  refine (List.perm_ext_iff_of_nodup hleft hright).mpr fun pair => ?_
  rw [List.mem_filterMap, List.mem_map]
  constructor
  · rintro ⟨col, -, hpair⟩
    obtain ⟨v, hv, rfl⟩ := Option.map_eq_some_iff.mp hpair
    exact ⟨(col, v), (lookup_eq_some_iff_mem h.nodup).mp hv, rfl⟩
  · rintro ⟨e, he, rfl⟩
    refine ⟨e.1, hkeys e he, ?_⟩
    rw [columnPair, (lookup_eq_some_iff_mem h.nodup).mpr he]
    rfl

theorem rowTable_record (htext : WritesIntegers toText) {es : List (String × LuaValue)}
    (h : Plain es) {columns : List String} (hnodup : columns.Nodup)
    (hkeys : ∀ e ∈ es, e.1 ∈ columns) :
    (rowTable columns (record toText columns es)).Same (tableOf es) := by
  have hfold : (record toText columns es).zipIdx.foldl (fun fields field => setField fields
      (.string (columns.getD field.2 "")) (fieldValue field.1)) [] =
      columns.filterMap (columnPair es) := @foldl_columns _ htext es h [] columns hnodup
  rw [rowTable, hfold]
  exact (LuaValue.same_of_perm h.nodup_keys (perm_columns h hnodup hkeys).symm).symm

end

/-! ## All rows -/

theorem csvError_bind {α β : Type} (a : α) (f : α → Except String β) :
    csvError (.ok a) >>= f = f a := rfl

theorem ok_bind {α β : Type} (a : α) (f : α → Except String β) : Except.ok a >>= f = f a := rfl

theorem mapM_records (headers : List String) (rows : List (List String)) :
    ((rows.map .ok : List (Except String (List String))).mapM fun row => do
      let record ← csvError row
      return rowTable headers record) = .ok (rows.map (rowTable headers)) := by
  induction rows with
  | nil => rfl
  | cons row rows ih =>
      rw [List.map_cons, List.mapM_cons, ih]
      rfl

theorem rows_round_trip {csv : Csv} (hcsv : csv.ReadsBack) {toText : Json → String}
    (htext : WritesIntegers toText) (lua : LuaJit) {tables : List (List (String × LuaValue))}
    (h : ∀ es ∈ tables, Plain es) (hkey : ∃ es ∈ tables, es ≠ []) :
    RoundTrips csv toText lua (tables.map tableOf) := by
  have hcolumns : columnsOf (tables.map rowJson) ≠ [] := by
    obtain ⟨es, hes, hne⟩ := hkey
    obtain ⟨e, rest, rfl⟩ := List.exists_cons_of_ne_nil hne
    exact List.ne_nil_of_mem ((mem_header h).mpr ⟨_, hes, List.mem_cons_self⟩)
  have htables : tables ≠ [] := by
    obtain ⟨es, hes, -⟩ := hkey
    exact List.ne_nil_of_mem hes
  generalize hheader : columnsOf (tables.map rowJson) = columns at hcolumns
  have hlength : ∀ row ∈ tables.map (record toText columns), row.length = columns.length := by
    intro row hrow
    obtain ⟨es, -, rfl⟩ := List.mem_map.mp hrow
    exact List.length_map _
  obtain ⟨w, w', text, hwrite, hflush, hinner, hread, hrecords⟩ := hcsv _ _ hcolumns hlength
  rw [List.foldlM_cons] at hwrite
  obtain ⟨first, hfirst, hwrite⟩ := bind_ok.mp hwrite
  refine ⟨text, .table ((tables.map (record toText columns)).map (rowTable columns)) [], ?_, ?_, ?_⟩
  · rw [csvEncode, luaToJson_rows htables h, ok_bind]
    dsimp only
    rw [hheader, hfirst, csvError_bind, foldlM_writeRow h hwrite, ok_bind, hflush, csvError_bind,
      hinner, csvError_bind]
    exact congrArg Except.ok (fromUtf8Lossy_asBytes text)
  · rw [csvDecode, hread, csvError_bind, hrecords, mapM_records, ok_bind]
    refine congrArg Except.ok (lua.arrayTable_eq fun v hv => ?_)
    obtain ⟨row, -, rfl⟩ := List.mem_map.mp hv
    exact LuaValue.noConfusion
  · rw [List.map_map]
    refine LuaValue.same_sequence ?_
    rw [List.forall₂_map_left_iff, List.forall₂_map_right_iff, List.forall₂_same]
    intro es hes
    refine rowTable_record htext (h es hes) (hheader ▸ columnsOf_nodup _) fun e he => ?_
    rw [← hheader]
    exact (mem_header h).mpr ⟨es, hes, List.mem_map_of_mem he⟩

/-! ## A library -/

/-- The number of fields of the first record, and the text so far. -/
abbrev Written := Option ℕ × List Char

def writeQuoted (w : Written) (record : List String) : Except String Written :=
  if w.1.getD record.length = record.length then
    .ok (some record.length, w.2 ++ CsvTexts.writeRecord (record.map String.toList))
  else .error ("found record with " ++ toString record.length ++
    " fields, but the previous record has " ++ toString (w.1.getD 0) ++ " fields")

def readQuoted (text : String) : List (List String) :=
  (CsvTexts.read text.toList).map (List.map String.ofList)

def quotedTexts : Csv where
  Writer := Written
  fromWriter := (none, [])
  writeRecord := writeQuoted
  flush w := .ok w
  intoInner w := .ok (asBytes (String.ofList w.2))
  headers text := .ok ((readQuoted text).headD [])
  records text := (readQuoted text).tail.map .ok

def quotedText (rows : List (List String)) : List Char :=
  (rows.map (List.map String.toList)).flatMap CsvTexts.writeRecord

theorem foldlM_writeQuoted {n : ℕ} (rows : List (List String)) (written : List Char)
    (h : ∀ row ∈ rows, row.length = n) :
    rows.foldlM writeQuoted (some n, written) = .ok (some n, written ++ quotedText rows) := by
  induction rows generalizing written with
  | nil => rw [quotedText, List.map_nil, List.flatMap_nil, List.append_nil]; rfl
  | cons row rows ih =>
      obtain ⟨hrow, hrows⟩ := List.forall_mem_cons.mp h
      have hwrite : writeQuoted (some n, written) row =
          .ok (some n, written ++ CsvTexts.writeRecord (row.map String.toList)) := by
        subst hrow
        exact if_pos rfl
      rw [List.foldlM_cons, hwrite, ok_bind, ih _ hrows, List.append_assoc]
      rfl

theorem readQuoted_text {rows : List (List String)} (h : ∀ row ∈ rows, row ≠ []) :
    readQuoted (String.ofList (quotedText rows)) = rows := by
  have hne : ∀ fields ∈ rows.map (List.map String.toList), fields ≠ [] := by
    intro fields hfields
    obtain ⟨row, hrow, rfl⟩ := List.mem_map.mp hfields
    exact fun hnil => h row hrow (List.map_eq_nil_iff.mp hnil)
  have hback : ∀ row ∈ rows, (row.map String.toList).map String.ofList = row := by
    intro row _
    rw [List.map_map]
    exact (List.map_congr_left fun s _ => String.ofList_toList).trans (List.map_id _)
  rw [readQuoted, String.toList_ofList, quotedText, CsvTexts.read_write hne, List.map_map]
  exact (List.map_congr_left hback).trans (List.map_id _)

theorem quotedTexts_readsBack : quotedTexts.ReadsBack := by
  intro header rows hheader hrows
  have hne : ∀ row ∈ header :: rows, row ≠ [] := by
    refine List.forall_mem_cons.mpr ⟨hheader, fun row hrow hnil => hheader ?_⟩
    rw [← List.length_eq_zero_iff, ← hrows row hrow, hnil, List.length_nil]
  have hwrite : (header :: rows).foldlM writeQuoted (none, []) =
      .ok (some header.length, quotedText (header :: rows)) := by
    rw [List.foldlM_cons, writeQuoted, if_pos (by rfl), ok_bind, foldlM_writeQuoted rows _ hrows]
    rfl
  have hread := readQuoted_text hne
  refine ⟨_, _, _, hwrite, rfl, rfl, ?_, ?_⟩
  · exact congrArg (fun records => Except.ok (List.headD records [])) hread
  · exact congrArg (fun records => (List.tail records).map Except.ok) hread

/-! ## There and back -/

/-- Rows with keys that are text come back as they were. -/
theorem csv_round_trip (csv : Csv) (hcsv : csv.ReadsBack) (toText : Json → String)
    (htext : WritesIntegers toText) (lua : LuaJit) (rows : List LuaValue)
    (hrows : ∀ row ∈ rows, PlainRow IsText row) (hkey : HasKey rows) :
    RoundTrips csv toText lua rows := by
  obtain ⟨tables, htables, rfl⟩ := exists_plain_rows hrows
  refine rows_round_trip hcsv htext lua htables ?_
  obtain ⟨row, hrow, sequence, e, fields, hfields⟩ := hkey
  obtain ⟨es, hes, rfl⟩ := List.mem_map.mp hrow
  refine ⟨es, hes, ?_⟩
  rintro rfl
  cases hfields

/-- A row with two cells and one that lacks the first of them. -/
def pointRows : List LuaValue :=
  [.table [] [(.string "name", .string "a,b"), (.string "n", .integer 5)],
    .table [] [(.string "n", .integer (-1))]]

theorem pointRows_plain : ∀ row ∈ pointRows, PlainRow IsText row := by
  have htext (s : String) : IsText (.string s) := ⟨s, rfl⟩
  have hname : PlainCell (.string "a,b") := .string _ (by decide) (by decide) (by decide)
  refine List.forall_mem_cons.mpr ⟨.table (by decide) ?_ ?_, List.forall_mem_singleton.mpr
    (.table (by decide) ?_ ?_)⟩
  · exact List.forall_mem_cons.mpr ⟨htext _, List.forall_mem_singleton.mpr (htext _)⟩
  · exact List.forall_mem_cons.mpr ⟨hname, List.forall_mem_singleton.mpr (.integer 5 (by decide))⟩
  · exact List.forall_mem_singleton.mpr (htext _)
  · exact List.forall_mem_singleton.mpr (.integer (-1) (by decide))

theorem csv_round_trip_points :
    RoundTrips quotedTexts (fun j => String.ofList (write j)) firstGap pointRows :=
  csv_round_trip quotedTexts quotedTexts_readsBack _ (fun _ => rfl) firstGap pointRows
    pointRows_plain ⟨_, List.mem_cons_self, _, _, _, rfl⟩

/-- Any string of Lua, text or not. -/
def IsString (key : LuaKey) : Prop := IsText key ∨ ∃ e, key = .badString e

/-- A key that is no text stops the encoder. -/
theorem bytes_key_fails : ¬ ∀ (csv : Csv) (toText : Json → String) (lua : LuaJit)
    (rows : List LuaValue), csv.ReadsBack → WritesIntegers toText →
    (∀ row ∈ rows, PlainRow IsString row) → HasKey rows → RoundTrips csv toText lua rows := by
  intro h
  have hrow : PlainRow IsString (.table [] [(.badString "invalid utf-8", .integer 1)]) :=
    .table (by decide) (List.forall_mem_singleton.mpr (.inr ⟨_, rfl⟩))
      (List.forall_mem_singleton.mpr (.integer 1 (by decide)))
  obtain ⟨text, v, hencode, -⟩ := h quotedTexts (fun j => String.ofList (write j)) firstGap _
    quotedTexts_readsBack (fun _ => rfl) (List.forall_mem_singleton.mpr hrow)
    ⟨_, List.mem_cons_self, _, _, _, rfl⟩
  cases hencode

end Pinhead.CsvRows
