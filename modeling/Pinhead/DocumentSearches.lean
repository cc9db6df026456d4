import Pinhead.DocumentStore

/-!
# Documents by a value in them

`doc.find` takes the value to search for as a string, whatever it is in Lua, and binds it as
text. SQLite compares it with what it finds at the path: the text of a string, of an array or
of an object can be equal to it, a number never is. So a search for an integer misses every
document that has it, and finds those that have its digits as a string; a search for a string
also finds the arrays and objects with that text.

A search fails as a whole when one of the stored texts is no JSON for SQLite.
-/
namespace Pinhead.DocumentSearches
open OrderedMaps LuaJson DocumentStore DocumentStore.Store

/-! ## The search -/

def findSql : String := "SELECT key, value FROM docs WHERE json_extract(value, ?1) = ?2"

/-- A Lua value as an argument of type `String`: a number becomes its text. -/
def stringArgument (numberText : LuaValue → String) : LuaValue → Except String String
  | .string s => .ok s
  | .badString e => .error e
  | .integer i => .ok (numberText (.integer i))
  | .number n => .ok (numberText (.number n))
  | .nonFinite => .ok (numberText .nonFinite)
  | _ => .error "expected string or number"

def docFind {sql : Sqlite} (numberText : LuaValue → String) (lua : LuaJit) (serde : SerdeJson)
    (s : Store sql) (handle : ℤ) (jsonPath : String) (value : LuaValue) :
    Except String LuaValue := do
  let value ← stringArgument numberText value
  let h ← s.getHandle handle
  let rows ← s.sendQueryReader h.readTx findSql [.text jsonPath, .text value]
  return kvRowsToLua lua serde rows

/-! ## JSON in SQLite -/

/-- The operator `=` between values without an affinity: a number never equals a text. -/
def equalsParam : Cell → Param → Bool
  | .integer i, .integer j => i = j
  | .integer i, .real r => (i : ℚ) = r
  | .real n, .integer j => n = j
  | .real n, .real r => n = r
  | .text s, .text t => s = t
  | _, _ => false

/-- What `json_extract` gives for the value at a path. An integer beyond 64 bits is given as
a real number, an array or an object as its text. -/
def extracted (text : Json → String) : Option Json → Cell
  | none => .null
  | some .null => .null
  | some (.bool b) => .integer (if b then 1 else 0)
  | some (.integer i) => if -2 ^ 63 ≤ i ∧ i < 2 ^ 63 then .integer i else .real i
  | some (.float n) => .real n
  | some (.string s) => .text s
  | some (.array items) => .text (text (.array items))
  | some (.object fields) => .text (text (.object fields))

/-- The JSON functions of SQLite: the texts they read, the paths they take and the value at a
path. -/
structure Json1 (sql : Sqlite) where
  parse : String → Option Json
  IsPath : String → Prop
  valueAt : String → Json → Option Json
  text : Json → String
  prepare {db : sql.Db} {rows : OrderedMap String String} : sql.docs db = some rows →
    sql.prepare db findSql = .ok ["key", "value"]
  query {db : sql.Db} {rows : OrderedMap String String} : sql.docs db = some rows →
    ∀ path param, IsPath path → (∀ e ∈ rows.entries, ∃ j, parse e.2 = some j) →
      ∃ found : List (String × String),
        sql.query db findSql [.text path, param] =
          .ok ((found.map fun e => [.text e.1, .text e.2]).map .ok) ∧ found.Nodup ∧
        ∀ e, e ∈ found ↔ e ∈ rows.entries ∧ ∃ j, parse e.2 = some j ∧
          equalsParam (extracted text (valueAt path j)) param = true
  malformed {db : sql.Db} {rows : OrderedMap String String} : sql.docs db = some rows →
    ∀ path param, IsPath path → (∃ e ∈ rows.entries, parse e.2 = none) →
      ∃ results e, sql.query db findSql [.text path, param] = .ok results ∧
        .error e ∈ results

/-! ## The documents searched for -/

/-- A string or an integer. -/
def Searchable : LuaValue → Prop
  | .string _ | .badString _ | .integer _ => True
  | _ => False

/-- A JSON value equals a Lua value: a number, written with a fraction or without, an integer,
and a string a string. -/
def Equals (v : LuaValue) (x : Json) : Prop :=
  match v with
  | .string s => x = .string s
  | .integer i => x = .integer i ∨ x = .float i
  | _ => False

/-- The text of an array or an object. -/
def Composed (text : Json → String) (x : Json) (s : String) : Prop :=
  ((∃ items, x = .array items) ∨ ∃ fields, x = .object fields) ∧ text x = s

/-- A value that the search takes for another, or does not recognise. -/
inductive Misjudged (numberText : LuaValue → String) (text : Json → String) :
    LuaValue → Json → Prop
  | composed {s : String} {x : Json} : Composed text x s →
      Misjudged numberText text (.string s) x
  | missed {i : ℤ} {x : Json} : Equals (.integer i) x → Misjudged numberText text (.integer i) x
  | digits {i : ℤ} : Misjudged numberText text (.integer i)
      (.string (numberText (.integer i)))
  | composedDigits {i : ℤ} {x : Json} : Composed text x (numberText (.integer i)) →
      Misjudged numberText text (.integer i) x

section
variable {sql : Sqlite} (json1 : Json1 sql) (numberText : LuaValue → String) (lua : LuaJit)
  (serde : SerdeJson) (s : Store sql) (rows : OrderedMap String String) (handle : ℤ)
  (path : String) (v : LuaValue)

/-- The value at the path of the document equals the one searched for. -/
def Sought (e : String × String) : Prop :=
  ∃ j x, json1.parse e.2 = some j ∧ json1.valueAt path j = some x ∧ Equals v x

/-- The table of a document: its key and its value. -/
def Document (e : String × String) (t : LuaValue) : Prop :=
  ∃ j, serde.fromStr e.2 = .ok j ∧
    t = recordTable [("key", .string e.1), ("value", jsonToLua lua j)]

/-- The search returns exactly the documents searched for, each once. -/
def Finds : Prop :=
  ∃ es ts, docFind numberText lua serde s handle path v = .ok (.table ts []) ∧
    List.Forall₂ (Document lua serde) es ts ∧ es.Nodup ∧
    ∀ e, e ∈ es ↔ e ∈ rows.entries ∧ Sought json1 path v e

/-- Nothing among the documents leads the search astray. -/
structure Clear : Prop where
  unicode : ∀ e, v ≠ .badString e
  parsed : ∀ e ∈ rows.entries, ∃ j, json1.parse e.2 = some j
  judged : ∀ e ∈ rows.entries, ∀ j x, json1.parse e.2 = some j →
    json1.valueAt path j = some x → ¬ Misjudged numberText json1.text v x
  decoded : ∀ e ∈ rows.entries, Sought json1 path v e → ∃ j, serde.fromStr e.2 = .ok j

end

/-! ## What a text equals -/

section
variable {text : Json → String} {x : Json} {t : String}

/-- A text equals the strings, arrays and objects that have it. -/
theorem equalsParam_extracted :
    equalsParam (extracted text (some x)) (.text t) = true ↔
      x = .string t ∨ Composed text x t := by
  cases x with
  | integer i =>
      rw [extracted]
      split <;> simp [equalsParam, Composed]
  | _ => simp [extracted, equalsParam, Composed]

theorem equalsParam_absent : equalsParam (extracted text none) (.text t) = false := rfl

theorem not_composed_string (u : String) : ¬ Composed text (.string u) t := by
  simp [Composed]

end

section
variable {numberText : LuaValue → String} {text : Json → String} {v : LuaValue} {x : Json}
  {t : String}

/-- Where the text of the argument equals exactly what the argument does, no value is
misjudged. -/
theorem equalsParam_iff (hv : Searchable v) (ht : stringArgument numberText v = .ok t) :
    (equalsParam (extracted text (some x)) (.text t) = true ↔ Equals v x) ↔
      ¬ Misjudged numberText text v x := by
  rw [equalsParam_extracted]
  cases v with
  | string s =>
      cases ht
      constructor
      · rintro h ⟨hcomposed⟩
        cases h.mp (.inr hcomposed)
        exact not_composed_string _ hcomposed
      · intro h
        exact ⟨fun hx => hx.resolve_right fun hcomposed => h (.composed hcomposed), .inl⟩
  | integer i =>
      cases ht
      constructor
      · rintro h (_ | hequal | _ | hcomposed)
        · rcases h.mpr hequal with hx | hx
          · rcases hequal with rfl | rfl <;> cases hx
          · rcases hequal with rfl | rfl <;> simp [Composed] at hx
        · rcases h.mp (.inl rfl) with hx | hx <;> cases hx
        · rcases h.mp (.inr hcomposed) with rfl | rfl <;> simp [Composed] at hcomposed
      · intro h
        refine ⟨fun hx => absurd ?_ h, fun hx => absurd (.missed hx) h⟩
        rcases hx with rfl | hcomposed
        · exact .digits
        · exact .composedDigits hcomposed
  | badString e => cases ht
  | _ => cases hv

theorem stringArgument_ok (hv : Searchable v) (hunicode : ∀ e, v ≠ .badString e) :
    ∃ t, stringArgument numberText v = .ok t := by
  cases v with
  | badString e => exact absurd rfl (hunicode e)
  | string s => exact ⟨s, rfl⟩
  | integer i => exact ⟨_, rfl⟩
  | _ => cases hv

/-- A document is selected just when it is searched for, if its value is not misjudged. -/
theorem selected_iff {sql : Sqlite} {json1 : Json1 sql} {path : String} {e : String × String}
    (hv : Searchable v) (ht : stringArgument numberText v = .ok t)
    (hparsed : ∃ j, json1.parse e.2 = some j) :
    ((∃ j, json1.parse e.2 = some j ∧
        equalsParam (extracted json1.text (json1.valueAt path j)) (.text t) = true) ↔
      Sought json1 path v e) ↔
      ∀ j x, json1.parse e.2 = some j → json1.valueAt path j = some x →
        ¬ Misjudged numberText json1.text v x := by
  obtain ⟨j, hj⟩ := hparsed
  have hsought : Sought json1 path v e ↔ ∃ x, json1.valueAt path j = some x ∧ Equals v x := by
    simp [Sought, hj]
  have hjudged : (∀ i x, json1.parse e.2 = some i → json1.valueAt path i = some x →
      ¬ Misjudged numberText json1.text v x) ↔
      ∀ x, json1.valueAt path j = some x → ¬ Misjudged numberText json1.text v x := by
    constructor
    · exact fun h x => h j x hj
    · intro h i x hi
      cases hj.symm.trans hi
      exact h x
  rw [hsought, hjudged, hj]
  cases hx : json1.valueAt path j with
  | none => simp [hx, equalsParam_absent]
  | some x => simp [hx, equalsParam_iff hv ht]

end

/-! ## What a search returns -/

/-- The table that the search makes of a row. -/
def rowTable (lua : LuaJit) (serde : SerdeJson) (e : String × String) : LuaValue :=
  documentTable lua serde (readRow ["key", "value"] [.text e.1, .text e.2])

section
variable {lua : LuaJit} {serde : SerdeJson} {e : String × String} {t : LuaValue}

theorem rowTable_eq (lua : LuaJit) (serde : SerdeJson) (e : String × String) :
    rowTable lua serde e = recordTable [("key", .string e.1),
      ("value", (jsonDecode lua serde e.2).toOption.getD .nil)] := by
  rw [rowTable, readRow_document]
  rfl

theorem document_rowTable {j : Json} (h : serde.fromStr e.2 = .ok j) :
    Document lua serde e (rowTable lua serde e) := by
  refine ⟨j, h, ?_⟩
  rw [rowTable_eq, jsonDecode, h]
  rfl

theorem rowTable_ne_nil : rowTable lua serde e ≠ .nil := by
  rw [rowTable_eq, recordTable]
  intro h
  cases h

/-- The key stands first in the table of a record. -/
theorem recordTable_key {k l : String} {v w : LuaValue}
    (h : recordTable [("key", .string k), ("value", v)] =
      recordTable [("key", .string l), ("value", w)]) : k = l := by
  simp only [recordTable, List.filterMap_cons, LuaValue.isNil, Bool.false_eq_true, if_false,
    LuaValue.table.injEq, List.cons.injEq, Prod.mk.injEq, LuaValue.string.injEq] at h
  exact h.2.1.2

theorem Document.key {f : String × String} (h : Document lua serde e (rowTable lua serde f)) :
    e.1 = f.1 := by
  obtain ⟨j, -, htable⟩ := h
  rw [rowTable_eq] at htable
  exact (recordTable_key htable).symm

end

section
variable {sql : Sqlite} {json1 : Json1 sql} {numberText : LuaValue → String} {lua : LuaJit}
  {serde : SerdeJson} {s : Store sql} {rows : OrderedMap String String} {handle : ℤ}
  {path file text : String} {v : LuaValue} {h : DbHandle}

variable (lua serde) in
theorem docFind_eq (hh : s.getHandle handle = .ok h) (hreader : s.readers.lookup h.readTx = some file)
    (hdocs : sql.docs (s.files file) = some rows) (json1 : Json1 sql)
    (ht : stringArgument numberText v = .ok text) {found : List (String × String)}
    (hquery : sql.query (s.files file) findSql [.text path, .text text] =
      .ok ((found.map fun e => [.text e.1, .text e.2]).map .ok)) :
    docFind numberText lua serde s handle path v =
      .ok (.table (found.map (rowTable lua serde)) []) := by
  have hsend := sendQueryReader_eq hreader _ (json1.prepare hdocs) hquery
  have htables : ∀ t ∈ found.map (rowTable lua serde), t ≠ .nil := by
    intro t ht
    obtain ⟨e, -, rfl⟩ := List.mem_map.mp ht
    exact rowTable_ne_nil
  simp only [docFind, ht, hh, hsend, bind, Except.bind, kvRowsToLua, List.map_map, pure, Except.pure]
  rw [← lua.arrayTable_eq htables]
  rfl

/-- Rows that are all read had no error among them. -/
theorem ok_of_mapM {α β : Type} {f : α → β} {rs : List (Except String α)} {bs : List β}
    (h : rs.mapM (Except.map f) = .ok bs) : ∀ r ∈ rs, ∃ a, r = .ok a := by
  induction rs generalizing bs with
  | nil => simp
  | cons r rs ih =>
      rw [List.mapM_cons] at h
      obtain ⟨b, hb, hrest⟩ := bind_ok.mp h
      obtain ⟨rest, hmap, -⟩ := bind_ok.mp hrest
      rw [List.forall_mem_cons]
      refine ⟨?_, ih hmap⟩
      cases r with
      | ok a => exact ⟨a, rfl⟩
      | error e => cases hb

theorem mapError_ok {α : Type} {f : String → String} {x : Except String α} {a : α}
    (h : x.mapError f = .ok a) : x = .ok a := by
  cases x with
  | ok b => exact h
  | error e => cases h

/-- A stored text that is no JSON makes the search fail. -/
theorem docFind_malformed (hh : s.getHandle handle = .ok h)
    (hreader : s.readers.lookup h.readTx = some file)
    (hdocs : sql.docs (s.files file) = some rows) (hpath : json1.IsPath path)
    (hbad : ∃ e ∈ rows.entries, json1.parse e.2 = none) (r : LuaValue) :
    docFind numberText lua serde s handle path v ≠ .ok r := by
  intro hfind
  obtain ⟨text, ht, hrest⟩ := bind_ok.mp hfind
  obtain ⟨x, hx, hrest⟩ := bind_ok.mp hrest
  obtain rfl : h = x := Except.ok.inj (hh.symm.trans hx)
  obtain ⟨tables, hsend, -⟩ := bind_ok.mp hrest
  obtain ⟨results, e, hquery, he⟩ := json1.malformed hdocs path (.text text) hpath hbad
  have hread : querySql (s.files file) findSql [.text path, .text text] = .ok tables := by
    rw [← hsend, sendQueryReader, hreader]
    rfl
  rw [querySql, json1.prepare hdocs, hquery] at hread
  obtain ⟨a, ha⟩ := ok_of_mapM (mapError_ok hread) _ he
  cases ha

variable (lua serde) in
/-- A search among clear documents. -/
theorem finds_of_clear (hh : s.getHandle handle = .ok h)
    (hreader : s.readers.lookup h.readTx = some file)
    (hdocs : sql.docs (s.files file) = some rows) (hpath : json1.IsPath path) (hv : Searchable v)
    (hclear : Clear json1 numberText serde rows path v) :
    Finds json1 numberText lua serde s rows handle path v := by
  obtain ⟨text, ht⟩ := stringArgument_ok hv hclear.unicode
  obtain ⟨found, hquery, hnodup, hfound⟩ :=
    json1.query hdocs path (.text text) hpath hclear.parsed
  have hmem : ∀ e, e ∈ found ↔ e ∈ rows.entries ∧ Sought json1 path v e := by
    intro e
    rw [hfound]
    exact and_congr_right fun he => (selected_iff hv ht (hclear.parsed e he)).mpr (hclear.judged e he)
  refine ⟨found, found.map (rowTable lua serde), docFind_eq lua serde hh hreader hdocs json1 ht hquery, ?_,
    hnodup, hmem⟩
  rw [List.forall₂_map_right_iff, List.forall₂_same]
  intro e he
  obtain ⟨hrows, hsought⟩ := (hmem e).mp he
  obtain ⟨j, hj⟩ := hclear.decoded e hrows hsought
  exact document_rowTable hj

theorem clear_of_finds (hh : s.getHandle handle = .ok h)
    (hreader : s.readers.lookup h.readTx = some file)
    (hdocs : sql.docs (s.files file) = some rows) (hpath : json1.IsPath path) (hv : Searchable v)
    (hfinds : Finds json1 numberText lua serde s rows handle path v) :
    Clear json1 numberText serde rows path v := by
  obtain ⟨es, ts, hfind, htables, hnodup, hmem⟩ := hfinds
  obtain ⟨text, ht, -⟩ := bind_ok.mp hfind
  have hparsed : ∀ e ∈ rows.entries, ∃ j, json1.parse e.2 = some j := by
    intro e he
    cases hj : json1.parse e.2 with
    | some j => exact ⟨j, rfl⟩
    | none => exact absurd hfind (docFind_malformed hh hreader hdocs hpath ⟨e, he, hj⟩ _)
  obtain ⟨found, hquery, -, hfound⟩ := json1.query hdocs path (.text text) hpath hparsed
  have hdone := docFind_eq lua serde hh hreader hdocs json1 ht hquery
  rw [hfind, Except.ok.injEq, LuaValue.table.injEq] at hdone
  obtain ⟨rfl, -⟩ := hdone
  have hsame : es = found := by
    rw [List.forall₂_map_right_iff] at htables
    have hkeys : (rows.entries.map Prod.fst).Nodup :=
      List.pairwise_map.mpr (rows.sorted.imp fun hlt => hlt.ne)
    rw [← List.forall₂_eq_eq_eq, List.forall₂_iff_zip]
    refine ⟨htables.length_eq, fun {e f} hzip => ?_⟩
    obtain ⟨he, hf⟩ := List.of_mem_zip hzip
    exact List.inj_on_of_nodup_map hkeys ((hmem e).mp he).1 ((hfound f).mp hf).1
      (List.forall₂_zip htables hzip).key
  subst hsame
  refine ⟨?_, hparsed, ?_, ?_⟩
  · rintro e rfl
    cases ht
  · intro e he
    refine (selected_iff hv ht (hparsed e he)).mp ?_
    have hiff := (hfound e).symm.trans (hmem e)
    exact (and_congr_right_iff.mp hiff) he
  · intro e he hsought
    have hdecoded := (List.forall₂_and_left _ _).mp (htables.imp fun e t ht =>
      (⟨ht.imp fun j hj => hj.1, trivial⟩ : (∃ j, serde.fromStr e.2 = .ok j) ∧ True))
    exact hdecoded.1 e ((hmem e).mpr ⟨he, hsought⟩)

end

/-- A search is right just when the documents are clear. -/
theorem finds_iff (sql : Sqlite) (json1 : Json1 sql) (numberText : LuaValue → String) (lua : LuaJit)
    (serde : SerdeJson) (s : Store sql) (rows : OrderedMap String String) (handle : ℤ)
    (h : DbHandle) (file path : String) (v : LuaValue) (hh : s.getHandle handle = .ok h)
    (hreader : s.readers.lookup h.readTx = some file)
    (hdocs : sql.docs (s.files file) = some rows) (hpath : json1.IsPath path)
    (hv : Searchable v) :
    Finds json1 numberText lua serde s rows handle path v ↔
      Clear json1 numberText serde rows path v :=
  ⟨clear_of_finds hh hreader hdocs hpath hv, finds_of_clear lua serde hh hreader hdocs hpath hv⟩

/-! ## Documents with fields -/

/-- The texts that SQLite reads: 1000 levels deep. -/
def parseText (text : String) : Option Json := JsonTexts.read 1001 text.toList

/-- A path to a field of the document. -/
def IsField (path : String) : Prop :=
  ∃ name : List Char, path = String.ofList ('$' :: '.' :: name) ∧ ∀ c ∈ name, c.isAlpha

def fieldAt (path : String) : Json → Option Json
  | .object fields => fields.lookup (String.ofList (path.toList.drop 2))
  | _ => none

def textOf (j : Json) : String := String.ofList (JsonTexts.write j)

/-- A row of a search, unless the row does not have the value. -/
def searchRow (path : String) (param : Param) (e : String × String) :
    Option (Except String (List Cell)) :=
  match parseText e.2 with
  | none => some (.error "malformed JSON")
  | some j =>
      if equalsParam (extracted textOf (fieldAt path j)) param then
        some (.ok [.text e.1, .text e.2])
      else none

/-- The files of `documentsOnly`, with searches. -/
def searchable : Sqlite :=
  { documentsOnly with
    prepare := fun db text =>
      if text = findSql then .ok ["key", "value"] else documentsOnly.prepare db text
    query := fun db text params =>
      match params with
      | [.text path, param] =>
          if text = findSql then .ok (db.entries.filterMap (searchRow path param))
          else .error "unknown statement"
      | _ => documentsOnly.query db text params
    select := fun h key =>
      ⟨(if_neg (by decide)).trans (documentsOnly.select h key).1, (documentsOnly.select h key).2⟩
    all := fun h => ⟨(if_neg (by decide)).trans (documentsOnly.all h).1, (documentsOnly.all h).2⟩
    count := fun h =>
      ⟨(if_neg (by decide)).trans (documentsOnly.count h).1, (documentsOnly.count h).2⟩ }

theorem searchable_query (rows : OrderedMap String String) (path : String) (param : Param) :
    searchable.query rows findSql [.text path, param] =
      .ok (rows.entries.filterMap (searchRow path param)) := by
  change (if findSql = findSql then Except.ok (rows.entries.filterMap (searchRow path param))
    else Except.error "unknown statement") = _
  exact if_pos rfl

theorem searchRow_parsed {path : String} {param : Param} {e : String × String} {j : Json}
    (h : parseText e.2 = some j) : searchRow path param e =
      if equalsParam (extracted textOf (fieldAt path j)) param then
        some (.ok [.text e.1, .text e.2])
      else none := by
  rw [searchRow, h]

/-- The document has the value at the path. -/
def selects (path : String) (param : Param) (e : String × String) : Bool :=
  match parseText e.2 with
  | none => false
  | some j => equalsParam (extracted textOf (fieldAt path j)) param

theorem selects_eq_true {path : String} {param : Param} {e : String × String} :
    selects path param e = true ↔ ∃ j, parseText e.2 = some j ∧
      equalsParam (extracted textOf (fieldAt path j)) param = true := by
  rw [selects]
  cases parseText e.2 <;> simp

theorem searchRow_selects {path : String} {param : Param} {entries : List (String × String)}
    (h : ∀ e ∈ entries, ∃ j, parseText e.2 = some j) :
    entries.filterMap (searchRow path param) =
      ((entries.filter (selects path param)).map fun e => [.text e.1, .text e.2]).map .ok := by
  induction entries with
  | nil => rfl
  | cons e entries ih =>
      obtain ⟨⟨j, hj⟩, hrest⟩ := List.forall_mem_cons.mp h
      have hselects : selects path param e =
          equalsParam (extracted textOf (fieldAt path j)) param := by rw [selects, hj]
      rw [List.filterMap_cons, List.filter_cons, searchRow_parsed hj, hselects, ih hrest]
      cases equalsParam (extracted textOf (fieldAt path j)) param <;> rfl

def fieldSearch : Json1 searchable where
  parse := parseText
  IsPath := IsField
  valueAt := fieldAt
  text := textOf
  prepare {db _} _ :=
    show (if findSql = findSql then Except.ok ["key", "value"] else documentsOnly.prepare db findSql) =
      .ok ["key", "value"] from if_pos rfl
  query {db rows} hdocs path param _ hparsed := by
    obtain rfl : rows = db := (Option.some.inj hdocs).symm
    refine ⟨rows.entries.filter (selects path param), ?_, ?_, ?_⟩
    · rw [← searchRow_selects hparsed]
      exact searchable_query rows path param
    · exact (rows.sorted.imp fun hlt heq => hlt.ne (congrArg Prod.fst heq)).filter _
    · intro e
      rw [List.mem_filter, selects_eq_true]
  malformed {db rows} hdocs path param _ hbad := by
    obtain rfl : rows = db := (Option.some.inj hdocs).symm
    obtain ⟨e, he, hnone⟩ := hbad
    refine ⟨_, "malformed JSON", searchable_query rows path param, ?_⟩
    exact List.mem_filterMap.mpr ⟨e, he, by rw [searchRow, hnone]⟩

theorem fieldSearch_parse (text : String) : fieldSearch.parse text = parseText text := rfl

theorem fieldSearch_valueAt (path : String) (j : Json) :
    fieldSearch.valueAt path j = fieldAt path j := rfl

/-! ## One document -/

def aliceJson : Json := .object [("age", .integer 30), ("name", .string "Alice")]

def aliceText : String := String.ofList (JsonTexts.write aliceJson)

def aliceRows : OrderedMap String String := OrderedMap.empty.insert "alice" aliceText

def aliceStore : Store searchable where
  files _ := aliceRows
  handles := AList.insert 1 ⟨1, 1, 1⟩ ∅
  nextId := 2
  writers := AList.insert 1 ⟨"data.db", true⟩ ∅
  readers := AList.insert 1 "data.db" ∅

theorem aliceJson_exact : aliceJson.Exact := by
  have hlt : ("age" : String) < "name" := by decide
  refine .object (by simpa [Sorted] using hlt) ?_
  simp only [List.forall_mem_cons]
  exact ⟨.integer (by decide) (by decide), .string _, by simp⟩

theorem aliceJson_depth : aliceJson.depth = 1 := by
  simp [aliceJson, Json.depth, Json.fieldsDepth]

theorem parse_alice : parseText aliceText = some aliceJson := by
  rw [parseText, aliceText, String.toList_ofList, JsonTexts.read_write aliceJson_exact,
    aliceJson_depth, if_pos (by omega)]

theorem decode_alice : compactJson.fromStr aliceText = .ok aliceJson := by
  have htext : compactJson.toString aliceJson = aliceText := rfl
  rw [← htext]
  exact compactJson.fromStr_toString aliceJson_exact (by rw [aliceJson_depth]; omega)

theorem mem_aliceRows {e : String × String} :
    e ∈ aliceRows.entries ↔ e = ("alice", aliceText) := by
  simp [aliceRows, OrderedMap.insert, OrderedMap.empty, insertEntry]

/-- The path to a field whose name has letters only. -/
theorem fieldAt_alice (name : String) (x : Json)
    (h : List.lookup name [("age", .integer 30), ("name", .string "Alice")] = some x) :
    fieldAt ("$." ++ name) aliceJson = some x := by
  have hname : String.ofList (("$." ++ name).toList.drop 2) = name := by simp
  rw [aliceJson, fieldAt, hname, h]

theorem fieldAt_name : fieldAt "$.name" aliceJson = some (.string "Alice") :=
  fieldAt_alice "name" _ rfl

theorem fieldAt_age : fieldAt "$.age" aliceJson = some (.integer 30) :=
  fieldAt_alice "age" _ rfl

theorem clear_name :
    Clear fieldSearch (fun _ => "30") compactJson aliceRows "$.name" (.string "Alice") where
  unicode _ := by simp
  parsed e he := by
    rw [mem_aliceRows.mp he, fieldSearch_parse]
    exact ⟨aliceJson, parse_alice⟩
  judged e he j x hj hx := by
    rw [mem_aliceRows.mp he, fieldSearch_parse, parse_alice] at hj
    cases hj
    rw [fieldSearch_valueAt, fieldAt_name] at hx
    cases hx
    rintro ⟨hcomposed⟩
    exact not_composed_string _ hcomposed
  decoded e he _ := by
    rw [mem_aliceRows.mp he, decode_alice]
    exact ⟨aliceJson, rfl⟩

theorem aliceStore_handle : aliceStore.getHandle 1 = .ok ⟨1, 1, 1⟩ :=
  getHandle_eq_ok.mpr (AList.lookup_insert _)

theorem aliceStore_reader : aliceStore.readers.lookup 1 = some "data.db" := AList.lookup_insert _

theorem aliceStore_docs : searchable.docs (aliceStore.files "data.db") = some aliceRows := rfl

theorem isField_name : fieldSearch.IsPath "$.name" :=
  ⟨['n', 'a', 'm', 'e'], rfl, List.all_eq_true.mp (by decide)⟩

theorem isField_age : fieldSearch.IsPath "$.age" :=
  ⟨['a', 'g', 'e'], rfl, List.all_eq_true.mp (by decide)⟩

/-- The document is found by a string in it. -/
theorem finds_iff_name :
    Finds fieldSearch (fun _ => "30") firstGap compactJson aliceStore aliceRows 1 "$.name"
      (.string "Alice") :=
  (finds_iff searchable fieldSearch _ firstGap compactJson aliceStore aliceRows 1 ⟨1, 1, 1⟩
    "data.db" "$.name" (.string "Alice") aliceStore_handle aliceStore_reader aliceStore_docs
    isField_name trivial).mpr clear_name

/-- The search for an age of 30 misses the document that has it. -/
theorem age_not_found :
    ¬ ∀ (sql : Sqlite) (json1 : Json1 sql) (numberText : LuaValue → String) (lua : LuaJit)
      (serde : SerdeJson) (s : Store sql) (rows : OrderedMap String String) (handle : ℤ)
      (h : DbHandle) (file path : String) (v : LuaValue), s.getHandle handle = .ok h →
      s.readers.lookup h.readTx = some file → sql.docs (s.files file) = some rows →
      json1.IsPath path → Searchable v →
      Finds json1 numberText lua serde s rows handle path v := by
  intro h
  have hv : Searchable (.integer 30) := trivial
  have hfinds := h searchable fieldSearch (fun _ => "30") firstGap compactJson aliceStore aliceRows
    1 ⟨1, 1, 1⟩ "data.db" "$.age" (.integer 30) aliceStore_handle aliceStore_reader
    aliceStore_docs isField_age hv
  have hclear := clear_of_finds aliceStore_handle aliceStore_reader aliceStore_docs isField_age hv
    hfinds
  exact hclear.judged ("alice", aliceText) (mem_aliceRows.mpr rfl) aliceJson (.integer 30)
    (by rw [fieldSearch_parse, parse_alice]) (by rw [fieldSearch_valueAt, fieldAt_age])
    (.missed (.inl rfl))

end Pinhead.DocumentSearches
