import Pinhead.FiniteTables
import Pinhead.JsonTexts

/-!
# The document store

The `doc.*` functions keep documents in the table `docs` of an SQLite file, one row for each
key, with the value as JSON text. Every open handle has a task with a connection that
writes and another with a read-only connection; a call sends one request to one of them and
waits for the reply. Through all handles on a file the calls are those of one map from keys
to values, as long as JSON keeps the values and the reader of the JSON library takes their
texts.
-/
namespace Pinhead.DocumentStore
open FiniteTables OrderedMaps LuaJson

/-! ## Libraries -/

/-- The JSON library: its reader gives up on values nested 128 levels deep, its writer does
not. -/
structure SerdeJson where
  toString : Json → String
  fromStr : String → Except String Json
  fromStr_toString {j : Json} : j.Exact → j.depth < 128 → fromStr (toString j) = .ok j
  fromStr_deep {j : Json} : j.Exact → 128 ≤ j.depth → ∃ e, fromStr (toString j) = .error e

def jsonEncode (serde : SerdeJson) (value : LuaValue) : Except String String :=
  (luaToJson value).map serde.toString

def jsonDecode (lua : LuaJit) (serde : SerdeJson) (text : String) : Except String LuaValue :=
  match serde.fromStr text with
  | .ok j => .ok (jsonToLua lua j)
  | .error e => .error ("JSON error: " ++ e)

inductive Param where
  | null
  | integer (i : ℤ)
  | real (n : ℚ)
  | text (s : String)
  deriving DecidableEq, Repr

/-- What SQLite stores in a column. -/
inductive Cell where
  | null
  | integer (i : ℤ)
  | real (n : ℚ)
  | text (s : String)
  | badText
  | blob (bytes : ℕ)
  deriving DecidableEq, Repr

def createSql : String := "CREATE TABLE IF NOT EXISTS docs (key TEXT PRIMARY KEY, value TEXT)"

def walSql : String := "PRAGMA journal_mode=WAL;"

def upsertSql : String :=
  "INSERT INTO docs (key, value) VALUES (?1, ?2) ON CONFLICT(key) DO UPDATE SET value=excluded.value"

def deleteSql : String := "DELETE FROM docs WHERE key = ?1"

def selectSql : String := "SELECT value FROM docs WHERE key = ?1"

def allSql : String := "SELECT key, value FROM docs ORDER BY key"

def countSql : String := "SELECT COUNT(*) AS cnt FROM docs"

/-- SQLite, by what a statement does to a file and finds in it. Every connection to the
file sees what the statements before have done. Of the rows of a query each may fail. -/
structure Sqlite where
  Db : Type
  file : String → String
  connect : String → Except String Unit
  connectReadOnly : String → Except String Unit
  executeBatch : Db → String → Except String Db
  execute : Db → String → List Param → Except String (ℕ × Db)
  prepare : Db → String → Except String (List String)
  query : Db → String → List Param → Except String (List (Except String (List Cell)))
  docs : Db → Option (OrderedMap String String)
  create {db db' : Db} {rows : OrderedMap String String} : docs db = some rows →
    executeBatch db createSql = .ok db' → docs db' = some rows
  wal {db db' : Db} {rows : OrderedMap String String} : docs db = some rows →
    executeBatch db walSql = .ok db' → docs db' = some rows
  upsert {db : Db} {rows : OrderedMap String String} : docs db = some rows → ∀ key value,
    ∃ n db', execute db upsertSql [.text key, .text value] = .ok (n, db') ∧
      docs db' = some (rows.insert key value)
  delete {db : Db} {rows : OrderedMap String String} : docs db = some rows → ∀ key,
    ∃ n db', execute db deleteSql [.text key] = .ok (n, db') ∧ docs db' = some (rows.erase key)
  select {db : Db} {rows : OrderedMap String String} : docs db = some rows → ∀ key,
    prepare db selectSql = .ok ["value"] ∧
      query db selectSql [.text key] =
        .ok ((rows.find key).toList.map fun value => .ok [.text value])
  all {db : Db} {rows : OrderedMap String String} : docs db = some rows →
    prepare db allSql = .ok ["key", "value"] ∧
      query db allSql [] = .ok (rows.entries.map fun e => .ok [.text e.1, .text e.2])
  count {db : Db} {rows : OrderedMap String String} : docs db = some rows →
    prepare db countSql = .ok ["cnt"] ∧ query db countSql [] = .ok [.ok [.integer rows.size]]

/-! ## Tasks -/

inductive Value where
  | null
  | integer (i : ℤ)
  | real (n : ℚ)
  | text (s : String)
  deriving DecidableEq, Repr

/-- Columns by their names. -/
abbrev Row := List (String × Value)

def readCell : Cell → Value
  | .null => .null
  | .integer i => .integer i
  | .real n => .real n
  | .text s => .text s
  | .badText => .text ""
  | .blob n => .text s!"<blob {n} bytes>"

variable {sql : Sqlite}

def execSql (db : sql.Db) (text : String) (params : List Param) : Except String ℕ × sql.Db :=
  match sql.execute db text params with
  | .ok (count, db') => (.ok count, db')
  | .error e => (.error ("SQL exec error: " ++ e), db)

def readRow (names : List String) (cells : List Cell) : Row :=
  sortEntries (names.zip (cells.map readCell))

def querySql (db : sql.Db) (text : String) (params : List Param) : Except String (List Row) := do
  let names ← (sql.prepare db text).mapError ("SQL prepare error: " ++ ·)
  let rows ← (sql.query db text params).mapError ("SQL query error: " ++ ·)
  (rows.mapM (Except.map (readRow names))).mapError ("SQL row error: " ++ ·)

inductive WriteRequest where
  | exec (sql : String) (params : List Param)
  | close
  deriving DecidableEq, Repr

inductive WriteReply where
  | executed (result : Except String ℕ)
  | closed

structure ReadRequest where
  sql : String
  params : List Param
  deriving DecidableEq, Repr

/-- The replies to the requests, the file after them and whether the task still runs. -/
def runWriterConn (db : sql.Db) : List WriteRequest → List WriteReply × sql.Db × Bool
  | [] => ([], db, true)
  | .exec text params :: requests =>
      let (result, db') := execSql db text params
      let (replies, last) := runWriterConn db' requests
      (.executed result :: replies, last)
  | .close :: _ => ([.closed], db, false)

def runReaderConn (db : sql.Db) (requests : List ReadRequest) : List (Except String (List Row)) :=
  requests.map fun r => querySql db r.sql r.params

structure DbHandle where
  id : ℕ
  writeTx : ℕ
  readTx : ℕ
  deriving DecidableEq, Repr

structure WriterTask where
  conn : String
  running : Bool
  deriving DecidableEq, Repr

/-- The files, the registry of handles and the tasks at the other end of their channels. -/
structure Store (sql : Sqlite) where
  files : String → sql.Db
  handles : AList fun _ : ℕ => DbHandle
  nextId : ℕ
  writers : AList fun _ : ℕ => WriterTask
  readers : AList fun _ : ℕ => String

namespace Store

/-- One request, sent to the writer and answered by it. -/
def askWriter (s : Store sql) (tx : ℕ) (request : WriteRequest) :
    Except String WriteReply × Store sql :=
  match s.writers.lookup tx with
  | none => (.error "writer task gone", s)
  | some task =>
      if task.running then
        let (replies, db, running) := runWriterConn (s.files task.conn) [request]
        let s := { s with
          files := Function.update s.files task.conn db,
          writers := s.writers.insert tx { task with running := running } }
        match replies with
        | [] => (.error "writer reply lost", s)
        | reply :: _ => (.ok reply, s)
      else (.error "writer task gone", s)

def sendExecWriter (s : Store sql) (tx : ℕ) (text : String) (params : List Param) :
    Except String ℕ × Store sql :=
  match s.askWriter tx (.exec text params) with
  | (.ok (.executed result), s) => (result, s)
  | (.ok .closed, s) => (.error "writer reply lost", s)
  | (.error e, s) => (.error e, s)

def sendCloseWriter (s : Store sql) (tx : ℕ) : Except String Unit × Store sql :=
  match s.askWriter tx .close with
  | (.ok _, s) => (.ok (), s)
  | (.error e, s) => (.error e, s)

def sendQueryReader (s : Store sql) (tx : ℕ) (text : String) (params : List Param) :
    Except String (List Row) :=
  match s.readers.lookup tx with
  | none => .error "reader task gone"
  | some conn =>
      match runReaderConn (s.files conn) [⟨text, params⟩] with
      | [] => .error "reader reply lost"
      | reply :: _ => reply

def sendRowReader (s : Store sql) (tx : ℕ) (text : String) (params : List Param) :
    Except String (Option Row) :=
  (s.sendQueryReader tx text params).map List.head?

/-! ## Handles -/

/-- A database file opened twice, with a task for each connection. -/
def openDb (s : Store sql) (path : String) (initSql : Option String) :
    Except String DbHandle × Store sql :=
  let id := s.nextId
  let s := { s with nextId := s.nextId + 1 }
  let file := sql.file path
  match sql.connect path with
  | .error e => (.error ("open writer connection: " ++ e), s)
  | .ok _ =>
      let db := ((sql.executeBatch (s.files file) walSql).toOption).getD (s.files file)
      match initSql.elim (.ok db) (sql.executeBatch db) with
      | .error e => (.error ("init SQL: " ++ e), { s with files := Function.update s.files file db })
      | .ok db =>
          let s := { s with files := Function.update s.files file db }
          match sql.connectReadOnly path with
          | .error e => (.error ("open reader connection: " ++ e), s)
          | .ok _ =>
              (.ok ⟨id, id, id⟩, { s with
                handles := s.handles.insert id ⟨id, id, id⟩,
                writers := s.writers.insert id ⟨file, true⟩,
                readers := s.readers.insert id file })

def getHandle (s : Store sql) (id : ℤ) : Except String DbHandle :=
  match s.handles.lookup (id % 2 ^ 64).toNat with
  | some h => .ok h
  | none => .error "invalid database handle"

/-! ## Calls -/

def docOpen (s : Store sql) (path : String) : Except String LuaValue × Store sql :=
  match s.openDb path (some createSql) with
  | (.ok h, s) => (.ok (.ofInteger h.id), s)
  | (.error e, s) => (.error e, s)

/-- Failures are dropped. -/
def docClose (s : Store sql) (handle : ℤ) : Except String LuaValue × Store sql :=
  match s.getHandle handle with
  | .error _ => (.ok .nil, s)
  | .ok h =>
      let s := (s.sendCloseWriter h.writeTx).2
      (.ok .nil, { s with handles := s.handles.erase (handle % 2 ^ 64).toNat })

section
variable (lua : LuaJit) (serde : SerdeJson)

/-- The upsert, with the failures on the way to it. -/
def trySet (s : Store sql) (handle : ℤ) (key : String) (value : LuaValue) :
    Except String ℕ × Store sql :=
  match s.getHandle handle with
  | .error e => (.error e, s)
  | .ok h =>
      match jsonEncode serde value with
      | .error e => (.error e, s)
      | .ok json => s.sendExecWriter h.writeTx upsertSql [.text key, .text json]

/-- Failures are dropped. -/
def docSet (s : Store sql) (handle : ℤ) (key : String) (value : LuaValue) :
    Except String LuaValue × Store sql :=
  (.ok .nil, (s.trySet serde handle key value).2)

def docGet (s : Store sql) (handle : ℤ) (key : String) : Except String LuaValue := do
  let h ← s.getHandle handle
  let row ← s.sendRowReader h.readTx selectSql [.text key]
  match row.bind (List.lookup "value") with
  | some (.text json) => jsonDecode lua serde json
  | _ => .ok .nil

def tryDelete (s : Store sql) (handle : ℤ) (key : String) : Except String ℕ × Store sql :=
  match s.getHandle handle with
  | .error e => (.error e, s)
  | .ok h => s.sendExecWriter h.writeTx deleteSql [.text key]

/-- Failures are dropped. -/
def docDelete (s : Store sql) (handle : ℤ) (key : String) : Except String LuaValue × Store sql :=
  (.ok .nil, (s.tryDelete handle key).2)

/-- The table of one document. A value that does not decode is left out. -/
def documentTable (row : Row) : LuaValue :=
  let key := match row.lookup "key" with
    | some (.text k) => [("key", .string k)]
    | _ => []
  let value := match row.lookup "value" with
    | some (.text json) => [("value", (jsonDecode lua serde json).toOption.getD .nil)]
    | _ => []
  recordTable (key ++ value)

def kvRowsToLua (rows : List Row) : LuaValue :=
  lua.arrayTable (rows.map (documentTable lua serde))

def docAll (s : Store sql) (handle : ℤ) : Except String LuaValue := do
  let h ← s.getHandle handle
  let rows ← s.sendQueryReader h.readTx allSql []
  return kvRowsToLua lua serde rows

def docCount (s : Store sql) (handle : ℤ) : Except String LuaValue := do
  let h ← s.getHandle handle
  let row ← s.sendRowReader h.readTx countSql []
  match row.bind (List.lookup "cnt") with
  | some (.integer n) => .ok (.ofInteger n)
  | _ => .ok (.ofInteger 0)

end

end Store

inductive Call where
  | set (key : String) (value : LuaValue)
  | get (key : String)
  | delete (key : String)
  | all
  | count

/-- The values in a call are among those that JSON keeps. -/
def Call.Lossless : Call → Prop
  | .set _ value => value.Lossless
  | _ => True

/-- The values in a call are nested no deeper than the reader allows. -/
def Call.Shallow : Call → Prop
  | .set _ value => value.depth < 128
  | _ => True

/-- A call with its handle. -/
def Store.call (lua : LuaJit) (serde : SerdeJson) (s : Store sql) (handle : ℤ) :
    Call → Except String LuaValue × Store sql
  | .set key value => s.docSet serde handle key value
  | .get key => (s.docGet lua serde handle key, s)
  | .delete key => s.docDelete handle key
  | .all => (s.docAll lua serde handle, s)
  | .count => (s.docCount handle, s)

/-- What the calls return, or raise. -/
def Store.run (lua : LuaJit) (serde : SerdeJson) (s : Store sql) :
    List (ℤ × Call) → List (Except String LuaValue)
  | [] => []
  | (handle, c) :: calls =>
      let (result, s) := s.call lua serde handle c
      result :: s.run lua serde calls

/-! ## Documents as a map -/

abbrev Documents := OrderedMap String LuaValue

namespace Documents

/-- What a call returns for the documents. -/
def answer (m : Documents) : Call → LuaValue
  | .set _ _ => .nil
  | .get key => (m.find key).getD .nil
  | .delete _ => .nil
  | .all => .table (m.entries.map fun e =>
      .table [] [(.string "key", .string e.1), (.string "value", e.2)]) []
  | .count => .ofInteger m.size

def after (m : Documents) : Call → Documents
  | .set key value => m.insert key value
  | .delete key => m.erase key
  | _ => m

def answers (m : Documents) : List Call → List LuaValue
  | [] => []
  | c :: calls => m.answer c :: (m.after c).answers calls

/-- The value set last and not deleted since. -/
def lastSet (key : String) (old : Option LuaValue) : List Call → Option LuaValue
  | [] => old
  | .set k value :: calls => lastSet key (if key = k then some value else old) calls
  | .delete k :: calls => lastSet key (if key = k then none else old) calls
  | _ :: calls => lastSet key old calls

theorem find_foldl_after (m : Documents) (key : String) (calls : List Call) :
    (calls.foldl after m).find key = lastSet key (m.find key) calls := by
  induction calls generalizing m with
  | nil => rfl
  | cons c calls ih =>
      rw [List.foldl_cons, ih]
      cases c with
      | set k value => rw [after, OrderedMap.find_insert, lastSet]
      | delete k => rw [after, OrderedMap.find_erase, lastSet]
      | _ => rfl

end Documents

/-! ## Texts -/

/-- A JSON text of a value that JSON keeps. -/
def TextOf (serde : SerdeJson) (text : String) (v : LuaValue) : Prop :=
  v.Lossless ∧ ∃ j, serde.fromStr text = .ok j ∧ luaToJson v = .ok j.plain

section
variable {lua : LuaJit} {serde : SerdeJson} {text : String} {v : LuaValue}

theorem jsonEncode_text (serde : SerdeJson) (hv : v.Lossless) (hdepth : v.depth < 128) :
    ∃ text, jsonEncode serde v = .ok text ∧ TextOf serde text v := by
  obtain ⟨j, hj⟩ := hv.faithful
  refine ⟨serde.toString j, by rw [jsonEncode, hj.encodes]; rfl, hv, j, ?_, ?_⟩
  · exact serde.fromStr_toString hj.exact (hj.depth_le.trans_lt hdepth)
  · rw [hj.encodes, hj.exact.plain_eq]

theorem TextOf.decode (lua : LuaJit) (h : TextOf serde text v) :
    ∃ w, jsonDecode lua serde text = .ok w ∧ w ≠ .nil ∧ w.Same v := by
  obtain ⟨hv, j, hread, hj⟩ := h
  obtain ⟨i, hi⟩ := hv.faithful
  obtain rfl : i = j.plain := Except.ok.inj (hi.encodes.symm.trans hj)
  have hplain := jsonToLua_plain lua j
  refine ⟨jsonToLua lua j, by rw [jsonDecode, hread], ?_, ?_⟩
  · rw [← hplain]
    exact jsonToLua_ne_nil lua hi.notNull
  · rw [← hplain]
    exact hi.decodes lua

/-! ## Requests -/

variable {s : Store sql} {tx : ℕ} {file : String}

/-- The store after a statement on a file. -/
def Store.written (s : Store sql) (tx : ℕ) (file : String) (db : sql.Db) : Store sql :=
  { s with
    files := Function.update s.files file db,
    writers := s.writers.insert tx ⟨file, true⟩ }

theorem Store.sendExecWriter_eq (htx : s.writers.lookup tx = some ⟨file, true⟩) {params : List Param}
    {n : ℕ} {db : sql.Db} (h : sql.execute (s.files file) text params = .ok (n, db)) :
    s.sendExecWriter tx text params = (.ok n, s.written tx file db) := by
  simp only [sendExecWriter, askWriter, htx, runWriterConn, execSql, h, if_true, written]

theorem mapM_ok {α β : Type} (f : α → β) (xs : List α) :
    (xs.map Except.ok).mapM (Except.map f : Except String α → Except String β) =
      .ok (xs.map f) := by
  induction xs with
  | nil => rfl
  | cons x xs ih => rw [List.map_cons, List.mapM_cons, ih]; rfl

theorem Store.sendQueryReader_eq (htx : s.readers.lookup tx = some file) {params : List Param}
    {names : List String} (rows : List (List Cell))
    (hprepare : sql.prepare (s.files file) text = .ok names)
    (hquery : sql.query (s.files file) text params = .ok (rows.map .ok)) :
    s.sendQueryReader tx text params = .ok (rows.map (readRow names)) := by
  simp only [sendQueryReader, htx, runReaderConn, List.map_cons]
  rw [querySql, hprepare, hquery]
  change Except.mapError _ ((rows.map Except.ok).mapM (Except.map (readRow names))) = _
  rw [mapM_ok]
  rfl

/-! ## One call -/

namespace Store

/-- A handle whose two tasks run on the file. -/
def Opened (s : Store sql) (handle : ℤ) (file : String) : Prop :=
  ∃ h, s.getHandle handle = .ok h ∧ s.writers.lookup h.writeTx = some ⟨file, true⟩ ∧
    s.readers.lookup h.readTx = some file

/-- The file holds the documents. -/
def Holds (serde : SerdeJson) (s : Store sql) (file : String) (m : Documents) : Prop :=
  ∃ rows, sql.docs (s.files file) = some rows ∧ OrderedMap.Related (TextOf serde) rows m

variable {handle : ℤ} {m : Documents}

theorem Opened.written (h : s.Opened handle file) {file' : String} {db : sql.Db}
    (htx : s.writers.lookup tx = some ⟨file', true⟩) :
    (s.written tx file' db).Opened handle file := by
  obtain ⟨x, hx, hwriter, hreader⟩ := h
  exact ⟨x, hx, (lookup_insert_same htx x.writeTx).trans hwriter, hreader⟩

theorem holds_written {rows : OrderedMap String String} {db : sql.Db}
    (hdocs : sql.docs db = some rows) (hrows : OrderedMap.Related (TextOf serde) rows m) :
    (s.written tx file db).Holds serde file m := by
  refine ⟨rows, ?_, hrows⟩
  change sql.docs (Function.update s.files file db file) = some rows
  rw [Function.update_self, hdocs]

/-- The registry has given out the ids below the next one, each with its own channels. -/
def Registered (s : Store sql) : Prop :=
  ∀ id h, s.handles.lookup id = some h → h = ⟨id, id, id⟩ ∧ id < s.nextId

/-- What is left of a file opened with the table for the documents. -/
theorem openDb_ok {t : Store sql} {path : String} {x : DbHandle}
    (h : s.openDb path (some createSql) = (.ok x, t)) :
    x = ⟨s.nextId, s.nextId, s.nextId⟩ ∧ ∃ db,
      sql.executeBatch ((sql.executeBatch (s.files (sql.file path)) walSql).toOption.getD
        (s.files (sql.file path))) createSql = .ok db ∧
      t = { files := Function.update s.files (sql.file path) db,
            handles := s.handles.insert s.nextId ⟨s.nextId, s.nextId, s.nextId⟩,
            nextId := s.nextId + 1,
            writers := s.writers.insert s.nextId ⟨sql.file path, true⟩,
            readers := s.readers.insert s.nextId (sql.file path) } := by
  simp only [openDb, Option.elim_some] at h
  cases hconnect : sql.connect path with
  | error e => simp [hconnect] at h
  | ok u =>
      simp only [hconnect] at h
      split at h
      · simp at h
      · next db hdb =>
          split at h
          · simp at h
          · cases h
            exact ⟨rfl, db, hdb, rfl⟩

theorem getHandle_eq_ok {id : ℤ} {x : DbHandle} :
    s.getHandle id = .ok x ↔ s.handles.lookup (id % 2 ^ 64).toNat = some x := by
  rw [getHandle]
  split
  · next y hy => rw [hy, Except.ok.injEq, Option.some.injEq]
  · next hy => rw [hy]; simp

theorem Registered.writeTx_eq (hs : s.Registered) {id : ℤ} {x : DbHandle}
    (h : s.getHandle id = .ok x) : x.writeTx = (id % 2 ^ 64).toNat := by
  rw [(hs _ x (getHandle_eq_ok.mp h)).1]

/-- Opening a file gives a valid handle and finds the documents that the file holds. -/
theorem openDb_opened {t : Store sql} {path : String} {x : DbHandle} (hid : s.nextId < 2 ^ 64)
    (h : s.openDb path (some createSql) = (.ok x, t)) :
    t.Opened x.id (sql.file path) ∧
      (s.Holds serde (sql.file path) m → t.Holds serde (sql.file path) m) := by
  obtain ⟨rfl, db, hdb, rfl⟩ := openDb_ok h
  constructor
  · have hcast : ((s.nextId : ℤ) % 2 ^ 64).toNat = s.nextId := by omega
    refine ⟨⟨s.nextId, s.nextId, s.nextId⟩, ?_, AList.lookup_insert _, AList.lookup_insert _⟩
    rw [getHandle_eq_ok, hcast]
    exact AList.lookup_insert _
  · rintro ⟨rows, hdocs, hrows⟩
    refine ⟨rows, ?_, hrows⟩
    change sql.docs (Function.update s.files (sql.file path) db (sql.file path)) = some rows
    rw [Function.update_self]
    apply sql.create _ hdb
    cases hwal : sql.executeBatch (s.files (sql.file path)) walSql with
    | error e => exact hdocs
    | ok db' => exact sql.wal hdocs hwal

/-- The other handles stay valid, as every handle has its own channels. -/
theorem openDb_keeps {t : Store sql} {path : String} {x : DbHandle} (hs : s.Registered)
    (h : s.openDb path (some createSql) = (.ok x, t)) :
    t.Registered ∧ ∀ other file', s.Opened other file' → t.Opened other file' := by
  obtain ⟨rfl, db, hdb, rfl⟩ := openDb_ok h
  constructor
  · intro id y hy
    rcases (lookup_insert_iff _ _ _ _ _).mp hy with ⟨rfl, rfl⟩ | ⟨_, hold⟩
    · exact ⟨rfl, Nat.lt_succ_self _⟩
    · exact (hs id y hold).imp_right Nat.lt_succ_of_lt
  · rintro other file' ⟨y, hy, hwriter, hreader⟩
    have hlookup := getHandle_eq_ok.mp hy
    obtain ⟨heq, hlt⟩ := hs _ y hlookup
    have htx : y.writeTx ≠ s.nextId ∧ y.readTx ≠ s.nextId := by
      rw [heq]
      exact ⟨hlt.ne, hlt.ne⟩
    refine ⟨y, ?_, ?_, ?_⟩
    · exact getHandle_eq_ok.mpr ((AList.lookup_insert_ne hlt.ne).trans hlookup)
    · exact (AList.lookup_insert_ne htx.1).trans hwriter
    · exact (AList.lookup_insert_ne htx.2).trans hreader

/-- A closed handle is no longer valid, the others stay so. -/
theorem docClose_spec (hs : s.Registered) (hopen : s.Opened handle file) :
    (s.docClose handle).2.getHandle handle = .error "invalid database handle" ∧
      ∀ other file', other % 2 ^ 64 ≠ handle % 2 ^ 64 → s.Opened other file' →
        (s.docClose handle).2.Opened other file' := by
  obtain ⟨h, hh, hwriter, -⟩ := hopen
  have hclose : (s.docClose handle).2 = { s with
      files := Function.update s.files file (s.files file),
      writers := s.writers.insert h.writeTx ⟨file, false⟩,
      handles := s.handles.erase (handle % 2 ^ 64).toNat } := by
    simp only [docClose, hh, sendCloseWriter, askWriter, hwriter, runWriterConn, if_true]
  rw [hclose]
  constructor
  · rw [getHandle, AList.lookup_erase]
  · rintro other file' hother ⟨x, hx, hxwriter, hxreader⟩
    have hlow := Int.emod_nonneg other (by decide : (2 ^ 64 : ℤ) ≠ 0)
    have hlow' := Int.emod_nonneg handle (by decide : (2 ^ 64 : ℤ) ≠ 0)
    have hne : (other % 2 ^ 64).toNat ≠ (handle % 2 ^ 64).toNat := by omega
    refine ⟨x, ?_, ?_, hxreader⟩
    · exact getHandle_eq_ok.mpr ((AList.lookup_erase_ne hne).trans (getHandle_eq_ok.mp hx))
    · have htx : x.writeTx ≠ h.writeTx := by rwa [hs.writeTx_eq hx, hs.writeTx_eq hh]
      exact (AList.lookup_insert_ne htx).trans hxwriter

theorem docGet_eq {h : DbHandle} (hh : s.getHandle handle = .ok h)
    (hreader : s.readers.lookup h.readTx = some file) {rows : OrderedMap String String}
    (hdocs : sql.docs (s.files file) = some rows) (key : String) :
    s.docGet lua serde handle key =
      (rows.find key).elim (.ok .nil) (jsonDecode lua serde) := by
  obtain ⟨hprepare, hquery⟩ := sql.select hdocs key
  cases hfind : rows.find key with
  | none =>
      rw [hfind] at hquery
      have hsend := sendQueryReader_eq hreader [] hprepare hquery
      simp only [docGet, hh, sendRowReader, hsend, bind, Except.bind]
      rfl
  | some text =>
      rw [hfind] at hquery
      have hsend := sendQueryReader_eq hreader [[.text text]] hprepare hquery
      simp only [docGet, hh, sendRowReader, hsend, bind, Except.bind]
      rfl

theorem docCount_eq {h : DbHandle} (hh : s.getHandle handle = .ok h)
    (hreader : s.readers.lookup h.readTx = some file) {rows : OrderedMap String String}
    (hdocs : sql.docs (s.files file) = some rows) :
    s.docCount handle = .ok (.ofInteger rows.size) := by
  obtain ⟨hprepare, hquery⟩ := sql.count hdocs
  have hsend := sendQueryReader_eq hreader [[.integer rows.size]] hprepare hquery
  simp only [docCount, hh, sendRowReader, hsend, bind, Except.bind]
  rfl

theorem docAll_eq {h : DbHandle} (hh : s.getHandle handle = .ok h)
    (hreader : s.readers.lookup h.readTx = some file) {rows : OrderedMap String String}
    (hdocs : sql.docs (s.files file) = some rows) :
    s.docAll lua serde handle = .ok (lua.arrayTable (rows.entries.map fun e =>
      documentTable lua serde (readRow ["key", "value"] [.text e.1, .text e.2]))) := by
  obtain ⟨hprepare, hquery⟩ := sql.all hdocs
  have hsend := sendQueryReader_eq hreader (rows.entries.map fun e => [.text e.1, .text e.2])
    hprepare (by rw [hquery, List.map_map]; rfl)
  simp only [docAll, hh, hsend, bind, Except.bind, kvRowsToLua, List.map_map]
  rfl

/-- What is set is what is read next. -/
theorem docGet_docSet (lua : LuaJit) {rows : OrderedMap String String}
    (hopen : s.Opened handle file) (hdocs : sql.docs (s.files file) = some rows)
    (hencode : jsonEncode serde v = .ok text) (key : String) :
    (s.docSet serde handle key v).2.docGet lua serde handle key = jsonDecode lua serde text := by
  obtain ⟨h, hh, hwriter, hreader⟩ := hopen
  obtain ⟨n, db, hexec, hdb⟩ := sql.upsert hdocs key text
  have hset : (s.trySet serde handle key v).2 = s.written h.writeTx file db := by
    simp only [trySet, hh, hencode, sendExecWriter_eq hwriter hexec]
  have hfile : sql.docs ((s.written h.writeTx file db).files file) =
      some (rows.insert key text) := by
    change sql.docs (Function.update s.files file db file) = _
    rw [Function.update_self, hdb]
  have hkey : (s.written h.writeTx file db).getHandle handle = .ok h := hh
  rw [docSet, hset, docGet_eq hkey hreader hfile, OrderedMap.find_insert, if_pos rfl]
  rfl

theorem readRow_document (key value : String) :
    readRow ["key", "value"] [.text key, .text value] =
      [("key", .text key), ("value", .text value)] := by
  have hlt : ¬ ("value" : String) < "key" := by decide
  simp [readRow, sortEntries, insertEntry, readCell, hlt]

theorem documentTable_same {e : String × String} {d : String × LuaValue} (hkey : e.1 = d.1)
    (h : TextOf serde e.2 d.2) :
    documentTable lua serde (readRow ["key", "value"] [.text e.1, .text e.2]) ≠ .nil ∧
      (documentTable lua serde (readRow ["key", "value"] [.text e.1, .text e.2])).Same
        (.table [] [(.string "key", .string d.1), (.string "value", d.2)]) := by
  obtain ⟨w, hw, hnil, hsame⟩ := h.decode lua
  have hfields : ∀ f ∈ [("key", LuaValue.string e.1), ("value", w)], f.2 ≠ .nil := by
    simp [hnil]
  have htable : documentTable lua serde (readRow ["key", "value"] [.text e.1, .text e.2]) =
      .table [] [(.string "key", .string e.1), (.string "value", w)] := by
    rw [readRow_document]
    change recordTable [("key", .string e.1),
      ("value", (jsonDecode lua serde e.2).toOption.getD .nil)] = _
    rw [hw]
    exact recordTable_eq hfields
  rw [htable, ← hkey]
  refine ⟨by simp, ?_⟩
  have hvalue : w.canonical = d.2.canonical := hsame
  simp only [LuaValue.Same, LuaValue.canonical, LuaValue.canonicalFields, hvalue]

/-- One call: what it returns, what the file holds after it, and that the handles stay. -/
theorem call_spec (lua : LuaJit) (hs : s.Holds serde file m) (hopen : s.Opened handle file) (c : Call)
    (hlossless : c.Lossless) (hshallow : c.Shallow) :
    (∃ w, (s.call lua serde handle c).1 = .ok w ∧ w.Same (m.answer c)) ∧
    (s.call lua serde handle c).2.Holds serde file (m.after c) ∧
    ∀ other file', s.Opened other file' → (s.call lua serde handle c).2.Opened other file' := by
  obtain ⟨rows, hdocs, hrows⟩ := hs
  obtain ⟨h, hh, hwriter, hreader⟩ := hopen
  cases c with
  | set key v =>
      obtain ⟨text, hencode, htext⟩ := jsonEncode_text serde hlossless hshallow
      obtain ⟨n, db, hexec, hdb⟩ := sql.upsert hdocs key text
      have hset : (s.trySet serde handle key v).2 = s.written h.writeTx file db := by
        simp only [trySet, hh, hencode, sendExecWriter_eq hwriter hexec]
      rw [call, docSet, hset]
      exact ⟨⟨.nil, rfl, rfl⟩, holds_written hdb (hrows.insert key htext), fun _ _ ho =>
        ho.written hwriter⟩
  | delete key =>
      obtain ⟨n, db, hexec, hdb⟩ := sql.delete hdocs key
      have hdelete : (s.tryDelete handle key).2 = s.written h.writeTx file db := by
        simp only [tryDelete, hh, sendExecWriter_eq hwriter hexec]
      rw [call, docDelete, hdelete]
      exact ⟨⟨.nil, rfl, rfl⟩, holds_written hdb (hrows.erase key), fun _ _ ho =>
        ho.written hwriter⟩
  | get key =>
      refine ⟨?_, ⟨rows, hdocs, hrows⟩, fun _ _ ho => ho⟩
      rw [call, docGet_eq hh hreader hdocs, Documents.answer]
      match rows.find key, m.find key, hrows.find key with
      | none, none, _ => exact ⟨.nil, rfl, rfl⟩
      | some text, some v, .some htext =>
          obtain ⟨w, hw, _, hsame⟩ := htext.decode lua
          exact ⟨w, hw, hsame⟩
  | all =>
      refine ⟨⟨_, docAll_eq hh hreader hdocs, ?_⟩, ⟨rows, hdocs, hrows⟩, fun _ _ ho => ho⟩
      have htables : List.Forall₂ (fun w v => w ≠ .nil ∧ LuaValue.Same w v)
          (rows.entries.map fun e =>
            documentTable lua serde (readRow ["key", "value"] [.text e.1, .text e.2]))
          (m.entries.map fun d =>
            .table [] [(.string "key", .string d.1), (.string "value", d.2)]) := by
        rw [List.forall₂_map_left_iff, List.forall₂_map_right_iff]
        exact hrows.imp fun e d hed => documentTable_same hed.1 hed.2
      obtain ⟨hnil, hsame⟩ := (List.forall₂_and_left _ _).mp htables
      rw [lua.arrayTable_eq hnil]
      exact LuaValue.same_sequence hsame
  | count =>
      refine ⟨?_, ⟨rows, hdocs, hrows⟩, fun _ _ ho => ho⟩
      rw [call, docCount_eq hh hreader hdocs, Documents.answer, hrows.size]
      exact ⟨_, rfl, rfl⟩

end Store

end

/-! ## Any number of calls -/

/-- The calls return what the map of the documents gives. -/
def Refined (lua : LuaJit) (serde : SerdeJson) (s : Store sql) (m : Documents)
    (calls : List (ℤ × Call)) : Prop :=
  List.Forall₂ (fun r v => ∃ w, r = .ok w ∧ LuaValue.Same w v) (s.run lua serde calls)
    (m.answers (calls.map Prod.snd))

/-- Texts written without blanks. -/
def compactJson : SerdeJson where
  toString j := String.ofList (JsonTexts.write j)
  fromStr text := match JsonTexts.read 128 text.toList with
    | some j => .ok j
    | none => .error "invalid JSON or recursion limit exceeded"
  fromStr_toString hj hdepth := by
    rw [String.toList_ofList, JsonTexts.read_write hj, if_pos hdepth]
  fromStr_deep hj hdepth := by
    rw [String.toList_ofList, JsonTexts.read_write hj, if_neg (by omega)]
    exact ⟨_, rfl⟩

/-- Files with the table of the documents and nothing else. -/
def documentsOnly : Sqlite where
  Db := OrderedMap String String
  file path := path
  connect _ := .ok ()
  connectReadOnly _ := .ok ()
  executeBatch db _ := .ok db
  execute db text
    | [.text key, .text value] =>
        if text = upsertSql then .ok (1, db.insert key value) else .error "unknown statement"
    | [.text key] =>
        if text = deleteSql then .ok ((db.find key).toList.length, db.erase key)
        else .error "unknown statement"
    | _ => .error "unknown statement"
  prepare _ text :=
    if text = selectSql then .ok ["value"]
    else if text = allSql then .ok ["key", "value"]
    else if text = countSql then .ok ["cnt"]
    else .error "unknown statement"
  query db text
    | [.text key] =>
        if text = selectSql then .ok ((db.find key).toList.map fun value => .ok [.text value])
        else .error "unknown statement"
    | _ =>
        if text = allSql then .ok (db.entries.map fun e => .ok [.text e.1, .text e.2])
        else if text = countSql then .ok [.ok [.integer db.size]]
        else .error "unknown statement"
  docs := some
  create h hbatch := Except.ok.inj hbatch ▸ h
  wal h hbatch := Except.ok.inj hbatch ▸ h
  upsert h key value := ⟨_, _, if_pos rfl, by rw [Option.some.inj h]⟩
  delete h key := ⟨_, _, if_pos rfl, by rw [Option.some.inj h]⟩
  select h key := by
    cases h
    exact ⟨if_pos rfl, if_pos rfl⟩
  all h := by
    cases h
    exact ⟨by rw [if_neg (by decide), if_pos rfl], if_pos rfl⟩
  count h := by
    cases h
    exact ⟨by rw [if_neg (by decide), if_neg (by decide), if_pos rfl],
      by rw [if_neg (by decide), if_pos rfl]⟩

def emptyStore : Store documentsOnly := ⟨fun _ => .empty, ∅, 1, ∅, ∅⟩

/-- One file, opened twice. -/
def twoHandles : Store documentsOnly :=
  ((emptyStore.openDb "data.db" (some createSql)).2.openDb "data.db" (some createSql)).2

theorem twoHandles_holds : twoHandles.Holds compactJson "data.db" .empty :=
  ⟨.empty, rfl, .nil⟩

theorem twoHandles_opened {handle : ℤ} (h : handle = 1 ∨ handle = 2) :
    twoHandles.Opened handle "data.db" := by
  rcases h with rfl | rfl
  · exact ⟨⟨1, 1, 1⟩, rfl, rfl, rfl⟩
  · exact ⟨⟨2, 2, 2⟩, rfl, rfl, rfl⟩

def sharedCalls : List (ℤ × Call) :=
  [(1, .set "a" (.integer 1)), (2, .get "a"), (2, .set "b" (.table [.boolean true] [])),
    (1, .all), (1, .delete "a"), (2, .get "a"), (2, .count)]

/-- A sequence in a sequence, and so on. -/
def nested : ℕ → LuaValue
  | 0 => .boolean true
  | n + 1 => .table [nested n] []

def nestedJson : ℕ → Json
  | 0 => .bool true
  | n + 1 => .array [nestedJson n]

theorem luaToJson_nested (n : ℕ) : luaToJson (nested n) = .ok (nestedJson n) := by
  induction n with
  | zero => rfl
  | succ n ih =>
      rw [nested, luaToJson, itemsToJson, ih]
      rfl

theorem nested_lossless (n : ℕ) : (nested n).Lossless := by
  induction n with
  | zero => exact .boolean true
  | succ n ih => exact .sequence (by simp) (by simpa using ih)

theorem nestedJson_exact (n : ℕ) : (nestedJson n).Exact := by
  induction n with
  | zero => exact .bool true
  | succ n ih => exact .array (by simpa using ih)

theorem nestedJson_depth (n : ℕ) : (nestedJson n).depth = n := by
  induction n with
  | zero => rfl
  | succ n ih => simp [nestedJson, Json.depth, Json.itemsDepth, ih]

theorem nested_unreadable (serde : SerdeJson) {n : ℕ} (hn : 128 ≤ n) :
    ∃ text, jsonEncode serde (nested n) = .ok text ∧ ∃ e, serde.fromStr text = .error e := by
  refine ⟨serde.toString (nestedJson n), by rw [jsonEncode, luaToJson_nested]; rfl, ?_⟩
  exact serde.fromStr_deep (nestedJson_exact n) (hn.trans (nestedJson_depth n).ge)

end Pinhead.DocumentStore
