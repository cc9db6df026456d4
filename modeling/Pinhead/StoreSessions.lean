import Pinhead.DocumentSearches

/-!
# Open databases

Behind `doc.*` and `sql.*` stands one registry of handles, and behind every handle a task that
writes and another that reads, each with a channel. For a script none of this is there: through
any sequence of calls, with any handles, valid or not, the store is a table of open files, and a
call is the statement on the file that its handle was opened on. No call ever meets a task that
is gone or loses its reply.

SQLite is any engine with connections; nothing is used of what its statements do.
-/
namespace Pinhead.StoreSessions
open FiniteTables OrderedMaps LuaJson DocumentStore DocumentStore.Store DocumentSearches

/-! ## Parameters and rows -/

/-- Infinities and NaN are not told apart here: `special` stands for what they are bound as. -/
def luaSingleToParam (special : Param) : LuaValue → Param
  | .nil => .null
  | .integer i => .integer i
  | .number n => .real n
  | .nonFinite => special
  | .string s => .text s
  | .badString _ => .text ""
  | .boolean b => .integer (if b then 1 else 0)
  | .table _ _ => .null
  | .other => .null

def luaValueToParams (special : Param) : LuaValue → List Param
  | .nil => []
  | .integer i => [.integer i]
  | .number n => [.real n]
  | .nonFinite => [special]
  | .string s => [.text s]
  | .badString _ => [.text ""]
  | .table values _ => values.map (luaSingleToParam special)
  | .boolean b => [.integer (if b then 1 else 0)]
  | .other => []

def valueToLua : Value → LuaValue
  | .null => .nil
  | .integer i => .ofInteger i
  | .real n => .ofNumber n
  | .text s => .string s

def rowToLua (row : Row) : LuaValue := recordTable (row.map fun e => (e.1, valueToLua e.2))

def sqlRowsToLua (lua : LuaJit) (rows : List Row) : LuaValue := lua.arrayTable (rows.map rowToLua)

/-! ## The calls -/

section
variable {sql : Sqlite} (special : Param) (lua : LuaJit)

def sqlOpen (s : Store sql) (path : String) : Except String LuaValue × Store sql :=
  match s.openDb path none with
  | (.ok h, s) => (.ok (.ofInteger h.id), s)
  | (.error e, s) => (.error e, s)

def sqlClose (s : Store sql) (handle : ℤ) : Except String LuaValue × Store sql := s.docClose handle

def sqlExec (s : Store sql) (handle : ℤ) (text : String) (params : LuaValue) :
    Except String LuaValue × Store sql :=
  match s.getHandle handle with
  | .error e => (.error e, s)
  | .ok h =>
      match s.sendExecWriter h.writeTx text (luaValueToParams special params) with
      | (.ok n, s) => (.ok (.ofInteger n), s)
      | (.error e, s) => (.error e, s)

def sqlQuery (s : Store sql) (handle : ℤ) (text : String) (params : LuaValue) :
    Except String LuaValue := do
  let h ← s.getHandle handle
  let rows ← s.sendQueryReader h.readTx text (luaValueToParams special params)
  return sqlRowsToLua lua rows

def sqlRow (s : Store sql) (handle : ℤ) (text : String) (params : LuaValue) :
    Except String LuaValue := do
  let h ← s.getHandle handle
  match ← s.sendRowReader h.readTx text (luaValueToParams special params) with
  | some row => return rowToLua row
  | none => return .nil

end

inductive ApiCall where
  | docOpen (path : String)
  | docClose (handle : ℤ)
  | docSet (handle : ℤ) (key : String) (value : LuaValue)
  | docGet (handle : ℤ) (key : String)
  | docDelete (handle : ℤ) (key : String)
  | docFind (handle : ℤ) (path : String) (value : LuaValue)
  | docAll (handle : ℤ)
  | docCount (handle : ℤ)
  | sqlOpen (path : String)
  | sqlClose (handle : ℤ)
  | sqlExec (handle : ℤ) (text : String) (params : LuaValue)
  | sqlQuery (handle : ℤ) (text : String) (params : LuaValue)
  | sqlRow (handle : ℤ) (text : String) (params : LuaValue)

/-- What the calls are made with besides the store. -/
structure Libraries where
  numberText : LuaValue → String
  special : Param
  lua : LuaJit
  serde : SerdeJson

variable {sql : Sqlite} (lib : Libraries)

/-- What a call returns, or raises, and the store after it. -/
def apiCall (s : Store sql) : ApiCall → Except String LuaValue × Store sql
  | .docOpen path => s.docOpen path
  | .docClose handle => s.docClose handle
  | .docSet handle key value => s.docSet lib.serde handle key value
  | .docGet handle key => (s.docGet lib.lua lib.serde handle key, s)
  | .docDelete handle key => s.docDelete handle key
  | .docFind handle path value =>
      (docFind lib.numberText lib.lua lib.serde s handle path value, s)
  | .docAll handle => (s.docAll lib.lua lib.serde handle, s)
  | .docCount handle => (s.docCount handle, s)
  | .sqlOpen path => sqlOpen s path
  | .sqlClose handle => sqlClose s handle
  | .sqlExec handle text params => sqlExec lib.special s handle text params
  | .sqlQuery handle text params => (sqlQuery lib.special lib.lua s handle text params, s)
  | .sqlRow handle text params => (sqlRow lib.special s handle text params, s)

def apiRun (s : Store sql) : List ApiCall → List (Except String LuaValue) × Store sql
  | [] => ([], s)
  | c :: calls =>
      let (result, s) := apiCall lib s c
      let (results, s) := apiRun s calls
      (result :: results, s)

/-! ## A table of open files -/

structure Sessions (sql : Sqlite) where
  files : String → sql.Db
  opened : AList fun _ : ℕ => String
  nextId : ℕ

namespace Sessions

/-- Both connections to a file, with what the statements at its opening leave in it. -/
def connect (files : String → sql.Db) (path : String) (initSql : Option String) :
    Except String Unit × (String → sql.Db) :=
  let file := sql.file path
  match sql.connect path with
  | .error e => (.error ("open writer connection: " ++ e), files)
  | .ok _ =>
      let db := ((sql.executeBatch (files file) walSql).toOption).getD (files file)
      match initSql.elim (.ok db) (sql.executeBatch db) with
      | .error e => (.error ("init SQL: " ++ e), Function.update files file db)
      | .ok db =>
          match sql.connectReadOnly path with
          | .error e => (.error ("open reader connection: " ++ e), Function.update files file db)
          | .ok _ => (.ok (), Function.update files file db)

/-- A file that is opened gets the next number, which is used up even if that fails. -/
def openFile (a : Sessions sql) (path : String) (initSql : Option String) :
    Except String ℕ × Sessions sql :=
  match connect a.files path initSql with
  | (.error e, files) => (.error e, { a with files := files, nextId := a.nextId + 1 })
  | (.ok _, files) => (.ok a.nextId, {
      files := files, opened := a.opened.insert a.nextId (sql.file path), nextId := a.nextId + 1 })

def file (a : Sessions sql) (handle : ℤ) : Except String String :=
  match a.opened.lookup (handle % 2 ^ 64).toNat with
  | some file => .ok file
  | none => .error "invalid database handle"

def close (a : Sessions sql) (handle : ℤ) : Sessions sql :=
  { a with opened := a.opened.erase (handle % 2 ^ 64).toNat }

def execute (a : Sessions sql) (handle : ℤ) (text : String) (params : List Param) :
    Except String ℕ × Sessions sql :=
  match a.file handle with
  | .error e => (.error e, a)
  | .ok file =>
      let (result, db) := execSql (a.files file) text params
      (result, { a with files := Function.update a.files file db })

def query (a : Sessions sql) (handle : ℤ) (text : String) (params : List Param) :
    Except String (List Row) := do
  let file ← a.file handle
  querySql (a.files file) text params

/-- The first of a sequence, or nil. -/
def first : LuaValue → LuaValue
  | .table (v :: _) _ => v
  | _ => .nil

/-- The result of a call in terms of the statements on the open files. -/
def call (a : Sessions sql) : ApiCall → Except String LuaValue × Sessions sql
  | .docOpen path =>
      let (result, a) := a.openFile path (some createSql)
      (result.map fun id : ℕ => .ofInteger id, a)
  | .sqlOpen path =>
      let (result, a) := a.openFile path none
      (result.map fun id : ℕ => .ofInteger id, a)
  | .docClose handle => (.ok .nil, a.close handle)
  | .sqlClose handle => (.ok .nil, a.close handle)
  | .docSet handle key value =>
      match jsonEncode lib.serde value with
      | .error _ => (.ok .nil, a)
      | .ok json => (.ok .nil, (a.execute handle upsertSql [.text key, .text json]).2)
  | .docDelete handle key => (.ok .nil, (a.execute handle deleteSql [.text key]).2)
  | .sqlExec handle text params =>
      let (result, a) := a.execute handle text (luaValueToParams lib.special params)
      (result.map fun n : ℕ => .ofInteger n, a)
  | .docGet handle key =>
      (do
        let rows ← a.query handle selectSql [.text key]
        match rows.head?.bind (List.lookup "value") with
        | some (.text json) => jsonDecode lib.lua lib.serde json
        | _ => .ok .nil, a)
  | .docFind handle path value =>
      (do
        let text ← stringArgument lib.numberText value
        let rows ← a.query handle findSql [.text path, .text text]
        return kvRowsToLua lib.lua lib.serde rows, a)
  | .docAll handle =>
      ((a.query handle allSql []).map (kvRowsToLua lib.lua lib.serde), a)
  | .docCount handle =>
      (do
        let rows ← a.query handle countSql []
        match rows.head?.bind (List.lookup "cnt") with
        | some (.integer n) => .ok (.ofInteger n)
        | _ => .ok (.ofInteger 0), a)
  | .sqlQuery handle text params =>
      ((a.query handle text (luaValueToParams lib.special params)).map (sqlRowsToLua lib.lua), a)
  | .sqlRow handle text params =>
      (((a.query handle text (luaValueToParams lib.special params)).map
        (sqlRowsToLua lib.lua)).map first, a)

def run (a : Sessions sql) : List ApiCall → List (Except String LuaValue) × Sessions sql
  | [] => ([], a)
  | c :: calls =>
      let (result, a) := a.call lib c
      let (results, a) := run a calls
      (result :: results, a)

end Sessions

/-! ## What stands behind the table -/

/-- Every open file has its handle and both of its tasks. -/
structure Behind (a : Sessions sql) (s : Store sql) : Prop where
  files : s.files = a.files
  nextId : s.nextId = a.nextId
  handles : ∀ id, s.handles.lookup id = (a.opened.lookup id).map fun _ => ⟨id, id, id⟩
  tasks : ∀ id file, a.opened.lookup id = some file →
    s.writers.lookup id = some ⟨file, true⟩ ∧ s.readers.lookup id = some file
  bound : ∀ id file, a.opened.lookup id = some file → id < a.nextId

variable {a : Sessions sql} {s : Store sql}

theorem behind_start (h : s.handles = ∅) : Behind ⟨s.files, ∅, s.nextId⟩ s where
  files := rfl
  nextId := rfl
  handles id := by rw [h, AList.lookup_empty, AList.lookup_empty, Option.map_none]
  tasks id file hid := by simp at hid
  bound id file hid := by simp at hid

/-- A handle is valid for both or for neither, and leads to the tasks of its file. -/
theorem Behind.handle (h : Behind a s) (handle : ℤ) :
    (∃ file x, a.file handle = .ok file ∧ s.getHandle handle = .ok x ∧
      s.writers.lookup x.writeTx = some ⟨file, true⟩ ∧ s.readers.lookup x.readTx = some file) ∨
    ∃ e, a.file handle = .error e ∧ s.getHandle handle = .error e := by
  have hhandle := h.handles (handle % 2 ^ 64).toNat
  cases hfile : a.opened.lookup (handle % 2 ^ 64).toNat with
  | none =>
      rw [hfile, Option.map_none] at hhandle
      exact .inr ⟨"invalid database handle", by rw [Sessions.file, hfile],
        by rw [getHandle, hhandle]⟩
  | some file =>
      rw [hfile, Option.map_some] at hhandle
      obtain ⟨hwriter, hreader⟩ := h.tasks _ _ hfile
      exact .inl ⟨file, _, by rw [Sessions.file, hfile], by rw [getHandle, hhandle], hwriter,
        hreader⟩

/-- A read through the reader of a handle. -/
theorem Behind.query (h : Behind a s) (handle : ℤ) (text : String) (params : List Param) :
    (do
      let x ← s.getHandle handle
      s.sendQueryReader x.readTx text params) = a.query handle text params := by
  rcases h.handle handle with ⟨file, x, hfile, hx, _, hreader⟩ | ⟨e, hfile, hx⟩
  · rw [Sessions.query, hfile, hx, ← h.files]
    simp only [bind, Except.bind, sendQueryReader, hreader, runReaderConn, List.map_cons]
  · rw [Sessions.query, hfile, hx]
    rfl

theorem Behind.written (h : Behind a s) {tx : ℕ} {file : String} (db : sql.Db)
    (htx : s.writers.lookup tx = some ⟨file, true⟩) :
    Behind { a with files := Function.update a.files file db } (s.written tx file db) where
  files := by rw [Store.written, h.files]
  nextId := h.nextId
  handles := h.handles
  tasks id file' hid := by
    obtain ⟨hwriter, hreader⟩ := h.tasks id file' hid
    exact ⟨(lookup_insert_same htx id).trans hwriter, hreader⟩
  bound := h.bound

/-- A statement through the writer of a handle. -/
theorem Behind.execute (h : Behind a s) (handle : ℤ) (text : String) (params : List Param) :
    (∃ e, s.getHandle handle = .error e ∧ a.execute handle text params = (.error e, a)) ∨
    ∃ x, s.getHandle handle = .ok x ∧
      (s.sendExecWriter x.writeTx text params).1 = (a.execute handle text params).1 ∧
      Behind (a.execute handle text params).2 (s.sendExecWriter x.writeTx text params).2 := by
  rcases h.handle handle with ⟨file, x, hfile, hx, hwriter, _⟩ | ⟨e, hfile, hx⟩
  · refine .inr ⟨x, hx, ?_⟩
    have hexecute : a.execute handle text params =
        ((execSql (a.files file) text params).1, { a with
          files := Function.update a.files file (execSql (a.files file) text params).2 }) := by
      rw [Sessions.execute, hfile]
    have hsend : s.sendExecWriter x.writeTx text params =
        ((execSql (a.files file) text params).1,
          s.written x.writeTx file (execSql (a.files file) text params).2) := by
      simp only [sendExecWriter, askWriter, hwriter, runWriterConn, if_true, h.files, Store.written]
    rw [hexecute, hsend]
    exact ⟨rfl, h.written _ hwriter⟩
  · exact .inl ⟨e, hx, by rw [Sessions.execute, hfile]⟩

/-- The statement of a call that drops its failures. -/
theorem Behind.dropped (h : Behind a s) (handle : ℤ) (text : String) (params : List Param) :
    Behind (a.execute handle text params).2 (match s.getHandle handle with
      | .error e => ((.error e, s) : Except String ℕ × Store sql)
      | .ok x => s.sendExecWriter x.writeTx text params).2 := by
  rcases h.execute handle text params with ⟨e, hx, hexecute⟩ | ⟨x, hx, _, hbehind⟩
  · rw [hx, hexecute]
    exact h
  · rw [hx]
    exact hbehind

/-! ## Opening and closing -/

theorem openDb_eq (s : Store sql) (path : String) (initSql : Option String) :
    s.openDb path initSql = match Sessions.connect s.files path initSql with
      | (.error e, files) => (.error e, { s with files := files, nextId := s.nextId + 1 })
      | (.ok _, files) => (.ok ⟨s.nextId, s.nextId, s.nextId⟩, {
          files := files,
          handles := s.handles.insert s.nextId ⟨s.nextId, s.nextId, s.nextId⟩,
          nextId := s.nextId + 1,
          writers := s.writers.insert s.nextId ⟨sql.file path, true⟩,
          readers := s.readers.insert s.nextId (sql.file path) }) := by
  simp only [Store.openDb, Sessions.connect]
  cases sql.connect path with
  | error e => rfl
  | ok _ =>
      generalize ((sql.executeBatch (s.files (sql.file path)) walSql).toOption).getD
        (s.files (sql.file path)) = db
      cases initSql.elim (.ok db) (sql.executeBatch db) with
      | error e => rfl
      | ok db =>
          cases sql.connectReadOnly path with
          | error e => rfl
          | ok _ => rfl

theorem Behind.openDb (h : Behind a s) (path : String) (initSql : Option String) :
    (s.openDb path initSql).1.map DbHandle.id = (a.openFile path initSql).1 ∧
      Behind (a.openFile path initSql).2 (s.openDb path initSql).2 := by
  rw [openDb_eq, Sessions.openFile, h.files, h.nextId]
  obtain ⟨result, files⟩ := Sessions.connect a.files path initSql
  cases result with
  | error e =>
      exact ⟨rfl, rfl, rfl, h.handles, h.tasks,
        fun id file hid => Nat.lt_succ_of_lt (h.bound id file hid)⟩
  | ok _ =>
      refine ⟨rfl, rfl, rfl, ?_, ?_, ?_⟩
      · intro id
        by_cases hid : id = a.nextId
        · subst hid
          rw [AList.lookup_insert, AList.lookup_insert, Option.map_some]
        · rw [AList.lookup_insert_ne hid, AList.lookup_insert_ne hid]
          exact h.handles id
      · intro id file hid
        rcases (lookup_insert_iff _ _ _ _ _).mp hid with ⟨rfl, rfl⟩ | ⟨hne, hold⟩
        · exact ⟨AList.lookup_insert _, AList.lookup_insert _⟩
        · obtain ⟨hwriter, hreader⟩ := h.tasks id file hold
          exact ⟨(AList.lookup_insert_ne hne).trans hwriter,
            (AList.lookup_insert_ne hne).trans hreader⟩
      · intro id file hid
        rcases (lookup_insert_iff _ _ _ _ _).mp hid with ⟨rfl, _⟩ | ⟨_, hold⟩
        · exact Nat.lt_succ_self _
        · exact Nat.lt_succ_of_lt (h.bound id file hold)

theorem Behind.docClose (h : Behind a s) (handle : ℤ) :
    (s.docClose handle).1 = .ok .nil ∧ Behind (a.close handle) (s.docClose handle).2 := by
  rcases h.handle handle with ⟨file, x, hfile, hx, hwriter, _⟩ | ⟨e, hfile, hx⟩
  · have hlookup := getHandle_eq_ok.mp hx
    have hid : x.writeTx = (handle % 2 ^ 64).toNat := by
      rw [h.handles] at hlookup
      obtain ⟨_, _, rfl⟩ := Option.map_eq_some_iff.mp hlookup
      rfl
    simp only [Store.docClose, hx, sendCloseWriter, askWriter, hwriter, runWriterConn, if_true]
    refine ⟨trivial, ?_, h.nextId, ?_, ?_, ?_⟩
    · rw [Sessions.close, Function.update_eq_self, h.files]
    · intro id
      rw [Sessions.close]
      by_cases hne : id = (handle % 2 ^ 64).toNat
      · rw [hne, AList.lookup_erase, AList.lookup_erase, Option.map_none]
      · rw [AList.lookup_erase_ne hne, AList.lookup_erase_ne hne]
        exact h.handles id
    · intro id file' hopened
      obtain ⟨hne, hopened⟩ := (lookup_erase_iff _ _ _ _).mp hopened
      obtain ⟨hw, hr⟩ := h.tasks id file' hopened
      rw [hid]
      exact ⟨(AList.lookup_insert_ne hne).trans hw, hr⟩
    · intro id file' hopened
      exact h.bound id file' ((lookup_erase_iff _ _ _ _).mp hopened).2
  · simp only [Store.docClose, hx]
    have hnone : a.opened.lookup (handle % 2 ^ 64).toNat = none := by
      cases hopened : a.opened.lookup (handle % 2 ^ 64).toNat with
      | none => rfl
      | some file =>
          rw [Sessions.file, hopened] at hfile
          cases hfile
    refine ⟨trivial, h.files, h.nextId, ?_, ?_, ?_⟩
    · intro id
      rw [Sessions.close]
      by_cases hne : id = (handle % 2 ^ 64).toNat
      · rw [h.handles, hne, AList.lookup_erase, hnone]
      · rw [AList.lookup_erase_ne hne]
        exact h.handles id
    · intro id file' hopened
      exact h.tasks id file' ((lookup_erase_iff _ _ _ _).mp hopened).2
    · intro id file' hopened
      exact h.bound id file' ((lookup_erase_iff _ _ _ _).mp hopened).2

/-! ## One call and many -/

theorem arrayTable_first (lua : LuaJit) (rows : List Row) :
    Sessions.first (sqlRowsToLua lua rows) = (rows.head?.map rowToLua).getD .nil := by
  have htables : ∀ v ∈ rows.map rowToLua, v ≠ .nil := by
    intro v hv
    obtain ⟨row, _, rfl⟩ := List.mem_map.mp hv
    simp [rowToLua, recordTable]
  rw [sqlRowsToLua, lua.arrayTable_eq htables]
  cases rows <;> rfl

/-- The first row of a query, or nil. -/
theorem sqlRow_eq (special : Param) (lua : LuaJit) (s : Store sql) (handle : ℤ) (text : String)
    (params : LuaValue) : sqlRow special s handle text params =
      (sqlQuery special lua s handle text params).map Sessions.first := by
  rw [sqlRow, sqlQuery]
  cases s.getHandle handle with
  | error e => rfl
  | ok x =>
      simp only [bind, Except.bind, sendRowReader]
      cases s.sendQueryReader x.readTx text (luaValueToParams special params) with
      | error e => rfl
      | ok rows =>
          simp only [Except.map, pure, Except.pure]
          rw [arrayTable_first]
          cases rows <;> rfl

theorem Behind.call (h : Behind a s) (c : ApiCall) :
    (apiCall lib s c).1 = (a.call lib c).1 ∧ Behind (a.call lib c).2 (apiCall lib s c).2 := by
  cases c with
  | docOpen path =>
      obtain ⟨hresult, hbehind⟩ := h.openDb path (some createSql)
      simp only [apiCall, Store.docOpen, Sessions.call, ← hresult]
      rcases hopen : s.openDb path (some createSql) with ⟨result, t⟩
      rw [hopen] at hbehind
      cases result <;> exact ⟨rfl, hbehind⟩
  | sqlOpen path =>
      obtain ⟨hresult, hbehind⟩ := h.openDb path none
      simp only [apiCall, StoreSessions.sqlOpen, Sessions.call, ← hresult]
      rcases hopen : s.openDb path none with ⟨result, t⟩
      rw [hopen] at hbehind
      cases result <;> exact ⟨rfl, hbehind⟩
  | docClose handle => exact h.docClose handle
  | sqlClose handle => exact h.docClose handle
  | docSet handle key value =>
      simp only [apiCall, Store.docSet, trySet, Sessions.call]
      cases hjson : jsonEncode lib.serde value with
      | error e =>
          cases s.getHandle handle with
          | error _ => exact ⟨rfl, h⟩
          | ok _ => exact ⟨rfl, h⟩
      | ok json => exact ⟨rfl, h.dropped handle upsertSql [.text key, .text json]⟩
  | docDelete handle key => exact ⟨rfl, h.dropped handle deleteSql [.text key]⟩
  | docGet handle key =>
      refine ⟨?_, h⟩
      simp only [apiCall, Store.docGet, Sessions.call, ← h.query]
      cases s.getHandle handle with
      | error e => rfl
      | ok x =>
          simp only [bind, Except.bind, sendRowReader]
          cases s.sendQueryReader x.readTx selectSql [.text key] <;> rfl
  | docFind handle path value =>
      refine ⟨?_, h⟩
      simp only [apiCall, DocumentSearches.docFind, Sessions.call, ← h.query]
      cases stringArgument lib.numberText value with
      | error e => rfl
      | ok text => cases s.getHandle handle <;> rfl
  | docAll handle =>
      refine ⟨?_, h⟩
      simp only [apiCall, Store.docAll, Sessions.call, ← h.query]
      cases s.getHandle handle <;> rfl
  | docCount handle =>
      refine ⟨?_, h⟩
      simp only [apiCall, Store.docCount, Sessions.call, ← h.query]
      cases s.getHandle handle with
      | error e => rfl
      | ok x =>
          simp only [bind, Except.bind, sendRowReader]
          cases s.sendQueryReader x.readTx countSql [] <;> rfl
  | sqlExec handle text params =>
      simp only [apiCall, StoreSessions.sqlExec, Sessions.call]
      rcases h.execute handle text (luaValueToParams lib.special params) with
        ⟨e, hx, hexecute⟩ | ⟨x, hx, hresult, hbehind⟩
      · rw [hx, hexecute]
        exact ⟨rfl, h⟩
      · rw [hx, ← hresult]
        dsimp only
        rcases hsend : s.sendExecWriter x.writeTx text (luaValueToParams lib.special params) with
          ⟨result, t⟩
        rw [hsend] at hbehind
        cases result <;> exact ⟨rfl, hbehind⟩
  | sqlQuery handle text params =>
      refine ⟨?_, h⟩
      simp only [apiCall, StoreSessions.sqlQuery, Sessions.call, ← h.query]
      cases s.getHandle handle <;> rfl
  | sqlRow handle text params =>
      refine ⟨?_, h⟩
      simp only [apiCall, sqlRow_eq lib.special lib.lua, StoreSessions.sqlQuery, Sessions.call,
        ← h.query]
      cases s.getHandle handle <;> rfl

theorem Behind.run (h : Behind a s) (calls : List ApiCall) :
    (apiRun lib s calls).1 = (a.run lib calls).1 ∧
      Behind (a.run lib calls).2 (apiRun lib s calls).2 := by
  induction calls generalizing a s with
  | nil => exact ⟨rfl, h⟩
  | cons c calls ih =>
      obtain ⟨hresult, hbehind⟩ := h.call lib c
      obtain ⟨hresults, hrest⟩ := ih hbehind
      exact ⟨congrArg₂ List.cons hresult hresults, hrest⟩

def ApiCall.closes (id : ℕ) : ApiCall → Bool
  | .docClose handle | .sqlClose handle => (handle % 2 ^ 64).toNat = id
  | _ => false

namespace Sessions

theorem execute_opened (a : Sessions sql) (handle : ℤ) (text : String) (params : List Param) :
    (a.execute handle text params).2.opened = a.opened ∧
      (a.execute handle text params).2.nextId = a.nextId := by
  rw [execute]
  split <;> exact ⟨rfl, rfl⟩

theorem openFile_opened (a : Sessions sql) (path : String) (initSql : Option String) {id : ℕ}
    (hid : id < a.nextId) :
    (a.openFile path initSql).2.opened.lookup id = a.opened.lookup id ∧
      (a.openFile path initSql).2.nextId = a.nextId + 1 := by
  rw [openFile]
  split
  · exact ⟨rfl, rfl⟩
  · exact ⟨AList.lookup_insert_ne hid.ne, rfl⟩

theorem close_opened (a : Sessions sql) (handle : ℤ) (id : ℕ) :
    (a.close handle).opened.lookup id =
      if (handle % 2 ^ 64).toNat = id then none else a.opened.lookup id := by
  rw [close]
  split
  · next hid =>
      rw [← hid, AList.lookup_erase]
  · next hid => exact AList.lookup_erase_ne (Ne.symm hid)

/-- A number that has been given out is only ever closed. -/
theorem call_opened (a : Sessions sql) (c : ApiCall) {id : ℕ} (hid : id < a.nextId) :
    (a.call lib c).2.opened.lookup id = (if c.closes id then none else a.opened.lookup id) ∧
      a.nextId ≤ (a.call lib c).2.nextId := by
  cases c with
  | docOpen path =>
      obtain ⟨hopened, hnext⟩ := a.openFile_opened path (some createSql) hid
      exact ⟨hopened, hnext ▸ Nat.le_succ _⟩
  | sqlOpen path =>
      obtain ⟨hopened, hnext⟩ := a.openFile_opened path none hid
      exact ⟨hopened, hnext ▸ Nat.le_succ _⟩
  | docClose handle =>
      refine ⟨?_, le_rfl⟩
      rw [call, close_opened]
      simp [ApiCall.closes]
  | sqlClose handle =>
      refine ⟨?_, le_rfl⟩
      rw [call, close_opened]
      simp [ApiCall.closes]
  | docSet handle key value =>
      rw [call]
      cases jsonEncode lib.serde value with
      | error e => exact ⟨rfl, le_rfl⟩
      | ok json =>
          obtain ⟨hopened, hnext⟩ :=
            a.execute_opened handle upsertSql [.text key, .text json]
          exact ⟨congrArg (AList.lookup id) hopened, hnext.ge⟩
  | docDelete handle key =>
      obtain ⟨hopened, hnext⟩ := a.execute_opened handle deleteSql [.text key]
      exact ⟨congrArg (AList.lookup id) hopened, hnext.ge⟩
  | sqlExec handle text params =>
      obtain ⟨hopened, hnext⟩ :=
        a.execute_opened handle text (luaValueToParams lib.special params)
      exact ⟨congrArg (AList.lookup id) hopened, hnext.ge⟩
  | _ => exact ⟨rfl, le_rfl⟩

theorem run_opened (a : Sessions sql) (calls : List ApiCall) {id : ℕ} (hid : id < a.nextId) :
    (a.run lib calls).2.opened.lookup id =
        (if calls.any (ApiCall.closes id) then none else a.opened.lookup id) ∧
      a.nextId ≤ (a.run lib calls).2.nextId := by
  induction calls generalizing a with
  | nil => exact ⟨rfl, le_rfl⟩
  | cons c calls ih =>
      obtain ⟨hcall, hnext⟩ := a.call_opened lib c hid
      obtain ⟨hrun, hlast⟩ := ih (a.call lib c).2 (hid.trans_le hnext)
      refine ⟨?_, hnext.trans hlast⟩
      change ((a.call lib c).2.run lib calls).2.opened.lookup id = _
      rw [hrun, hcall, List.any_cons]
      cases c.closes id <;> cases calls.any (ApiCall.closes id) <;> rfl

end Sessions

theorem openDb_id {t : Store sql} {path : String} {initSql : Option String} {x : DbHandle}
    (h : s.openDb path initSql = (.ok x, t)) : x = ⟨s.nextId, s.nextId, s.nextId⟩ := by
  rw [openDb_eq] at h
  split at h
  · cases h
  · cases h
    rfl

theorem openFile_file {path : String} {initSql : Option String} {n : ℕ}
    (h : (a.openFile path initSql).1 = .ok n) :
    n = a.nextId ∧ (a.openFile path initSql).2.nextId = n + 1 ∧
      (a.openFile path initSql).2.opened.lookup n = some (sql.file path) := by
  rw [Sessions.openFile] at h ⊢
  split at h
  · cases h
  · cases h
    exact ⟨rfl, rfl, AList.lookup_insert _⟩

/-- The number that an open returns, at any point of any run, stands for the file that was
opened until it is closed, and from then on for nothing, whatever else is called and however
often; no later open returns it again. -/
theorem handle_lifetime (lib : Libraries) (s t : Store sql) (h : s.handles = ∅)
    (before later : List ApiCall) (path : String) (initSql : Option String) (x : DbHandle)
    (hopen : (apiRun lib s before).2.openDb path initSql = (.ok x, t)) (hid : x.id < 2 ^ 64) :
    (later.any (ApiCall.closes x.id) = false →
      (apiRun lib t later).2.Opened x.id (sql.file path)) ∧
    (later.any (ApiCall.closes x.id) = true →
      (apiRun lib t later).2.getHandle x.id = .error "invalid database handle") ∧
    ∀ path' initSql' x' u, (apiRun lib t later).2.openDb path' initSql' = (.ok x', u) →
      x.id < x'.id := by
  have hbefore := ((behind_start h).run lib before).2
  obtain ⟨hresult, hbehind⟩ := hbefore.openDb path initSql
  rw [hopen] at hresult hbehind
  obtain ⟨_, hnext, hfile⟩ := openFile_file hresult.symm
  have hgiven := Nat.lt_succ_self x.id
  rw [Nat.succ_eq_add_one, ← hnext] at hgiven
  obtain ⟨hopened, hlast⟩ := Sessions.run_opened lib _ later hgiven
  have hafter := (hbehind.run lib later).2
  have hcast : ((x.id : ℤ) % 2 ^ 64).toNat = x.id := by omega
  rw [hfile] at hopened
  refine ⟨?_, ?_, ?_⟩
  · intro hlater
    rw [hlater] at hopened
    obtain ⟨hwriter, hreader⟩ := hafter.tasks _ _ hopened
    refine ⟨⟨x.id, x.id, x.id⟩, ?_, hwriter, hreader⟩
    rw [getHandle_eq_ok, hcast, hafter.handles, hopened]
    rfl
  · intro hlater
    rw [hlater] at hopened
    rw [getHandle, hcast, hafter.handles, hopened]
    rfl
  · intro path' initSql' x' u hopen'
    rw [openDb_id hopen', hafter.nextId]
    rw [hnext] at hlast
    exact hlast

/-! ### Two open files -/

def someLibraries : Libraries := ⟨fun _ => "", .null, firstGap, compactJson⟩

theorem handle_lifetime_one : ∃ t : Store documentsOnly,
    (apiRun someLibraries t [.docOpen "b.db", .docSet 1 "k" (.integer 1)]).2.Opened 1 "a.db" ∧
      (apiRun someLibraries t [.docClose 1, .docOpen "b.db"]).2.getHandle 1 =
        .error "invalid database handle" := by
  have h := fun later => handle_lifetime someLibraries emptyStore
    (emptyStore.openDb "a.db" (some createSql)).2 rfl [] later "a.db" (some createSql) ⟨1, 1, 1⟩ rfl
    (by decide)
  exact ⟨_, (h _).1 rfl, (h _).2.1 rfl⟩

end Pinhead.StoreSessions
