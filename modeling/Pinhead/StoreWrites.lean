import Pinhead.DocumentStore

/-!
# What becomes of a write

A write to the document store can fail at four points: the handle is not valid, the value
has no JSON, the writer is gone, or the statement fails. The calls drop the failure at each
of them, so that none is raised into Lua, and return nil either way. If there is none, the
statement is done and the next read shows it; otherwise the files are as they were.

The store may have come to its state by any calls, through any handles, while writers
stopped and others wrote to the same files.
-/
namespace Pinhead.StoreWrites
open FiniteTables OrderedMaps LuaJson DocumentStore DocumentStore.Store

variable {sql : Sqlite} {s s' : Store sql} {tx : ℕ} {handle : ℤ} {key text : String}
  {params : List Param}

/-! ## Stores in use -/

/-- The task at the other end of a channel is gone. -/
def stopWriter (s : Store sql) (tx : ℕ) : Store sql :=
  { s with writers := s.writers.erase tx }

/-- Another process or Lua state has written to a file. -/
def changeFile (s : Store sql) (file : String) (db : sql.Db) : Store sql :=
  { s with files := Function.update s.files file db }

inductive Reachable (serde : SerdeJson) : Store sql → Prop
  | start (s : Store sql) : s.handles = ∅ → Reachable serde s
  | openDb {s : Store sql} (path : String) (initSql : Option String) :
      Reachable serde s → Reachable serde (s.openDb path initSql).2
  | close {s : Store sql} (handle : ℤ) : Reachable serde s → Reachable serde (s.docClose handle).2
  | set {s : Store sql} (handle : ℤ) (key : String) (v : LuaValue) :
      Reachable serde s → Reachable serde (s.docSet serde handle key v).2
  | delete {s : Store sql} (handle : ℤ) (key : String) :
      Reachable serde s → Reachable serde (s.docDelete handle key).2
  | exec {s : Store sql} (tx : ℕ) (text : String) (params : List Param) :
      Reachable serde s → Reachable serde (s.sendExecWriter tx text params).2
  | stopped {s : Store sql} (tx : ℕ) : Reachable serde s → Reachable serde (stopWriter s tx)
  | changed {s : Store sql} (file : String) (db : sql.Db) :
      Reachable serde s → Reachable serde (changeFile s file db)

/-- The tasks of a handle have the same file, as far as they run. -/
def Paired (s : Store sql) (h : DbHandle) : Prop :=
  ∃ file, s.readers.lookup h.readTx = some file ∧
    ∀ task, s.writers.lookup h.writeTx = some task → task.conn = file

structure Attached (s : Store sql) : Prop where
  registered : s.Registered
  paired : ∀ id h, s.handles.lookup id = some h → Paired s h

/-! ## One step -/

/-- No handle is new and no task has changed its file. -/
structure Kept (s s' : Store sql) : Prop where
  handles : ∀ id h, s'.handles.lookup id = some h → s.handles.lookup id = some h
  nextId : s.nextId ≤ s'.nextId
  readers : s'.readers = s.readers
  writers : ∀ k task', s'.writers.lookup k = some task' →
    ∃ task, s.writers.lookup k = some task ∧ task.conn = task'.conn

theorem Kept.of_eq (hhandles : s'.handles = s.handles) (hnext : s.nextId ≤ s'.nextId)
    (hwriters : s'.writers = s.writers) (hreaders : s'.readers = s.readers) : Kept s s' where
  handles _ _ h := by rwa [hhandles] at h
  nextId := hnext
  readers := hreaders
  writers _ task' h := ⟨task', by rwa [hwriters] at h, rfl⟩

theorem Attached.kept (hs : Attached s) (h : Kept s s') : Attached s' where
  registered id x hx := by
    obtain ⟨heq, hlt⟩ := hs.registered id x (h.handles id x hx)
    exact ⟨heq, hlt.trans_le h.nextId⟩
  paired id x hx := by
    obtain ⟨file, hreader, hwriter⟩ := hs.paired id x (h.handles id x hx)
    refine ⟨file, by rw [h.readers, hreader], fun task' htask' => ?_⟩
    obtain ⟨task, htask, hconn⟩ := h.writers _ task' htask'
    rw [← hconn, hwriter task htask]

/-- What a writer that still runs makes of a request. -/
theorem askWriter_running {conn : String} (h : s.writers.lookup tx = some ⟨conn, true⟩)
    (request : WriteRequest) :
    (s.askWriter tx request).2 = { s with
      files := Function.update s.files conn (runWriterConn (s.files conn) [request]).2.1
      writers := s.writers.insert tx ⟨conn, (runWriterConn (s.files conn) [request]).2.2⟩ } := by
  rw [askWriter, h]
  simp only [if_true]
  split <;> rfl

theorem askWriter_kept (s : Store sql) (tx : ℕ) (request : WriteRequest) :
    Kept s (s.askWriter tx request).2 := by
  cases htask : s.writers.lookup tx with
  | none =>
      rw [askWriter, htask]
      exact .of_eq rfl le_rfl rfl rfl
  | some task =>
      obtain ⟨conn, running⟩ := task
      cases running with
      | false =>
          rw [askWriter, htask]
          exact .of_eq rfl le_rfl rfl rfl
      | true =>
          rw [askWriter_running htask]
          refine ⟨fun _ _ h => h, le_rfl, rfl, fun k task' h => ?_⟩
          rcases (lookup_insert_iff _ _ _ _ _).mp h with ⟨rfl, rfl⟩ | ⟨_, hold⟩
          · exact ⟨⟨conn, true⟩, htask, rfl⟩
          · exact ⟨task', hold, rfl⟩

theorem sendExecWriter_snd (s : Store sql) (tx : ℕ) (text : String) (params : List Param) :
    (s.sendExecWriter tx text params).2 = (s.askWriter tx (.exec text params)).2 := by
  rw [sendExecWriter]
  split <;> simp_all

theorem sendCloseWriter_snd (s : Store sql) (tx : ℕ) :
    (s.sendCloseWriter tx).2 = (s.askWriter tx .close).2 := by
  rw [sendCloseWriter]
  split <;> simp_all

theorem sendExecWriter_kept (s : Store sql) (tx : ℕ) (text : String) (params : List Param) :
    Kept s (s.sendExecWriter tx text params).2 := by
  rw [sendExecWriter_snd]
  exact askWriter_kept s tx _

theorem docSet_kept (serde : SerdeJson) (s : Store sql) (handle : ℤ) (key : String) (v : LuaValue) :
    Kept s (s.docSet serde handle key v).2 := by
  rw [docSet, trySet]
  split
  · exact .of_eq rfl le_rfl rfl rfl
  · split
    · exact .of_eq rfl le_rfl rfl rfl
    · exact sendExecWriter_kept s _ _ _

theorem docDelete_kept (s : Store sql) (handle : ℤ) (key : String) :
    Kept s (s.docDelete handle key).2 := by
  rw [docDelete, tryDelete]
  split
  · exact .of_eq rfl le_rfl rfl rfl
  · exact sendExecWriter_kept s _ _ _

theorem docClose_kept (s : Store sql) (handle : ℤ) : Kept s (s.docClose handle).2 := by
  rw [docClose]
  split
  · exact .of_eq rfl le_rfl rfl rfl
  · next h _ =>
      obtain ⟨hhandles, hnext, hreaders, hwriters⟩ := askWriter_kept s h.writeTx .close
      rw [← sendCloseWriter_snd] at hhandles hnext hreaders hwriters
      refine ⟨fun id x hx => hhandles id x ?_, hnext, hreaders, hwriters⟩
      exact ((lookup_erase_iff _ _ _ _).mp hx).2

theorem stopWriter_kept (s : Store sql) (tx : ℕ) : Kept s (stopWriter s tx) := by
  refine ⟨fun _ _ h => h, le_rfl, rfl, fun k task' h => ⟨task', ?_, rfl⟩⟩
  exact ((lookup_erase_iff _ _ _ _).mp h).2

/-- A file that is opened gets two new tasks. -/
theorem Attached.openDb (hs : Attached s) (path : String) (initSql : Option String) :
    Attached (s.openDb path initSql).2 := by
  rw [DocumentStore.Store.openDb]
  dsimp only
  split
  · exact hs.kept (.of_eq rfl (Nat.le_succ _) rfl rfl)
  · split
    · exact hs.kept (.of_eq rfl (Nat.le_succ _) rfl rfl)
    · split
      · exact hs.kept (.of_eq rfl (Nat.le_succ _) rfl rfl)
      · constructor
        · intro id x hx
          rcases (lookup_insert_iff _ _ _ _ _).mp hx with ⟨rfl, rfl⟩ | ⟨_, hold⟩
          · exact ⟨rfl, Nat.lt_succ_self _⟩
          · exact (hs.registered id x hold).imp_right Nat.lt_succ_of_lt
        · intro id x hx
          rcases (lookup_insert_iff _ _ _ _ _).mp hx with ⟨rfl, rfl⟩ | ⟨hid, hold⟩
          · refine ⟨sql.file path, AList.lookup_insert _, fun task htask => ?_⟩
            rw [AList.lookup_insert] at htask
            cases htask
            rfl
          · obtain ⟨rfl, hlt⟩ := hs.registered id x hold
            obtain ⟨file, hreader, hwriter⟩ := hs.paired id _ hold
            refine ⟨file, (AList.lookup_insert_ne hid).trans hreader, fun task htask => ?_⟩
            rw [AList.lookup_insert_ne hid] at htask
            exact hwriter task htask

theorem Reachable.attached {serde : SerdeJson} (h : Reachable serde s) : Attached s := by
  induction h with
  | start s hs =>
      have hnone : ∀ id, s.handles.lookup id = none := fun id => by rw [hs, AList.lookup_empty]
      exact ⟨fun id x hx => by simp [hnone] at hx, fun id x hx => by simp [hnone] at hx⟩
  | openDb path initSql _ ih => exact ih.openDb path initSql
  | close handle _ ih => exact ih.kept (docClose_kept _ handle)
  | set handle key v _ ih => exact ih.kept (docSet_kept serde _ handle key v)
  | delete handle key _ ih => exact ih.kept (docDelete_kept _ handle key)
  | exec tx text params _ ih => exact ih.kept (sendExecWriter_kept _ tx text params)
  | stopped tx _ ih => exact ih.kept (stopWriter_kept _ tx)
  | changed file db _ ih => exact ih.kept (.of_eq rfl le_rfl rfl rfl)

/-! ## Outcomes -/

/-- A statement on the documents that has succeeded is seen by every later read. -/
structure Durable (sql : Sqlite) : Prop where
  upsert {db db' : sql.Db} {n : ℕ} {key value : String} :
    sql.execute db upsertSql [.text key, .text value] = .ok (n, db') →
      ∃ rows, sql.docs db' = some rows ∧ rows.find key = some value
  delete {db db' : sql.Db} {n : ℕ} {key : String} :
    sql.execute db deleteSql [.text key] = .ok (n, db') →
      ∃ rows, sql.docs db' = some rows ∧ rows.find key = none

/-- The writer of the handle has done the statement, and nothing else has been written. -/
def Executed (s s' : Store sql) (handle : ℤ) (text : String) (params : List Param) : Prop :=
  ∃ h conn n db, s.getHandle handle = .ok h ∧
    s.writers.lookup h.writeTx = some ⟨conn, true⟩ ∧
    sql.execute (s.files conn) text params = .ok (n, db) ∧
    s'.files = Function.update s.files conn db

/-- What keeps a statement from being done. -/
inductive Prevented (s : Store sql) (handle : ℤ) (text : String) (params : List Param) : Prop
  | invalid {e : String} : s.getHandle handle = .error e → Prevented s handle text params
  | gone {h : DbHandle} : s.getHandle handle = .ok h →
      (∀ conn, s.writers.lookup h.writeTx ≠ some ⟨conn, true⟩) → Prevented s handle text params
  | refused {h : DbHandle} {conn e : String} : s.getHandle handle = .ok h →
      s.writers.lookup h.writeTx = some ⟨conn, true⟩ →
      sql.execute (s.files conn) text params = .error e → Prevented s handle text params

/-- The store after `doc.set`. -/
inductive SetOutcome (serde : SerdeJson) (s : Store sql) (handle : ℤ) (key : String)
    (v : LuaValue) (s' : Store sql) : Prop
  | done {json : String} : jsonEncode serde v = .ok json →
      Executed s s' handle upsertSql [.text key, .text json] →
      (∀ lua, s'.docGet lua serde handle key = jsonDecode lua serde json) →
      SetOutcome serde s handle key v s'
  | unencoded {e : String} : jsonEncode serde v = .error e → s'.files = s.files →
      SetOutcome serde s handle key v s'
  | prevented {json : String} : jsonEncode serde v = .ok json →
      Prevented s handle upsertSql [.text key, .text json] → s'.files = s.files →
      SetOutcome serde s handle key v s'

/-- The store after `doc.delete`. -/
inductive DeleteOutcome (serde : SerdeJson) (s : Store sql) (handle : ℤ) (key : String)
    (s' : Store sql) : Prop
  | done : Executed s s' handle deleteSql [.text key] →
      (∀ lua, s'.docGet lua serde handle key = .ok .nil) → DeleteOutcome serde s handle key s'
  | prevented : Prevented s handle deleteSql [.text key] → s'.files = s.files →
      DeleteOutcome serde s handle key s'

/-- A statement is done, and then the handle reads the file it was done on, or something
prevents it. -/
theorem statement_cases (hs : Attached s) {h : DbHandle} (hh : s.getHandle handle = .ok h)
    (text : String) (params : List Param) :
    (∃ conn n db, sql.execute (s.files conn) text params = .ok (n, db) ∧
      Executed s (s.sendExecWriter h.writeTx text params).2 handle text params ∧
      (s.sendExecWriter h.writeTx text params).2.getHandle handle = .ok h ∧
      (s.sendExecWriter h.writeTx text params).2.readers.lookup h.readTx = some conn ∧
      (s.sendExecWriter h.writeTx text params).2.files conn = db) ∨
    Prevented s handle text params ∧ (s.sendExecWriter h.writeTx text params).2.files = s.files := by
  obtain ⟨file, hreader, hconn⟩ := hs.paired _ h (getHandle_eq_ok.mp hh)
  by_cases hruns : ∃ conn, s.writers.lookup h.writeTx = some ⟨conn, true⟩
  · obtain ⟨conn, htask⟩ := hruns
    obtain rfl : conn = file := hconn _ htask
    cases hexec : sql.execute (s.files conn) text params with
    | ok r =>
        obtain ⟨n, db⟩ := r
        rw [sendExecWriter_eq htask hexec]
        exact .inl ⟨conn, n, db, hexec, ⟨h, conn, n, db, hh, htask, hexec, rfl⟩, hh, hreader,
          Function.update_self ..⟩
    | error e =>
        refine .inr ⟨.refused hh htask hexec, ?_⟩
        rw [sendExecWriter_snd, askWriter_running htask]
        simp only [runWriterConn, execSql, hexec, Function.update_eq_self]
  · have hgone : ∀ conn, s.writers.lookup h.writeTx ≠ some ⟨conn, true⟩ := fun conn hconn =>
      hruns ⟨conn, hconn⟩
    refine .inr ⟨.gone hh hgone, ?_⟩
    rw [sendExecWriter_snd, askWriter]
    split
    · rfl
    · next task htask =>
        obtain ⟨conn, running⟩ := task
        cases running with
        | true => exact absurd htask (hgone conn)
        | false => rfl

theorem docSet_outcome (hsql : Durable sql) (hs : Attached s) (serde : SerdeJson) (handle : ℤ)
    (key : String) (v : LuaValue) :
    SetOutcome serde s handle key v (s.docSet serde handle key v).2 := by
  cases hencode : jsonEncode serde v with
  | error e =>
      refine .unencoded hencode ?_
      rw [docSet, trySet, hencode]
      split <;> rfl
  | ok json =>
      cases hh : s.getHandle handle with
      | error e =>
          refine .prevented hencode (.invalid hh) ?_
          rw [docSet, trySet, hh]
      | ok h =>
          have hset : (s.docSet serde handle key v).2 =
              (s.sendExecWriter h.writeTx upsertSql [.text key, .text json]).2 := by
            rw [docSet, trySet, hh, hencode]
          rw [hset]
          obtain ⟨conn, n, db, hexec, hdone, hh', hreader, hdb⟩ | ⟨hprevented, hfiles⟩ :=
            statement_cases hs hh upsertSql [.text key, .text json]
          · obtain ⟨rows, hrows, hfind⟩ := hsql.upsert hexec
            refine .done hencode hdone fun lua => ?_
            rw [docGet_eq hh' hreader (hdb ▸ hrows), hfind]
            rfl
          · exact .prevented hencode hprevented hfiles

theorem docDelete_outcome (hsql : Durable sql) (hs : Attached s) (serde : SerdeJson) (handle : ℤ)
    (key : String) : DeleteOutcome serde s handle key (s.docDelete handle key).2 := by
  cases hh : s.getHandle handle with
  | error e =>
      refine .prevented (.invalid hh) ?_
      rw [docDelete, tryDelete, hh]
  | ok h =>
      have hdelete : (s.docDelete handle key).2 =
          (s.sendExecWriter h.writeTx deleteSql [.text key]).2 := by
        rw [docDelete, tryDelete, hh]
      rw [hdelete]
      obtain ⟨conn, n, db, hexec, hdone, hh', hreader, hdb⟩ | ⟨hprevented, hfiles⟩ :=
        statement_cases hs hh deleteSql [.text key]
      · obtain ⟨rows, hrows, hfind⟩ := hsql.delete hexec
        refine .done hdone fun lua => ?_
        rw [docGet_eq hh' hreader (hdb ▸ hrows), hfind]
        rfl
      · exact .prevented hprevented hfiles

theorem documentsOnly_durable : Durable documentsOnly where
  upsert {db db' n key value} h := by
    have hrows : documentsOnly.docs db = some db := rfl
    obtain ⟨_, last, hexec, hdocs⟩ := documentsOnly.upsert hrows key value
    cases hexec.symm.trans h
    exact ⟨_, hdocs, (OrderedMap.find_insert _ key key value).trans (if_pos rfl)⟩
  delete {db db' n key} h := by
    have hrows : documentsOnly.docs db = some db := rfl
    obtain ⟨_, last, hexec, hdocs⟩ := documentsOnly.delete hrows key
    cases hexec.symm.trans h
    exact ⟨_, hdocs, (OrderedMap.find_erase _ key key).trans (if_pos rfl)⟩

theorem twoHandles_reachable : Reachable compactJson twoHandles :=
  .openDb _ _ (.openDb _ _ (.start emptyStore rfl))

/-- What has not raised has happened, and what has raised has left no trace. -/
structure Truthful (lua : LuaJit) (serde : SerdeJson) (s : Store sql) (handle : ℤ) (key : String)
    (v : LuaValue) : Prop where
  set {r : LuaValue} : (s.docSet serde handle key v).1 = .ok r →
    ∃ json, jsonEncode serde v = .ok json ∧
      Executed s (s.docSet serde handle key v).2 handle upsertSql [.text key, .text json] ∧
      (s.docSet serde handle key v).2.docGet lua serde handle key = jsonDecode lua serde json
  setRaised {e : String} : (s.docSet serde handle key v).1 = .error e →
    (s.docSet serde handle key v).2.files = s.files
  delete {r : LuaValue} : (s.docDelete handle key).1 = .ok r →
    (s.docDelete handle key).2.docGet lua serde handle key = .ok .nil
  deleteRaised {e : String} : (s.docDelete handle key).1 = .error e →
    (s.docDelete handle key).2.files = s.files

end Pinhead.StoreWrites
