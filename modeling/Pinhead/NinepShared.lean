import Pinhead.FiniteTables
import Pinhead.FsRequests
import Pinhead.Resumption

/-!
# The state shared by all connections of one 9P listener

One `Shared` value serves every connection: the fid table, the path table that
gives each known path its qid number, and the negotiated message size. Handlers
reach it only inside critical sections, listed here one by one, and otherwise
talk to the router, read the clock and write to their own stream.

Hash tables are association lists without duplicate keys. Their iteration order
is unspecified, so between any two critical sections the environment may
reorder both tables. The qid counter is unbounded: it grows only when the path
table does.
-/
namespace Pinhead.NinepShared
open ByteStrings FsRequests Resumption

/-! ## Paths -/

def endsWithSlash (s : String) : Bool := s.toList.getLast? == some '/'

/-- `parent` and `name` with exactly one separator written between them. -/
def joinPath (parent name : String) : String :=
  if endsWithSlash parent then parent ++ name else parent ++ "/" ++ name

/-- Everything after the last separator, or the whole path without one. -/
def lastSegment (path : String) : String :=
  String.ofList (path.toList.reverse.takeWhile (· ≠ '/')).reverse

/-- Everything before the last separator, if there is one. -/
def beforeLastSlash (path : String) : Option String :=
  match path.toList.reverse.dropWhile (· ≠ '/') with
  | [] => none
  | _ :: rest => some (String.ofList rest.reverse)

def stripStart (start s : String) : Option String :=
  if start.toList.isPrefixOf s.toList then
    some (String.ofList (s.toList.drop start.toList.length))
  else none

/-- The name under which a directory read lists `path`, if it does at all. -/
def childName (dir path : String) : Option String :=
  if path = dir then none
  else
    match stripStart (if endsWithSlash dir then dir else dir ++ "/") path with
    | none => none
    | some rest =>
        if rest.toList.contains '/' then none
        else some (if rest = "" then "." else rest)

/-! ## Tables -/

structure PathEntry where
  path : String
  isDir : Bool
  deriving DecidableEq, Repr

structure FidEntry where
  qid : ℕ
  path : String
  isOpen : Bool
  isDir : Bool
  deriving DecidableEq, Repr

structure NinepState where
  fids : AList fun _ : UInt32 => FidEntry
  paths : AList fun _ : ℕ => PathEntry
  nextQid : ℕ

def NinepState.new : NinepState where
  fids := ∅
  paths := AList.singleton 0 ⟨"/", true⟩
  nextQid := 1

/-- An existing qid of the path if the table holds one, else the next number. -/
def NinepState.allocQid (s : NinepState) (path : String) (isDir : Bool) : ℕ × NinepState :=
  match s.paths.entries.find? fun e => e.2.path == path with
  | some e => (e.1, s)
  | none => (s.nextQid,
      { s with paths := s.paths.insert s.nextQid ⟨path, isDir⟩, nextQid := s.nextQid + 1 })

def NinepState.setFid (s : NinepState) (fid : UInt32) (qid : ℕ) (path : String) (isDir : Bool) :
    NinepState :=
  { s with fids := s.fids.insert fid ⟨qid, path, false, isDir⟩ }

/-- Update the entry of a fid that is still there. -/
def NinepState.modifyFid (s : NinepState) (fid : UInt32) (f : FidEntry → FidEntry) : NinepState :=
  match s.fids.lookup fid with
  | some e => { s with fids := s.fids.insert fid (f e) }
  | none => s

structure DirEntry where
  name : String
  qid : ℕ
  isDir : Bool
  deriving DecidableEq, Repr

/-- One pass over the path table in its current iteration order. -/
def NinepState.listDir (s : NinepState) (dir : String) : List DirEntry :=
  s.paths.entries.filterMap fun e =>
    (childName dir e.2.path).map fun name => ⟨name, e.1, e.2.isDir⟩

structure Shared where
  state : NinepState
  msize : ℕ

/-- The listeners for Unix sockets, TCP and TLS all start from this value. -/
def Shared.new : Shared := ⟨NinepState.new, 8192⟩

/-! ## Critical sections -/

inductive Critical where
  | getFid (fid : UInt32)
  | attach (fid : UInt32)
  | allocQid (path : String) (isDir : Bool)
  | setFid (fid : UInt32) (qid : ℕ) (path : String) (isDir : Bool)
  | markOpen (fid : UInt32)
  | createFid (fid : UInt32) (path : String) (isDir : Bool)
  | listDir (dir : String)
  | removeFid (fid : UInt32)
  | renameFid (fid : UInt32) (qid : ℕ) (newPath : String)
  | readMsize
  | writeMsize (msize : ℕ)
  deriving DecidableEq

def Critical.Ret : Critical → Type
  | .getFid _ => Option FidEntry
  | .allocQid _ _ | .createFid _ _ _ | .readMsize => ℕ
  | .listDir _ => List DirEntry
  | _ => Unit

/-- The body of each critical section, run without interruption. -/
def Critical.exec : (c : Critical) → Shared → c.Ret × Shared
  | .getFid fid, s => (s.state.fids.lookup fid, s)
  | .attach fid, s => ((), { s with state := s.state.setFid fid 0 "/" true })
  | .allocQid path isDir, s =>
      let a := s.state.allocQid path isDir
      (a.1, { s with state := a.2 })
  | .setFid fid qid path isDir, s => ((), { s with state := s.state.setFid fid qid path isDir })
  | .markOpen fid, s =>
      ((), { s with state := s.state.modifyFid fid fun e => { e with isOpen := true } })
  | .createFid fid path isDir, s =>
      let a := s.state.allocQid path isDir
      let bound := a.2.setFid fid a.1 path isDir
      (a.1, { s with state := bound.modifyFid fid fun e => { e with isOpen := true } })
  | .listDir dir, s => (s.state.listDir dir, s)
  | .removeFid fid, s => ((), { s with state := { s.state with fids := s.state.fids.erase fid } })
  | .renameFid fid qid newPath, s =>
      let moved := s.state.modifyFid fid fun e => { e with path := newPath }
      ((), { s with state := { moved with paths := moved.paths.insert qid ⟨newPath, false⟩ } })
  | .readMsize, s => (s.msize, s)
  | .writeMsize msize, s => ((), { s with msize := msize })

/-! ## What a handler can do -/

/-- `crash` is an out-of-range access: the task stops there for good. -/
inductive Op where
  | locked (c : Critical)
  | route (req : Request)
  | now
  | send (msg : Bytes)
  | crash

def Op.Ret : Op → Type
  | .locked c => c.Ret
  | .route _ => Answer
  | .now => ℕ
  | .send _ => Unit
  | .crash => Empty

abbrev ninep : Signature := ⟨Op, Op.Ret⟩

/-- The two tables hold the same entries, iterated in some other order. -/
structure Shared.Reordered (s t : Shared) : Prop where
  fids : s.state.fids.entries.Perm t.state.fids.entries
  paths : s.state.paths.entries.Perm t.state.paths.entries
  nextQid : s.state.nextQid = t.state.nextQid
  msize : s.msize = t.msize

/-- All behaviours of the environment, for a router that gives one of the
answers admitted by `router`. The clock may show any time. -/
def semantics (router : Request → Answer → Prop) : Semantics ninep Shared
  | .locked c, s, r, s' => ∃ t, s.Reordered t ∧ c.exec t = (r, s')
  | .route req, s, r, s' => router req r ∧ s' = s
  | .now, s, _, s' => s' = s
  | .send _, s, _, s' => s' = s
  | .crash, _, _, _ => False

/-! ## Path lemmas -/

theorem stripStart_eq_some {start x rest : String} :
    stripStart start x = some rest ↔ x = start ++ rest := by
  unfold stripStart
  constructor
  · intro h
    split at h
    · next hstart =>
        obtain ⟨tail, htail⟩ := List.isPrefixOf_iff_prefix.mp hstart
        have hrest := Option.some.inj h
        rw [← htail, List.drop_left] at hrest
        rw [← hrest, ← String.toList_inj, ← htail, String.toList_append, String.toList_ofList]
    · cases h
  · rintro rfl
    have hstart : start.toList.isPrefixOf (start ++ rest).toList = true :=
      List.isPrefixOf_iff_prefix.mpr ⟨rest.toList, String.toList_append.symm⟩
    rw [if_pos hstart, String.toList_append, List.drop_left, String.ofList_toList]

/-- A path listed under a proper name is the directory joined with that name. -/
theorem childName_join {dir path name : String} (h : childName dir path = some name)
    (hdot : name ≠ ".") : path = joinPath dir name := by
  unfold childName at h
  split at h
  · cases h
  · split at h
    · cases h
    · next rest hrest =>
        split at h
        · cases h
        · have hname := Option.some.inj h
          have hne : rest ≠ "" := by
            intro hempty
            rw [if_pos hempty] at hname
            exact hdot hname.symm
          rw [if_neg hne] at hname
          subst hname
          rw [stripStart_eq_some.mp hrest, joinPath]
          split <;> rfl

/-! ## Table lemmas -/

theorem Shared.Reordered.refl (s : Shared) : s.Reordered s :=
  ⟨.refl _, .refl _, rfl, rfl⟩

theorem semantics_exec {router : Request → Answer → Prop} (c : Critical) (s : Shared) :
    semantics router (.locked c) s (c.exec s).1 (c.exec s).2 := ⟨s, .refl s, rfl⟩

theorem Shared.Reordered.symm {s t : Shared} (h : s.Reordered t) : t.Reordered s :=
  ⟨h.fids.symm, h.paths.symm, h.nextQid.symm, h.msize.symm⟩

theorem Shared.Reordered.trans {s t u : Shared} (h : s.Reordered t) (k : t.Reordered u) :
    s.Reordered u :=
  ⟨h.fids.trans k.fids, h.paths.trans k.paths, h.nextQid.trans k.nextQid, h.msize.trans k.msize⟩

theorem Shared.Reordered.lookup_fids {s t : Shared} (h : s.Reordered t) (fid : UInt32) :
    t.state.fids.lookup fid = s.state.fids.lookup fid :=
  (AList.perm_lookup h.fids).symm

theorem Shared.Reordered.lookup_paths {s t : Shared} (h : s.Reordered t) (qid : ℕ) :
    t.state.paths.lookup qid = s.state.paths.lookup qid :=
  (AList.perm_lookup h.paths).symm

/-- The search finds a recorded pair, or the path is recorded nowhere. -/
theorem find_path (s : NinepState) (path : String) :
    (∃ e, (s.paths.entries.find? fun e => e.2.path == path) = some e ∧
      s.paths.lookup e.1 = some e.2 ∧ e.2.path = path) ∨
    ((s.paths.entries.find? fun e => e.2.path == path) = none ∧
      ∀ q e, s.paths.lookup q = some e → e.path ≠ path) := by
  cases h : s.paths.entries.find? fun e => e.2.path == path with
  | some e =>
      refine Or.inl ⟨e, rfl, ?_, ?_⟩
      · exact AList.mem_lookup_iff.mpr (List.mem_of_find?_eq_some h)
      · simpa using List.find?_some h
  | none =>
      refine Or.inr ⟨rfl, ?_⟩
      intro q e hq hp
      have hmem := AList.mem_lookup_iff.mp hq
      have hno := List.find?_eq_none.mp h ⟨q, e⟩ hmem
      exact hno (by simpa using hp)

/-- An allocation hands out a recorded qid and changes nothing, or it records the
path under the next number. -/
theorem allocQid_cases (s : NinepState) (path : String) (isDir : Bool) :
    (∃ q e, s.paths.lookup q = some e ∧ e.path = path ∧ s.allocQid path isDir = (q, s)) ∨
    ((∀ q e, s.paths.lookup q = some e → e.path ≠ path) ∧
      s.allocQid path isDir = (s.nextQid,
        { s with paths := s.paths.insert s.nextQid ⟨path, isDir⟩, nextQid := s.nextQid + 1 })) := by
  unfold NinepState.allocQid
  rcases find_path s path with ⟨e, he, hlook, hp⟩ | ⟨hnone, hnew⟩
  · rw [he]
    exact Or.inl ⟨e.1, e.2, hlook, hp, rfl⟩
  · rw [hnone]
    exact Or.inr ⟨hnew, rfl⟩

theorem allocQid_fids (s : NinepState) (path : String) (isDir : Bool) :
    (s.allocQid path isDir).2.fids = s.fids := by
  unfold NinepState.allocQid
  split <;> rfl

theorem lookup_modifyFid (s : NinepState) (fid g : UInt32) (f : FidEntry → FidEntry) :
    (s.modifyFid fid f).fids.lookup g =
      if g = fid then (s.fids.lookup g).map f else s.fids.lookup g := by
  unfold NinepState.modifyFid
  by_cases hg : g = fid
  · subst g
    rw [if_pos rfl]
    cases h : s.fids.lookup fid with
    | none => simpa using h
    | some e => exact AList.lookup_insert _
  · rw [if_neg hg]
    split
    · exact AList.lookup_insert_ne hg
    · rfl

theorem modifyFid_paths (s : NinepState) (fid : UInt32) (g : FidEntry → FidEntry) :
    (s.modifyFid fid g).paths = s.paths := by
  unfold NinepState.modifyFid
  split <;> rfl

theorem modifyFid_nextQid (s : NinepState) (fid : UInt32) (g : FidEntry → FidEntry) :
    (s.modifyFid fid g).nextQid = s.nextQid := by
  unfold NinepState.modifyFid
  split <;> rfl

end Pinhead.NinepShared
