import Pinhead.Histories
import Pinhead.NinepShared

/-!
# The FUSE filesystem

The kernel's requests arrive one at a time as callbacks. The filesystem keeps three
things: the next inode number, a table from inode numbers to paths and a cache of
content lengths by path. Everything else it asks the router, and waits.

Where the code searches the inode table for a path, any inode with that path may be
found: the iteration order of the table is unspecified. The search is an operation
of its own, whose answer picks one of the matches.
-/
namespace Pinhead.FuseFilesystem
open ByteStrings FsRequests Resumption NinepShared

/-! ## State -/

structure FuseState where
  inoNext : ℕ
  paths : AList fun _ : ℕ => String
  sizeCache : AList fun _ : String => ℕ

def FuseState.new : FuseState := ⟨2, AList.singleton 1 "/", ∅⟩

def FuseState.recordPath (s : FuseState) (ino : ℕ) (path : String) : FuseState :=
  { s with paths := s.paths.insert ino path }

def FuseState.pathFor (s : FuseState) (ino : ℕ) : Option String := s.paths.lookup ino

/-- A fresh inode number, recorded for the path. -/
def FuseState.handOut (s : FuseState) (path : String) : FuseState :=
  { s with inoNext := s.inoNext + 1, paths := s.paths.insert s.inoNext path }

def FuseState.cacheSize (s : FuseState) (path : String) (size : ℕ) : FuseState :=
  { s with sizeCache := s.sizeCache.insert path size }

/-- The inodes recorded for a path, in the order of the table. -/
def FuseState.inodesAt (s : FuseState) (path : String) : List ℕ :=
  (s.paths.entries.filter fun e => e.2 == path).map Sigma.fst

/-! ## Attributes -/

structure FileAttr where
  ino : ℕ
  size : ℕ
  blocks : ℕ
  time : ℕ
  isDir : Bool
  perm : ℕ
  nlink : ℕ
  deriving DecidableEq, Repr

/-- The attributes of an inode at clock time `now`. -/
def fileAttr (now ino size : ℕ) (isDir : Bool) : FileAttr where
  ino := ino
  size := size
  blocks := (size + 511) / 512
  time := now
  isDir := isDir
  perm := if isDir then 0o755 else 0o644
  nlink := if isDir then 2 else 1

/-- Those of the root are fixed when the filesystem is mounted. -/
def rootAttr (mounted : ℕ) : FileAttr := ⟨1, 0, 0, mounted, true, 0o755, 2⟩

/-- One word of an attribute text, taken into what is known so far. -/
def parsePart (attr : Bool × ℕ) (part : String) : Bool × ℕ :=
  match stripStart "mode=" part with
  | some val => (trim val == "dir" || trim val == "directory", attr.2)
  | none =>
      match stripStart "size=" part with
      | some val => (attr.1, (parseU64 val.toList).getD 0)
      | none => attr

def parseAttr (data : Bytes) : Bool × ℕ :=
  (splitWhitespace (fromUtf8Lossy data)).foldl parsePart (false, 0)

/-- The first size in an attribute text, if it is a number. -/
def parseAttrSize (data : Bytes) : Option ℕ :=
  ((splitWhitespace (fromUtf8Lossy data)).findSome? (stripStart "size=")).bind fun val =>
    parseU64 val.toList

example : parseAttr (asBytes "mode=file size=12") = (false, 12) := by decide

/-! ## Callbacks -/

/-- A specific time is counted in nanoseconds since the epoch. -/
inductive TimeOrNow where
  | now
  | specificTime (nanos : ℤ)
  deriving DecidableEq

/-- The requests of the kernel, with the fields that the filesystem reads. `room` is
the number of directory entries that fit into the kernel's buffer. -/
inductive Callback where
  | lookup (parent : ℕ) (name : Bytes)
  | getattr (ino : ℕ)
  | readdir (ino offset room : ℕ)
  | open
  | read (ino offset size : ℕ)
  | write (ino offset : ℕ) (data : Bytes)
  | release (ino : ℕ)
  | opendir (ino : ℕ)
  | releasedir (ino : ℕ)
  | forget (ino : ℕ)
  | statfs
  | access
  | create (parent : ℕ) (name : Bytes)
  | mkdir (parent : ℕ) (name : Bytes)
  | unlink (parent : ℕ) (name : Bytes)
  | rmdir (parent : ℕ) (name : Bytes)
  | rename (parent : ℕ) (name : Bytes) (newparent : ℕ) (newname : Bytes)
  | setattr (ino : ℕ) (mode uid gid size : Option ℕ) (atime mtime : Option TimeOrNow)
  | flush
  | fsync
  | fsyncdir

inductive Errno where
  | enoent | eio
  deriving DecidableEq, Repr

structure Dirent where
  ino : ℕ
  isDir : Bool
  name : String
  deriving DecidableEq, Repr

inductive Reply where
  | entry (attr : FileAttr)
  | attr (attr : FileAttr)
  | created (attr : FileAttr)
  | directory (entries : List Dirent)
  | opened
  | data (data : Bytes)
  | written (count : ℕ)
  | statfs
  | ok
  | error (errno : Errno)
  | none
  deriving DecidableEq

/-! ## Operations -/

inductive Op where
  | route (req : Request)
  | now
  | choose

def Op.Ret : Op → Type
  | .route _ => Answer
  | .now => ℕ
  | .choose => ℕ

abbrev fuse : Signature := ⟨Op, Op.Ret⟩

def outcome : Answer → Except String Bytes
  | .routerGone => .error "router channel closed"
  | .handlerGone => .error "handler did not reply"
  | .reply (.error e) => .error e
  | .reply (.ok r) => .ok r.data

def sendReq (op : FsOperation) (path : String) (data : Bytes) :
    Prog fuse (Except String Bytes) := do
  let answer ← Prog.perform (S := fuse) (.route ⟨op, path, data⟩)
  pure (outcome answer)

/-- The attributes of an inode as of now. -/
def attrNow (ino size : ℕ) (isDir : Bool) : Prog fuse FileAttr := do
  let now : ℕ ← Prog.perform (S := fuse) .now
  pure (fileAttr now ino size isDir)

/-- Any one of the inodes recorded for the path. -/
def findInode (s : FuseState) (path : String) : Prog fuse (Option ℕ) := do
  let choice : ℕ ← Prog.perform (S := fuse) .choose
  pure (s.inodesAt path)[choice % (s.inodesAt path).length]?

abbrev Result := Reply × FuseState

section
variable (s : FuseState)

/-- Callbacks on an inode fail when the table does not have it. -/
def withPath (ino : ℕ) (f : String → Prog fuse Result) : Prog fuse Result :=
  match s.pathFor ino with
  | some path => f path
  | none => pure (.error .enoent, s)

/-- An unknown parent stands for the root. -/
def parentPath (parent : ℕ) : String := (s.pathFor parent).getD "/"

/-- The path of a name in a directory, for the callbacks that change one. -/
def childPath (parent : ℕ) (name : Bytes) : String :=
  trimEndMatches '/' (parentPath s parent) ++ "/" ++ fromUtf8Lossy name

def noRoute (msg : String) : Bool := (stripStart "no route matches" msg).isSome

/-! ## Names -/

def lookup (mounted : ℕ) (parent : ℕ) (name : Bytes) : Prog fuse Result := do
  let name := fromUtf8Lossy name
  if name = "." ∨ name = ".." then
    if parent = 1 then pure (.entry (rootAttr mounted), s)
    else do
      let attr ← attrNow parent 0 true
      pure (.entry attr, s)
  else do
    let path := joinPath (parentPath s parent) name
    match ← sendReq .lookup path [] with
    | .ok data => do
        let (isDir, size) ← do
          match ← sendReq .getAttr path [] with
          | .ok attrData =>
              let (d, n) := parseAttr attrData
              if n = 0 ∧ attrData ≠ [] ∧ parseAttrSize attrData = none then
                pure (false, attrData.length)
              else pure (d, n)
          | .error _ => pure (false, data.length)
        let attr ← attrNow s.inoNext size isDir
        pure (.entry attr, s.handOut path)
    | .error msg =>
        if noRoute msg then do
          let attr ← attrNow s.inoNext 4096 true
          pure (.entry attr, s.handOut path)
        else pure (.error .enoent, s)

def forget (ino : ℕ) : Prog fuse Result :=
  if ino ≠ 1 then pure (.none, { s with paths := s.paths.erase ino })
  else pure (.none, s)

/-! ## Files -/

def getattr (mounted : ℕ) (ino : ℕ) : Prog fuse Result :=
  if ino = 1 then pure (.attr (rootAttr mounted), s)
  else withPath s ino fun path => do
    match ← sendReq .getAttr path [] with
    | .ok data => do
        let (isDir, size) := parseAttr data
        if size = 0 ∧ data ≠ [] ∧ parseAttrSize data = none then do
          let attr ← attrNow ino data.length false
          pure (.attr attr, s)
        else if size = 0 ∧ data = [] ∧ isDir = false then do
          match s.sizeCache.lookup path with
          | some n => do
              let attr ← attrNow ino n false
              pure (.attr attr, s)
          | none => do
              match ← sendReq .read path [] with
              | .ok content => do
                  let attr ← attrNow ino content.length false
                  pure (.attr attr, s)
              | .error _ => do
                  let attr ← attrNow ino 0 false
                  pure (.attr attr, s)
        else do
          let attr ← attrNow ino size isDir
          pure (.attr attr, s)
    | .error msg => do
        match ← sendReq .lookup path [] with
        | .ok data => do
            let attr ← attrNow ino data.length false
            pure (.attr attr, s)
        | .error lookupMsg =>
            if noRoute msg && noRoute lookupMsg then do
              let attr ← attrNow ino 4096 true
              pure (.attr attr, s)
            else pure (.error .enoent, s)

def read (ino offset size : ℕ) : Prog fuse Result :=
  withPath s ino fun path => do
    match ← sendReq .read path [] with
    | .ok data => pure (.data ((data.drop offset).take size), s.cacheSize path data.length)
    | .error _ => pure (.error .eio, s)

/-- The offset is not used; the count is that of a 32-bit cast. -/
def write (ino : ℕ) (_offset : ℕ) (data : Bytes) : Prog fuse Result :=
  withPath s ino fun path => do
    match ← sendReq .write path data with
    | .ok _ => pure (.written (data.length % 2 ^ 32), s.cacheSize path data.length)
    | .error _ => pure (.error .eio, s)

/-- Whatever becomes of the request, the reply is success. -/
def releasing (ino : ℕ) : Prog fuse Result :=
  withPath s ino fun path => do
    let _ ← sendReq .release path []
    pure (.ok, s)

def release (ino : ℕ) : Prog fuse Result := releasing s ino

def releasedir (ino : ℕ) : Prog fuse Result := releasing s ino

def opendir (ino : ℕ) : Prog fuse Result :=
  withPath s ino fun path => do
    match ← sendReq .openDir path [] with
    | .ok _ => pure (.opened, s)
    | .error _ => pure (.error .eio, s)

/-! ## Directories -/

/-- The name in one line of a listing, if the line is an entry at all. -/
def listedName (line : String) : Option String :=
  let line := trim line
  if line = "" ∨ line = "." ∨ line = ".." then none
  else
    let name := if line.toList.contains ':' then
      trim (String.ofList (line.toList.takeWhile (· ≠ ':'))) else line
    if name = "" then none else some name

/-- Each entry of a listing is recorded under a fresh inode number. -/
def recordEntries (path : String) : List String → FuseState → List Dirent × FuseState
  | [], s => ([], s)
  | name :: names, s =>
      let clean := trimEndMatches '/' name
      let (rest, s') := recordEntries path names
        (s.handOut (trimEndMatches '/' path ++ "/" ++ clean))
      (⟨s.inoNext, endsWithSlash name, clean⟩ :: rest, s')

/-- The inode of the parent directory, if it is recorded. -/
def parentInode (ino : ℕ) (path : String) : Prog fuse ℕ :=
  if ino = 1 then pure 1
  else do
    let found ← findInode s ((beforeLastSlash path).getD "/")
    pure (found.getD 1)

def readdir (ino offset room : ℕ) : Prog fuse Result :=
  let list (path : String) : Prog fuse Result := do
    let parent ← parentInode s ino path
    let dots : List Dirent := [⟨1, true, "."⟩, ⟨parent, true, ".."⟩]
    match ← sendReq .readDir path [] with
    | .ok data =>
        let names := (lines (fromUtf8Lossy data)).filterMap listedName
        let (entries, s) := recordEntries path names s
        pure (.directory (((dots ++ entries).drop offset).take room), s)
    | .error _ => pure (.directory ((dots.drop offset).take room), s)
  if ino = 1 then list "/" else withPath s ino list

/-- The router is not asked. -/
def create (parent : ℕ) (name : Bytes) : Prog fuse Result := do
  let attr ← attrNow s.inoNext 0 false
  pure (.created attr, s.handOut (childPath s parent name))

def mkdir (parent : ℕ) (name : Bytes) : Prog fuse Result := do
  let path := childPath s parent name
  match ← sendReq .mkDir path [] with
  | .ok _ => do
      let (isDir, size) ← do
        match ← sendReq .getAttr path [] with
        | .ok data => pure (parseAttr data)
        | .error _ => pure (true, 4096)
      let attr ← attrNow s.inoNext size isDir
      pure (.entry attr, s.handOut path)
  | .error _ => pure (.error .eio, s)

/-- Removals report nothing but the outcome of their request. -/
def removing (op : FsOperation) (parent : ℕ) (name : Bytes) : Prog fuse Result := do
  match ← sendReq op (childPath s parent name) [] with
  | .ok _ => pure (.ok, s)
  | .error _ => pure (.error .eio, s)

def unlink (parent : ℕ) (name : Bytes) : Prog fuse Result := removing s .unlink parent name

def rmdir (parent : ℕ) (name : Bytes) : Prog fuse Result := removing s .rmDir parent name

/-- One inode with the old path, if any is recorded, is given the new one. -/
def rename (parent : ℕ) (name : Bytes) (newparent : ℕ) (newname : Bytes) : Prog fuse Result := do
  let oldPath := childPath s parent name
  let newPath := childPath s newparent newname
  match ← sendReq .rename oldPath (asBytes newPath) with
  | .ok _ => do
      match ← findInode s oldPath with
      | some ino => pure (.ok, s.recordPath ino newPath)
      | none => pure (.ok, s)
  | .error _ => pure (.error .eio, s)

/-! ## Attributes from the kernel -/

/-- The whole seconds of a specific time; one before the epoch counts as 0. -/
def timePart (key : String) : Option TimeOrNow → List String
  | some (.specificTime nanos) => [key ++ "=" ++ toString (nanos / 10 ^ 9).toNat]
  | _ => []

def numberPart (key : String) : Option ℕ → List String
  | some n => [key ++ "=" ++ toString n]
  | none => []

/-- The attributes to set, as the handler is given them. -/
def attrPayload (mode uid gid size : Option ℕ) (atime mtime : Option TimeOrNow) : Bytes :=
  asBytes (String.intercalate ";" (numberPart "mode" mode ++ numberPart "uid" uid ++
    numberPart "gid" gid ++ numberPart "size" size ++ timePart "atime" atime ++
    timePart "mtime" mtime))

/-- A refused change is replied with the current attributes, if there are any. -/
def setattr (ino : ℕ) (mode uid gid size : Option ℕ) (atime mtime : Option TimeOrNow) :
    Prog fuse Result :=
  withPath s ino fun path => do
    match ← sendReq .setAttr path (attrPayload mode uid gid size atime mtime) with
    | .ok data => do
        let attr ← attrNow ino (size.getD (parseAttr data).2) (parseAttr data).1
        pure (.attr attr, s)
    | .error _ => do
        match ← sendReq .getAttr path [] with
        | .ok data => do
            let attr ← attrNow ino (parseAttr data).2 (parseAttr data).1
            pure (.attr attr, s)
        | .error _ => pure (.error .enoent, s)

end

/-! ## The session -/

def dispatch (mounted : ℕ) (s : FuseState) : Callback → Prog fuse Result
  | .lookup parent name => lookup s mounted parent name
  | .getattr ino => getattr s mounted ino
  | .readdir ino offset room => readdir s ino offset room
  | .open => pure (.opened, s)
  | .read ino offset size => read s ino offset size
  | .write ino offset data => write s ino offset data
  | .release ino => release s ino
  | .opendir ino => opendir s ino
  | .releasedir ino => releasedir s ino
  | .forget ino => forget s ino
  | .statfs => pure (.statfs, s)
  | .access => pure (.ok, s)
  | .create parent name => create s parent name
  | .mkdir parent name => mkdir s parent name
  | .unlink parent name => unlink s parent name
  | .rmdir parent name => rmdir s parent name
  | .rename parent name newparent newname => rename s parent name newparent newname
  | .setattr ino mode uid gid size atime mtime => setattr s ino mode uid gid size atime mtime
  | .flush => pure (.ok, s)
  | .fsync => pure (.ok, s)
  | .fsyncdir => pure (.ok, s)

/-- The replies to a list of callbacks and the state they leave. -/
def session (mounted : ℕ) (s : FuseState) : List Callback → Prog fuse (List Reply × FuseState)
  | [] => pure ([], s)
  | cb :: cbs => do
      let (reply, s) ← dispatch mounted s cb
      let (replies, s) ← session mounted s cbs
      pure (reply :: replies, s)

/-- The requests in a history, in order. -/
def asked (h : List (Histories.Answered fuse)) : List Request :=
  h.filterMap fun e =>
    match e.op with
    | .route req => some req
    | _ => none

theorem asked_append (h k : List (Histories.Answered fuse)) : asked (h ++ k) = asked h ++ asked k :=
  List.filterMap_append

/-! ## One exchange with the router -/

/-- Every request is accepted with an empty answer. -/
def obliging : (o : Op) → o.Ret
  | .route _ => (.reply (.ok ⟨[], none, false⟩) : Answer)
  | .now => (0 : ℕ)
  | .choose => (0 : ℕ)

theorem outcome_cases (a : Answer) :
    (∃ data, outcome a = .ok data) ∧ a.accepted = true ∨
    (∃ e, outcome a = .error e) ∧ a.accepted = false := by
  match a with
  | .routerGone => exact Or.inr ⟨⟨_, rfl⟩, rfl⟩
  | .handlerGone => exact Or.inr ⟨⟨_, rfl⟩, rfl⟩
  | .reply (.error _) => exact Or.inr ⟨⟨_, rfl⟩, rfl⟩
  | .reply (.ok _) => exact Or.inl ⟨⟨_, rfl⟩, rfl⟩

theorem withPath_some {s : FuseState} {ino : ℕ} {path : String} (h : s.pathFor ino = some path)
    (f : String → Prog fuse Result) : withPath s ino f = f path := by
  rw [withPath, h]

theorem withPath_none {s : FuseState} {ino : ℕ} (h : s.pathFor ino = none)
    (f : String → Prog fuse Result) : withPath s ino f = pure (.error .enoent, s) := by
  rw [withPath, h]

theorem dispatch_write {s : FuseState} {ino : ℕ} {path : String} (h : s.pathFor ino = some path)
    (mounted offset : ℕ) (data : Bytes) :
    dispatch mounted s (.write ino offset data) = .call (.route ⟨.write, path, data⟩) fun a =>
      .done (if Answer.accepted a then
        (.written (data.length % 2 ^ 32), s.cacheSize path data.length)
      else (.error .eio, s)) := by
  rw [dispatch, write, withPath_some h]
  change Prog.call _ _ = _
  congr 1
  funext a
  change (match outcome a with
    | .ok _ => _
    | .error _ => _ : Prog fuse Result) = _
  rcases outcome_cases a with ⟨⟨_, hok⟩, hacc⟩ | ⟨⟨_, herr⟩, hacc⟩
  · rw [hok, hacc]
    rfl
  · rw [herr, hacc]
    rfl

end Pinhead.FuseFilesystem
