import Mathlib.Data.List.AList
import Pinhead.FsRequests
import Pinhead.Histories

/-!
# SFTP sessions

One session serves the packets of one SSH channel in order. Its handle table is its
own; the router is all it shares with anything else. Each packet leads to at most
one request, whose answer may also stay out for sixty seconds, and then to one
reply or to none.

A method fails with a status code, which the loop turns into a status packet. The
attributes in a request to open or create are not read by any method and are left out of
the packets. Those in a request to set them are not read either.
-/
namespace Pinhead.SftpSessions
open ByteStrings FsRequests Resumption Histories

/-! ## Handles -/

structure HandleEntry where
  path : String
  isDir : Bool
  deriving DecidableEq, Repr

structure HandleState where
  nextId : ℕ
  handles : AList fun _ : String => HandleEntry

def HandleState.new : HandleState := ⟨1, ∅⟩

/-- Sixteen lower-case hexadecimal digits. -/
def handleId (n : ℕ) : String :=
  let digits := Nat.toDigits 16 n
  String.ofList (List.replicate (16 - digits.length) '0' ++ digits)

example : handleId 26 = "000000000000001a" := by decide

def HandleState.alloc (s : HandleState) (path : String) (isDir : Bool) : String × HandleState :=
  (handleId s.nextId,
    ⟨s.nextId + 1, s.handles.insert (handleId s.nextId) ⟨path, isDir⟩⟩)

def HandleState.get (s : HandleState) (handle : String) : Option HandleEntry :=
  s.handles.lookup handle

def HandleState.free (s : HandleState) (handle : String) : HandleState :=
  { s with handles := s.handles.erase handle }

/-! ## Packets -/

/-- The attributes in a request, as far as it has them. -/
structure FileAttributes where
  size : Option ℕ
  uid : Option ℕ
  gid : Option ℕ
  permissions : Option ℕ
  atime : Option ℕ
  mtime : Option ℕ
  deriving DecidableEq

def FileAttributes.empty : FileAttributes := ⟨none, none, none, none, none, none⟩

/-- The requests of version 3. Everything that is no request is `other`. -/
inductive Packet where
  | open (id : ℕ) (filename : String) (pflags : ℕ)
  | close (id : ℕ) (handle : String)
  | read (id : ℕ) (handle : String) (offset len : ℕ)
  | write (id : ℕ) (handle : String) (offset : ℕ) (data : Bytes)
  | openDir (id : ℕ) (path : String)
  | readDir (id : ℕ) (handle : String)
  | remove (id : ℕ) (filename : String)
  | mkDir (id : ℕ) (path : String)
  | rmDir (id : ℕ) (path : String)
  | realPath (id : ℕ) (path : String)
  | stat (id : ℕ) (path : String)
  | lstat (id : ℕ) (path : String)
  | fstat (id : ℕ) (handle : String)
  | rename (id : ℕ) (oldpath newpath : String)
  | setStat (id : ℕ) (path : String) (attrs : FileAttributes)
  | fSetStat (id : ℕ) (handle : String) (attrs : FileAttributes)
  | readLink (id : ℕ)
  | symlink (id : ℕ)
  | extended (id : ℕ)
  | other

inductive StatusCode where
  | ok | eof | noSuchFile | failure | opUnsupported
  deriving DecidableEq, Repr

/-- `size` is the size written over the library's default, if it is. -/
inductive Reply where
  | handle (id : ℕ) (handle : String)
  | status (id : ℕ) (code : StatusCode) (message language : String)
  | data (id : ℕ) (data : Bytes)
  | name (id : ℕ) (files : List String)
  | attrs (id : ℕ) (size : Option ℕ) (permissions : ℕ)
  deriving DecidableEq

def makeStatus (id : ℕ) (code : StatusCode) : Reply := .status id code "" ""

/-! ## Requests -/

/-- A session only stops to wait for the router. No answer is a timeout. -/
abbrev sftp : Signature := ⟨Request, fun _ => Option Answer⟩

/-- The path as it is sent: routes are registered with a leading slash. -/
def normalized (path : String) : String :=
  if path.toList.head? = some '/' then path else "/" ++ path

def outcome : Option Answer → Except String Bytes
  | none => .error "handler timeout (60s)"
  | some .routerGone => .error "router gone"
  | some .handlerGone => .error "handler gone"
  | some (.reply (.error e)) => .error e
  | some (.reply (.ok r)) => .ok r.data

def route (op : FsOperation) (path : String) (data : Bytes) : Prog sftp (Except String Bytes) := do
  let answer ← Prog.perform (S := sftp) ⟨op, normalized path, data⟩
  pure (outcome answer)

/-- What a method returns, with the handle table it leaves. -/
abbrev Result := Except StatusCode Reply × HandleState

section
variable (s : HandleState)

/-- Methods on a handle fail when the table does not have it. -/
def withHandle (handle : String) (f : HandleEntry → Prog sftp Result) : Prog sftp Result :=
  match s.get handle with
  | some entry => f entry
  | none => pure (.error .failure, s)

/-- Methods that report nothing but the outcome of their request. -/
def acknowledge (op : FsOperation) (id : ℕ) (path : String) (data : Bytes) : Prog sftp Result := do
  match ← route op path data with
  | .ok _ => pure (.ok (makeStatus id .ok), s)
  | .error _ => pure (.error .failure, s)

/-! ## Methods -/

/-- The flag SSH_FXF_CREAT is bit 3. -/
def openFile (id : ℕ) (filename : String) (pflags : ℕ) : Prog sftp Result := do
  match ← route (if pflags.testBit 3 then .create else .openFile) filename [] with
  | .ok _ =>
      let (handle, s) := s.alloc filename false
      pure (.ok (.handle id handle), s)
  | .error _ => pure (.error .failure, s)

def close (id : ℕ) (handle : String) : Prog sftp Result := do
  match s.get handle with
  | some entry => do
      let _ ← route .release entry.path []
      pure (.ok (makeStatus id .ok), s.free handle)
  | none => pure (.ok (makeStatus id .ok), s.free handle)

def read (id : ℕ) (handle : String) (offset len : ℕ) : Prog sftp Result :=
  withHandle s handle fun entry => do
    match ← route .read entry.path [] with
    | .ok resp =>
        if offset ≥ resp.length then pure (.error .eof, s)
        else pure (.ok (.data id ((resp.drop offset).take len)), s)
    | .error _ => pure (.error .failure, s)

/-- The offset is not used. -/
def write (id : ℕ) (handle : String) (_offset : ℕ) (data : Bytes) : Prog sftp Result :=
  withHandle s handle fun entry => acknowledge s .write id entry.path data

def opendir (id : ℕ) (path : String) : Prog sftp Result := do
  match ← route .openDir path [] with
  | .ok _ =>
      let (handle, s) := s.alloc path true
      pure (.ok (.handle id handle), s)
  | .error _ => pure (.error .failure, s)

def readdir (id : ℕ) (handle : String) : Prog sftp Result :=
  withHandle s handle fun entry =>
    if entry.isDir then do
      match ← route .readDir entry.path [] with
      | .ok resp => pure (.ok (.name id ("." :: ".." :: splitWhitespace (fromUtf8Lossy resp))), s)
      | .error _ => pure (.error .failure, s)
    else pure (.error .failure, s)

def remove (id : ℕ) (filename : String) : Prog sftp Result := acknowledge s .unlink id filename []

def mkdir (id : ℕ) (path : String) : Prog sftp Result := acknowledge s .mkDir id path []

def rmdir (id : ℕ) (path : String) : Prog sftp Result := acknowledge s .rmDir id path []

def setStat (id : ℕ) (path : String) : Prog sftp Result := acknowledge s .setAttr id path []

/-- An unknown handle stands for the empty path here. -/
def fSetStat (id : ℕ) (handle : String) : Prog sftp Result :=
  acknowledge s .setAttr id (((s.get handle).map HandleEntry.path).getD "") []

def realpath (id : ℕ) (path : String) : Prog sftp Result :=
  let segments := ((normalized path).toList.splitOn '/').filter fun c => !c.isEmpty
  pure (.ok (.name id [String.ofList ('/' :: List.intercalate ['/'] segments)]), s)

/-- The size after `size=`, or the length of an answer without one. -/
def attrSize (resp : Bytes) : ℕ :=
  match afterFirst "size=".toList (fromUtf8Lossy resp).toList with
  | some rest => (parseU64 (rest.takeWhile Char.isDigit)).getD 0
  | none => resp.length

def statImpl (id : ℕ) (path : String) : Prog sftp Result := do
  match ← route .getAttr path [] with
  | .ok resp =>
      let text := fromUtf8Lossy resp
      let isDir := containsText text "directory" || containsText text "mode=directory" ||
        containsText text "dir"
      let size := attrSize resp
      pure (.ok (.attrs id (if size > 0 then some size else none)
        (if isDir then 0o40755 else 0o100644)), s)
  | .error _ => pure (.error .noSuchFile, s)

def stat (id : ℕ) (path : String) : Prog sftp Result := statImpl s id path

def lstat (id : ℕ) (path : String) : Prog sftp Result := statImpl s id path

def fstat (id : ℕ) (handle : String) : Prog sftp Result :=
  withHandle s handle fun entry => statImpl s id entry.path

/-- A refused rename is replied with the text of the error. -/
def rename (id : ℕ) (oldpath newpath : String) : Prog sftp Result := do
  match ← route .rename oldpath (asBytes newpath) with
  | .ok _ => pure (.ok (makeStatus id .ok), s)
  | .error e => pure (.ok (.status id .failure e "en"), s)

end

/-! ## The loop -/

/-- A status packet where the method failed. -/
def replyTo (id : ℕ) (x : Prog sftp Result) : Prog sftp (Option Reply × HandleState) := do
  match ← x with
  | (.ok reply, s) => pure (some reply, s)
  | (.error code, s) => pure (some (makeStatus id code), s)

def dispatch (s : HandleState) : Packet → Prog sftp (Option Reply × HandleState)
  | .open id filename pflags => replyTo id (openFile s id filename pflags)
  | .close id handle => replyTo id (close s id handle)
  | .read id handle offset len => replyTo id (read s id handle offset len)
  | .write id handle offset data => replyTo id (write s id handle offset data)
  | .openDir id path => replyTo id (opendir s id path)
  | .readDir id handle => replyTo id (readdir s id handle)
  | .remove id filename => replyTo id (remove s id filename)
  | .mkDir id path => replyTo id (mkdir s id path)
  | .rmDir id path => replyTo id (rmdir s id path)
  | .realPath id path => replyTo id (realpath s id path)
  | .stat id path => replyTo id (stat s id path)
  | .lstat id path => replyTo id (lstat s id path)
  | .fstat id handle => replyTo id (fstat s id handle)
  | .rename id oldpath newpath => replyTo id (rename s id oldpath newpath)
  | .setStat id path _ => replyTo id (setStat s id path)
  | .fSetStat id handle _ => replyTo id (fSetStat s id handle)
  | .readLink id => pure (some (makeStatus id .opUnsupported), s)
  | .symlink id => pure (some (makeStatus id .opUnsupported), s)
  | .extended _ | .other => pure (none, s)

/-- The replies to a list of packets and the table they leave. -/
def sftpLoop (s : HandleState) : List Packet → Prog sftp (List Reply × HandleState)
  | [] => pure ([], s)
  | p :: ps => do
      let (reply, s) ← dispatch s p
      let (replies, s) ← sftpLoop s ps
      pure (reply.toList ++ replies, s)

/-! ## One exchange with the router -/

/-- The handler accepted the request in time. -/
def granted : Option Answer → Bool
  | some a => a.accepted
  | none => false

theorem outcome_cases (a : Option Answer) :
    (∃ data, outcome a = .ok data) ∧ granted a = true ∨
    (∃ e, outcome a = .error e) ∧ granted a = false := by
  match a with
  | none => exact Or.inr ⟨⟨_, rfl⟩, rfl⟩
  | some .routerGone => exact Or.inr ⟨⟨_, rfl⟩, rfl⟩
  | some .handlerGone => exact Or.inr ⟨⟨_, rfl⟩, rfl⟩
  | some (.reply (.error _)) => exact Or.inr ⟨⟨_, rfl⟩, rfl⟩
  | some (.reply (.ok _)) => exact Or.inl ⟨⟨_, rfl⟩, rfl⟩

theorem replyTo_acknowledge (s : HandleState) (op : FsOperation) (id : ℕ) (path : String)
    (data : Bytes) : replyTo id (acknowledge s op id path data) =
      .call ⟨op, normalized path, data⟩ fun a =>
        .done (some (makeStatus id (if granted a then .ok else .failure)), s) := by
  change Prog.call _ _ = _
  congr 1
  funext a
  change (match outcome a with
    | .ok _ => _
    | .error _ => _ : Prog sftp Result) >>= _ = _
  rcases outcome_cases a with ⟨⟨_, hok⟩, hgranted⟩ | ⟨⟨_, herr⟩, hrefused⟩
  · rw [hok, hgranted]
    rfl
  · rw [herr, hrefused]
    rfl

theorem dispatch_write {s : HandleState} {handle : String} {entry : HandleEntry}
    (h : s.get handle = some entry) (id offset : ℕ) (data : Bytes) :
    dispatch s (.write id handle offset data) = .call ⟨.write, normalized entry.path, data⟩ fun a =>
      .done (some (makeStatus id (if granted a then .ok else .failure)), s) := by
  rw [dispatch, write, withHandle, h]
  exact replyTo_acknowledge s _ _ _ _

/-! ## Rules for methods -/

section
variable {G : Request → Prop} {Q : Result → Prop} {s : HandleState} {op : FsOperation}
  {path : String} {data : Bytes}

/-- A guarantee under any answers: of the request, and of what follows in either case. -/
theorem confined_route {f : Except String Bytes → Prog sftp Result}
    (hreq : G ⟨op, normalized path, data⟩) (hok : ∀ bs, Confined G Q (f (.ok bs)))
    (herr : ∀ e, Confined G Q (f (.error e))) : Confined G Q (route op path data >>= f) := by
  refine ⟨hreq, fun a => ?_⟩
  change Confined G Q (f (outcome a))
  cases outcome a with
  | ok bs => exact hok bs
  | error e => exact herr e

theorem confined_acknowledge {id : ℕ} (hreq : G ⟨op, normalized path, data⟩)
    (hok : Q (.ok (makeStatus id .ok), s)) (herr : Q (.error .failure, s)) :
    Confined G Q (acknowledge s op id path data) :=
  confined_route hreq (fun _ => hok) fun _ => herr

theorem confined_statImpl {id : ℕ} (hreq : G ⟨.getAttr, normalized path, []⟩)
    (hok : ∀ size perm, Q (.ok (.attrs id size perm), s)) (herr : Q (.error .noSuchFile, s)) :
    Confined G Q (statImpl s id path) :=
  confined_route hreq (fun _ => hok _ _) fun _ => herr

theorem confined_withHandle {handle : String} {f : HandleEntry → Prog sftp Result}
    (herr : Q (.error .failure, s))
    (hf : ∀ entry, s.get handle = some entry → Confined G Q (f entry)) :
    Confined G Q (withHandle s handle f) := by
  unfold withHandle
  split
  · next entry hget => exact hf entry hget
  · exact herr

/-- The entry of the handle is gone, however the release is answered. -/
theorem confined_close {id : ℕ} {handle : String}
    (hreq : ∀ entry, s.get handle = some entry → G ⟨.release, normalized entry.path, []⟩)
    (hfree : Q (.ok (makeStatus id .ok), s.free handle)) : Confined G Q (close s id handle) := by
  unfold close
  split
  · next entry hget => exact confined_route (hreq entry hget) (fun _ => hfree) fun _ => hfree
  · exact hfree

theorem confined_read {id offset len : ℕ} {handle : String}
    (hreq : ∀ entry, s.get handle = some entry → G ⟨.read, normalized entry.path, []⟩)
    (hok : ∀ bs, Q (.ok (.data id bs), s)) (herr : ∀ code, Q (.error code, s)) :
    Confined G Q (read s id handle offset len) := by
  refine confined_withHandle (herr _) fun entry hget => ?_
  refine confined_route (hreq entry hget) (fun resp => ?_) fun _ => herr _
  dsimp only
  split
  · exact herr _
  · exact hok _

theorem confined_readdir {id : ℕ} {handle : String}
    (hreq : ∀ entry, s.get handle = some entry → G ⟨.readDir, normalized entry.path, []⟩)
    (hok : ∀ names, Q (.ok (.name id names), s)) (herr : ∀ code, Q (.error code, s)) :
    Confined G Q (readdir s id handle) := by
  refine confined_withHandle (herr _) fun entry hget => ?_
  split
  · exact confined_route (hreq entry hget) (fun _ => hok _) fun _ => herr _
  · exact herr _

/-- The reply is that of the method, or tells its failure. -/
theorem confined_replyTo {id : ℕ} {x : Prog sftp Result} {P : Option Reply × HandleState → Prop}
    (hx : Confined G Q x) (hok : ∀ reply s, Q (.ok reply, s) → P (some reply, s))
    (herr : ∀ code s, Q (.error code, s) → P (some (makeStatus id code), s)) :
    Confined G P (replyTo id x) := by
  refine hx.bind fun r hr => ?_
  obtain ⟨res, s⟩ := r
  cases res with
  | ok reply => exact hok reply s hr
  | error code => exact herr code s hr

end

end Pinhead.SftpSessions
