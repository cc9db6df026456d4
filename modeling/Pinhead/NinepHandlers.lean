import Pinhead.NinepShared

/-!
# The twelve 9P message handlers

Each handler parses its own body after its own length checks, looks up fids,
sends at most one request to the router and replies once. They are written over
the operations of `NinepShared`, so the points where another connection may run
are exactly the operations of the tree.

A slice outside the body crashes the task. Lossy decoding never fails, and the
error texts are those a client sees in an error reply.
-/
namespace Pinhead.NinepHandlers
open ByteStrings FsRequests Resumption NinepShared

abbrev Handler (A : Type) := Fallible ninep String A

/-! ## Message types -/

@[match_pattern] abbrev TVERSION : UInt8 := 100
@[match_pattern] abbrev RVERSION : UInt8 := 101
@[match_pattern] abbrev TATTACH : UInt8 := 104
@[match_pattern] abbrev RATTACH : UInt8 := 105
@[match_pattern] abbrev RERROR : UInt8 := 107
@[match_pattern] abbrev TFLUSH : UInt8 := 108
@[match_pattern] abbrev RFLUSH : UInt8 := 109
@[match_pattern] abbrev TWALK : UInt8 := 110
@[match_pattern] abbrev RWALK : UInt8 := 111
@[match_pattern] abbrev TOPEN : UInt8 := 112
@[match_pattern] abbrev ROPEN : UInt8 := 113
@[match_pattern] abbrev TCREATE : UInt8 := 114
@[match_pattern] abbrev RCREATE : UInt8 := 115
@[match_pattern] abbrev TREAD : UInt8 := 116
@[match_pattern] abbrev RREAD : UInt8 := 117
@[match_pattern] abbrev TWRITE : UInt8 := 118
@[match_pattern] abbrev RWRITE : UInt8 := 119
@[match_pattern] abbrev TCLUNK : UInt8 := 120
@[match_pattern] abbrev RCLUNK : UInt8 := 121
@[match_pattern] abbrev TREMOVE : UInt8 := 122
@[match_pattern] abbrev RREMOVE : UInt8 := 123
@[match_pattern] abbrev TSTAT : UInt8 := 124
@[match_pattern] abbrev RSTAT : UInt8 := 125
@[match_pattern] abbrev TWSTAT : UInt8 := 126
@[match_pattern] abbrev RWSTAT : UInt8 := 127

/-! ## Operations of a handler -/

def locked (c : Critical) : Handler c.Ret := liftM (Prog.perform (S := ninep) (.locked c))

def crash {A : Type} : Handler A :=
  ExceptT.mk (Prog.call (S := ninep) .crash fun e => Empty.elim e)

def failIf (p : Prop) [Decidable p] (e : String) : Handler Unit :=
  if p then throw e else pure ()

/-- An indexed range of the body; out of range it takes the task down. -/
def range (body : Bytes) (i j : ℕ) : Handler Bytes :=
  match slice body i j with
  | some bs => pure bs
  | none => crash

def readUint (width : ℕ) (body : Bytes) (i : ℕ) : Handler ℕ := do
  let bs ← range body i (i + width)
  pure (leValue bs)

def readFid (body : Bytes) (i : ℕ) : Handler UInt32 := do
  let n ← readUint 4 body i
  pure (UInt32.ofNat n)

def getFid (fid : UInt32) : Handler FidEntry := do
  match ← locked (.getFid fid) with
  | some e => pure e
  | none => throw "unknown fid"

/-- Send one request and wait for its answer; `what` names it in the error. -/
def request (what : String) (op : FsOperation) (path : String) (data : Bytes) :
    Handler Response := do
  match ← (liftM (Prog.perform (S := ninep) (.route ⟨op, path, data⟩)) : Handler Answer) with
  | .routerGone => throw "router gone"
  | .handlerGone => throw "handler gone"
  | .reply (.error e) => throw (what ++ " failed: " ++ e)
  | .reply (.ok r) => pure r

/-! ## Wire format -/

structure Qid where
  ty : UInt8
  version : ℕ
  path : ℕ
  deriving DecidableEq, Repr

def encodeQid (q : Qid) : Bytes := q.ty :: (leBytes 4 q.version ++ leBytes 8 q.path)

def qidType (isDir : Bool) : UInt8 := if isDir then 0x80 else 0x00

/-- The stat record of one entry at clock time `now`. -/
def statBytes (now : ℕ) (name : String) (qid : Qid) (length : ℕ) (isDir : Bool) : Bytes :=
  let mode := if isDir then 0x800001ed else 0x1ed
  let body := leBytes 2 0 ++ leBytes 4 0 ++ encodeQid qid ++ leBytes 4 mode ++
    leBytes 4 now ++ leBytes 4 now ++ leBytes 8 length ++
    leBytes 2 (asBytes name).length ++ asBytes name ++
    leBytes 2 2 ++ asBytes "0" ++ leBytes 2 2 ++ asBytes "0" ++ leBytes 2 2 ++ asBytes "0"
  leBytes 2 body.length ++ body

def encodeStat (name : String) (qid : Qid) (length : ℕ) (isDir : Bool) : Handler Bytes := do
  let now ← (liftM (Prog.perform (S := ninep) .now) : Handler ℕ)
  pure (statBytes now name qid length isDir)

/-- A complete message with its seven-byte header. -/
def message (ty : UInt8) (tag : UInt16) (body : Bytes) : Bytes :=
  leBytes 4 (7 + body.length) ++ [ty] ++ leBytes 2 tag.toNat ++ body

def sendReply (ty : UInt8) (tag : UInt16) (body : Bytes) : Handler Unit :=
  liftM (Prog.perform (S := ninep) (.send (message ty tag body)))

/-- Error texts longer than a 16-bit length are cut. -/
def errorBody (e : String) : Bytes :=
  let len := min (asBytes e).length 65535
  leBytes 2 len ++ (asBytes e).take len

/-! ## Handlers -/

def parseVersion (body : Bytes) : Handler String :=
  if body.length > 4 then do
    let vlen ← readUint 2 body 4
    if 6 + vlen ≤ body.length then do
      let raw ← range body 6 (6 + vlen)
      pure (fromUtf8Lossy raw)
    else pure ""
  else pure ""

def handleVersion (tag : UInt16) (body : Bytes) : Handler Unit := do
  failIf (body.length < 4) "short version message"
  let proposed ← readUint 4 body 0
  let _version ← parseVersion body
  let msize := max 4096 (min proposed 65536)
  locked (.writeMsize msize)
  sendReply RVERSION tag (leBytes 4 msize ++ leBytes 2 6 ++ asBytes "9P2000")

def handleAttach (tag : UInt16) (body : Bytes) : Handler Unit := do
  failIf (body.length < 8) "short attach message"
  let fid ← readFid body 0
  let _afid ← readFid body 4
  locked (.attach fid)
  sendReply RATTACH tag (encodeQid ⟨0x80, 0, 0⟩)

structure Walk where
  offset : ℕ
  curPath : String
  curQid : ℕ
  wqids : List Qid
  isDir : Bool

/-- Only the last name is checked with the router. -/
def lookupLast (isLast : Bool) (path : String) : Handler Unit :=
  if isLast then do
    let _ ← request "lookup" .lookup path []
    pure ()
  else pure ()

/-- The remaining names of a walk, one allocation per name. -/
def walkNames (body : Bytes) : ℕ → Walk → Handler Walk
  | 0, w => pure w
  | left + 1, w => do
      failIf (w.offset + 2 > body.length) "short walk wname"
      let nlen ← readUint 2 body w.offset
      failIf (w.offset + 2 + nlen > body.length) "short walk wname data"
      let raw ← range body (w.offset + 2) (w.offset + 2 + nlen)
      let child := fromUtf8Lossy raw
      let fullPath := joinPath w.curPath child
      lookupLast (left == 0) fullPath
      let isDir := child == "" || child == "." || child == ".."
      let qid ← locked (.allocQid fullPath isDir)
      walkNames body left
        ⟨w.offset + 2 + nlen, fullPath, qid, w.wqids ++ [⟨qidType isDir, 0, qid⟩], isDir⟩

def handleWalk (tag : UInt16) (body : Bytes) : Handler Unit := do
  failIf (body.length < 9) "short walk message"
  let fid ← readFid body 0
  let newFid ← readFid body 4
  let nwname ← readUint 2 body 8
  let parent ← getFid fid
  let w ← walkNames body nwname ⟨10, parent.path, parent.qid, [], parent.isDir⟩
  locked (.setFid newFid w.curQid w.curPath w.isDir)
  sendReply RWALK tag (leBytes 2 nwname ++ w.wqids.flatMap encodeQid)

def handleOpen (tag : UInt16) (body : Bytes) : Handler Unit := do
  failIf (body.length < 5) "short open message"
  let fid ← readFid body 0
  let _mode ← range body 4 5
  let entry ← getFid fid
  let _ ← request "open" (if entry.isDir then .openDir else .openFile) entry.path []
  locked (.markOpen fid)
  let msize ← locked .readMsize
  sendReply ROPEN tag (encodeQid ⟨0, 0, 0⟩ ++ leBytes 4 msize)

def handleCreate (tag : UInt16) (body : Bytes) : Handler Unit := do
  failIf (body.length < 9) "short create message"
  let fid ← readFid body 0
  let nameLen ← readUint 2 body 4
  failIf (6 + nameLen + 5 > body.length) "short create name"
  let raw ← range body 6 (6 + nameLen)
  let perm ← readUint 4 body (6 + nameLen)
  let _mode ← range body (6 + nameLen + 4) (6 + nameLen + 5)
  let parent ← getFid fid
  let isDir := perm.testBit 31
  let fullPath := joinPath parent.path (fromUtf8Lossy raw)
  let op := if isDir then FsOperation.mkDir else .create
  let _ ← request op.asStr op fullPath []
  let qid ← locked (.createFid fid fullPath isDir)
  sendReply RCREATE tag (encodeQid ⟨qidType isDir, 0, qid⟩)

def encodeEntries : List DirEntry → Handler Bytes
  | [] => pure []
  | e :: es => do
      let stat ← encodeStat e.name ⟨qidType e.isDir, 0, e.qid⟩ 0 e.isDir
      let rest ← encodeEntries es
      pure (stat ++ rest)

/-- A read at offset 0 starts with an entry for the directory itself. -/
def withDot (offset : ℕ) (data : Bytes) : Handler Bytes :=
  if offset = 0 then do
    let dot ← encodeStat "." ⟨0x80, 0, 0⟩ 0 true
    pure (dot ++ data)
  else pure data

/-- Everything from `offset` on; the requested count is not used. -/
def readReply (tag : UInt16) (offset : ℕ) (data : Bytes) : Handler Unit :=
  let chunk := data.drop offset
  sendReply RREAD tag (leBytes 4 chunk.length ++ chunk)

def handleRead (tag : UInt16) (body : Bytes) : Handler Unit := do
  failIf (body.length < 16) "short read message"
  let fid ← readFid body 0
  let offset ← readUint 8 body 4
  let _count ← readUint 4 body 12
  let entry ← getFid fid
  if entry.isDir then do
    let _ ← request "readdir" .readDir entry.path []
    let entries ← locked (.listDir entry.path)
    let listing ← encodeEntries entries
    let data ← withDot offset listing
    readReply tag offset data
  else do
    let resp ← request "read" .read entry.path []
    readReply tag offset resp.data

def handleWrite (tag : UInt16) (body : Bytes) : Handler Unit := do
  failIf (body.length < 16) "short write message"
  let fid ← readFid body 0
  let _offset ← readUint 8 body 4
  let count ← readUint 4 body 12
  let entry ← getFid fid
  let data ← range body 16 (16 + min count (body.length - 16))
  let _ ← request "write" .write entry.path data
  sendReply RWRITE tag (leBytes 4 count)

/-- Whatever becomes of the release, the clunk goes on. -/
def releaseFid (entry : Option FidEntry) : Handler Unit :=
  match entry with
  | some e => do
      let _ ← (liftM (Prog.perform (S := ninep) (.route ⟨.release, e.path, []⟩)) : Handler Answer)
      pure ()
  | none => pure ()

def handleClunk (tag : UInt16) (body : Bytes) : Handler Unit := do
  failIf (body.length < 4) "short clunk message"
  let fid ← readFid body 0
  let entry ← locked (.getFid fid)
  releaseFid entry
  locked (.removeFid fid)
  sendReply RCLUNK tag []

def handleRemove (tag : UInt16) (body : Bytes) : Handler Unit := do
  failIf (body.length < 4) "short remove message"
  let fid ← readFid body 0
  let entry ← getFid fid
  let _ ← request "remove" (if entry.isDir then .rmDir else .unlink) entry.path []
  sendReply RREMOVE tag []

def statName (path : String) : String :=
  if lastSegment path = "" then "/" else lastSegment path

def handleStat (tag : UInt16) (body : Bytes) : Handler Unit := do
  failIf (body.length < 4) "short stat message"
  let fid ← readFid body 0
  let entry ← getFid fid
  let resp ← request "getattr" .getAttr entry.path []
  let stat ← encodeStat (statName entry.path) ⟨qidType entry.isDir, 0, entry.qid⟩
    resp.data.length entry.isDir
  sendReply RSTAT tag (leBytes 2 stat.length ++ stat)

def handleFlush (tag : UInt16) : Handler Unit := sendReply RFLUSH tag []

structure StatLayout where
  hasMode : Bool
  hasTime : Bool
  hasLength : Bool
  nameAt : ℕ

/-- Each optional field advances the position only when it is present. -/
def statLayout (len : ℕ) : StatLayout :=
  let hasMode := decide (19 + 4 ≤ len)
  let off := if hasMode then 19 + 4 else 19
  let hasTime := decide (off + 8 ≤ len)
  let off := if hasTime then off + 8 else off
  let hasLength := decide (off + 8 ≤ len)
  let off := if hasLength then off + 8 else off
  ⟨hasMode, hasTime, hasLength, off⟩

/-- The new name of a wstat, if it carries one that differs from the old. -/
def newName (path : String) (stat : Bytes) (off : ℕ) : Handler (Option String) :=
  if off + 2 ≤ stat.length then do
    let nameLen ← readUint 2 stat off
    if 0 < nameLen ∧ off + 2 + nameLen ≤ stat.length then do
      let raw ← range stat (off + 2) (off + 2 + nameLen)
      let name := fromUtf8Lossy raw
      pure (if name ≠ lastSegment path ∧ name ≠ "" then some name else none)
    else pure none
  else pure none

def renamedPath (path name : String) : String :=
  if path = "/" then "/" ++ name
  else
    let parent := (beforeLastSlash path).getD "/"
    if parent = "/" then "/" ++ name else parent ++ "/" ++ name

def applyStat (fid : UInt32) (entry : FidEntry) (stat : Bytes) : Handler Unit := do
  let layout := statLayout stat.length
  let name ← newName entry.path stat layout.nameAt
  match name with
  | some name => do
      let newPath := renamedPath entry.path name
      let _ ← request "rename" .rename entry.path (asBytes newPath)
      locked (.renameFid fid entry.qid newPath)
  | none =>
      if layout.hasMode || layout.hasTime || layout.hasLength then do
        let _ ← request "setattr" .setAttr entry.path []
        pure ()
      else pure ()

def handleWstat (tag : UInt16) (body : Bytes) : Handler Unit := do
  failIf (body.length < 4) "short wstat message"
  let fid ← readFid body 0
  let entry ← getFid fid
  let data ← range body 4 body.length
  failIf (data.length < 2) "short wstat data"
  let statLen ← readUint 2 data 0
  let stat ← range data 2 (2 + min statLen (data.length - 2))
  if stat.length < 6 then sendReply RWSTAT tag []
  else do
    applyStat fid entry stat
    sendReply RWSTAT tag []

/-! ## Dispatch -/

structure Message where
  ty : UInt8
  tag : UInt16
  body : Bytes
  deriving DecidableEq, Repr

def handleMessage (m : Message) : Handler Unit :=
  match m.ty with
  | TVERSION => handleVersion m.tag m.body
  | TATTACH => handleAttach m.tag m.body
  | TWALK => handleWalk m.tag m.body
  | TOPEN => handleOpen m.tag m.body
  | TREAD => handleRead m.tag m.body
  | TWRITE => handleWrite m.tag m.body
  | TCLUNK => handleClunk m.tag m.body
  | TCREATE => handleCreate m.tag m.body
  | TREMOVE => handleRemove m.tag m.body
  | TSTAT => handleStat m.tag m.body
  | TWSTAT => handleWstat m.tag m.body
  | TFLUSH => handleFlush m.tag
  | ty => throw ("unknown message type: " ++ toString ty.toNat)

def sendError (tag : UInt16) (e : String) : Prog ninep Unit :=
  Prog.perform (S := ninep) (.send (message RERROR tag (errorBody e)))

/-- One turn of the connection loop: an error of the handler is replied. -/
def serveMessage (m : Message) : Prog ninep Unit := do
  match ← (handleMessage m).run with
  | .ok () => pure ()
  | .error e => sendError m.tag e

end Pinhead.NinepHandlers
