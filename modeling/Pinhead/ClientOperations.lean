import Pinhead.NinepLockstep

/-!
# The operations of the 9P client

An operation of the client is a task that stops at each message it sends and resumes with
what the exchange returned: the body of the reply, or an error. Nothing is said here of
the server, so the answers may be any at all.

An operation may end without a result: with an error text, which is what the Lua handler
sees, or by a slice out of range or a negative difference, which take it down. The two
loops are given the number of their rounds, and a loop that needs more is `exhausted`.
-/
namespace Pinhead.ClientOperations
open ByteStrings FsRequests Resumption Histories NinepShared NinepHandlers NinepClient NinepCalls
open NinepDatagrams NinepLockstep

variable {T : Type}

/-! ## Exchanges -/

/-- One message of the client, and what `send_recv` made of the reply. -/
abbrev wire : Signature := ⟨Call, fun _ => Except String Bytes⟩

inductive Stop where
  | failed (e : String)
  | panicked
  | exhausted
  deriving DecidableEq, Repr

abbrev Operation (A : Type) := Fallible wire Stop A

def sendRecv (c : Call) : Operation Bytes := do
  match ← (liftM (Prog.perform (S := wire) c) : Operation (Except String Bytes)) with
  | .ok resp => pure resp
  | .error e => throw (.failed e)

def part (bs : Bytes) (i j : ℕ) : Operation Bytes :=
  match slice bs i j with
  | some out => pure out
  | none => throw .panicked

def uintFrom (width : ℕ) (bs : Bytes) (i : ℕ) : Operation ℕ := do
  let out ← part bs i (i + width)
  pure (leValue out)

theorem part_of_le {bs : Bytes} {i j : ℕ} (hij : i ≤ j) (hj : j ≤ bs.length) :
    part bs i j = pure ((bs.drop i).take (j - i)) := by
  rw [part, slice_of_le hij hj]

theorem uintFrom_of_le {width : ℕ} {bs : Bytes} {i : ℕ} (h : i + width ≤ bs.length) :
    uintFrom width bs i = pure (uintAt width bs i) := by
  rw [uintFrom, part_of_le (Nat.le_add_right i width) h, pure_bind, Nat.add_sub_cancel_left]
  rfl

/-- Where nothing is known of the bytes, a slice may be out of range. -/
theorem wp_part {spec : Spec wire T} {bs : Bytes} {i j : ℕ} {Q : Except Stop Bytes → T → Prop}
    {t : T} (hok : Q (.ok ((bs.drop i).take (j - i))) t) (herr : Q (.error .panicked) t) :
    wp spec (part bs i j).run Q t := by
  unfold part slice
  split
  · next hslice =>
      split at hslice
      · rw [← Option.some.inj hslice]
        exact hok
      · cases hslice
  · exact herr

theorem wp_uintFrom {spec : Spec wire T} {width : ℕ} {bs : Bytes} {i : ℕ}
    {Q : Except Stop ℕ → T → Prop} {t : T} (hok : Q (.ok (uintAt width bs i)) t)
    (herr : Q (.error .panicked) t) : wp spec (uintFrom width bs i).run Q t := by
  refine wp_seq (wp_part ?_ herr)
  rw [Nat.add_sub_cancel_left]
  exact hok

def minus (a b : ℕ) : Operation ℕ := if b ≤ a then pure (a - b) else throw .panicked

/-- The error of a call whose result is dropped. -/
def ignoring (x : Operation Unit) : Operation Unit := tryCatch x fun stop =>
  match stop with
  | .failed _ => pure ()
  | stop => throw stop

/-- A dropped error counts as success. -/
def regardless (Q : Except Stop Unit → T → Prop) : Except Stop Unit → T → Prop
  | .error (.failed _), t => Q (.ok ()) t
  | r, t => Q r t

theorem wp_ignoring {spec : Spec wire T} {x : Operation Unit} {Q : Except Stop Unit → T → Prop}
    {t : T} : wp spec (ignoring x).run Q t = wp spec x.run (regardless Q) t := by
  have hrun : (ignoring x).run = x.run >>= fun r => match r with
      | .ok a => pure (.ok a)
      | .error (.failed _) => pure (.ok ())
      | .error .panicked => pure (.error .panicked)
      | .error .exhausted => pure (.error .exhausted) := by
    unfold ignoring
    change (x.run >>= fun r => _) = _
    congr 1
    funext r
    rcases r with (e | _ | _) | _ <;> rfl
  rw [hrun, wp_bind]
  congr 1
  funext r t
  rcases r with (e | _ | _) | _ <;> rfl

/-! ## Messages of the client -/

structure Client where
  msize : UInt32
  nextFid : UInt32
  deriving DecidableEq, Repr

def version (c : Client) : Operation Client := do
  let resp ← sendRecv (.version c.msize)
  let msize ← uintFrom 4 resp 0
  pure { c with msize := UInt32.ofNat (min msize 65536) }

def attach : Operation Unit := do
  let _ ← sendRecv (.attach 1 NOFID)

/-- Fid 1 is the root; the operations take their fids from 4 on. -/
def connect : Operation Client := do
  let c ← version ⟨65536, 1⟩
  attach
  pure { c with nextFid := 4 }

def walk (fid newFid : UInt32) (path : String) : Operation Unit := do
  let resp ← sendRecv (.walk fid newFid (components path))
  let nwqid ← uintFrom 2 resp 0
  if nwqid ≠ (components path).length then
    throw (.failed ("walk failed: reached " ++ toString nwqid ++ "/" ++
      toString (components path).length ++ " components"))

def openFid (fid : UInt32) (mode : UInt8) : Operation Unit := do
  let _ ← sendRecv (.openFid fid mode)

def create (fid : UInt32) (name : String) (perm : UInt32) (mode : UInt8) : Operation Unit := do
  let _ ← sendRecv (.create fid name perm mode)

def clunk (fid : UInt32) : Operation Unit := do
  let _ ← sendRecv (.clunk fid)

def removeFid (fid : UInt32) : Operation Unit := do
  let _ ← sendRecv (.removeFid fid)

/-! ## Files -/

/-- Read until a reply carries no data. -/
def readLoop (fid count : UInt32) : ℕ → UInt64 → Bytes → Operation Bytes
  | 0, _, _ => throw .exhausted
  | fuel + 1, offset, raw => do
      let resp ← sendRecv (.read fid offset count)
      let dataLen ← uintFrom 4 resp 0
      if dataLen = 0 then pure raw
      else do
        let chunk ← part resp 4 (4 + dataLen)
        readLoop fid count fuel (offset + UInt64.ofNat dataLen) (raw ++ chunk)

def readFile (fuel : ℕ) (c : Client) (path : String) : Operation String := do
  walk 1 c.nextFid path
  openFid c.nextFid 0
  let result ← readLoop c.nextFid c.msize fuel 0 []
  ignoring (clunk c.nextFid)
  pure (fromUtf8Lossy result)

/-- Each message leaves 24 bytes of the message size for what is in front of the data. -/
def writeLoop (fid msize : UInt32) (data : Bytes) : ℕ → UInt64 → Operation Unit
  | 0, _ => throw .exhausted
  | fuel + 1, offset =>
      if offset.toNat < data.length then do
        let room ← minus msize.toNat 24
        let chunkLen := min (data.length - offset.toNat) room
        let chunk ← part data offset.toNat (offset.toNat + chunkLen)
        let _ ← sendRecv (.write fid offset chunk)
        writeLoop fid msize data fuel (offset + UInt64.ofNat chunkLen)
      else pure ()

def writeFile (fuel : ℕ) (c : Client) (path data : String) : Operation String := do
  walk 1 c.nextFid path
  openFid c.nextFid 1
  writeLoop c.nextFid c.msize (asBytes data) fuel 0
  ignoring (clunk c.nextFid)
  pure ""

/-! ## Attributes and listings -/

/-- The record is taken for one without a size field. -/
def parseStat (data : Bytes) : Operation StatReport := do
  let qidPath ← uintFrom 8 data 11
  let length ← uintFrom 8 data 31
  let nameLen ← uintFrom 2 data 39
  let name ← part data 41 (41 + nameLen)
  pure ⟨fromUtf8Lossy name, qidPath, length⟩

def stat (c : Client) (path : String) : Operation String := do
  walk 1 c.nextFid path
  let resp ← sendRecv (.stat c.nextFid)
  let statLen ← uintFrom 2 resp 0
  let data ← part resp 2 (2 + statLen)
  let report ← parseStat data
  ignoring (clunk c.nextFid)
  pure report.text

def parseLine (long : Bool) (raw : Bytes) (off : ℕ) : Operation Line := do
  let dataStart := off + 6
  let qidType ← uintFrom 1 raw dataStart
  let mode ← uintFrom 4 raw (dataStart + 13)
  let nameLen ← uintFrom 2 raw (dataStart + 33)
  let name ← part raw (dataStart + 35) (dataStart + 35 + nameLen)
  pure ⟨fromUtf8Lossy name, if long then mode.testBit 31 else qidType.testBit 7⟩

/-- Every round moves on by at least one byte, so the data bounds their number. -/
def parseLines (long : Bool) (raw : Bytes) : ℕ → ℕ → Operation (List Line)
  | 0, _ => pure []
  | fuel + 1, off =>
      if off < raw.length then do
        let entrySize ← uintFrom 2 raw off
        if entrySize = 0 ∨ off + entrySize > raw.length then pure []
        else do
          let line ← parseLine long raw off
          let rest ← parseLines long raw fuel (off + entrySize)
          pure (line :: rest)
      else pure []

def ls (fuel : ℕ) (c : Client) (path : String) (long : Bool) : Operation String := do
  walk 1 c.nextFid (dirPath path)
  openFid c.nextFid 0
  let raw ← readLoop c.nextFid c.msize fuel 0 []
  ignoring (clunk c.nextFid)
  let lines ← parseLines long raw raw.length 0
  pure (String.join (lines.map (Line.text long)))

/-! ## Creation and removal -/

def splitParentName (path : String) : String × String :=
  let trimmed := trimEndMatches '/' path
  match beforeLastSlash trimmed with
  | some parent => (if parent = "" then "/" else parent, lastSegment trimmed)
  | none => ("/", trimmed)

def createIn (c : Client) (path : String) (perm : UInt32) (mode : UInt8) : Operation String := do
  walk 1 c.nextFid (splitParentName path).1
  create c.nextFid (splitParentName path).2 perm mode
  ignoring (clunk c.nextFid)
  pure ""

/-- `DMDIR | 0o755`, opened for reading. -/
def mkdir (c : Client) (path : String) : Operation String := createIn c path 0x800001ed 0

/-- `0o644`, opened for writing. -/
def createFile (c : Client) (path : String) : Operation String := createIn c path 0x1a4 1

/-- No clunk follows: the remove is meant to release the fid. -/
def remove (c : Client) (path : String) : Operation String := do
  walk 1 c.nextFid path
  removeFid c.nextFid
  pure ""

/-! ## Commands -/

inductive Command where
  | readFile (path : String)
  | writeFile (path data : String)
  | stat (path : String)
  | ls (path : String) (long : Bool)
  | mkdir (path : String)
  | createFile (path : String)
  | remove (path : String)
  deriving DecidableEq, Repr

def Command.run (fuel : ℕ) (c : Client) : Command → Operation String
  | .readFile path => ClientOperations.readFile fuel c path
  | .writeFile path data => ClientOperations.writeFile fuel c path data
  | .stat path => ClientOperations.stat c path
  | .ls path long => ClientOperations.ls fuel c path long
  | .mkdir path => ClientOperations.mkdir c path
  | .createFile path => ClientOperations.createFile c path
  | .remove path => ClientOperations.remove c path

/-- Every command takes the next fid, whatever becomes of it. -/
def Client.allocated (c : Client) : Client := { c with nextFid := c.nextFid + 1 }

/-! ## Bounded operations -/

theorem within_sendRecv (c : Call) : Within 1 (sendRecv c).run := by
  refine .call fun r => ?_
  cases r with
  | ok body => exact .done 0 _
  | error e => exact .done 0 _

theorem within_part (bs : Bytes) (i j : ℕ) : Within 0 (part bs i j).run := by
  unfold part
  split
  · exact .done 0 _
  · exact .done 0 _

theorem within_uintFrom (width : ℕ) (bs : Bytes) (i : ℕ) : Within 0 (uintFrom width bs i).run :=
  (within_part bs i (i + width)).run_free fun _ => .done 0 _

theorem within_minus (a b : ℕ) : Within 0 (minus a b).run := by
  unfold minus
  split
  · exact .done 0 _
  · exact .done 0 _

theorem within_walk (fid newFid : UInt32) (path : String) :
    Within 1 (walk fid newFid path).run := by
  refine Within.run_bind (n := 0) (within_sendRecv _) fun resp => ?_
  refine (within_uintFrom 2 resp 0).run_free fun nwqid => ?_
  split
  · exact .done 0 _
  · exact .done 0 _

theorem within_openFid (fid : UInt32) (mode : UInt8) : Within 1 (openFid fid mode).run :=
  Within.run_bind (n := 0) (within_sendRecv _) fun _ => .done 0 _

theorem within_ignoring {n : ℕ} {x : Operation Unit} (h : Within n x.run) :
    Within n (ignoring x).run := by
  refine Within.bind (n := 0) h fun r => ?_
  rcases r with (e | _ | _) | _
  all_goals exact .done 0 _

theorem within_clunk (fid : UInt32) : Within 1 (ignoring (clunk fid)).run :=
  within_ignoring (Within.run_bind (n := 0) (within_sendRecv _) fun _ => .done 0 _)

theorem within_readLoop (fid count : UInt32) (fuel : ℕ) (offset : UInt64) (raw : Bytes) :
    Within fuel (readLoop fid count fuel offset raw).run := by
  induction fuel generalizing offset raw with
  | zero => exact .done 0 _
  | succ fuel ih =>
      refine Within.mono (m := 1 + fuel) ?_ (Nat.add_comm 1 fuel).le
      refine Within.run_bind (within_sendRecv _) fun resp => ?_
      refine (within_uintFrom 4 resp 0).run_free fun dataLen => ?_
      split
      · exact .done _ _
      · exact (within_part resp 4 (4 + dataLen)).run_free fun chunk => ih _ _

theorem within_readFile (fuel : ℕ) (c : Client) (path : String) :
    Within (fuel + 3) (readFile fuel c path).run := by
  refine Within.mono (m := 1 + (1 + (fuel + (1 + 0)))) ?_ (by omega)
  refine Within.run_bind (within_walk _ _ _) fun _ => ?_
  refine Within.run_bind (within_openFid _ _) fun _ => ?_
  refine Within.run_bind (within_readLoop _ _ _ _ _) fun result => ?_
  exact Within.run_bind (within_clunk _) fun _ => .done 0 _

theorem within_writeLoop (fid msize : UInt32) (data : Bytes) (fuel : ℕ) (offset : UInt64) :
    Within fuel (writeLoop fid msize data fuel offset).run := by
  induction fuel generalizing offset with
  | zero => exact .done 0 _
  | succ fuel ih =>
      unfold writeLoop
      split
      · refine (within_minus _ _).run_free fun room => ?_
        refine (within_part _ _ _).run_free fun chunk => ?_
        refine Within.mono (m := 1 + fuel) ?_ (Nat.add_comm 1 fuel).le
        exact Within.run_bind (within_sendRecv _) fun _ => ih _
      · exact .done _ _

theorem within_writeFile (fuel : ℕ) (c : Client) (path data : String) :
    Within (fuel + 3) (writeFile fuel c path data).run := by
  refine Within.mono (m := 1 + (1 + (fuel + (1 + 0)))) ?_ (by omega)
  refine Within.run_bind (within_walk _ _ _) fun _ => ?_
  refine Within.run_bind (within_openFid _ _) fun _ => ?_
  refine Within.run_bind (within_writeLoop _ _ _ _ _) fun _ => ?_
  exact Within.run_bind (within_clunk _) fun _ => .done 0 _

end Pinhead.ClientOperations
