import Pinhead.NinepConnections
import Pinhead.NinepScripts
import Pinhead.StatRecords

/-!
# The bundled 9P client against the bundled server

The client of the Lua handlers speaks to a listener over a byte stream: it writes
one message, waits for the reply and reads it off the stream. Its server is the
connection loop itself, evaluated on the bytes the client wrote, so what the two
make of a stat record is compared byte by byte.

A slice out of range takes the client down and leaves no result. A stream that
ends too early is an error of the exchange, after which the connection is closed.
-/
namespace Pinhead.NinepClient
open ByteStrings ByteStreams FsRequests Resumption NinepShared NinepHandlers NinepRuns
open NinepTotality NinepDatagrams NinepConnections NinepScripts StatRecords

/-! ## Exchanges -/

/-- The client's own fields, the connection as it sees it, and the server behind it. -/
structure Session where
  msize : ℕ
  nextFid : UInt32
  unread : Bytes
  closed : Bool
  world : World

abbrev Client (A : Type) := ExceptT String (StateT Session Option) A

/-- An access out of range, or a loop that does not end. -/
def stuck {A : Type} : Client A := ExceptT.mk fun _ => none

def part (bs : Bytes) (i j : ℕ) : Client Bytes :=
  match slice bs i j with
  | some out => pure out
  | none => stuck

def uintFrom (width : ℕ) (bs : Bytes) (i : ℕ) : Client ℕ := do
  let out ← part bs i (i + width)
  pure (leValue out)

def readExact (what : String) (n : ℕ) : Client Bytes := do
  let s ← get
  if n ≤ s.unread.length then do
    set { s with unread := s.unread.drop n }
    pure (s.unread.take n)
  else do
    set { s with closed := true }
    throw (what ++ ": failed to fill whole buffer")

/-- The result of a call that the caller does not look at. -/
def ignoring {A : Type} (x : Client A) : Client Unit := ExceptT.mk do
  let _ ← x.run
  pure (.ok ())

section
variable (env : Env)

/-- The server takes the bytes written and serves every message they hold. -/
def writeAll (buf : Bytes) : Client Unit := do
  let s ← get
  if s.closed then throw "write: Broken pipe"
  else
    match evaluate env (runConnection handleMessage sendError Source.contiguous buf)
        { s.world with out := [] } with
    | some (_, w) => set { s with world := w, unread := s.unread ++ w.out.flatten }
    | none => set { s with closed := true }

def sendRecv (ty : UInt8) (body : Bytes) : Client Bytes := do
  writeAll env (message ty 0 body)
  let header ← readExact "read header" 7
  let resp ← readExact "read body" (leValue (header.take 4) - 7)
  if (header.drop 4).headD 0 = RERROR then do
    let errLen ← uintFrom 2 resp 0
    let err ← part resp 2 (2 + errLen)
    throw ("9p error: " ++ fromUtf8Lossy err)
  else pure resp

/-! ## Operations -/

def allocFid : Client UInt32 := do
  let s ← get
  set { s with nextFid := s.nextFid + 1 }
  pure s.nextFid

def trimMatches (path : String) : String := trimEndMatches '/' (trimStartMatches '/' path)

def components (path : String) : List String :=
  (((trimMatches path).toList.splitOn '/').filter fun c => !c.isEmpty).map String.ofList

def walkBody (fid newFid : UInt32) (path : String) : Bytes :=
  leBytes 4 fid.toNat ++ leBytes 4 newFid.toNat ++ leBytes 2 (components path).length ++
    (components path).flatMap fun c => leBytes 2 (asBytes c).length ++ asBytes c

def walk (fid newFid : UInt32) (path : String) : Client Unit := do
  let resp ← sendRecv env TWALK (walkBody fid newFid path)
  let nwqid ← uintFrom 2 resp 0
  if nwqid ≠ (components path).length then
    throw ("walk failed: reached " ++ toString nwqid ++ "/" ++
      toString (components path).length ++ " components")

def openFid (fid : UInt32) (mode : UInt8) : Client Unit := do
  let _ ← sendRecv env TOPEN (leBytes 4 fid.toNat ++ [mode])

def clunk (fid : UInt32) : Client Unit := do
  let _ ← sendRecv env TCLUNK (leBytes 4 fid.toNat)

/-! ## Stat -/

structure StatReport where
  name : String
  qidPath : ℕ
  length : ℕ
  deriving DecidableEq, Repr

/-- The text that the client returns for a report. -/
def StatReport.text (r : StatReport) : String :=
  r.name ++ "\n" ++ "  qid path: " ++ toString r.qidPath ++ "\n" ++
    "  length: " ++ toString r.length ++ "\n"

/-- The client takes the record for one without a size field. -/
def parseStat (data : Bytes) : Client StatReport := do
  let off := 6
  let qidPath ← uintFrom 8 data (off + 5)
  let off := off + 13 + 4 + 8
  let length ← uintFrom 8 data off
  let off := off + 8
  let nameLen ← uintFrom 2 data off
  let off := off + 2
  let name ← part data off (off + nameLen)
  pure ⟨fromUtf8Lossy name, qidPath, length⟩

def stat (path : String) : Client StatReport := do
  let fid ← allocFid
  walk env 1 fid path
  let resp ← sendRecv env TSTAT (leBytes 4 fid.toNat)
  let statLen ← uintFrom 2 resp 0
  let data ← part resp 2 (2 + statLen)
  let report ← parseStat data
  ignoring (clunk env fid)
  pure report

/-! ## Directory listings -/

/-- Read until a reply carries no data; `fuel` bounds the number of replies. -/
def readLoop (fid : UInt32) : ℕ → ℕ → Bytes → Client Bytes
  | 0, _, _ => stuck
  | fuel + 1, offset, raw => do
      let s ← get
      let resp ← sendRecv env TREAD (leBytes 4 fid.toNat ++ leBytes 8 offset ++ leBytes 4 s.msize)
      let dataLen ← uintFrom 4 resp 0
      if dataLen = 0 then pure raw
      else do
        let chunk ← part resp 4 (4 + dataLen)
        readLoop fid fuel (offset + dataLen) (raw ++ chunk)

structure Line where
  name : String
  isDir : Bool
  deriving DecidableEq, Repr

def Line.text (long : Bool) (l : Line) : String :=
  if long then (if l.isDir then "d" else "-") ++ "-------  " ++ l.name ++ "\n"
  else l.name ++ (if l.isDir then "/" else "") ++ "\n"

/-- One line of the listing from the record at `off`. -/
def parseLine (long : Bool) (raw : Bytes) (off : ℕ) : Client Line := do
  let dataStart := off + 6
  let qidType ← uintFrom 1 raw dataStart
  let mode ← uintFrom 4 raw (dataStart + 13)
  let nameLen ← uintFrom 2 raw (dataStart + 33)
  let name ← part raw (dataStart + 35) (dataStart + 35 + nameLen)
  pure ⟨fromUtf8Lossy name, if long then mode.testBit 31 else qidType.testBit 7⟩

/-- Every step moves on by at least one byte, so the data bounds their number. -/
def parseLines (long : Bool) (raw : Bytes) : ℕ → ℕ → Client (List Line)
  | 0, _ => pure []
  | fuel + 1, off =>
      if off < raw.length then do
        let entrySize ← uintFrom 2 raw off
        if entrySize = 0 ∨ off + entrySize > raw.length then pure []
        else do
          let line ← parseLine long raw off
          let rest ← parseLines long raw fuel (off + entrySize)
          pure (line :: rest)
      else pure []

def dirPath (path : String) : String :=
  if trimEndMatches '/' path = "" then "/" else trimEndMatches '/' path

def ls (fuel : ℕ) (path : String) (long : Bool) : Client (List Line) := do
  let fid ← allocFid
  walk env 1 fid (dirPath path)
  openFid env fid 0
  let raw ← readLoop env fid fuel 0 []
  ignoring (clunk env fid)
  parseLines long raw raw.length 0

end

/-! ## Runs of the client -/

def Client.exec {A : Type} (x : Client A) (s : Session) : Option (Except String A × Session) :=
  x.run.run s

section
variable {A B : Type}

theorem exec_bind (x : Client A) (f : A → Client B) (s : Session) :
    (x >>= f).exec s = (x.exec s).bind fun r => match r with
      | (.ok a, s') => (f a).exec s'
      | (.error e, s') => some (.error e, s') := by
  change (x.run.run s).bind _ = _
  unfold Client.exec
  congr 1
  funext ⟨r, s'⟩
  cases r <;> rfl

theorem exec_bind_of {x : Client A} {f : A → Client B} {s s' : Session} {a : A}
    (h : x.exec s = some (.ok a, s')) : (x >>= f).exec s = (f a).exec s' := by
  rw [exec_bind, h]
  rfl

/-- A sequence that succeeds succeeds step by step. -/
theorem exec_bind_ok {x : Client A} {f : A → Client B} {s s₂ : Session} {b : B}
    (h : (x >>= f).exec s = some (.ok b, s₂)) :
    ∃ a s₁, x.exec s = some (.ok a, s₁) ∧ (f a).exec s₁ = some (.ok b, s₂) := by
  rw [exec_bind] at h
  obtain ⟨⟨r, s₁⟩, hx, hf⟩ := Option.bind_eq_some_iff.mp h
  cases r with
  | ok a => exact ⟨a, s₁, hx, hf⟩
  | error e => cases hf

theorem exec_part {bs : Bytes} {i j : ℕ} {s s' : Session} {out : Bytes}
    (h : (part bs i j).exec s = some (.ok out, s')) :
    j ≤ bs.length ∧ out = (bs.drop i).take (j - i) ∧ s' = s := by
  unfold part slice at h
  split at h
  · next hslice =>
      split at hslice
      · next hle =>
          obtain ⟨hout, hs⟩ := Prod.mk.inj (Option.some.inj h)
          rw [← Except.ok.inj hout, ← Option.some.inj hslice]
          exact ⟨hle.2, rfl, hs.symm⟩
      · cases hslice
  · cases h

theorem exec_uintFrom {width : ℕ} {bs : Bytes} {i n : ℕ} {s s' : Session}
    (h : (uintFrom width bs i).exec s = some (.ok n, s')) :
    i + width ≤ bs.length ∧ n = uintAt width bs i ∧ s' = s := by
  obtain ⟨out, s₁, hpart, hpure⟩ := exec_bind_ok h
  obtain ⟨hle, rfl, rfl⟩ := exec_part hpart
  obtain ⟨hn, hs⟩ := Prod.mk.inj (Option.some.inj hpure)
  rw [Nat.add_sub_cancel_left] at hn
  exact ⟨hle, (Except.ok.inj hn).symm, hs.symm⟩

end

/-- The connection is open and every reply so far was read to its end. -/
structure InStep (s : Session) : Prop where
  unread : s.unread = []
  opened : s.closed = false

theorem exec_readExact {what : String} {n : ℕ} {s : Session} (h : n ≤ s.unread.length) :
    (readExact what n).exec s =
      some (.ok (s.unread.take n), { s with unread := s.unread.drop n }) := by
  change (if n ≤ s.unread.length then _ else _ : Client Bytes).exec s = _
  rw [if_pos h]
  rfl

/-- The server reads a message of the client as that one message. -/
theorem runConnection_message {ty : UInt8} {body : Bytes} (h : body.length ≤ 65536) :
    runConnection handleMessage sendError Source.contiguous (message ty 0 body) =
      serveAll [⟨ty, 0, body⟩] := by
  have hm : (⟨ty, 0, body⟩ : Message).body.length ≤ 65536 := h
  have hbytes : Source.contiguous.unread (message ty 0 body) =
      [(⟨ty, 0, body⟩ : Message)].flatMap encodeMessage ++
        (encodeMessage ⟨ty, 0, body⟩).take 0 := by
    simp [encodeMessage, Source.contiguous]
  refine runConnection_serveAll ?_ hm ?_ hbytes
  · intro m hmem
    rw [List.mem_singleton.mp hmem]
    exact hm
  · simp [encodeMessage, message]

theorem exec_writeAll {env : Env} {s : Session} (hs : InStep s) {ty : UInt8} {body : Bytes}
    (hbody : body.length ≤ 65536) {w : World}
    (hserve : evaluate env (serveMessage ⟨ty, 0, body⟩) { s.world with out := [] } =
      some ((), w)) :
    (writeAll env (message ty 0 body)).exec s =
      some (.ok (), { s with world := w, unread := w.out.flatten }) := by
  have heval : evaluate env (runConnection handleMessage sendError Source.contiguous
      (message ty 0 body)) { s.world with out := [] } = some ((), w) := by
    rw [runConnection_message hbody, serveAll, evaluate_bind, hserve]
    rfl
  have hread : (get : Client Session).exec s = some (.ok s, s) := rfl
  unfold writeAll
  rw [exec_bind_of hread, if_neg (by rw [hs.opened]; simp), heval]
  change some (Except.ok (), { s with world := w, unread := s.unread ++ w.out.flatten }) = _
  rw [hs.unread, List.nil_append]

theorem exec_readExact_ok {what : String} {n : ℕ} {s s' : Session} {out : Bytes}
    (h : (readExact what n).exec s = some (.ok out, s')) :
    out = s.unread.take n ∧ s'.unread = s.unread.drop n := by
  by_cases hn : n ≤ s.unread.length
  · rw [exec_readExact hn] at h
    obtain ⟨hout, hs⟩ := Prod.mk.inj (Option.some.inj h)
    rw [← Except.ok.inj hout, ← hs]
    exact ⟨rfl, rfl⟩
  · change (if n ≤ s.unread.length then _ else _ : Client Bytes).exec s = _ at h
    rw [if_neg hn] at h
    cases h

/-- What an exchange returns is the reply, or a part of one too long for its size. -/
theorem sendRecv_prefix {env : Env} {s s' : Session} (hs : InStep s) {ty : UInt8} {body : Bytes}
    (hbody : body.length ≤ 65536) {w : World}
    (hserve : evaluate env (serveMessage ⟨ty, 0, body⟩) { s.world with out := [] } =
      some ((), w)) {rty : UInt8} {tag : UInt16} {reply out : Bytes}
    (hout : w.out = [message rty tag reply])
    (h : (sendRecv env ty body).exec s = some (.ok out, s')) : out <+: reply := by
  have hflat : w.out.flatten = message rty tag reply := by simp [hout]
  unfold sendRecv at h
  rw [exec_bind_of (exec_writeAll hs hbody hserve), hflat] at h
  obtain ⟨header, s₁, hheader, h⟩ := exec_bind_ok h
  obtain ⟨_, hunread⟩ := exec_readExact_ok hheader
  rw [message_drop] at hunread
  obtain ⟨resp, s₂, hresp, h⟩ := exec_bind_ok h
  obtain ⟨rfl, _⟩ := exec_readExact_ok hresp
  split at h
  · obtain ⟨_, _, _, h⟩ := exec_bind_ok h
    obtain ⟨_, _, _, h⟩ := exec_bind_ok h
    cases h
  · obtain ⟨hresult, _⟩ := Prod.mk.inj (Option.some.inj h)
    rw [← Except.ok.inj hresult, hunread]
    exact List.take_prefix _ _

/-! ## What the server puts into its replies -/

theorem entryRecords_length (clock : ℕ → ℕ) (k : ℕ) (es : List DirEntry) :
    (entryRecords clock k es).length = (es.map fun e => 52 + (asBytes e.name).length).sum := by
  induction es generalizing k with
  | nil => rfl
  | cons e es ih =>
      rw [entryRecords, List.length_append, ih, entryBytes, statBytes_length, List.map_cons,
        List.sum_cons]

/-- The bytes of a directory read at offset 0. -/
def listingLength (s : NinepState) (dir : String) : ℕ :=
  53 + ((s.listDir dir).map fun e => 52 + (asBytes e.name).length).sum

theorem served_readDir {env : Env} {w : World} {fid : UInt32} {e : FidEntry} {resp : Response}
    (msize : ℕ) (he : w.shared.state.fids.lookup fid = some e) (hdir : e.isDir = true)
    (hresp : env.router ⟨.readDir, e.path, []⟩ = .reply (.ok resp)) :
    ∃ now rest w', evaluate env (serveMessage ⟨TREAD, 0,
        leBytes 4 fid.toNat ++ leBytes 8 0 ++ leBytes 4 msize⟩) w = some ((), w') ∧
      w'.out = w.out ++ [message RREAD 0 (leBytes 4 (listingLength w.shared.state e.path) ++
        (statBytes now "." ⟨0x80, 0, 0⟩ 0 true ++ rest))] ∧
      53 + rest.length = listingLength w.shared.state e.path := by
  have hfid := fidAt_leBytes fid (leBytes 8 0 ++ leBytes 4 msize)
  rw [← List.append_assoc] at hfid
  have hoffset : uintAt 8 (leBytes 4 fid.toNat ++ leBytes 8 0 ++ leBytes 4 msize) 4 = 0 := by
    rw [uintAt, List.append_assoc, List.drop_left' (leBytes_length 4 _),
      List.take_left' (leBytes_length 8 _), leValue_leBytes, Nat.zero_mod]
  have hlength := entryRecords_length env.clock w.tick (w.shared.state.listDir e.path)
  have hdot (now : ℕ) : (dotBytes now).length = 53 := statBytes_length now "." ⟨0x80, 0, 0⟩ 0 true
  rw [← hfid] at he
  obtain ⟨w', hserve, _, hout⟩ := served_directory 0 (by simp) he hdir hresp
  rw [hoffset] at hout
  refine ⟨env.clock (w.tick + (w.shared.state.listDir e.path).length),
    entryRecords env.clock w.tick (w.shared.state.listDir e.path), w', hserve, hout.trans ?_, ?_⟩
  · simp only [List.drop_zero, directoryData, if_pos, List.length_append, hdot, hlength]
    rfl
  · rw [hlength]
    rfl

/-! ## What the client makes of them -/

theorem parseStat_name {data : Bytes} {now : ℕ} {name : String} {qid : Qid} {length : ℕ}
    {isDir : Bool} (hdata : data <+: statBytes now name qid length isDir) (hlen : length < 2 ^ 48)
    {s s' : Session} {r : StatReport} (h : (parseStat data).exec s = some (.ok r, s')) :
    r.name = "" := by
  obtain ⟨_, _, _, h⟩ := exec_bind_ok h
  obtain ⟨_, _, _, h⟩ := exec_bind_ok h
  obtain ⟨nameLen, _, hname, h⟩ := exec_bind_ok h
  obtain ⟨hfits, hzero, rfl⟩ := exec_uintFrom hname
  rw [uintAt_prefix_eq hdata hfits, uintAt_early now name qid isDir hlen] at hzero
  subst hzero
  obtain ⟨text, _, htext, h⟩ := exec_bind_ok h
  obtain ⟨_, rfl, _⟩ := exec_part htext
  obtain ⟨hr, _⟩ := Prod.mk.inj (Option.some.inj h)
  rw [← Except.ok.inj hr]
  rfl

theorem parseLine_name {long : Bool} {raw : Bytes} (hzero : uintAt 2 raw 39 = 0) {s s' : Session}
    {line : Line} (h : (parseLine long raw 0).exec s = some (.ok line, s')) : line.name = "" := by
  obtain ⟨_, _, _, h⟩ := exec_bind_ok h
  obtain ⟨_, _, _, h⟩ := exec_bind_ok h
  obtain ⟨nameLen, _, hname, h⟩ := exec_bind_ok h
  obtain ⟨_, hlen, rfl⟩ := exec_uintFrom hname
  change nameLen = uintAt 2 raw 39 at hlen
  rw [hzero] at hlen
  subst hlen
  obtain ⟨text, _, htext, h⟩ := exec_bind_ok h
  obtain ⟨_, rfl, _⟩ := exec_part htext
  obtain ⟨hr, _⟩ := Prod.mk.inj (Option.some.inj h)
  rw [← Except.ok.inj hr]
  rfl

/-- The first line of every listing has no name. -/
theorem parseLines_head {long : Bool} {raw : Bytes} {now : ℕ}
    (hraw : statBytes now "." ⟨0x80, 0, 0⟩ 0 true <+: raw) {s s' : Session} {lines : List Line}
    (h : (parseLines long raw raw.length 0).exec s = some (.ok lines, s')) :
    ∃ line rest, lines = line :: rest ∧ line.name = "" := by
  have hdot : (statBytes now "." ⟨0x80, 0, 0⟩ 0 true).length = 53 := by
    rw [statBytes_length]
    rfl
  have hlong := hraw.length_le
  rw [hdot] at hlong
  have hsize : uintAt 2 raw 0 = 51 := by
    rw [← uintAt_prefix_eq hraw (by omega), statBytes_eq, uintAt, List.drop_zero,
      List.take_left' (leBytes_length 2 _), leValue_leBytes]
    rfl
  have hzero : uintAt 2 raw 39 = 0 := by
    rw [← uintAt_prefix_eq hraw (by omega)]
    exact uintAt_early now "." _ true (by omega)
  obtain ⟨fuel, hfuel⟩ : ∃ fuel, raw.length = fuel + 1 := ⟨raw.length - 1, by omega⟩
  rw [hfuel, parseLines, if_pos (by omega)] at h
  obtain ⟨entrySize, _, hentry, hrest⟩ := exec_bind_ok h
  obtain ⟨_, hvalue, _⟩ := exec_uintFrom hentry
  rw [hvalue, hsize, if_neg (by omega)] at hrest
  obtain ⟨line, _, hline, h⟩ := exec_bind_ok hrest
  obtain ⟨rest, _, _, h⟩ := exec_bind_ok h
  obtain ⟨hlines, _⟩ := Prod.mk.inj (Option.some.inj h)
  exact ⟨line, rest, (Except.ok.inj hlines).symm, parseLine_name hzero hline⟩

theorem readLoop_prefix_eq {env : Env} {fid : UInt32} {fuel offset : ℕ} {raw out : Bytes}
    {s s' : Session} (h : (readLoop env fid fuel offset raw).exec s = some (.ok out, s')) :
    raw <+: out := by
  induction fuel generalizing offset raw s with
  | zero => cases h
  | succ fuel ih =>
      unfold readLoop at h
      obtain ⟨_, _, _, h⟩ := exec_bind_ok h
      obtain ⟨_, _, _, h⟩ := exec_bind_ok h
      obtain ⟨_, _, _, h⟩ := exec_bind_ok h
      split at h
      · obtain ⟨hout, _⟩ := Prod.mk.inj (Option.some.inj h)
        rw [← Except.ok.inj hout]
      · obtain ⟨chunk, _, _, h⟩ := exec_bind_ok h
        exact (List.prefix_append raw chunk).trans (ih h)

/-- What the client reads of a directory begins with the record of the directory. -/
theorem readLoop_dot {env : Env} {fid : UInt32} {s s' : Session} (hs : InStep s) {e : FidEntry}
    {resp : Response} (he : s.world.shared.state.fids.lookup fid = some e) (hdir : e.isDir = true)
    (hresp : env.router ⟨.readDir, e.path, []⟩ = .reply (.ok resp))
    (hshort : listingLength s.world.shared.state e.path < 2 ^ 32) {fuel : ℕ} {raw : Bytes}
    (h : (readLoop env fid fuel 0 []).exec s = some (.ok raw, s')) :
    ∃ now, statBytes now "." ⟨0x80, 0, 0⟩ 0 true <+: raw := by
  cases fuel with
  | zero => cases h
  | succ fuel =>
      unfold readLoop at h
      have hget : (get : Client Session).exec s = some (.ok s, s) := rfl
      rw [exec_bind_of hget] at h
      obtain ⟨reply, _, hreply, h⟩ := exec_bind_ok h
      obtain ⟨now, rest, w, hserve, hout, hlength⟩ :=
        served_readDir (w := { s.world with out := [] }) s.msize he hdir hresp
      have hprefix := sendRecv_prefix hs (by simp) hserve hout hreply
      obtain ⟨dataLen, _, hdataLen, h⟩ := exec_bind_ok h
      obtain ⟨hfour, hvalue, _⟩ := exec_uintFrom hdataLen
      dsimp only at hlength
      have hcount : uintAt 4 reply 0 = listingLength s.world.shared.state e.path := by
        rw [uintAt_prefix_eq hprefix hfour, uintAt, List.drop_zero,
          List.take_left' (leBytes_length 4 _)]
        exact leValue_leBytes_of_lt hshort
      rw [hvalue, hcount, if_neg (by omega)] at h
      obtain ⟨chunk, _, hchunk, h⟩ := exec_bind_ok h
      obtain ⟨hfits, rfl, _⟩ := exec_part hchunk
      refine ⟨now, List.IsPrefix.trans ?_ (readLoop_prefix_eq h)⟩
      have hdrop := hprefix.drop 4
      rw [List.drop_left' (leBytes_length 4 _)] at hdrop
      have hall : reply.drop 4 = statBytes now "." ⟨0x80, 0, 0⟩ 0 true ++ rest := by
        apply hdrop.eq_of_length_le
        rw [List.length_append, statBytes_length, List.length_drop]
        change 53 + rest.length ≤ reply.length - 4
        omega
      rw [List.nil_append, hall, Nat.add_sub_cancel_left]
      apply List.prefix_take_iff.mpr
      refine ⟨List.prefix_append _ _, ?_⟩
      rw [statBytes_length]
      change 53 ≤ _
      omega

/-! ## Reports compared -/

/-- The session once the fid of a call is allocated. -/
def Session.allocated (s : Session) : Session := { s with nextFid := s.nextFid + 1 }

/-- The client's walk to `path` is one message of the server's and succeeds. -/
structure Walked (env : Env) (s : Session) (path : String) (s₁ : Session) : Prop where
  fits : (walkBody 1 s.nextFid path).length ≤ 65536
  walked : (walk env 1 s.nextFid path).exec s.allocated = some (.ok (), s₁)

/-- A stat of `path` finds the entry `e`, and the router answers it with `resp`. -/
def StatCase (env : Env) (s : Session) (path : String) (e : FidEntry) (resp : Response) : Prop :=
  ∃ s₁, Walked env s path s₁ ∧ InStep s₁ ∧ s₁.world.shared.state.fids.lookup s.nextFid = some e ∧
    env.router ⟨.getAttr, e.path, []⟩ = .reply (.ok resp)

/-- The report has the name, the qid path and the length of the server's record. -/
def StatRight (env : Env) (s : Session) (path : String) : Prop :=
  ∀ e resp, StatCase env s path e resp → ∃ s₂, (stat env path).exec s =
    some (.ok ⟨statName e.path, e.qid % 2 ^ 64, resp.data.length % 2 ^ 64⟩, s₂)

/-- A listing of `path` finds the directory `e` open, in the tables `t`. -/
def LsCase (env : Env) (s : Session) (path : String) (e : FidEntry) (t : NinepState) : Prop :=
  ∃ s₁ s₂ resp, Walked env s (dirPath path) s₁ ∧
    (openFid env s.nextFid 0).exec s₁ = some (.ok (), s₂) ∧ InStep s₂ ∧
    s₂.world.shared.state = t ∧ t.fids.lookup s.nextFid = some e ∧ e.isDir = true ∧
    env.router ⟨.readDir, e.path, []⟩ = .reply (.ok resp)

/-- One line for each record of the directory read, marked as its qid is. -/
def LsRight (env : Env) (s : Session) (path : String) (long : Bool) : Prop :=
  ∀ e t, LsCase env s path e t → ∃ fuel s₃, (ls env fuel path long).exec s =
    some (.ok (⟨".", true⟩ :: (t.listDir e.path).map fun x => ⟨x.name, x.isDir⟩), s₃)

theorem statName_ne (path : String) : statName path ≠ "" := by
  unfold statName
  split
  · decide
  · next h => exact h

theorem exec_allocFid (s : Session) :
    allocFid.exec s = some (.ok s.nextFid, s.allocated) := rfl

theorem stat_misread {env : Env} {s : Session} {path : String} {e : FidEntry} {resp : Response}
    (hcase : StatCase env s path e resp) (hright : StatRight env s path) :
    2 ^ 48 ≤ resp.data.length := by
  by_contra hshort
  obtain ⟨s₂, h⟩ := hright e resp hcase
  obtain ⟨s₁, hwalk, hs₁, he, hresp⟩ := hcase
  unfold stat at h
  rw [exec_bind_of (exec_allocFid s), exec_bind_of hwalk.walked] at h
  obtain ⟨reply, _, hreply, h⟩ := exec_bind_ok h
  obtain ⟨now, w, hserve, _, hout⟩ := served_stat (w := { s₁.world with out := [] }) he hresp
  have hprefix := sendRecv_prefix hs₁ (by simp) hserve hout hreply
  obtain ⟨statLen, _, hstatLen, h⟩ := exec_bind_ok h
  obtain ⟨data, _, hdata, h⟩ := exec_bind_ok h
  obtain ⟨_, rfl, _⟩ := exec_part hdata
  obtain ⟨report, _, hreport, h⟩ := exec_bind_ok h
  obtain ⟨_, _, _, h⟩ := exec_bind_ok h
  obtain ⟨hvalue, _⟩ := Prod.mk.inj (Option.some.inj h)
  have hrecord := hprefix.drop 2
  rw [List.drop_left' (leBytes_length 2 _)] at hrecord
  have hname := parseStat_name ((List.take_prefix _ _).trans hrecord) (by omega) hreport
  rw [Except.ok.inj hvalue] at hname
  exact statName_ne e.path hname

theorem ls_misread {env : Env} {s : Session} {path : String} {long : Bool} {e : FidEntry}
    {t : NinepState} (hcase : LsCase env s path e t) (hright : LsRight env s path long) :
    2 ^ 32 ≤ listingLength t e.path := by
  by_contra hshort
  obtain ⟨fuel, s₃, h⟩ := hright e t hcase
  obtain ⟨s₁, s₂, resp, hwalk, hopen, hs₂, rfl, he, hdir, hresp⟩ := hcase
  unfold ls at h
  rw [exec_bind_of (exec_allocFid s), exec_bind_of hwalk.walked, exec_bind_of hopen] at h
  obtain ⟨raw, s₄, hloop, h⟩ := exec_bind_ok h
  obtain ⟨_, _, _, h⟩ := exec_bind_ok h
  obtain ⟨now, hraw⟩ := readLoop_dot hs₂ he hdir hresp (by omega) hloop
  obtain ⟨line, rest, hlines, hname⟩ := parseLines_head hraw h
  obtain ⟨rfl, _⟩ := List.cons.inj hlines
  exact absurd hname (by decide)

/-- The same answers, except that every getattr is answered with no attributes. -/
def Env.attributeless (env : Env) : Env where
  router req := if req.op = .getAttr then .reply (.ok ⟨[], none, false⟩) else env.router req
  clock := env.clock

theorem walk_attributeless (env : Env) {fid newFid : UInt32} {path : String}
    (h : (walkBody fid newFid path).length ≤ 65536) :
    walk (Env.attributeless env) fid newFid path = walk env fid newFid path := by
  have hsame : ∀ w, evaluate (Env.attributeless env) (runConnection handleMessage sendError
      Source.contiguous (message TWALK 0 (walkBody fid newFid path))) w =
      evaluate env (runConnection handleMessage sendError
        Source.contiguous (message TWALK 0 (walkBody fid newFid path))) w := by
    intro w
    have hclock : (Env.attributeless env).clock = env.clock := rfl
    have hserve := evaluate_congr (fun req => req.op = .lookup) hclock
      (fun req hreq => by simp [Env.attributeless, hreq])
      (serveMessage ⟨TWALK, 0, walkBody fid newFid path⟩) (asks_serveWalk 0 _) w
    rw [runConnection_message h, serveAll, evaluate_bind, evaluate_bind, hserve]
    rfl
  have hwrite : writeAll (Env.attributeless env) (message TWALK 0 (walkBody fid newFid path)) =
      writeAll env (message TWALK 0 (walkBody fid newFid path)) := by
    unfold writeAll
    simp only [hsame]
  unfold walk sendRecv
  rw [hwrite]

/-- In every state of the server and for every path that can be walked there are
attributes for which the client's reports are wrong. A stat is wrong whenever the
attributes take fewer than 2^48 bytes, and a listing whenever its records take
fewer than 2^32. -/
theorem client_misreads (s : Session) (path : String) :
    ((∃ env e resp, StatCase env s path e resp) →
      ¬ ∀ env, StatRight env s path ∧ ∀ long, LsRight env s path long) ∧
    (∀ env e resp, StatCase env s path e resp → StatRight env s path →
      2 ^ 48 ≤ resp.data.length) ∧
    (∀ env long e t, LsCase env s path e t → LsRight env s path long →
      2 ^ 32 ≤ listingLength t e.path) := by
  refine ⟨?_, fun env e resp => stat_misread, fun env long e t => ls_misread⟩
  rintro ⟨env, e, resp, s₁, hwalk, hs₁, he, _⟩ hall
  have hcase : StatCase (Env.attributeless env) s path e ⟨[], none, false⟩ := by
    refine ⟨s₁, ⟨hwalk.fits, ?_⟩, hs₁, he, rfl⟩
    rw [walk_attributeless env hwalk.fits]
    exact hwalk.walked
  have hlong := stat_misread hcase (hall _).1
  exact absurd hlong (by decide)

/-- A client that has just connected: the root is attached as fid 1. -/
def connected : Session where
  msize := 65536
  nextFid := 4
  unread := []
  closed := false
  world := ⟨⟨NinepState.new.setFid 1 0 "/" true, 65536⟩, 0, []⟩

/-- Every request is accepted without data. -/
def accepting : Env := ⟨fun _ => .reply (.ok ⟨[], none, false⟩), fun _ => 0⟩

/-- The server once fid 4 is a clone of fid 1. -/
def cloned : World :=
  ⟨⟨(NinepState.new.setFid 1 0 "/" true).setFid 4 0 "/" true, 65536⟩, 0, [message RWALK 0 [0, 0]]⟩

theorem statCase_connected :
    StatCase accepting connected "/" ⟨0, "/", false, true⟩ ⟨[], none, false⟩ := by
  have hbody : walkBody 1 4 "/" = [1, 0, 0, 0, 4, 0, 0, 0, 0, 0] := by decide
  have hfits : (walkBody 1 4 "/").length ≤ 65536 := by
    rw [hbody]
    decide
  have hserve : evaluate accepting (serveMessage ⟨TWALK, 0, walkBody 1 4 "/"⟩)
      { connected.allocated.world with out := [] } = some ((), cloned) := by
    rw [hbody]
    rfl
  have hwrite := exec_writeAll ⟨rfl, rfl⟩ hfits hserve
  refine ⟨{ connected.allocated with world := cloned }, ⟨hfits, ?_⟩, ⟨rfl, rfl⟩, rfl, rfl⟩
  unfold walk sendRecv
  rw [bind_assoc]
  exact exec_bind_of hwrite

theorem client_misreads_root : (∃ env e resp, StatCase env connected "/" e resp) ∧
    ¬ ∀ env, StatRight env connected "/" ∧ ∀ long, LsRight env connected "/" long :=
  ⟨⟨_, _, _, statCase_connected⟩, (client_misreads connected "/").1 ⟨_, _, _, statCase_connected⟩⟩

/-- The stat of the root has the name of the root in the record and none in the report. -/
theorem root_stat_misread :
    ¬ ∀ env s path, StatRight env s path ∧ ∀ long, LsRight env s path long := by
  intro h
  have hlong := stat_misread statCase_connected (h accepting connected "/").1
  exact absurd hlong (by decide)

end Pinhead.NinepClient
