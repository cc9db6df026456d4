import Pinhead.NinepConnections
import Pinhead.NinepTotality

/-!
# The datagram transport

`handleUdpMessage` takes one datagram as one message, runs the same handlers
over a stream that only collects what is written, and returns the collected
bytes. It has its own dispatch and drops a handler's error, where the connection
loop replies it.

The comparison evaluates both transports alone, from the same state, with a
router that answers by the request and the same clock. A handler sends at most
one request, so nothing is lost by letting the router be a function. `Rejected`
lists, message type by message type, the requests that a handler answers with an
error; it looks only at the message, at the state before it and at the answer of
the router.
-/
namespace Pinhead.NinepDatagrams
open ByteStrings ByteStreams FsRequests Resumption NinepShared NinepHandlers NinepRuns
open NinepConnections

/-! ## The datagram handler -/

/-- Run a task over a virtual stream: what it sends is appended to a buffer. -/
def virtualStream {A : Type} : Prog ninep A → Bytes → Prog ninep (A × Bytes)
  | .done a, buf => .done (a, buf)
  | .call (.send msg) next, buf => virtualStream (next ()) (buf ++ msg)
  | .call (.locked c) next, buf => .call (.locked c) fun r => virtualStream (next r) buf
  | .call (.route req) next, buf => .call (.route req) fun r => virtualStream (next r) buf
  | .call .now next, buf => .call .now fun r => virtualStream (next r) buf
  | .call .crash next, buf => .call .crash fun r => virtualStream (next r) buf

def udpDispatch (m : Message) : Prog ninep (Except String Unit) :=
  match m.ty with
  | TVERSION => (handleVersion m.tag m.body).run
  | TATTACH => (handleAttach m.tag m.body).run
  | TWALK => (handleWalk m.tag m.body).run
  | TOPEN => (handleOpen m.tag m.body).run
  | TREAD => (handleRead m.tag m.body).run
  | TWRITE => (handleWrite m.tag m.body).run
  | TCLUNK => (handleClunk m.tag m.body).run
  | TCREATE => (handleCreate m.tag m.body).run
  | TREMOVE => (handleRemove m.tag m.body).run
  | TSTAT => (handleStat m.tag m.body).run
  | TWSTAT => (handleWstat m.tag m.body).run
  | TFLUSH => (handleFlush m.tag).run
  | ty => do
      sendError m.tag ("unknown msg type " ++ toString ty.toNat)
      pure (.ok ())

/-- The message in a datagram of at least seven bytes; the size field is not read. -/
def datagramMessage (data : Bytes) : Message :=
  ⟨(data.drop 4).headD 0, UInt16.ofNat (leValue ((data.drop 5).take 2)), data.drop 7⟩

def handleUdpMessage (data : Bytes) : Prog ninep (Option Bytes) :=
  if data.length < 7 then pure none
  else do
    let r ← virtualStream (udpDispatch (datagramMessage data)) []
    pure (some r.2)

/-! ## Both transports from one state -/

/-- What the datagram handler returns and the state it leaves. -/
def udpResult (env : Env) (s : Shared) (data : Bytes) : Option (Option Bytes × Shared) :=
  (evaluate env (handleUdpMessage data) (World.start s)).map fun x => (x.1, x.2.shared)

/-- What the connection loop writes and the state it leaves. -/
def streamResult (env : Env) (s : Shared) (data : Bytes) : Option (Option Bytes × Shared) :=
  (evaluate env (runConnection handleMessage sendError Source.contiguous data)
    (World.start s)).map fun x => (some x.2.out.flatten, x.2.shared)

/-! ## Which messages are rejected -/

def uintAt (width : ℕ) (body : Bytes) (i : ℕ) : ℕ := leValue ((body.drop i).take width)

def fidAt (body : Bytes) (i : ℕ) : UInt32 := UInt32.ofNat (uintAt 4 body i)

/-- The router does not accept the request. -/
def Refused (env : Env) (op : FsOperation) (path : String) (data : Bytes) : Prop :=
  (env.router ⟨op, path, data⟩).accepted = false

/-- The fid is unknown, or its entry satisfies `P`. -/
def UnknownOr (s : Shared) (fid : UInt32) (P : FidEntry → Prop) : Prop :=
  match s.state.fids.lookup fid with
  | none => True
  | some e => P e

/-- The path that the remaining names of a walk lead to, if none of them is cut. -/
def walkTarget (body : Bytes) : ℕ → ℕ → String → Option String
  | 0, _, path => some path
  | left + 1, off, path =>
      if off + 2 > body.length then none
      else if off + 2 + uintAt 2 body off > body.length then none
      else walkTarget body left (off + 2 + uintAt 2 body off)
        (joinPath path (fromUtf8Lossy ((body.drop (off + 2)).take (uintAt 2 body off))))

def BadWalk (env : Env) (body : Bytes) (left off : ℕ) (path : String) : Prop :=
  match walkTarget body left off path with
  | none => True
  | some target => left ≠ 0 ∧ Refused env .lookup target []

/-- The new name in a stat record, if there is one that differs from the old. -/
def nameIn (path : String) (stat : Bytes) (off : ℕ) : Option String :=
  if off + 2 ≤ stat.length ∧ 0 < uintAt 2 stat off ∧ off + 2 + uintAt 2 stat off ≤ stat.length then
    let name := fromUtf8Lossy ((stat.drop (off + 2)).take (uintAt 2 stat off))
    if name ≠ lastSegment path ∧ name ≠ "" then some name else none
  else none

def BadStat (env : Env) (path : String) (stat : Bytes) : Prop :=
  let layout := statLayout stat.length
  match nameIn path stat layout.nameAt with
  | some name => Refused env .rename path (asBytes (renamedPath path name))
  | none => (layout.hasMode || layout.hasTime || layout.hasLength) = true ∧
      Refused env .setAttr path []

/-- The stat record of a wstat, after its fid and its two length fields. -/
def statIn (body : Bytes) : Bytes :=
  ((body.drop 4).drop 2).take (min (uintAt 2 (body.drop 4) 0) ((body.drop 4).length - 2))

def Rejected (env : Env) (s : Shared) (m : Message) : Prop :=
  match m.ty with
  | TVERSION => m.body.length < 4
  | TATTACH => m.body.length < 8
  | TWALK => m.body.length < 9 ∨ m.body.length ≠ 9 ∧
      UnknownOr s (fidAt m.body 0) fun e => BadWalk env m.body (uintAt 2 m.body 8) 10 e.path
  | TOPEN => m.body.length < 5 ∨ UnknownOr s (fidAt m.body 0) fun e =>
      Refused env (if e.isDir then .openDir else .openFile) e.path []
  | TREAD => m.body.length < 16 ∨ UnknownOr s (fidAt m.body 0) fun e =>
      Refused env (if e.isDir then .readDir else .read) e.path []
  | TWRITE => m.body.length < 16 ∨ UnknownOr s (fidAt m.body 0) fun e =>
      Refused env .write e.path
        ((m.body.drop 16).take (min (uintAt 4 m.body 12) (m.body.length - 16)))
  | TCLUNK => m.body.length < 4
  | TCREATE => m.body.length < 9 ∨ 6 + uintAt 2 m.body 4 + 5 > m.body.length ∨
      UnknownOr s (fidAt m.body 0) fun e =>
        Refused env
          (if (uintAt 4 m.body (6 + uintAt 2 m.body 4)).testBit 31 then .mkDir else .create)
          (joinPath e.path (fromUtf8Lossy ((m.body.drop 6).take (uintAt 2 m.body 4)))) []
  | TREMOVE => m.body.length < 4 ∨ UnknownOr s (fidAt m.body 0) fun e =>
      Refused env (if e.isDir then .rmDir else .unlink) e.path []
  | TSTAT => m.body.length < 4 ∨ UnknownOr s (fidAt m.body 0) fun e =>
      Refused env .getAttr e.path []
  | TWSTAT => m.body.length < 4 ∨ UnknownOr s (fidAt m.body 0) fun e =>
      m.body.length < 6 ∨ 6 ≤ (statIn m.body).length ∧ BadStat env e.path (statIn m.body)
  | TFLUSH => False
  | _ => True

/-! ## When a handler ends with an error -/

section Errors
variable {A B : Type} (env : Env) (w : World)

def Errs (x : Handler A) : Prop := ∃ e w', evaluate env x.run w = some (.error e, w')

theorem evaluate_run_bind (x : Handler A) (f : A → Handler B) :
    evaluate env (x >>= f).run w = (evaluate env x.run w).bind fun y =>
      match y.1 with
      | .ok a => evaluate env (f a).run y.2
      | .error e => some (.error e, y.2) := by
  rw [ExceptT.run_bind, evaluate_bind]
  congr 1
  funext y
  cases y.1 <;> rfl

theorem errs_bind (x : Handler A) (f : A → Handler B) :
    Errs env w (x >>= f) ↔ Errs env w x ∨
      ∃ a w', evaluate env x.run w = some (.ok a, w') ∧ Errs env w' (f a) := by
  simp only [Errs, evaluate_run_bind]
  cases evaluate env x.run w with
  | none => simp
  | some y =>
      obtain ⟨r, w'⟩ := y
      cases r with
      | ok a => simp
      | error e => simp

@[simp] theorem errs_pure (a : A) : ¬ Errs env w (pure a : Handler A) := by
  rintro ⟨e, w', h⟩
  cases h

@[simp] theorem errs_throw (e : String) : Errs env w (throw e : Handler A) := ⟨e, w, rfl⟩

@[simp] theorem errs_crash : ¬ Errs env w (crash : Handler A) := by
  rintro ⟨e, w', h⟩
  cases h

@[simp] theorem errs_crash_bind (f : A → Handler B) : ¬ Errs env w (crash >>= f) := by
  rintro ⟨e, w', h⟩
  cases h

/-- A step that always succeeds with one value only moves the world. -/
theorem errs_step {x : Handler A} {f : A → Handler B} {a : A} {w' : World}
    (h : evaluate env x.run w = some (.ok a, w')) : Errs env w (x >>= f) ↔ Errs env w' (f a) := by
  simp only [Errs, evaluate_run_bind, h, Option.bind_some]

theorem errs_locked_bind (c : Critical) (f : c.Ret → Handler B) :
    Errs env w (locked c >>= f) ↔
      Errs env { w with shared := (c.exec w.shared).2 } (f (c.exec w.shared).1) :=
  errs_step env w rfl

theorem not_errs_locked_bind (c : Critical) {f : c.Ret → Handler B}
    (h : ∀ r w, ¬ Errs env w (f r)) : ¬ Errs env w (locked c >>= f) := by
  rw [errs_locked_bind]
  exact h _ _

@[simp] theorem errs_sendReply (ty : UInt8) (tag : UInt16) (body : Bytes) :
    ¬ Errs env w (sendReply ty tag body) := by
  rintro ⟨e, w', h⟩
  cases h

@[simp] theorem errs_encodeStat_bind (name : String) (qid : Qid) (length : ℕ) (isDir : Bool)
    (f : Bytes → Handler B) :
    Errs env w (encodeStat name qid length isDir >>= f) ↔
      Errs env { w with tick := w.tick + 1 }
        (f (statBytes (env.clock w.tick) name qid length isDir)) :=
  errs_step env w rfl

theorem errs_failIf_bind {p : Prop} [Decidable p] {e : String} {f : Unit → Handler B} {Q : Prop}
    (h : ¬ p → (Errs env w (f ()) ↔ Q)) : Errs env w (failIf p e >>= f) ↔ p ∨ Q := by
  unfold failIf
  by_cases hp : p
  · simp only [hp, if_true, true_or, iff_true]
    exact ⟨e, w, rfl⟩
  · simp [hp, h hp]

theorem errs_range_bind {body : Bytes} {i j : ℕ} (hij : i ≤ j) (hj : j ≤ body.length)
    (f : Bytes → Handler B) :
    Errs env w (range body i j >>= f) ↔ Errs env w (f ((body.drop i).take (j - i))) := by
  unfold range
  rw [slice_of_le hij hj, pure_bind]

theorem errs_readUint_bind {width : ℕ} {body : Bytes} {i : ℕ} (h : i + width ≤ body.length)
    (f : ℕ → Handler B) :
    Errs env w (readUint width body i >>= f) ↔ Errs env w (f (uintAt width body i)) := by
  unfold readUint
  rw [bind_assoc, errs_range_bind env w (Nat.le_add_right i width) h, pure_bind,
    Nat.add_sub_cancel_left]
  rfl

theorem errs_readFid_bind {body : Bytes} {i : ℕ} (h : i + 4 ≤ body.length)
    (f : UInt32 → Handler B) :
    Errs env w (readFid body i >>= f) ↔ Errs env w (f (fidAt body i)) := by
  unfold readFid
  rw [bind_assoc, errs_readUint_bind env w h, pure_bind]
  rfl

theorem errs_getFid_bind (fid : UInt32) {f : FidEntry → Handler B} {P : FidEntry → Prop}
    (h : ∀ e, Errs env w (f e) ↔ P e) :
    Errs env w (getFid fid >>= f) ↔ UnknownOr w.shared fid P := by
  unfold getFid
  rw [bind_assoc, errs_locked_bind]
  simp only [Critical.exec, UnknownOr]
  cases w.shared.state.fids.lookup fid with
  | none => simp
  | some e => simpa using h e

theorem errs_route_bind (req : Request) (f : Answer → Handler B) :
    Errs env w ((liftM (Prog.perform (S := ninep) (.route req)) : Handler Answer) >>= f) ↔
      Errs env w (f (env.router req)) :=
  errs_step env w rfl

theorem errs_request_bind (what : String) (op : FsOperation) (path : String) (data : Bytes)
    (f : Response → Handler B) :
    Errs env w (request what op path data >>= f) ↔
      Refused env op path data ∨
        ∃ r, env.router ⟨op, path, data⟩ = .reply (.ok r) ∧ Errs env w (f r) := by
  unfold request
  rw [bind_assoc, errs_route_bind, Refused]
  cases env.router ⟨op, path, data⟩ with
  | routerGone => simp [Answer.accepted]
  | handlerGone => simp [Answer.accepted]
  | reply result =>
      cases result with
      | error e => simp [Answer.accepted]
      | ok r => simp [Answer.accepted]

/-- The common shape: nothing after the request can fail. -/
theorem errs_request_last {what : String} {op : FsOperation} {path : String} {data : Bytes}
    {f : Response → Handler B} (h : ∀ r, ¬ Errs env w (f r)) :
    Errs env w (request what op path data >>= f) ↔ Refused env op path data := by
  rw [errs_request_bind]
  simp [h]

variable (tag : UInt16) (body : Bytes)

theorem errs_parseVersion_bind (f : String → Handler B) (h : ∀ v, ¬ Errs env w (f v)) :
    ¬ Errs env w (parseVersion body >>= f) := by
  unfold parseVersion
  by_cases hlong : body.length > 4
  · rw [if_pos hlong, bind_assoc]
    by_cases htwo : 4 + 2 ≤ body.length
    · rw [errs_readUint_bind env w htwo]
      split
      · next hfits =>
          rw [bind_assoc, errs_range_bind env w (Nat.le_add_right _ _) hfits, pure_bind]
          exact h _
      · rw [pure_bind]
        exact h _
    · rw [readUint, range_crash (by omega)]
      simp [NinepTotality.crash_bind]
  · rw [if_neg hlong, pure_bind]
    exact h _

theorem errs_handleVersion : Errs env w (handleVersion tag body) ↔ body.length < 4 := by
  unfold handleVersion
  rw [errs_failIf_bind env w (Q := False), or_false]
  intro hlen
  rw [errs_readUint_bind env w (by omega), iff_false]
  apply errs_parseVersion_bind
  intro version
  exact not_errs_locked_bind env w _ fun _ w => errs_sendReply env w _ _ _

theorem errs_handleAttach : Errs env w (handleAttach tag body) ↔ body.length < 8 := by
  unfold handleAttach
  rw [errs_failIf_bind env w (Q := False), or_false]
  intro hlen
  rw [errs_readFid_bind env w (by omega), errs_readFid_bind env w (by omega), iff_false]
  exact not_errs_locked_bind env w _ fun _ w => errs_sendReply env w _ _ _

theorem errs_handleOpen : Errs env w (handleOpen tag body) ↔
    body.length < 5 ∨ UnknownOr w.shared (fidAt body 0) fun e =>
      Refused env (if e.isDir then .openDir else .openFile) e.path [] := by
  unfold handleOpen
  apply errs_failIf_bind
  intro hlen
  rw [errs_readFid_bind env w (by omega), errs_range_bind env w (by omega) (by omega)]
  apply errs_getFid_bind
  intro e
  apply errs_request_last
  intro r
  apply not_errs_locked_bind env w (.markOpen _)
  intro _ w
  exact not_errs_locked_bind env w .readMsize fun _ w => errs_sendReply env w _ _ _

theorem errs_handleCreate : Errs env w (handleCreate tag body) ↔
    body.length < 9 ∨ 6 + uintAt 2 body 4 + 5 > body.length ∨
      UnknownOr w.shared (fidAt body 0) fun e =>
        Refused env (if (uintAt 4 body (6 + uintAt 2 body 4)).testBit 31 then .mkDir else .create)
          (joinPath e.path (fromUtf8Lossy ((body.drop 6).take (uintAt 2 body 4)))) [] := by
  unfold handleCreate
  apply errs_failIf_bind
  intro hlen
  rw [errs_readFid_bind env w (by omega), errs_readUint_bind env w (by omega)]
  apply errs_failIf_bind
  intro hname
  rw [errs_range_bind env w (by omega) (by omega), errs_readUint_bind env w (by omega),
    errs_range_bind env w (by omega) (by omega), Nat.add_sub_cancel_left]
  apply errs_getFid_bind
  intro e
  apply errs_request_last
  intro r
  exact not_errs_locked_bind env w (.createFid _ _ _) fun _ w => errs_sendReply env w _ _ _

theorem errs_encodeEntries_bind (es : List DirEntry) (f : Bytes → Handler B)
    (h : ∀ bs w, ¬ Errs env w (f bs)) : ¬ Errs env w (encodeEntries es >>= f) := by
  induction es generalizing w f with
  | nil => simpa [encodeEntries] using h [] w
  | cons e es ih =>
      simp only [encodeEntries, bind_assoc, errs_encodeStat_bind, pure_bind]
      exact ih _ _ fun bs w => h _ w

theorem errs_readReply (offset : ℕ) (data : Bytes) :
    ¬ Errs env w (readReply tag offset data) := errs_sendReply env w _ _ _

theorem errs_withDot_bind (offset : ℕ) (data : Bytes) (f : Bytes → Handler B)
    (h : ∀ bs w, ¬ Errs env w (f bs)) : ¬ Errs env w (withDot offset data >>= f) := by
  unfold withDot
  split
  · simpa using h _ _
  · simpa using h _ _

theorem errs_handleRead : Errs env w (handleRead tag body) ↔
    body.length < 16 ∨ UnknownOr w.shared (fidAt body 0) fun e =>
      Refused env (if e.isDir then .readDir else .read) e.path [] := by
  unfold handleRead
  apply errs_failIf_bind
  intro hlen
  rw [errs_readFid_bind env w (by omega), errs_readUint_bind env w (by omega),
    errs_readUint_bind env w (by omega)]
  apply errs_getFid_bind
  intro e
  cases e.isDir with
  | true =>
      rw [if_pos rfl, if_pos rfl]
      apply errs_request_last
      intro r
      rw [errs_locked_bind]
      apply errs_encodeEntries_bind
      intro listing w
      apply errs_withDot_bind
      intro data w
      exact errs_readReply env w tag _ _
  | false =>
      rw [if_neg (by decide), if_neg (by decide)]
      apply errs_request_last
      intro r
      exact errs_readReply env w tag _ _

theorem errs_handleWrite : Errs env w (handleWrite tag body) ↔
    body.length < 16 ∨ UnknownOr w.shared (fidAt body 0) fun e =>
      Refused env .write e.path
        ((body.drop 16).take (min (uintAt 4 body 12) (body.length - 16))) := by
  unfold handleWrite
  apply errs_failIf_bind
  intro hlen
  rw [errs_readFid_bind env w (by omega), errs_readUint_bind env w (by omega),
    errs_readUint_bind env w (by omega)]
  apply errs_getFid_bind
  intro e
  rw [errs_range_bind env w (by omega) (by omega), Nat.add_sub_cancel_left]
  apply errs_request_last
  intro r
  simp

theorem errs_handleClunk : Errs env w (handleClunk tag body) ↔ body.length < 4 := by
  unfold handleClunk
  rw [errs_failIf_bind env w (Q := False), or_false]
  intro hlen
  rw [errs_readFid_bind env w (by omega), errs_locked_bind, iff_false]
  simp only [Critical.exec]
  cases w.shared.state.fids.lookup (fidAt body 0) with
  | none =>
      rw [releaseFid, pure_bind]
      exact not_errs_locked_bind env _ _ fun _ w => errs_sendReply env w _ _ _
  | some e =>
      rw [releaseFid, bind_assoc, errs_route_bind, pure_bind]
      exact not_errs_locked_bind env w _ fun _ w => errs_sendReply env w _ _ _

theorem errs_handleRemove : Errs env w (handleRemove tag body) ↔
    body.length < 4 ∨ UnknownOr w.shared (fidAt body 0) fun e =>
      Refused env (if e.isDir then .rmDir else .unlink) e.path [] := by
  unfold handleRemove
  apply errs_failIf_bind
  intro hlen
  rw [errs_readFid_bind env w (by omega)]
  apply errs_getFid_bind
  intro e
  apply errs_request_last
  intro r
  simp

theorem errs_handleStat : Errs env w (handleStat tag body) ↔
    body.length < 4 ∨ UnknownOr w.shared (fidAt body 0) fun e =>
      Refused env .getAttr e.path [] := by
  unfold handleStat
  apply errs_failIf_bind
  intro hlen
  rw [errs_readFid_bind env w (by omega)]
  apply errs_getFid_bind
  intro e
  apply errs_request_last
  intro r
  simp

theorem errs_lookupLast_bind (isLast : Bool) (path : String) {f : Unit → Handler B} {Q : Prop}
    (h : Errs env w (f ()) ↔ Q) : Errs env w (lookupLast isLast path >>= f) ↔
      (isLast = true ∧ Refused env .lookup path []) ∨
        (isLast = true → ¬ Refused env .lookup path []) ∧ Q := by
  cases isLast with
  | false => simpa [lookupLast] using h
  | true =>
      rw [lookupLast, if_pos rfl, bind_assoc, errs_request_bind]
      simp only [pure_bind, h, Refused]
      cases env.router ⟨.lookup, path, []⟩ with
      | routerGone => simp [Answer.accepted]
      | handlerGone => simp [Answer.accepted]
      | reply result => cases result <;> simp [Answer.accepted]

/-- A walk fails inside its names or not at all. -/
theorem errs_walkNames (left : ℕ) (wk : Walk) :
    Errs env w (walkNames body left wk) ↔ BadWalk env body left wk.offset wk.curPath := by
  induction left generalizing w wk with
  | zero => simp [walkNames, BadWalk, walkTarget]
  | succ left ih =>
      rw [walkNames, BadWalk, walkTarget]
      by_cases htwo : wk.offset + 2 > body.length
      · rw [if_pos htwo, errs_failIf_bind env w (Q := True) fun h => absurd htwo h]
        simp
      · rw [if_neg htwo, errs_failIf_bind env w fun _ => Iff.rfl,
          errs_readUint_bind env w (by omega)]
        by_cases hdata : wk.offset + 2 + uintAt 2 body wk.offset > body.length
        · rw [if_pos hdata, errs_failIf_bind env w (Q := True) fun h => absurd hdata h]
          simp
        · rw [if_neg hdata, errs_failIf_bind env w fun _ => Iff.rfl,
            errs_range_bind env w (by omega) (by omega), Nat.add_sub_cancel_left]
          simp only [htwo, hdata, false_or]
          rw [errs_lookupLast_bind env w _ _ ((errs_locked_bind env w _ _).trans (ih _ _))]
          cases left with
          | zero => simp [BadWalk, walkTarget]
          | succ left => simp [BadWalk]

theorem errs_handleWalk : Errs env w (handleWalk tag body) ↔
    body.length < 9 ∨ body.length ≠ 9 ∧ UnknownOr w.shared (fidAt body 0) fun e =>
      BadWalk env body (uintAt 2 body 8) 10 e.path := by
  unfold handleWalk
  apply errs_failIf_bind
  intro hlen
  rw [errs_readFid_bind env w (by omega), errs_readFid_bind env w (by omega)]
  by_cases hnine : body.length = 9
  · rw [NinepTotality.readUint_crash (by omega)]
    simp [hnine]
  · rw [errs_readUint_bind env w (by omega)]
    simp only [ne_eq, hnine, not_false_eq_true, true_and]
    apply errs_getFid_bind
    intro e
    rw [errs_bind, errs_walkNames, or_iff_left]
    rintro ⟨wk, w', _, herr⟩
    exact not_errs_locked_bind env w' _ (fun _ w => errs_sendReply env w _ _ _) herr

theorem errs_newName_bind (path : String) (stat : Bytes) (off : ℕ) (f : Option String → Handler B) :
    Errs env w (newName path stat off >>= f) ↔ Errs env w (f (nameIn path stat off)) := by
  unfold newName nameIn
  by_cases hoff : off + 2 ≤ stat.length
  · rw [if_pos hoff, bind_assoc, errs_readUint_bind env w hoff]
    by_cases hname : 0 < uintAt 2 stat off ∧ off + 2 + uintAt 2 stat off ≤ stat.length
    · rw [if_pos hname, if_pos ⟨hoff, hname⟩, bind_assoc,
        errs_range_bind env w (Nat.le_add_right _ _) hname.2, pure_bind, Nat.add_sub_cancel_left]
    · rw [if_neg hname, if_neg fun h => hname h.2, pure_bind]
  · rw [if_neg hoff, if_neg fun h => hoff h.1, pure_bind]

theorem errs_applyStat (fid : UInt32) (e : FidEntry) (stat : Bytes) :
    Errs env w (applyStat fid e stat) ↔ BadStat env e.path stat := by
  unfold applyStat BadStat
  rw [errs_newName_bind]
  cases hname : nameIn e.path stat (statLayout stat.length).nameAt with
  | some name =>
      dsimp only
      rw [hname]
      apply errs_request_last
      rintro r ⟨err, w', herr⟩
      cases herr
  | none =>
      dsimp only
      rw [hname]
      split
      · next hset =>
          simp only [hset, true_and]
          apply errs_request_last
          intro r
          simp
      · next hset => simp [hset]

theorem errs_handleWstat : Errs env w (handleWstat tag body) ↔
    body.length < 4 ∨ UnknownOr w.shared (fidAt body 0) fun e =>
      body.length < 6 ∨ 6 ≤ (statIn body).length ∧ BadStat env e.path (statIn body) := by
  unfold handleWstat
  apply errs_failIf_bind
  intro hlen
  rw [errs_readFid_bind env w (by omega)]
  apply errs_getFid_bind
  intro e
  rw [errs_range_bind env w (by omega) le_rfl, List.take_of_length_le (by simp)]
  have hdata : (body.drop 4).length = body.length - 4 := List.length_drop
  rw [errs_failIf_bind env w (Q := 6 ≤ (statIn body).length ∧ BadStat env e.path (statIn body))]
  · have hsix : body.length - 4 < 2 ↔ body.length < 6 := by omega
    rw [hdata, hsix]
  · intro htwo
    rw [errs_readUint_bind env w (by omega), errs_range_bind env w (by omega) (by omega),
      Nat.add_sub_cancel_left]
    change Errs env w (if (statIn body).length < 6 then _ else _) ↔ _
    by_cases hsix : (statIn body).length < 6
    · rw [if_pos hsix]
      simp [Nat.not_le.mpr hsix]
    · rw [if_neg hsix, errs_bind, errs_applyStat, or_iff_left]
      · exact ⟨fun h => ⟨Nat.not_lt.mp hsix, h⟩, fun h => h.2⟩
      · rintro ⟨_, w', _, herr⟩
        exact errs_sendReply env w' _ _ _ herr

/-- The code's own case analysis, from the state before the message. -/
theorem errs_handleMessage (m : Message) :
    Errs env w (handleMessage m) ↔ Rejected env w.shared m := by
  obtain ⟨ty, tag, body⟩ := m
  generalize hx : handleMessage ⟨ty, tag, body⟩ = x
  simp only [handleMessage] at hx
  split at hx <;> subst hx
  · exact errs_handleVersion env w tag body
  · exact errs_handleAttach env w tag body
  · exact errs_handleWalk env w tag body
  · exact errs_handleOpen env w tag body
  · exact errs_handleRead env w tag body
  · exact errs_handleWrite env w tag body
  · exact errs_handleClunk env w tag body
  · exact errs_handleCreate env w tag body
  · exact errs_handleRemove env w tag body
  · exact errs_handleStat env w tag body
  · exact errs_handleWstat env w tag body
  · exact iff_of_false (errs_sendReply env w _ _ _) id
  · apply iff_of_true (errs_throw env w _)
    simp only [Rejected]

end Errors

/-! ## Agreement -/

/-- What a task sends, it sends to the buffer instead. -/
theorem evaluate_virtualStream {A : Type} (env : Env) (p : Prog ninep A) (s : Shared) (k : ℕ)
    (out other : List Bytes) :
    evaluate env (virtualStream p out.flatten) ⟨s, k, other⟩ =
      (evaluate env p ⟨s, k, out⟩).map fun x =>
        ((x.1, x.2.out.flatten), ⟨x.2.shared, x.2.tick, other⟩) := by
  induction p generalizing s k out with
  | done a => rfl
  | call o next ih =>
      cases o with
      | locked c => exact ih _ _ _ _
      | route req => exact ih _ _ _ _
      | now => exact ih _ _ _ _
      | send msg =>
          have hsend := ih () s k (out ++ [msg])
          rw [List.flatten_append, List.flatten_singleton] at hsend
          exact hsend
      | crash => rfl

theorem udpResult_eq (env : Env) (s : Shared) {data : Bytes} (h : 7 ≤ data.length) :
    udpResult env s data =
      (evaluate env (udpDispatch (datagramMessage data)) (World.start s)).map fun x =>
        (some x.2.out.flatten, x.2.shared) := by
  have hvirtual := evaluate_virtualStream env (udpDispatch (datagramMessage data)) s 0 [] []
  rw [List.flatten_nil] at hvirtual
  rw [udpResult, handleUdpMessage, if_neg (by omega), evaluate_bind, World.start, hvirtual]
  cases evaluate env (udpDispatch (datagramMessage data)) ⟨s, 0, []⟩ <;> rfl

/-- With a size field that is its length, the datagram is one encoded message. -/
theorem encode_datagram {data : Bytes} (hlen : 7 ≤ data.length)
    (hsize : leValue (data.take 4) = data.length) :
    encodeMessage (datagramMessage data) = data := by
  have hsplit : data = data.take 4 ++ (data.drop 4).take 1 ++ (data.drop 5).take 2 ++
      data.drop 7 := by
    conv_lhs => rw [← List.take_append_drop 4 data, ← List.take_append_drop 1 (data.drop 4),
      List.drop_drop, ← List.take_append_drop 2 (data.drop (4 + 1)), List.drop_drop]
    simp only [List.append_assoc]
  have hfour : (data.take 4).length = 4 := by rw [List.length_take]; omega
  have htwo : ((data.drop 5).take 2).length = 2 := by
    rw [List.length_take, List.length_drop]
    omega
  have hsizes : leBytes 4 (7 + (data.drop 7).length) = data.take 4 := by
    have h := leBytes_leValue (data.take 4)
    rw [hfour, hsize] at h
    rw [List.length_drop, Nat.add_sub_cancel' hlen, h]
  have hty : [(data.drop 4).headD 0] = (data.drop 4).take 1 := by
    cases h : data.drop 4 with
    | nil =>
        have hpos : 0 < (data.drop 4).length := by rw [List.length_drop]; omega
        rw [h] at hpos
        cases hpos
    | cons b rest => rfl
  have htag : leBytes 2 (UInt16.ofNat (leValue ((data.drop 5).take 2))).toNat =
      (data.drop 5).take 2 := by
    have hlt := leValue_lt ((data.drop 5).take 2)
    have h := leBytes_leValue ((data.drop 5).take 2)
    rw [htwo] at hlt h
    rw [UInt16.toNat_ofNat_of_lt' hlt, h]
  rw [encodeMessage, message, datagramMessage, hsizes, hty, htag, ← hsplit]

theorem streamResult_eq (env : Env) (s : Shared) {data : Bytes} (hlen : 7 ≤ data.length)
    (hsize : leValue (data.take 4) = data.length) (hbody : data.length - 7 ≤ 65536) :
    streamResult env s data =
      (evaluate env (serveMessage (datagramMessage data)) (World.start s)).map fun x =>
        (some x.2.out.flatten, x.2.shared) := by
  have hbytes : Source.contiguous.unread data =
      [datagramMessage data].flatMap encodeMessage ++ (encodeMessage ⟨TFLUSH, 0, []⟩).take 0 := by
    simp [encode_datagram hlen hsize, Source.contiguous]
  have hloop := runConnection_serveAll (by simpa [datagramMessage] using hbody) (by decide)
    (by decide) hbytes
  rw [streamResult, hloop, serveAll, evaluate_bind]
  cases evaluate env (serveMessage (datagramMessage data)) (World.start s) <;> rfl

/-- The two dispatchers differ only on unknown message types. -/
theorem dispatch_cases (m : Message) :
    udpDispatch m = (handleMessage m).run ∨
      handleMessage m = throw ("unknown message type: " ++ toString m.ty.toNat) ∧
      udpDispatch m = (do
        sendError m.tag ("unknown msg type " ++ toString m.ty.toNat)
        pure (.ok ())) := by
  obtain ⟨ty, tag, body⟩ := m
  generalize hx : udpDispatch ⟨ty, tag, body⟩ = x
  simp only [udpDispatch] at hx
  split at hx <;> subst hx
  case h_13 =>
    apply Or.inr
    refine ⟨?_, rfl⟩
    simp only [handleMessage]
  all_goals exact .inl rfl

/-- Both error texts are long enough to show where they part. -/
theorem errorBody_take {start : String} (h : 10 ≤ (asBytes start).length) (rest : String) :
    ((errorBody (start ++ rest)).drop 2).take 10 = (asBytes start).take 10 := by
  have hdrop : (errorBody (start ++ rest)).drop 2 =
      (asBytes (start ++ rest)).take (min (asBytes (start ++ rest)).length 65535) :=
    List.drop_left' (by simp)
  rw [hdrop, asBytes_append, List.take_take, List.length_append, min_eq_left (by omega),
    List.take_append_of_le_length h]

theorem message_drop (ty : UInt8) (tag : UInt16) (body : Bytes) :
    (message ty tag body).drop 7 = body := List.drop_left' (by simp)

theorem unknown_texts_differ (tag : UInt16) (rest : String) :
    message RERROR tag (errorBody ("unknown msg type " ++ rest)) ≠
      message RERROR tag (errorBody ("unknown message type: " ++ rest)) := by
  intro h
  have hbody := congrArg (fun bs => ((bs.drop 7).drop 2).take 10) h
  simp only [message_drop] at hbody
  rw [errorBody_take (by decide), errorBody_take (by decide)] at hbody
  revert hbody
  decide

theorem evaluate_serveMessage (env : Env) (m : Message) (w : World) :
    evaluate env (serveMessage m) w = (evaluate env (handleMessage m).run w).map fun x =>
      match x.1 with
      | .ok () => ((), x.2)
      | .error e => ((), { x.2 with out := x.2.out ++ [message RERROR m.tag (errorBody e)] }) := by
  rw [serveMessage, evaluate_bind]
  cases evaluate env (handleMessage m).run w with
  | none => rfl
  | some x =>
      obtain ⟨r, w'⟩ := x
      cases r <;> rfl

theorem results_agree_iff (env : Env) (s : Shared) (m : Message) :
    ((evaluate env (udpDispatch m) (World.start s)).map fun x =>
        (some x.2.out.flatten, x.2.shared)) =
      ((evaluate env (serveMessage m) (World.start s)).map fun x =>
        (some x.2.out.flatten, x.2.shared)) ↔ ¬ Rejected env s m := by
  have hrejected : Errs env (World.start s) (handleMessage m) ↔ Rejected env s m :=
    errs_handleMessage env (World.start s) m
  rw [← hrejected, evaluate_serveMessage]
  rcases dispatch_cases m with hknown | ⟨hunknown, hudp⟩
  · rw [hknown, Errs]
    cases evaluate env (handleMessage m).run (World.start s) with
    | none => simp
    | some x =>
        obtain ⟨r, w'⟩ := x
        cases r with
        | ok u => simp
        | error e => simp [message]
  · rw [hudp, hunknown]
    have hne := unknown_texts_differ m.tag (toString m.ty.toNat)
    apply iff_of_false
    · intro h
      have hout := congrArg Prod.fst (Option.some.inj h)
      apply hne
      simpa [World.start] using Option.some.inj hout
    · exact fun h => h (errs_throw env _ _)

/-- One message as a datagram and as the whole of a stream: the two transports
return the same bytes and leave the same state exactly when the handlers do not
reject the message. -/
theorem transports_agree_iff (env : Env) (s : Shared) (data : Bytes) (hlen : 7 ≤ data.length)
    (hsize : leValue (data.take 4) = data.length) (hbody : data.length - 7 ≤ 65536) :
    udpResult env s data = streamResult env s data ↔
      ¬ Rejected env s (datagramMessage data) := by
  rw [udpResult_eq env s hlen, streamResult_eq env s hlen hsize hbody]
  exact results_agree_iff env s (datagramMessage data)

/-- An attach followed by a stat of the root: an accepted message. -/
theorem transports_agree_on_stat :
    udpResult ⟨fun _ => .reply (.ok ⟨[1, 2], none, false⟩), fun _ => 0⟩
        ⟨NinepState.new.setFid 5 0 "/" true, 65536⟩ [11, 0, 0, 0, 124, 1, 0, 5, 0, 0, 0] =
      streamResult ⟨fun _ => .reply (.ok ⟨[1, 2], none, false⟩), fun _ => 0⟩
        ⟨NinepState.new.setFid 5 0 "/" true, 65536⟩ [11, 0, 0, 0, 124, 1, 0, 5, 0, 0, 0] := by
  rw [transports_agree_iff _ _ _ (by decide) (by decide) (by decide)]
  rintro (hshort | hrefused)
  · exact absurd hshort (by decide)
  · have haccepted : true = false := hrefused
    cases haccepted

/-- A stat of an unknown fid is answered with an error on a stream and with an
empty datagram otherwise. -/
theorem transports_disagree_on_unknown_fid :
    ¬ ∀ (env : Env) (s : Shared) (data : Bytes), 7 ≤ data.length →
      leValue (data.take 4) = data.length → data.length - 7 ≤ 65536 →
      udpResult env s data = streamResult env s data := by
  intro h
  have hagree := h ⟨fun _ => .routerGone, fun _ => 0⟩ Shared.new
    [11, 0, 0, 0, 124, 1, 0, 5, 0, 0, 0] (by decide) (by decide) (by decide)
  rw [udpResult_eq _ _ (by decide), streamResult_eq _ _ (by decide) (by decide) (by decide),
    results_agree_iff] at hagree
  exact hagree (.inr trivial)

end Pinhead.NinepDatagrams
