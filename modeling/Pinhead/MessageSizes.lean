import Pinhead.NinepLockstep

/-!
# The negotiated message size

A Tversion proposes the largest message of a connection, and Rversion answers with the size
that holds from then on. The server puts the proposal into its own limits, 4096 and 65536,
and stores it. No reply is held against it afterwards: a read returns all there is behind
its offset, a walk one qid for each of its names, an error its whole text.

A connection is cut into turns, one for each message. `Roomy` says of the answers that a
handler gets whether the reply made of them has the negotiated size.
-/
namespace Pinhead.MessageSizes
open ByteStrings FsRequests Resumption Histories NinepShared NinepHandlers NinepRuns
open NinepTotality NinepDatagrams NinepConnections NinepScripts StatRecords NinepCalls
open NinepLockstep

/-! ## Turns -/

/-- A message of a connection with what its handler did. -/
structure Turn where
  message : Message
  history : List (Answered ninep)

/-- The messages as far as they are served; the handler of the last one may not have ended. -/
inductive Turns : List Message → List (Answered ninep) → List Turn → Prop
  | idle (ms : List Message) : Turns ms [] []
  | serving {m : Message} {ms : List Message} {h : List (Answered ninep)} {q : Prog ninep Unit} :
      Passes (serveMessage m) h q → Turns (m :: ms) h [⟨m, h⟩]
  | served {m : Message} {ms : List Message} {h k : List (Answered ninep)} {xs : List Turn} :
      Passes (serveMessage m) h (.done ()) → Turns ms k xs → Turns (m :: ms) (h ++ k) (⟨m, h⟩ :: xs)

theorem turns_of_passes {ms : List Message} {h : List (Answered ninep)} {q : Prog ninep Unit}
    (hp : Passes (serveAll ms) h q) : ∃ xs, Turns ms h xs := by
  induction ms generalizing h with
  | nil =>
      obtain ⟨rfl, _⟩ := passes_done hp
      exact ⟨[], .idle []⟩
  | cons m ms ih =>
      rcases passes_bind hp with ⟨p, hm, _⟩ | ⟨⟨⟩, h₁, h₂, rfl, hm, hrest⟩
      · exact ⟨_, .serving hm⟩
      · obtain ⟨xs, hxs⟩ := ih hrest
        exact ⟨_, .served hm hxs⟩

theorem Turns.passes {ms : List Message} {h : List (Answered ninep)} {xs : List Turn}
    (hxs : Turns ms h xs) : ∀ x ∈ xs, ∃ q, Passes (serveMessage x.message) x.history q := by
  induction hxs with
  | idle ms => exact nofun
  | serving hp => exact List.forall_mem_singleton.mpr ⟨_, hp⟩
  | served hp _ ih => exact List.forall_mem_cons.mpr ⟨⟨_, hp⟩, ih⟩

def Turn.replies (x : Turn) : List Bytes :=
  x.history.filterMap fun e => match e.op with
    | .send msg => some msg
    | _ => none

theorem mem_replies {x : Turn} {msg : Bytes} :
    msg ∈ x.replies ↔ ∃ e ∈ x.history, e.op = .send msg := by
  rw [Turn.replies, List.mem_filterMap]
  refine exists_congr fun e => and_congr_right fun _ => ?_
  obtain ⟨o, r⟩ := e
  cases o with
  | send msg' => exact ⟨fun h => congrArg Op.send (Option.some.inj h), fun h => congrArg some (Op.send.inj h)⟩
  | _ => exact ⟨nofun, nofun⟩

/-! ## Sizes -/

def messageType (msg : Bytes) : UInt8 := (msg.drop 4).headD 0

theorem messageType_message (ty : UInt8) (tag : UInt16) (body : Bytes) :
    messageType (message ty tag body) = ty := by
  unfold messageType message
  rw [List.append_assoc, List.append_assoc, List.drop_left' (leBytes_length 4 _)]
  rfl

theorem message_length (ty : UInt8) (tag : UInt16) (body : Bytes) :
    (message ty tag body).length = 7 + body.length := by
  simp [message]
  omega

/-- The size in an Rversion. -/
def rversionSize (msg : Bytes) : Option ℕ :=
  if messageType msg = RVERSION then some (uintAt 4 (msg.drop 7) 0) else none

theorem rversionSize_message (ty : UInt8) (tag : UInt16) (body : Bytes) :
    rversionSize (message ty tag body) = if ty = RVERSION then some (uintAt 4 body 0) else none := by
  rw [rversionSize, messageType_message, message_drop]

/-- The size in the last Rversion of the turns. -/
def negotiated (xs : List Turn) : Option ℕ :=
  ((xs.flatMap Turn.replies).filterMap rversionSize).getLast?

theorem negotiated_mem {xs : List Turn} {n : ℕ} (h : negotiated xs = some n) :
    ∃ x ∈ xs, ∃ msg ∈ x.replies, rversionSize msg = some n := by
  obtain ⟨msg, hmsg, hsize⟩ := List.mem_filterMap.mp (List.mem_of_getLast? h)
  obtain ⟨x, hx, hmsg⟩ := List.mem_flatMap.mp hmsg
  exact ⟨x, hx, msg, hmsg, hsize⟩

/-- What a request that fails is called in its error. -/
def called : FsOperation → String
  | .openDir | .openFile => "open"
  | .rmDir | .unlink => "remove"
  | op => op.asStr

/-- What the handler of `m` makes of the answer takes at most `n` bytes. The answer to a
release is not looked at. -/
def RoomyAnswer (n : ℕ) (m : Message) (req : Request) : Answer → Prop
  | .reply (.ok r) => (req.op = .read → r.data.length ≤ uintAt 8 m.body 4 + (n - 11)) ∧
      (req.op = .getAttr → 61 + (asBytes (statName req.path)).length ≤ n)
  | .reply (.error e) => req.op ≠ .release →
      9 + (asBytes (called req.op ++ " failed: " ++ e)).length ≤ n
  | _ => True

/-- The same for every operation; a walk that binds its fid replies with all its qids. -/
def Roomy (n : ℕ) (m : Message) : Answered ninep → Prop
  | ⟨.route req, a⟩ => RoomyAnswer n m req a
  | ⟨.locked (.listDir _), es⟩ =>
      directoryBytes (uintAt 8 m.body 4) (show List DirEntry from es) ≤ uintAt 8 m.body 4 + (n - 11)
  | ⟨.locked (.setFid _ _ _ _), _⟩ => 9 + 13 * uintAt 2 m.body 8 ≤ n
  | _ => True

/-! ## Handlers -/

section
variable {bound : Option ℕ} {m : Message} {A B : Type}

/-- A reply has the size that is in force, if one is, and its type is that of an error or
the one that belongs to the message. An Rversion carries the proposal put into the limits,
and no other size is stored. -/
structure Sized (bound : Option ℕ) (m : Message) (o : Op) : Prop where
  reply : ∀ msg, o = .send msg → (∀ n, bound = some n → msg.length ≤ n) ∧
    ∃ ty tag body, msg = message ty tag body ∧ (ty = RERROR ∨ ty = m.ty + 1) ∧
      (ty = RVERSION → 4 ≤ m.body.length ∧
        uintAt 4 body 0 = max 4096 (min (uintAt 4 m.body 0) 65536))
  stored : ∀ n, o = .locked (.writeMsize n) → 4096 ≤ n ∧ n ≤ 65536

abbrev sizes (bound : Option ℕ) (m : Message) : Spec ninep Unit :=
  observed (fun t _ => t) (fun o r => ∀ n, bound = some n → Roomy n m ⟨o, r⟩)
    fun _ o => Sized bound m o

/-- The error text fits, together with the nine bytes around it. -/
def ShortError (bound : Option ℕ) (e : String) : Prop :=
  ∀ n, bound = some n → 9 + (asBytes e).length ≤ n

/-- Given roomy answers the handler sends nothing too long, and returns a value with `P` or
a short error. -/
def Keeps (bound : Option ℕ) (m : Message) (P : A → Prop) (x : Handler A) : Prop :=
  wp (sizes bound m) x.run (fun r _ => match r with
    | .ok a => P a
    | .error e => ShortError bound e) ()

/-- The texts of the handlers fit into every negotiated size. -/
theorem shortError_of_le (hb : ∀ n, bound = some n → 4096 ≤ n) {e : String}
    (h : (asBytes e).length ≤ 4087) : ShortError bound e := by
  intro n hn
  have hle := hb n hn
  omega

variable {P : A → Prop} {Q : B → Prop}

theorem Keeps.bind {x : Handler A} {f : A → Handler B} (hx : Keeps bound m P x)
    (hf : ∀ a, P a → Keeps bound m Q (f a)) : Keeps bound m Q (x >>= f) := by
  unfold Keeps
  rw [wp_run_bind]
  refine wp_mono (observed_monotone _ _ _) _ ?_ _ hx
  intro r _ hr
  cases r with
  | ok a => exact hf a hr
  | error e => exact hr

theorem keeps_pure {a : A} (h : P a) : Keeps bound m P (pure a : Handler A) := h

theorem keeps_throw {e : String} (h : ShortError bound e) : Keeps bound m P (throw e : Handler A) := h

theorem keeps_crash : Keeps bound m P (crash : Handler A) :=
  ⟨⟨nofun, nofun⟩, fun r => Empty.elim r⟩

theorem keeps_locked (c : Critical) (hc : ∀ n, c ≠ .writeMsize n) :
    Keeps bound m (fun r => ∀ n, bound = some n → Roomy n m ⟨.locked c, r⟩) (locked c) :=
  ⟨⟨nofun, fun n hn => absurd (Op.locked.inj hn) (hc n)⟩, fun _ hr => hr⟩

theorem keeps_writeMsize {n : ℕ} (h : 4096 ≤ n ∧ n ≤ 65536) :
    Keeps bound m (fun _ => True) (locked (.writeMsize n)) := by
  refine ⟨⟨nofun, ?_⟩, fun _ _ => trivial⟩
  rintro _ ⟨⟩
  exact h

theorem keeps_getFid (hb : ∀ n, bound = some n → 4096 ≤ n) (fid : UInt32) :
    Keeps bound m (fun _ => True) (getFid fid) := by
  refine (keeps_locked (.getFid fid) (by simp)).bind fun r _ => ?_
  cases r with
  | none => exact keeps_throw (shortError_of_le hb (by decide))
  | some e => exact keeps_pure trivial

/-- What is roomy about an accepted answer is passed on; a refusal makes a short error. -/
theorem keeps_request (hb : ∀ n, bound = some n → 4096 ≤ n) {what : String} {op : FsOperation}
    (hwhat : what = called op) (hrelease : op ≠ .release) (path : String) (data : Bytes) :
    Keeps bound m (fun r => ∀ n, bound = some n →
      (op = .read → r.data.length ≤ uintAt 8 m.body 4 + (n - 11)) ∧
        (op = .getAttr → 61 + (asBytes (statName path)).length ≤ n)) (request what op path data) := by
  subst hwhat
  refine ⟨⟨nofun, nofun⟩, fun a ha => ?_⟩
  match a, ha with
  | .routerGone, _ => exact shortError_of_le hb (by decide)
  | .handlerGone, _ => exact shortError_of_le hb (by decide)
  | .reply (.error e), ha => exact fun n hn => ha n hn hrelease
  | .reply (.ok r), ha => exact ha

theorem keeps_encodeStat (name : String) (qid : Qid) (length : ℕ) (isDir : Bool) :
    Keeps bound m (fun bs => bs.length = 52 + (asBytes name).length)
      (encodeStat name qid length isDir) :=
  ⟨⟨nofun, nofun⟩, fun _ _ => statBytes_length ..⟩

theorem keeps_encodeEntries (es : List DirEntry) :
    Keeps bound m (fun bs => bs.length = (es.map fun e => 52 + (asBytes e.name).length).sum)
      (encodeEntries es) := by
  induction es with
  | nil => exact keeps_pure rfl
  | cons e es ih =>
      refine (keeps_encodeStat _ _ _ _).bind fun stat hstat => ih.bind fun rest hrest => ?_
      apply keeps_pure
      rw [List.length_append, hstat, hrest, List.map_cons, List.sum_cons]

theorem keeps_withDot (offset : ℕ) (data : Bytes) :
    Keeps bound m (fun bs => bs.length = (if offset = 0 then 53 else 0) + data.length)
      (withDot offset data) := by
  unfold withDot
  split
  · refine (keeps_encodeStat _ _ _ _).bind fun dot hdot => keeps_pure ?_
    rw [List.length_append, hdot]
    rfl
  · exact keeps_pure (Nat.zero_add _).symm

/-- A reply of the type of the message, of some other type than Rversion. -/
theorem keeps_send {ty : UInt8} {tag : UInt16} {body : Bytes} (hty : ty = m.ty + 1)
    (hversion : ty ≠ RVERSION) (hlength : ∀ n, bound = some n → 7 + body.length ≤ n) :
    Keeps bound m (fun _ => True) (sendReply ty tag body) := by
  refine ⟨⟨?_, nofun⟩, fun _ _ => trivial⟩
  rintro _ ⟨⟩
  refine ⟨fun n hn => ?_, ty, tag, body, rfl, Or.inr hty, fun h => absurd h hversion⟩
  rw [message_length]
  exact hlength n hn

theorem keeps_short (hb : ∀ n, bound = some n → 4096 ≤ n) {ty : UInt8} {tag : UInt16} {body : Bytes}
    (hty : ty = m.ty + 1) (hversion : ty ≠ RVERSION) (hlength : body.length ≤ 4089) :
    Keeps bound m (fun _ => True) (sendReply ty tag body) := by
  refine keeps_send hty hversion fun n hn => ?_
  have hle := hb n hn
  omega

theorem keeps_readReply {tag : UInt16} {data : Bytes} (hty : m.ty = TREAD)
    (hlength : ∀ n, bound = some n → 4096 ≤ n ∧ data.length ≤ uintAt 8 m.body 4 + (n - 11)) :
    Keeps bound m (fun _ => True) (readReply tag (uintAt 8 m.body 4) data) := by
  refine keeps_send (by rw [hty]; rfl) (by decide) fun n hn => ?_
  obtain ⟨hle, hdata⟩ := hlength n hn
  rw [List.length_append, leBytes_length, List.length_drop]
  omega

theorem keeps_lookupLast (hb : ∀ n, bound = some n → 4096 ≤ n) (isLast : Bool) (path : String) :
    Keeps bound m (fun _ => True) (lookupLast isLast path) := by
  unfold lookupLast
  split
  · exact (keeps_request hb rfl (by decide) _ _).bind fun _ _ => keeps_pure trivial
  · exact keeps_pure trivial

theorem keeps_walkNames (hb : ∀ n, bound = some n → 4096 ≤ n) (body : Bytes) (left : ℕ) (w : Walk) :
    Keeps bound m (fun w' => w'.wqids.length = w.wqids.length + left) (walkNames body left w) := by
  induction left generalizing w with
  | zero => exact keeps_pure rfl
  | succ left ih =>
      rw [walkNames_succ]
      split
      · exact keeps_throw (shortError_of_le hb (by decide))
      split
      · exact keeps_throw (shortError_of_le hb (by decide))
      refine (keeps_lookupLast hb _ _).bind fun _ _ => ?_
      refine (keeps_locked _ (by simp)).bind fun qid _ => ?_
      have hrest := ih ⟨w.offset + 2 + uintAt 2 body w.offset,
        joinPath w.curPath (nameAt body w.offset), qid,
        w.wqids ++ [⟨qidType (dotName (nameAt body w.offset)), 0, qid⟩], dotName (nameAt body w.offset)⟩
      refine wp_mono (observed_monotone _ _ _) _ ?_ _ hrest
      intro r _ hr
      cases r with
      | ok w' =>
          change w'.wqids.length = (w.wqids ++ [_]).length + left at hr
          rw [List.length_append, List.length_singleton] at hr
          change w'.wqids.length = _
          omega
      | error e => exact hr

theorem keeps_releaseFid (entry : Option FidEntry) :
    Keeps bound m (fun _ => True) (releaseFid entry) := by
  cases entry with
  | none => exact keeps_pure trivial
  | some e => exact ⟨⟨nofun, nofun⟩, fun _ _ => trivial⟩

variable (hb : ∀ n, bound = some n → 4096 ≤ n) (tag : UInt16)
include hb

theorem keeps_handleVersion (hty : m.ty = TVERSION) :
    Keeps bound m (fun _ => True) (handleVersion tag m.body) := by
  rw [handleVersion_eq]
  split
  · exact keeps_throw (shortError_of_le hb (by decide))
  split
  · exact keeps_crash
  · next hfour _ =>
      refine (keeps_writeMsize ⟨by omega, by omega⟩).bind fun _ _ =>
        ⟨⟨?_, nofun⟩, fun _ _ => trivial⟩
      rintro _ ⟨⟩
      refine ⟨fun n hn => ?_, RVERSION, tag, _, rfl, Or.inr (by rw [hty]; rfl), fun _ => ⟨by omega, ?_⟩⟩
      · have hle := hb n hn
        have htext : (asBytes "9P2000").length = 6 := by decide
        rw [message_length, List.length_append, List.length_append, leBytes_length, leBytes_length,
          htext]
        omega
      · rw [uintAt, List.drop_zero, List.append_assoc, List.take_left' (leBytes_length 4 _)]
        exact leValue_leBytes_of_lt (by omega)

theorem keeps_handleAttach (hty : m.ty = TATTACH) :
    Keeps bound m (fun _ => True) (handleAttach tag m.body) := by
  rw [handleAttach_eq]
  split
  · exact keeps_throw (shortError_of_le hb (by decide))
  · refine (keeps_locked _ (by simp)).bind fun _ _ => ?_
    refine keeps_short hb (by rw [hty]; rfl) (by decide) ?_
    rw [encodeQid_length]
    omega

theorem keeps_handleWalk (hty : m.ty = TWALK) :
    Keeps bound m (fun _ => True) (handleWalk tag m.body) := by
  rw [handleWalk_eq]
  split
  · exact keeps_throw (shortError_of_le hb (by decide))
  split
  · exact keeps_crash
  · refine (keeps_getFid hb _).bind fun parent _ => (keeps_walkNames hb _ _ _).bind fun w hw => ?_
    refine (keeps_locked _ (by simp)).bind fun _ hroomy => ?_
    refine keeps_send (by rw [hty]; rfl) (by decide) ?_
    intro n hn
    have hfits : 9 + 13 * uintAt 2 m.body 8 ≤ n := hroomy n hn
    have hqids : (w.wqids.flatMap encodeQid).length = w.wqids.length * 13 := by
      simp [List.length_flatMap, encodeQid_length]
    rw [List.length_append, leBytes_length, hqids, hw, List.length_nil]
    omega

theorem keeps_handleOpen (hty : m.ty = TOPEN) :
    Keeps bound m (fun _ => True) (handleOpen tag m.body) := by
  rw [handleOpen_eq]
  split
  · exact keeps_throw (shortError_of_le hb (by decide))
  · refine (keeps_getFid hb _).bind fun entry _ => ?_
    refine (keeps_request hb (by split <;> rfl) (by split <;> decide) _ _).bind fun _ _ => ?_
    refine (keeps_locked _ (by simp)).bind fun _ _ => ?_
    refine (keeps_locked .readMsize (by simp)).bind fun msize _ => ?_
    refine keeps_short hb (by rw [hty]; rfl) (by decide) ?_
    have hmsize : (leBytes 4 msize).length = 4 := leBytes_length _ _
    rw [List.length_append, encodeQid_length, hmsize]
    omega

theorem keeps_handleCreate (hty : m.ty = TCREATE) :
    Keeps bound m (fun _ => True) (handleCreate tag m.body) := by
  rw [handleCreate_eq]
  split
  · exact keeps_throw (shortError_of_le hb (by decide))
  split
  · exact keeps_throw (shortError_of_le hb (by decide))
  · refine (keeps_getFid hb _).bind fun parent _ => ?_
    refine (keeps_request hb (by split <;> rfl) (by split <;> decide) _ _).bind fun _ _ => ?_
    refine (keeps_locked (.createFid _ _ _) (by simp)).bind fun qid _ => ?_
    refine keeps_short hb (by rw [hty]; rfl) (by decide) ?_
    rw [encodeQid_length]
    omega

/-- A read is the one reply whose length the answers of the router and the table decide. -/
theorem keeps_handleRead (hty : m.ty = TREAD) :
    Keeps bound m (fun _ => True) (handleRead tag m.body) := by
  rw [handleRead_eq]
  split
  · exact keeps_throw (shortError_of_le hb (by decide))
  · refine (keeps_getFid hb _).bind fun entry _ => ?_
    split
    · refine (keeps_request hb rfl (by decide) _ _).bind fun _ _ => ?_
      refine (keeps_locked (.listDir entry.path) (by simp)).bind fun es hroomy => ?_
      refine (keeps_encodeEntries es).bind fun listing hlisting => ?_
      refine (keeps_withDot _ listing).bind fun data hdata => keeps_readReply hty fun n hn => ?_
      refine ⟨hb n hn, ?_⟩
      rw [hdata, hlisting]
      exact hroomy n hn
    · refine (keeps_request hb rfl (by decide) _ _).bind fun resp hroomy => ?_
      exact keeps_readReply hty fun n hn => ⟨hb n hn, (hroomy n hn).1 rfl⟩

theorem keeps_handleWrite (hty : m.ty = TWRITE) :
    Keeps bound m (fun _ => True) (handleWrite tag m.body) := by
  rw [handleWrite_eq]
  split
  · exact keeps_throw (shortError_of_le hb (by decide))
  · refine (keeps_getFid hb _).bind fun entry _ => ?_
    refine (keeps_request hb rfl (by decide) _ _).bind fun _ _ => ?_
    refine keeps_short hb (by rw [hty]; rfl) (by decide) ?_
    rw [leBytes_length]
    omega

theorem keeps_handleClunk (hty : m.ty = TCLUNK) :
    Keeps bound m (fun _ => True) (handleClunk tag m.body) := by
  rw [handleClunk_eq]
  split
  · exact keeps_throw (shortError_of_le hb (by decide))
  · refine (keeps_locked _ (by simp)).bind fun entry _ => ?_
    refine (keeps_releaseFid entry).bind fun _ _ => ?_
    exact (keeps_locked _ (by simp)).bind fun _ _ =>
      keeps_short hb (by rw [hty]; rfl) (by decide) (Nat.zero_le _)

theorem keeps_handleRemove (hty : m.ty = TREMOVE) :
    Keeps bound m (fun _ => True) (handleRemove tag m.body) := by
  rw [handleRemove_eq]
  split
  · exact keeps_throw (shortError_of_le hb (by decide))
  · refine (keeps_getFid hb _).bind fun entry _ => ?_
    refine (keeps_request hb (by split <;> rfl) (by split <;> decide) _ _).bind fun _ _ => ?_
    exact keeps_short hb (by rw [hty]; rfl) (by decide) (Nat.zero_le _)

theorem keeps_handleStat (hty : m.ty = TSTAT) :
    Keeps bound m (fun _ => True) (handleStat tag m.body) := by
  rw [handleStat_eq]
  split
  · exact keeps_throw (shortError_of_le hb (by decide))
  · refine (keeps_getFid hb _).bind fun entry _ => ?_
    refine (keeps_request hb rfl (by decide) _ _).bind fun resp hroomy => ?_
    refine (keeps_encodeStat _ _ _ _).bind fun stat hstat => keeps_send (by rw [hty]; rfl) (by decide) ?_
    intro n hn
    have hfits := (hroomy n hn).2 rfl
    rw [List.length_append, leBytes_length, hstat]
    omega

theorem keeps_wstatScript (fid : UInt32) (entry : FidEntry) (stat : Bytes) :
    Keeps bound m (fun _ => True) (wstatScript fid entry stat) := by
  unfold wstatScript
  split
  · exact (keeps_request hb rfl (by decide) _ _).bind fun _ _ =>
      (keeps_locked (.renameFid _ _ _) (by simp)).bind fun _ _ => keeps_pure trivial
  · split
    · exact (keeps_request hb rfl (by decide) _ _).bind fun _ _ => keeps_pure trivial
    · exact keeps_pure trivial

theorem keeps_handleWstat (hty : m.ty = TWSTAT) :
    Keeps bound m (fun _ => True) (handleWstat tag m.body) := by
  have hreply : Keeps bound m (fun _ => True) (sendReply RWSTAT tag []) :=
    keeps_short hb (by rw [hty]; rfl) (by decide) (Nat.zero_le _)
  rw [handleWstat_eq]
  split
  · exact keeps_throw (shortError_of_le hb (by decide))
  · refine (keeps_getFid hb _).bind fun entry _ => ?_
    split
    · exact keeps_throw (shortError_of_le hb (by decide))
    split
    · exact hreply
    · exact (keeps_wstatScript hb _ _ _).bind fun _ _ => hreply

omit tag in
theorem shortError_unknown (ty : UInt8) :
    ShortError bound ("unknown message type: " ++ toString ty.toNat) := by
  have hdigits : ∀ n < 256, (asBytes (toString n)).length ≤ 3 := by decide +kernel
  apply shortError_of_le hb
  have htext : (asBytes "unknown message type: ").length = 22 := by decide
  have htype := hdigits ty.toNat ty.toNat_lt
  rw [asBytes_append, List.length_append, htext]
  omega

omit tag in
theorem keeps_handleMessage : Keeps bound m (fun _ => True) (handleMessage m) := by
  unfold handleMessage
  split
  · next hty => exact keeps_handleVersion hb _ hty
  · next hty => exact keeps_handleAttach hb _ hty
  · next hty => exact keeps_handleWalk hb _ hty
  · next hty => exact keeps_handleOpen hb _ hty
  · next hty => exact keeps_handleRead hb _ hty
  · next hty => exact keeps_handleWrite hb _ hty
  · next hty => exact keeps_handleClunk hb _ hty
  · next hty => exact keeps_handleCreate hb _ hty
  · next hty => exact keeps_handleRemove hb _ hty
  · next hty => exact keeps_handleStat hb _ hty
  · next hty => exact keeps_handleWstat hb _ hty
  · next hty => exact keeps_short hb (by rw [hty]; rfl) (by decide) (Nat.zero_le _)
  · exact keeps_throw (shortError_unknown hb _)

omit tag in
/-- An error is replied with as much of its text as a 16-bit length can count. -/
theorem sizes_serveMessage : wp (sizes bound m) (serveMessage m) (fun _ _ => True) () := by
  unfold serveMessage
  rw [wp_bind]
  refine wp_mono (observed_monotone _ _ _) _ ?_ _ (keeps_handleMessage hb)
  intro r _ hr
  cases r with
  | ok _ => trivial
  | error e =>
      refine ⟨⟨?_, nofun⟩, fun _ _ => trivial⟩
      rintro _ ⟨⟩
      refine ⟨fun n hn => ?_, RERROR, m.tag, _, rfl, Or.inl rfl, fun h => absurd h (by decide)⟩
      have hshort : 9 + (asBytes e).length ≤ n := hr n hn
      rw [message_length, errorBody, List.length_append, leBytes_length, List.length_take]
      omega

end

/-! ## Turns and sizes -/

/-- Every reply of a turn is of the right type, and is short if the answers are roomy. -/
theorem turn_sized {m : Message} {h : List (Answered ninep)} {q : Prog ninep Unit}
    (hp : Passes (serveMessage m) h q) (bound : Option ℕ) (hb : ∀ n, bound = some n → 4096 ≤ n)
    (hroomy : ∀ n, bound = some n → ∀ e ∈ h, Roomy n m e) : ∀ e ∈ h, Sized bound m e.op := by
  intro e he
  obtain ⟨before, after, rfl⟩ := List.append_of_mem he
  exact hp.guaranteed (fun e' he' n hn => hroomy n hn e' (List.mem_append_left _ he'))
    (sizes_serveMessage hb)

/-- An Rversion answers a Tversion with its proposal put into the limits. -/
theorem rversion_of_turn {x : Turn} {q : Prog ninep Unit}
    (hp : Passes (serveMessage x.message) x.history q) {msg : Bytes} (hmsg : msg ∈ x.replies) {n : ℕ}
    (hn : rversionSize msg = some n) : x.message.ty = TVERSION ∧ 4 ≤ x.message.body.length ∧
      n = max 4096 (min (uintAt 4 x.message.body 0) 65536) := by
  obtain ⟨e, he, hop⟩ := mem_replies.mp hmsg
  obtain ⟨_, ty, tag, body, rfl, hty, hversion⟩ :=
    (turn_sized hp none nofun nofun e he).reply msg hop
  rw [rversionSize_message] at hn
  split at hn
  · next hrversion =>
      obtain ⟨hfour, hclamp⟩ := hversion hrversion
      refine ⟨?_, hfour, by rw [← Option.some.inj hn, hclamp]⟩
      rcases hty with rfl | hty
      · cases hrversion
      · have hsucc : x.message.ty + 1 = TVERSION + 1 := by
          rw [← hty, hrversion]
          rfl
        exact (UInt8.add_left_inj 1).mp hsucc
  · cases hn

theorem negotiated_bounds {ms : List Message} {h : List (Answered ninep)} {xs ys : List Turn}
    (hxs : Turns ms h xs) (hys : ∀ y ∈ ys, y ∈ xs) {n : ℕ} (hn : negotiated ys = some n) :
    4096 ≤ n ∧ n ≤ 65536 := by
  obtain ⟨y, hy, msg, hmsg, hsize⟩ := negotiated_mem hn
  obtain ⟨q, hp⟩ := hxs.passes y (hys y hy)
  obtain ⟨_, _, rfl⟩ := rversion_of_turn hp hmsg hsize
  omega

/-- Every Tversion proposes at least 4096, and the answers behind an Rversion are roomy. -/
def Moderate (xs : List Turn) : Prop :=
  ∀ ys x zs, xs = ys ++ x :: zs →
    (x.message.ty = TVERSION → 4 ≤ x.message.body.length → 4096 ≤ uintAt 4 x.message.body 0) ∧
    ∀ n, negotiated ys = some n → ∀ e ∈ x.history, Roomy n x.message e

/-- No Rversion exceeds its proposal, and no reply behind it its size. -/
def Respected (xs : List Turn) : Prop :=
  ∀ ys x zs, xs = ys ++ x :: zs → ∀ msg ∈ x.replies,
    (∀ n, rversionSize msg = some n → n ≤ uintAt 4 x.message.body 0) ∧
    ∀ n, negotiated ys = some n → msg.length ≤ n

/-- In every run, the replies of a connection respect the negotiated size as long as its
proposals are not below the limit of the server and the answers are roomy. -/
theorem replies_respect_msize {ι : Type} [DecidableEq ι] (msgs : ι → List Message)
    (t : List (Event ninep ι)) (c : Config ninep ι Shared)
    (run : Run (semantics anyRouter) (listener msgs) t c) (i : ι) :
    (∃ xs, Turns (msgs i) (own i t) xs) ∧
    ∀ xs, Turns (msgs i) (own i t) xs → Moderate xs → Respected xs := by
  refine ⟨turns_of_passes (run_passes run i), ?_⟩
  intro xs hxs hmoderate ys x zs hsplit msg hmsg
  obtain ⟨hproposal, hroomy⟩ := hmoderate ys x zs hsplit
  have hx : x ∈ xs := by rw [hsplit]; simp
  obtain ⟨q, hp⟩ := hxs.passes x hx
  constructor
  · intro n hn
    obtain ⟨hty, hfour, rfl⟩ := rversion_of_turn hp hmsg hn
    have hle := hproposal hty hfour
    omega
  · have hb : ∀ n, negotiated ys = some n → 4096 ≤ n := fun n hn =>
      (negotiated_bounds hxs (fun y hy => by rw [hsplit]; exact List.mem_append_left _ hy) hn).1
    obtain ⟨e, he, hop⟩ := mem_replies.mp hmsg
    exact ((turn_sized hp _ hb hroomy e he).reply msg hop).1

/-! ## A file on a small connection -/

theorem passes_next {m : Message} {ms : List Message} {h k : List (Answered ninep)}
    {q : Prog ninep Unit} (hp : Passes (serveMessage m) h (.done ()))
    (hq : Passes (serveAll ms) k q) : Passes (serveAll (m :: ms)) (h ++ k) q := hp.bind hq

def versioning (n : ℕ) : List (Answered ninep) :=
  [⟨.locked (.writeMsize n), ()⟩,
    ⟨.send (message RVERSION 0 (leBytes 4 n ++ leBytes 2 6 ++ asBytes "9P2000")), ()⟩]

theorem passes_versioning : Passes ((Call.version 4096).served 0).run (versioning 4096)
    (.done (.ok ())) := .answer _ _ _ (.answer _ _ _ (.refl _))

/-- A client that reads the file `a` over messages of 4096 bytes. -/
def smallClient : List Message :=
  [(Call.version 4096).message, (Call.attach 1 NOFID).message, (Call.walk 1 4 ["a"]).message,
    (Call.read 4 0 8192).message]

def attachTurn : Turn :=
  ⟨(Call.attach 1 NOFID).message, attaching ++ [⟨.send (message RATTACH 0 attachReply), ()⟩]⟩

def walkTurn : Turn :=
  ⟨(Call.walk 1 4 ["a"]).message, walking ++ [⟨.send (message RWALK 0 walkReply), ()⟩]⟩

/-- The fid need not be open to be read. -/
def readingUnopened (data : Bytes) : List (Answered ninep) :=
  [⟨.locked (.getFid 4), some (⟨1, "/a", false, false⟩ : FidEntry)⟩,
    ⟨.route ⟨.read, "/a", []⟩, .reply (.ok ⟨data, none, false⟩)⟩]

theorem passes_readingUnopened (data : Bytes) : Passes ((Call.read 4 0 8192).served 0).run
    (readingUnopened data ++ [⟨.send (message RREAD 0 (readBody data)), ()⟩]) (.done (.ok ())) :=
  .answer _ _ _ (.answer _ _ _ (.answer _ _ _ (.refl _)))

def readTurn (data : Bytes) : Turn :=
  ⟨(Call.read 4 0 8192).message,
    readingUnopened data ++ [⟨.send (message RREAD 0 (readBody data)), ()⟩]⟩

def smallTurns (data : Bytes) : List Turn :=
  [⟨(Call.version 4096).message, versioning 4096⟩, attachTurn, walkTurn, readTurn data]

theorem turns_small (data : Bytes) :
    Turns smallClient ((smallTurns data).flatMap Turn.history) (smallTurns data) :=
  .served (passes_served (by decide) passes_versioning)
    (.served (passes_served (by decide) passes_attaching)
      (.served (passes_served (by decide) passes_walking)
        (.served (passes_served (by decide) (passes_readingUnopened data)) (.idle []))))

theorem run_small (data : Bytes) : ∃ t c, Run (semantics anyRouter)
    (listener fun _ : Unit => smallClient) t c ∧
    own () t = (smallTurns data).flatMap Turn.history := by
  have hp : Passes (serveAll smallClient) ((smallTurns data).flatMap Turn.history) (.done ()) :=
    passes_next (passes_served (by decide) passes_versioning)
      (passes_next (passes_served (by decide) passes_attaching)
        (passes_next (passes_served (by decide) passes_walking)
          (passes_next (passes_served (by decide) (passes_readingUnopened data)) (.refl _))))
  have hs : ∃ s, Performs (semantics anyRouter) Shared.new
      ((smallTurns data).flatMap Turn.history) s :=
    ⟨_, .answer _ _ (semantics_exec _ _) (.answer _ _ rfl
      (.answer _ _ (semantics_exec _ _) (.answer _ _ rfl
      (.answer _ _ (semantics_exec _ _) (.answer _ _ ⟨trivial, rfl⟩
      (.answer _ _ (semantics_exec _ _) (.answer _ _ (semantics_exec _ _) (.answer _ _ rfl
      (.answer _ _ (semantics_exec _ _) (.answer _ _ ⟨trivial, rfl⟩ (.answer _ _ rfl
      (.refl _))))))))))))⟩
  obtain ⟨s, hs⟩ := hs
  exact ⟨_, _, hp.run () hs rfl, own_alone () _⟩

theorem moderate_small {data : Bytes} (hdata : data.length ≤ 4085) : Moderate (smallTurns data) := by
  intro ys x zs hsplit
  have hx : x ∈ smallTurns data := by rw [hsplit]; simp
  have hys : ∀ y ∈ ys, y ∈ smallTurns data := by
    intro y hy
    rw [hsplit]
    exact List.mem_append_left _ hy
  simp only [smallTurns, List.mem_cons, List.not_mem_nil, or_false] at hx
  rcases hx with rfl | rfl | rfl | rfl
  · refine ⟨fun _ _ => by decide, fun n hn => ?_⟩
    exact List.forall_mem_cons.mpr ⟨trivial, List.forall_mem_singleton.mpr trivial⟩
  · refine ⟨fun h => absurd h (by decide), fun n hn e he => ?_⟩
    simp only [attachTurn, attaching, List.cons_append, List.nil_append, List.mem_cons,
      List.not_mem_nil, or_false] at he
    rcases he with rfl | rfl <;> trivial
  · refine ⟨fun h => absurd h (by decide), fun n hn e he => ?_⟩
    obtain ⟨hle, _⟩ := negotiated_bounds (turns_small data) hys hn
    simp only [walkTurn, walking, List.cons_append, List.nil_append, List.mem_cons,
      List.not_mem_nil, or_false] at he
    rcases he with rfl | rfl | rfl | rfl | rfl
    · trivial
    · exact ⟨fun h => absurd h (by decide), fun h => absurd h (by decide)⟩
    · trivial
    · have hcount : uintAt 2 (Call.walk 1 4 ["a"]).message.body 8 = 1 := by decide
      change 9 + 13 * uintAt 2 (Call.walk 1 4 ["a"]).message.body 8 ≤ n
      omega
    · trivial
  · have hty : (readTurn data).message.ty = TREAD := rfl
    refine ⟨fun h => absurd (hty.symm.trans h) (by decide), fun n hn e he => ?_⟩
    obtain ⟨hle, _⟩ := negotiated_bounds (turns_small data) hys hn
    simp only [readTurn, readingUnopened, List.cons_append, List.nil_append, List.mem_cons,
      List.not_mem_nil, or_false] at he
    rcases he with rfl | rfl | rfl
    · trivial
    · refine ⟨fun _ => ?_, fun h => absurd h (by decide)⟩
      change data.length ≤ _
      omega
    · trivial

/-- A short file is read within the negotiated size. -/
theorem replies_respect_msize_short : Respected (smallTurns [97, 98]) := by
  obtain ⟨t, c, run, hown⟩ := run_small [97, 98]
  have hall := (replies_respect_msize _ t c run ()).2 (smallTurns [97, 98])
  rw [hown] at hall
  exact hall (turns_small _) (moderate_small (by decide))

/-- A file of 5000 bytes is returned whole over messages of 4096 bytes. -/
theorem msize_not_respected : ¬ ∀ (msgs : Unit → List Message) (t : List (Event ninep Unit))
    (c : Config ninep Unit Shared), Run (semantics anyRouter) (listener msgs) t c →
    ∀ xs, Turns (msgs ()) (own () t) xs → Respected xs := by
  intro h
  obtain ⟨data, hdata⟩ : ∃ data : Bytes, data.length = 5000 :=
    ⟨List.replicate 5000 0, List.length_replicate ..⟩
  obtain ⟨t, c, run, hown⟩ := run_small data
  have hall := h _ t c run (smallTurns data)
  rw [hown] at hall
  have hread := hall (turns_small data) [_, _, _] (readTurn data) [] rfl
    (message RREAD 0 (readBody data)) (mem_replies.mpr ⟨_, List.mem_append_right _
      (List.mem_singleton_self _), rfl⟩)
  have hlong := hread.2 4096 rfl
  rw [message_length, readBody, List.length_append, leBytes_length, hdata] at hlong
  omega

end Pinhead.MessageSizes
