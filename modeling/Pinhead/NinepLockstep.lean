import Pinhead.NinepCalls
import Pinhead.NinepClient

/-!
# Client and server in step

The client writes a message, the connection loop handles it, and the client reads a
header and as many bytes as the header says. A conversation is any number of such
exchanges over two byte streams. The server may have come to any point when the client
reads, its operations are answered in any way at all, and what the client leaves unread
stays in the stream for its next exchange.

Every handler sends one message, last. The client therefore reads the reply to its own
request, except where the length of a reply does not fit its 32-bit size field.
-/
namespace Pinhead.NinepLockstep
open ByteStrings ByteStreams FsRequests Resumption Histories NinepShared NinepHandlers NinepRuns
open NinepTotality NinepDatagrams NinepConnections NinepScripts StatRecords NinepClient NinepCalls

/-! ## Conversations -/

def written (h : List (Answered ninep)) : Bytes :=
  h.flatMap fun e => match e.op with
    | .send msg => msg
    | _ => []

/-- What the client makes of the bytes that are there: what it returns, and what stays
unread. It waits for more, or goes down, where there is no value. -/
def receive (unread : Bytes) : Option (Except String Bytes × Bytes) := do
  let header ← slice unread 0 7
  let bodyLen := leValue (header.take 4) - 7
  let resp ← slice unread 7 (7 + bodyLen)
  let rest := unread.drop (7 + bodyLen)
  if (header.drop 4).headD 0 = RERROR then do
    let errLen ← slice resp 0 2
    let err ← slice resp 2 (2 + leValue errLen)
    some (.error ("9p error: " ++ fromUtf8Lossy err), rest)
  else some (.ok resp, rest)

structure Link where
  server : Prog ninep Unit
  unread : Bytes

/-- One message of the client, what the server did from then until the client had read
its reply, and what the client returned. -/
structure Exchange where
  call : Call
  history : List (Answered ninep)
  result : Except String Bytes

inductive Conversation : Link → List Exchange → Link → Prop
  | refl (l : Link) : Conversation l [] l
  | exchange {l l' : Link} {k : List Exchange} (c : Call) {h : List (Answered ninep)}
      {server : Prog ninep Unit} {r : Except String Bytes} {rest : Bytes} :
      Passes (l.server >>= fun _ =>
        runConnection handleMessage sendError Source.contiguous (encodeMessage c.message)) h server →
      receive (l.unread ++ written h) = some (r, rest) → Conversation ⟨server, rest⟩ k l' →
      Conversation l (⟨c, h, r⟩ :: k) l'

/-- A connection on which nothing has been sent yet. -/
def Link.new : Link := ⟨.done (), []⟩

/-! ## Outcomes -/

inductive Outcome where
  | replied (body : Bytes)
  | failed (e : String)

def Silence (h : List (Answered ninep)) : Prop := ∀ e ∈ h, ∀ msg, e.op ≠ .send msg

/-- The handler for the message has run to its end with this outcome, and the outcome
was sent as the one message. -/
inductive Ended (c : Call) : List (Answered ninep) → Outcome → Prop
  | replied {h : List (Answered ninep)} (ty : UInt8) (body : Bytes) :
      Passes (handleMessage c.message).run (h ++ [⟨.send (message ty 0 body), ()⟩])
        (.done (.ok ())) → Silence h →
      Ended c (h ++ [⟨.send (message ty 0 body), ()⟩]) (.replied body)
  | failed {h : List (Answered ninep)} (e : String) :
      Passes (handleMessage c.message).run h (.done (.error e)) → Silence h →
      Ended c (h ++ [⟨.send (message RERROR 0 (errorBody e)), ()⟩]) (.failed e)

/-- The error text as it reaches the client. -/
def errorText (e : String) : String := fromUtf8Lossy ((asBytes e).take 65535)

def Outcome.returned : Outcome → Except String Bytes
  | .replied body => .ok body
  | .failed e => .error ("9p error: " ++ errorText e)

/-- The client returned the outcome of its own request. -/
def Exchange.InStep (x : Exchange) : Prop :=
  ∃ o, Ended x.call x.history o ∧ x.result = o.returned

/-! ## Replies that fit their size field -/

/-- The bytes that a directory read at `offset` puts together. -/
def directoryBytes (offset : ℕ) (es : List DirEntry) : ℕ :=
  (if offset = 0 then 53 else 0) + (es.map fun e => 52 + (asBytes e.name).length).sum

/-- The answers whose data make a reply of less than 2^32 bytes. -/
def Fitting (offset : ℕ) : Answered ninep → Prop
  | ⟨.route ⟨.read, _, _⟩, .reply (.ok r)⟩ => r.data.length < offset + (2 ^ 32 - 11)
  | ⟨.route ⟨.getAttr, path, _⟩, .reply (.ok _)⟩ => (asBytes (statName path)).length < 2 ^ 32 - 61
  | ⟨.locked (.listDir _), es⟩ =>
      directoryBytes offset (show List DirEntry from es) < offset + (2 ^ 32 - 11)
  | _ => True

/-- Where the call reads from. -/
def offset : Call → ℕ
  | .read _ off _ => off.toNat
  | _ => 0

def Exchange.Fits (x : Exchange) : Prop := ∀ e ∈ x.history, Fitting (offset x.call) e

/-- How far the handling of a message has come. -/
@[ext] structure Progress where
  reply : Option Bytes
  fits : Prop

def Progress.note (off : ℕ) (t : Progress) (e : Answered ninep) : Progress where
  reply := match e.op with
    | .send msg => some msg
    | _ => t.reply
  fits := t.fits ∧ Fitting off e

/-- Nothing is done once the reply is sent, and its length fits if all the answers do. -/
abbrev progress (off : ℕ) : Spec ninep Progress :=
  observed (Progress.note off) (fun _ _ => True) fun t o => t.reply = none ∧
    ∀ msg, o = .send msg → (msg.length < 2 ^ 32 ↔ t.fits)

/-- A handler that succeeds has replied, and one that fails has not. -/
def Finished : Except String Unit → Progress → Prop
  | .ok _, t => ∃ ty body, ty ≠ RERROR ∧ t.reply = some (message ty 0 body)
  | .error _, t => t.reply = none ∧ t.fits

/-- The steps leave the progress as it is, and return a value with `P`. -/
def Sure {A : Type} (off : ℕ) (P : A → Prop) (x : Handler A) : Prop :=
  ∀ (Q : Except String A → Progress → Prop) (t : Progress), t.reply = none →
    (∀ a, P a → Q (.ok a) t) → wp (progress off) x.run Q t

/-- The steps leave the progress as it is, and return a value with `P` or fail. -/
def Mute {A : Type} (off : ℕ) (P : A → Prop) (x : Handler A) : Prop :=
  ∀ (Q : Except String A → Progress → Prop) (t : Progress), t.reply = none →
    (∀ a, P a → Q (.ok a) t) → (∀ e, Q (.error e) t) → wp (progress off) x.run Q t

/-- The rest of a handler, where the answers so far fit exactly if `S`. -/
def Finishes (off : ℕ) (S : Prop) (x : Handler Unit) : Prop :=
  wp (progress off) x.run Finished ⟨none, S⟩

section
variable {A B : Type} {off : ℕ} {S : Prop} {P : A → Prop} {R : B → Prop}

theorem note_other (t : Progress) {e : Answered ninep} (hsend : ∀ msg, e.op ≠ .send msg)
    (hfit : Fitting off e) : t.note off e = t := by
  have hreply : (t.note off e).reply = t.reply := by
    unfold Progress.note
    dsimp only
    split
    · next msg hop => exact absurd hop (hsend msg)
    · rfl
  have hfits : (t.note off e).fits = t.fits := propext ⟨And.left, fun h => ⟨h, hfit⟩⟩
  exact Progress.ext hreply hfits

/-- An operation that sends nothing and whose every answer fits. -/
theorem sure_perform {o : Op} (hsend : ∀ msg, o ≠ .send msg)
    (hfit : ∀ r, Fitting off ⟨o, r⟩) :
    Sure off (fun _ => True) (liftM (Prog.perform (S := ninep) o) : Handler (Op.Ret o)) := by
  intro Q t ht hok
  refine ⟨⟨ht, fun msg h => absurd h (hsend msg)⟩, fun r _ => ?_⟩
  rw [note_other t hsend (hfit r)]
  exact hok r trivial

theorem Sure.mute {x : Handler A} (hx : Sure off P x) : Mute off P x :=
  fun Q t ht hok _ => hx Q t ht hok

theorem Sure.bind {x : Handler A} {f : A → Handler B} (hx : Sure off P x)
    (hf : ∀ a, P a → Sure off R (f a)) : Sure off R (x >>= f) := by
  intro Q t ht hok
  rw [wp_run_bind]
  exact hx _ t ht fun a ha => hf a ha Q t ht hok

theorem Mute.bind {x : Handler A} {f : A → Handler B} (hx : Mute off P x)
    (hf : ∀ a, P a → Mute off R (f a)) : Mute off R (x >>= f) := by
  intro Q t ht hok herr
  rw [wp_run_bind]
  exact hx _ t ht (fun a ha => hf a ha Q t ht hok herr) herr

theorem sure_pure {a : A} (ha : P a) : Sure off P (pure a : Handler A) :=
  fun _ _ _ hok => hok a ha

theorem mute_throw (e : String) : Mute off P (throw e : Handler A) :=
  fun _ _ _ _ herr => herr e

theorem Sure.finishes {x : Handler A} {f : A → Handler Unit} (hx : Sure off P x)
    (hf : ∀ a, P a → Finishes off S (f a)) : Finishes off S (x >>= f) := by
  unfold Finishes
  rw [wp_run_bind]
  exact hx _ _ rfl hf

theorem Mute.finishes {x : Handler A} {f : A → Handler Unit} (hx : Mute off P x)
    (hf : ∀ a, P a → Finishes off True (f a)) : Finishes off True (x >>= f) := by
  unfold Finishes
  rw [wp_run_bind]
  exact hx _ _ rfl hf fun e => ⟨rfl, trivial⟩

theorem sure_locked {c : Critical} (h : ∀ dir, c ≠ .listDir dir) :
    Sure off (fun _ => True) (locked c) := by
  refine sure_perform (o := .locked c) nofun fun r => ?_
  cases c with
  | listDir dir => exact absurd rfl (h dir)
  | _ => trivial

theorem mute_getFid (fid : UInt32) : Mute off (fun _ => True) (NinepHandlers.getFid fid) := by
  refine (sure_locked (c := .getFid fid) nofun).mute.bind fun r _ => ?_
  cases r with
  | none => exact mute_throw _
  | some e => exact (sure_pure trivial).mute

theorem sure_route (req : Request) (hread : req.op ≠ .read) (hattr : req.op ≠ .getAttr) :
    Sure off (fun _ => True)
      (liftM (Prog.perform (S := ninep) (.route req)) : Handler Answer) := by
  refine sure_perform (o := .route req) nofun fun r => ?_
  obtain ⟨op, path, data⟩ := req
  cases op with
  | read => exact absurd rfl hread
  | getAttr => exact absurd rfl hattr
  | _ => trivial

theorem mute_request {what : String} {op : FsOperation} {path : String} {data : Bytes}
    (hread : op ≠ .read) (hattr : op ≠ .getAttr) :
    Mute off (fun _ => True) (request what op path data) := by
  refine (sure_route ⟨op, path, data⟩ hread hattr).mute.bind fun a _ => ?_
  match a with
  | .routerGone => exact mute_throw _
  | .handlerGone => exact mute_throw _
  | .reply (.error e) => exact mute_throw _
  | .reply (.ok r) => exact (sure_pure trivial).mute

theorem sure_encodeStat (name : String) (qid : Qid) (length : ℕ) (isDir : Bool) :
    Sure off (fun bs => bs.length = 52 + (asBytes name).length)
      (encodeStat name qid length isDir) := by
  refine (sure_perform (o := .now) nofun fun _ => trivial).bind fun now _ => ?_
  exact sure_pure (statBytes_length ..)

theorem sure_encodeEntries (es : List DirEntry) :
    Sure off (fun bs => bs.length = (es.map fun e => 52 + (asBytes e.name).length).sum)
      (encodeEntries es) := by
  induction es with
  | nil => exact sure_pure rfl
  | cons e es ih =>
      refine (sure_encodeStat _ _ _ _).bind fun stat hstat => ih.bind fun rest hrest => ?_
      apply sure_pure
      rw [List.length_append, hstat, hrest, List.map_cons, List.sum_cons]

theorem sure_withDot (offset : ℕ) (data : Bytes) :
    Sure off (fun bs => bs.length = (if offset = 0 then 53 else 0) + data.length)
      (withDot offset data) := by
  unfold withDot
  split
  · refine (sure_encodeStat _ _ _ _).bind fun dot hdot => sure_pure ?_
    rw [List.length_append, hdot]
    rfl
  · exact sure_pure (Nat.zero_add _).symm

/-- The reply is the last operation, and its length settles whether the answers fit. -/
theorem finishes_send {ty : UInt8} {body : Bytes} (hty : ty ≠ RERROR)
    (hlength : body.length < 2 ^ 32 - 7 ↔ S) : Finishes off S (sendReply ty 0 body) := by
  refine ⟨⟨rfl, ?_⟩, fun r _ => ⟨ty, body, hty, rfl⟩⟩
  intro msg hmsg
  obtain rfl := Op.send.inj hmsg
  have hsize : (message ty 0 body).length = 7 + body.length := by
    simp [message]
    omega
  rw [hsize, ← hlength]
  omega

theorem finishes_readReply {data : Bytes} (hlength : data.length < off + (2 ^ 32 - 11) ↔ S) :
    Finishes off S (readReply 0 off data) := by
  apply finishes_send (by decide)
  rw [List.length_append, leBytes_length, List.length_drop, ← hlength]
  omega

/-- A directory is listed in one piece: what the table holds decides the length. -/
theorem finishes_listed (path : String) : Finishes off True (listed 0 off path) := by
  refine (mute_request (by simp) (by simp)).finishes fun _ _ => ?_
  refine ⟨⟨rfl, nofun⟩, fun es _ => ?_⟩
  change Finishes off (True ∧ Fitting off ⟨.locked (.listDir path), es⟩) _
  refine (sure_encodeEntries es).finishes fun listing hlisting => ?_
  refine (sure_withDot off listing).finishes fun data hdata => ?_
  apply finishes_readReply
  rw [hdata, hlisting, true_and]
  rfl

theorem finishes_file (path : String) : Finishes off True (do
    let resp ← request "read" .read path []
    readReply 0 off resp.data) := by
  refine ⟨⟨rfl, nofun⟩, fun a _ => ?_⟩
  match a with
  | .routerGone => exact ⟨rfl, trivial, trivial⟩
  | .handlerGone => exact ⟨rfl, trivial, trivial⟩
  | .reply (.error e) => exact ⟨rfl, trivial, trivial⟩
  | .reply (.ok r) =>
      change Finishes off (True ∧ _) (readReply 0 off r.data)
      apply finishes_readReply
      rw [true_and]
      rfl

theorem finishes_stat (e : FidEntry) : Finishes off True (do
    let resp ← request "getattr" .getAttr e.path []
    let stat ← encodeStat (statName e.path) ⟨qidType e.isDir, 0, e.qid⟩ resp.data.length e.isDir
    sendReply RSTAT 0 (leBytes 2 stat.length ++ stat)) := by
  refine ⟨⟨rfl, nofun⟩, fun a _ => ?_⟩
  match a with
  | .routerGone => exact ⟨rfl, trivial, trivial⟩
  | .handlerGone => exact ⟨rfl, trivial, trivial⟩
  | .reply (.error e) => exact ⟨rfl, trivial, trivial⟩
  | .reply (.ok r) =>
      change Finishes off (True ∧ (asBytes (statName e.path)).length < 2 ^ 32 - 61) (do
        let stat ← encodeStat (statName e.path) ⟨qidType e.isDir, 0, e.qid⟩ r.data.length e.isDir
        sendReply RSTAT 0 (leBytes 2 stat.length ++ stat))
      refine (sure_encodeStat _ _ _ _).finishes fun stat hstat => ?_
      apply finishes_send (by decide)
      rw [List.length_append, leBytes_length, hstat, true_and]
      omega

theorem mute_lookupLast (isLast : Bool) (path : String) :
    Mute off (fun _ => True) (lookupLast isLast path) := by
  unfold lookupLast
  split
  · exact (mute_request (by simp) (by simp)).bind fun _ _ => (sure_pure trivial).mute
  · exact (sure_pure trivial).mute

theorem mute_walkTo (names : List String) (w : Walk) :
    Mute off (fun w' => w'.wqids.length = w.wqids.length + names.length) (walkTo names w) := by
  induction names generalizing w with
  | nil => exact fun Q t ht hok _ => hok w rfl
  | cons name names ih =>
      refine (mute_lookupLast _ _).bind fun _ _ => ?_
      refine (sure_locked (c := .allocQid _ _) nofun).mute.bind fun qid _ => ?_
      intro Q t ht hok herr
      refine ih _ Q t ht (fun w' hw' => hok w' ?_) herr
      rw [List.length_append, List.length_singleton] at hw'
      rw [List.length_cons]
      omega

theorem sure_releaseFid (entry : Option FidEntry) :
    Sure off (fun _ => True) (releaseFid entry) := by
  cases entry with
  | none => exact sure_pure trivial
  | some e => exact (sure_route _ (by simp) (by simp)).bind fun _ _ => sure_pure trivial

/-- A short reply fits. -/
theorem finishes_short {ty : UInt8} {body : Bytes} (hty : ty ≠ RERROR)
    (hlength : body.length ≤ 2 ^ 21) : Finishes off True (sendReply ty 0 body) := by
  apply finishes_send hty
  rw [iff_true]
  omega

theorem encodeQid_length (q : Qid) : (encodeQid q).length = 13 := by simp [encodeQid]

end

theorem finishes_served {c : Call} (h : c.body.length ≤ 65536) :
    Finishes (offset c) True (c.served 0) := by
  cases c with
  | version msize =>
      refine (sure_locked (c := .writeMsize _) (by simp)).finishes fun _ _ => ?_
      apply finishes_short (by decide)
      have htext : (asBytes "9P2000").length = 6 := by decide
      rw [List.length_append, List.length_append, leBytes_length, leBytes_length, htext]
      omega
  | attach fid afid =>
      refine (sure_locked (c := .attach _) (by simp)).finishes fun _ _ => ?_
      apply finishes_short (by decide)
      rw [encodeQid_length]
      omega
  | walk fid newFid names =>
      refine (mute_getFid _).finishes fun parent _ => (mute_walkTo _ _).finishes fun w hw => ?_
      refine (sure_locked (c := .setFid _ _ _ _) (by simp)).finishes fun _ _ => ?_
      apply finishes_short (by decide)
      have hqids : (w.wqids.flatMap encodeQid).length = w.wqids.length * 13 := by
        simp [List.length_flatMap, encodeQid_length]
      obtain ⟨hcount, _⟩ := length_flatMap_counted names
      simp only [Call.body, List.length_append, leBytes_length] at h
      rw [List.length_append, leBytes_length, hqids, hw, List.length_nil]
      omega
  | openFid fid mode =>
      refine (mute_getFid _).finishes fun entry _ => ?_
      refine (mute_request (by split <;> simp) (by split <;> simp)).finishes fun _ _ => ?_
      refine (sure_locked (c := .markOpen _) (by simp)).finishes fun _ _ => ?_
      refine (sure_locked (c := .readMsize) (by simp)).finishes fun msize _ => ?_
      apply finishes_short (by decide)
      have hmsize : (leBytes 4 msize).length = 4 := leBytes_length _ _
      rw [List.length_append, encodeQid_length, hmsize]
      omega
  | create fid name perm mode =>
      refine (mute_getFid _).finishes fun parent _ => ?_
      refine (mute_request (by split <;> simp) (by split <;> simp)).finishes fun _ _ => ?_
      refine (sure_locked (c := .createFid _ _ _) (by simp)).finishes fun qid _ => ?_
      apply finishes_short (by decide)
      rw [encodeQid_length]
      omega
  | read fid off count =>
      refine (mute_getFid _).finishes fun entry _ => ?_
      split
      · exact finishes_listed _
      · exact finishes_file _
  | write fid off data =>
      refine (mute_getFid _).finishes fun entry _ => ?_
      refine (mute_request (by simp) (by simp)).finishes fun _ _ => ?_
      apply finishes_short (by decide)
      rw [leBytes_length]
      omega
  | clunk fid =>
      refine (sure_locked (c := .getFid _) (by simp)).finishes fun entry _ => ?_
      refine (sure_releaseFid entry).finishes fun _ _ => ?_
      refine (sure_locked (c := .removeFid _) (by simp)).finishes fun _ _ => ?_
      exact finishes_short (by decide) (Nat.zero_le _)
  | removeFid fid =>
      refine (mute_getFid _).finishes fun entry _ => ?_
      refine (mute_request (by split <;> simp) (by split <;> simp)).finishes fun _ _ => ?_
      exact finishes_short (by decide) (Nat.zero_le _)
  | stat fid => exact (mute_getFid _).finishes fun entry _ => finishes_stat entry

/-! ## The history of one message -/

theorem fits_foldl (off : ℕ) (h : List (Answered ninep)) (t : Progress) :
    (h.foldl (Progress.note off) t).fits ↔ t.fits ∧ ∀ e ∈ h, Fitting off e := by
  induction h generalizing t with
  | nil => simp
  | cons e h ih =>
      rw [List.foldl_cons, ih, List.forall_mem_cons]
      exact and_assoc

/-- A program that has replied has no operation left. -/
theorem nil_of_replied {A : Type} {off : ℕ} {p q : Prog ninep A} {h : List (Answered ninep)}
    {Q : A → Progress → Prop} {t : Progress} {msg : Bytes} (hp : Passes p h q)
    (ht : t.reply = some msg) (hw : wp (progress off) p Q t) : h = [] := by
  cases hp with
  | refl p => rfl
  | answer o next r _ =>
      have hnone : t.reply = none := hw.1.1
      rw [hnone] at ht
      cases ht

/-- Along a passage nothing has been sent, or one message has, by the last operation. -/
theorem reply_foldl {A : Type} {off : ℕ} {p q : Prog ninep A} {h : List (Answered ninep)}
    {Q : A → Progress → Prop} {t : Progress} (hp : Passes p h q) (ht : t.reply = none)
    (hw : wp (progress off) p Q t) :
    (Silence h ∧ (h.foldl (Progress.note off) t).reply = none) ∨
    ∃ h₀ msg, h = h₀ ++ [⟨.send msg, ()⟩] ∧ Silence h₀ ∧
      (h.foldl (Progress.note off) t).reply = some msg ∧
      (msg.length < 2 ^ 32 ↔ t.fits ∧ ∀ e ∈ h, Fitting off e) := by
  induction hp generalizing t with
  | refl p => exact Or.inl ⟨nofun, ht⟩
  | @answer o next r h q hrest ih =>
      obtain ⟨⟨_, hsize⟩, hnext⟩ := hw
      by_cases hsend : ∃ msg, o = .send msg
      · obtain ⟨msg, rfl⟩ := hsend
        obtain rfl := nil_of_replied hrest rfl (hnext r trivial)
        refine Or.inr ⟨[], msg, rfl, nofun, rfl, ?_⟩
        rw [hsize msg rfl, List.forall_mem_singleton]
        exact ⟨fun hfits => ⟨hfits, trivial⟩, And.left⟩
      · have hquiet : ∀ msg, o ≠ .send msg := fun msg hmsg => hsend ⟨msg, hmsg⟩
        have hreply : (t.note off ⟨o, r⟩).reply = none := by
          unfold Progress.note
          dsimp only
          split
          · next msg => exact absurd rfl (hquiet msg)
          · exact ht
        rcases ih hreply (hnext r trivial) with ⟨hsilent, hnone⟩ | ⟨h₀, msg, rfl, hsilent, hsome, hfits⟩
        · refine Or.inl ⟨?_, hnone⟩
          intro e he
          rcases List.mem_cons.mp he with rfl | he
          · exact hquiet
          · exact hsilent e he
        · refine Or.inr ⟨⟨o, r⟩ :: h₀, msg, rfl, ?_, hsome, ?_⟩
          · intro e he
            rcases List.mem_cons.mp he with rfl | he
            · exact hquiet
            · exact hsilent e he
          · rw [hfits, List.forall_mem_cons]
            exact and_assoc

theorem written_silent {h : List (Answered ninep)} (hs : Silence h) : written h = [] := by
  refine List.flatMap_eq_nil_iff.mpr ?_
  intro e he
  split
  · next msg hop => exact absurd hop (hs e he msg)
  · rfl

theorem written_reply {h : List (Answered ninep)} (hs : Silence h) (msg : Bytes) :
    written (h ++ [⟨.send msg, ()⟩]) = msg := by
  have hnone := written_silent hs
  unfold written at hnone ⊢
  rw [List.flatMap_append, hnone]
  simp

section
variable {c : Call} (hbody : c.body.length ≤ 65536)
include hbody

theorem finishes_message :
    wp (progress (offset c)) (handleMessage c.message).run Finished ⟨none, True⟩ := by
  rw [handleMessage_eq_served (fields_message hbody)]
  exact finishes_served hbody

/-- A handler that has succeeded has sent its reply last. -/
theorem replied_of_passes {h : List (Answered ninep)}
    (hp : Passes (handleMessage c.message).run h (.done (.ok ()))) :
    ∃ ty body, ty ≠ RERROR ∧ Ended c h (.replied body) ∧ written h = message ty 0 body ∧
      (body.length < 2 ^ 32 - 7 ↔ ∀ e ∈ h, Fitting (offset c) e) := by
  have hfinished : Finished (.ok ()) (h.foldl (Progress.note (offset c)) ⟨none, True⟩) :=
    hp.observed (fun _ _ => trivial) (finishes_message hbody)
  obtain ⟨ty, body, hty, hreply⟩ := hfinished
  rcases reply_foldl hp rfl (finishes_message hbody) with ⟨_, hnone⟩ | ⟨h₀, msg, rfl, hs, hsome, hfits⟩
  · rw [hnone] at hreply
    cases hreply
  · rw [hsome] at hreply
    obtain rfl := Option.some.inj hreply
    refine ⟨ty, body, hty, .replied ty body hp hs, written_reply hs _, ?_⟩
    have hsize : (message ty 0 body).length = 7 + body.length := by
      simp [message]
      omega
    rw [hsize, true_and] at hfits
    rw [← hfits]
    omega

/-- A client that has read something reads the reply at the end of the handling. -/
theorem ended_of_passes {h : List (Answered ninep)} {server : Prog ninep Unit}
    (hp : Passes (serveMessage c.message) h server) (hw : written h ≠ []) :
    server = .done () ∧
    ((∃ ty body, ty ≠ RERROR ∧ Ended c h (.replied body) ∧ written h = message ty 0 body ∧
        (body.length < 2 ^ 32 - 7 ↔ ∀ e ∈ h, Fitting (offset c) e)) ∨
      ∃ e, Ended c h (.failed e) ∧ written h = message RERROR 0 (errorBody e) ∧
        ∀ e ∈ h, Fitting (offset c) e) := by
  rcases passes_bind hp with ⟨p', hp', rfl⟩ | ⟨r, h₁, h₂, rfl, h₁', h₂'⟩
  · have hnow := hp'.observed (fun _ _ => trivial) (finishes_message hbody)
    rcases reply_foldl hp' rfl (finishes_message hbody) with ⟨hs, _⟩ | ⟨_, msg, _, _, hsome, _⟩
    · exact absurd (written_silent hs) hw
    · cases p' with
      | call o next =>
          have hnone := hnow.1.1
          rw [hsome] at hnone
          cases hnone
      | done r =>
          cases r with
          | ok _ => exact ⟨rfl, Or.inl (replied_of_passes hbody hp')⟩
          | error e =>
              have hnone := hnow.1
              rw [hsome] at hnone
              cases hnone
  · cases r with
    | ok _ =>
        obtain ⟨rfl, rfl⟩ := passes_done h₂'
        rw [List.append_nil]
        exact ⟨rfl, Or.inl (replied_of_passes hbody h₁')⟩
    | error e =>
        have hfinished : Finished (.error e) (h₁.foldl (Progress.note (offset c)) ⟨none, True⟩) :=
          h₁'.observed (fun _ _ => trivial) (finishes_message hbody)
        obtain ⟨hnone, hfits⟩ := hfinished
        have hs : Silence h₁ := by
          rcases reply_foldl h₁' rfl (finishes_message hbody) with ⟨hs, _⟩ | ⟨_, _, _, _, hsome, _⟩
          · exact hs
          · rw [hnone] at hsome
            cases hsome
        cases h₂' with
        | refl p =>
            rw [List.append_nil] at hw
            exact absurd (written_silent hs) hw
        | answer o next r hrest =>
            obtain ⟨rfl, rfl⟩ := passes_done hrest
            refine ⟨rfl, Or.inr ⟨e, .failed e h₁' hs, written_reply hs _, ?_⟩⟩
            intro x hx
            rcases List.mem_append.mp hx with hx | hx
            · exact ((fits_foldl _ _ _).mp hfits).2 x hx
            · rw [List.mem_singleton.mp hx]
              trivial

end

/-! ## Reading a reply -/

/-- The client takes as much of the reply as its size field says, modulo 2^32. -/
theorem receive_message (ty : UInt8) (body : Bytes) : receive (message ty 0 body) =
    (if ty = RERROR then (do
      let errLen ← slice (body.take ((7 + body.length) % 2 ^ 32 - 7)) 0 2
      let err ← slice (body.take ((7 + body.length) % 2 ^ 32 - 7)) 2 (2 + leValue errLen)
      some (.error ("9p error: " ++ fromUtf8Lossy err),
        body.drop ((7 + body.length) % 2 ^ 32 - 7)))
    else some (.ok (body.take ((7 + body.length) % 2 ^ 32 - 7)),
      body.drop ((7 + body.length) % 2 ^ 32 - 7))) := by
  have hlength : (message ty 0 body).length = 7 + body.length := by
    simp [message]
    omega
  have hheader : (message ty 0 body).take 7 = leBytes 4 (7 + body.length) ++ [ty] ++ leBytes 2 0 :=
    List.take_left' (by simp)
  have hsize : leValue (((message ty 0 body).take 7).take 4) = (7 + body.length) % 2 ^ 32 := by
    rw [hheader, List.append_assoc, List.take_left' (leBytes_length 4 _), leValue_leBytes]
    rfl
  have htype : (((message ty 0 body).take 7).drop 4).headD 0 = ty := by
    rw [hheader, List.append_assoc, List.drop_left' (leBytes_length 4 _)]
    rfl
  have hle : (7 + body.length) % 2 ^ 32 ≤ 7 + body.length := Nat.mod_le _ _
  have hrest : (message ty 0 body).drop (7 + ((7 + body.length) % 2 ^ 32 - 7)) =
      body.drop ((7 + body.length) % 2 ^ 32 - 7) := by
    rw [← List.drop_drop, message_drop]
  unfold receive
  rw [slice_of_le (Nat.zero_le _) (by omega), List.drop_zero]
  simp only [Nat.sub_zero, Option.bind_eq_bind, Option.bind_some, hsize, htype, hrest]
  rw [slice_of_le (by omega) (by omega), message_drop, Nat.add_sub_cancel_left, Option.bind_some]

theorem receive_error (e : String) : receive (message RERROR 0 (errorBody e)) =
    some (.error ("9p error: " ++ errorText e), []) := by
  have hlen : min (asBytes e).length 65535 < 256 ^ 2 := by omega
  have hlength : (errorBody e).length = 2 + min (asBytes e).length 65535 := by
    simp [errorBody]
  have hsize : (7 + (errorBody e).length) % 2 ^ 32 - 7 = (errorBody e).length := by
    rw [Nat.mod_eq_of_lt (by omega)]
    omega
  have hcut : (asBytes e).take (min (asBytes e).length 65535) = (asBytes e).take 65535 := by
    rw [Nat.min_comm, ← List.take_take, List.take_length]
  have hfirst : slice (errorBody e) 0 2 = some (leBytes 2 (min (asBytes e).length 65535)) := by
    rw [slice_of_le (Nat.zero_le _) (by omega), List.drop_zero]
    exact congrArg some (List.take_left' (leBytes_length 2 _))
  have htext : slice (errorBody e) 2 (2 + min (asBytes e).length 65535) =
      some ((asBytes e).take 65535) := by
    rw [slice_of_le (by omega) (by omega), Nat.add_sub_cancel_left, errorBody,
      List.drop_left' (leBytes_length 2 _), List.take_take, Nat.min_self, hcut]
  rw [receive_message, if_pos rfl, hsize, List.take_length, List.drop_length, hfirst]
  simp only [Option.bind_eq_bind, Option.bind_some]
  rw [leValue_leBytes_of_lt hlen, htext]
  rfl

/-- An error text of at most 65535 bytes arrives whole. -/
theorem errorText_eq {e : String} (h : (asBytes e).length ≤ 65535) : errorText e = e := by
  rw [errorText, List.take_of_length_le h, fromUtf8Lossy_asBytes]

/-! ## Whole conversations -/

theorem Ended.body_unique {c : Call} {h : List (Answered ninep)} {body body' : Bytes}
    (h₁ : Ended c h (.replied body)) (h₂ : Ended c h (.replied body')) : body = body' := by
  have hsent : ∀ {b}, Ended c h (.replied b) → (written h).drop 7 = b := by
    intro b hb
    cases hb with
    | replied ty _ _ hs => rw [written_reply hs, message_drop]
  rw [← hsent h₁, hsent h₂]

/-- One exchange after which nothing of the reply may be left unread. -/
theorem exchange_iff {c : Call} (hbody : c.body.length ≤ 65536) {h : List (Answered ninep)}
    {server : Prog ninep Unit} {r : Except String Bytes} {rest : Bytes}
    (hp : Passes (serveMessage c.message) h server) (hr : receive (written h) = some (r, rest)) :
    server = .done () ∧ ((Exchange.mk c h r).InStep ↔ (Exchange.mk c h r).Fits) ∧
      ((Exchange.mk c h r).Fits → rest = []) := by
  have hw : written h ≠ [] := by
    intro hnil
    rw [hnil] at hr
    cases hr
  obtain ⟨hserver, ⟨ty, body, hty, hended, hwritten, hfits⟩ | ⟨e, hended, hwritten, hfits⟩⟩ :=
    ended_of_passes hbody hp hw
  · rw [hwritten, receive_message, if_neg hty] at hr
    obtain ⟨rfl, rfl⟩ := Prod.mk.inj (Option.some.inj hr)
    have hmod : body.length < 2 ^ 32 - 7 → (7 + body.length) % 2 ^ 32 - 7 = body.length := by
      intro hlt
      rw [Nat.mod_eq_of_lt (by omega)]
      omega
    refine ⟨hserver, ⟨?_, ?_⟩, ?_⟩
    · rintro ⟨o, ho, hreturned⟩
      refine hfits.mp ?_
      cases o with
      | failed e => cases hreturned
      | replied body' =>
          obtain rfl := hended.body_unique ho
          have hwhole := congrArg List.length (Except.ok.inj hreturned)
          rw [List.length_take] at hwhole
          have hlt := Nat.mod_lt (7 + body.length) (show 2 ^ 32 > 0 by decide)
          omega
    · intro hfit
      refine ⟨.replied body, hended, ?_⟩
      change Except.ok _ = Except.ok body
      rw [hmod (hfits.mpr hfit), List.take_length]
    · intro hfit
      rw [hmod (hfits.mpr hfit), List.drop_length]
  · rw [hwritten, receive_error] at hr
    obtain ⟨rfl, rfl⟩ := Prod.mk.inj (Option.some.inj hr)
    exact ⟨hserver, ⟨fun _ => hfits, fun _ => ⟨.failed e, hended, rfl⟩⟩, fun _ => rfl⟩

/-- From a connection with nothing left to read, the exchanges are in step exactly as
long as the replies fit. -/
theorem conversation_iff {l l' : Link} {k : List Exchange} (hk : Conversation l k l')
    (hl : l = Link.new) (hbodies : ∀ x ∈ k, x.call.body.length ≤ 65536) :
    (∀ x ∈ k, x.InStep) ↔ ∀ x ∈ k, x.Fits := by
  induction hk with
  | refl l => exact ⟨fun _ => nofun, fun _ => nofun⟩
  | @exchange l l' k c h server r rest hp hr _ ih =>
      subst hl
      have hbody : c.body.length ≤ 65536 := hbodies _ (List.mem_cons_self ..)
      have hserve : Passes (serveMessage c.message) h server := by
        have hone : runConnection handleMessage sendError Source.contiguous
            (encodeMessage c.message) = serveMessage c.message :=
          (runConnection_message hbody).trans (Prog.bind_done _)
        rw [hone] at hp
        exact hp
      obtain ⟨rfl, hstep, hrest⟩ := exchange_iff hbody hserve hr
      rw [List.forall_mem_cons, List.forall_mem_cons, hstep]
      refine and_congr_right fun hfits => ?_
      exact ih (by rw [hrest hfits]; rfl) fun x hx => hbodies x (List.mem_cons_of_mem _ hx)

theorem slice_spec {bs out : Bytes} {i j : ℕ} (h : slice bs i j = some out) :
    j ≤ bs.length ∧ out = (bs.drop i).take (j - i) := by
  unfold slice at h
  split at h
  · next hle => exact ⟨hle.2, (Option.some.inj h).symm⟩
  · cases h

theorem exec_part_of {bs out : Bytes} {i j : ℕ} (h : slice bs i j = some out) (s : Session) :
    (part bs i j).exec s = some (.ok out, s) := by
  unfold part
  rw [h]
  rfl

/-- The client of the Lua handlers does what `receive` says with what its server wrote. -/
theorem sendRecv_receives {env : Env} {s : Session} (hs : NinepClient.InStep s) {c : Call}
    (hbody : c.body.length ≤ 65536) {w : World}
    (hserve : evaluate env (serveMessage c.message) { s.world with out := [] } = some ((), w))
    {r : Except String Bytes} {rest : Bytes} (hr : receive w.out.flatten = some (r, rest)) :
    (sendRecv env c.ty c.body).exec s = some (r, { s with world := w, unread := rest }) := by
  unfold receive at hr
  simp only [Option.bind_eq_bind, Option.bind_eq_some_iff] at hr
  obtain ⟨header, hheader, resp, hresp, hr⟩ := hr
  obtain ⟨hseven, hheader⟩ := slice_spec hheader
  obtain ⟨hlong, hresp⟩ := slice_spec hresp
  rw [List.drop_zero, Nat.sub_zero] at hheader
  rw [Nat.add_sub_cancel_left] at hresp
  subst hheader hresp
  unfold sendRecv
  rw [exec_bind_of (exec_writeAll hs hbody hserve), exec_bind_of (exec_readExact hseven),
    exec_bind_of (exec_readExact (by dsimp only; rw [List.length_drop]; omega))]
  dsimp only
  rw [List.drop_drop]
  split at hr
  · next hty =>
      obtain ⟨errLen, herrLen, hr⟩ := Option.bind_eq_some_iff.mp hr
      obtain ⟨err, herr, hr⟩ := Option.bind_eq_some_iff.mp hr
      obtain ⟨rfl, rfl⟩ := Prod.mk.inj (Option.some.inj hr)
      rw [if_pos hty, uintFrom, bind_assoc, exec_bind_of (exec_part_of herrLen _), pure_bind,
        exec_bind_of (exec_part_of herr _)]
      rfl
  · next hty =>
      obtain ⟨rfl, rfl⟩ := Prod.mk.inj (Option.some.inj hr)
      rw [if_neg hty]
      rfl

/-- The walks of that client are calls with the components of a path. -/
theorem walkBody_eq (fid newFid : UInt32) (path : String) :
    walkBody fid newFid path = (Call.walk fid newFid (components path)).body := by
  simp only [walkBody, Call.body, List.append_assoc]
  rfl

/-- The server reads the values that the client encoded. The client returns the outcome
of its own requests in exactly the conversations in which the length of every reply fits
its size field. -/
theorem in_step_iff_replies_fit (k : List Exchange) (l : Link) (hk : Conversation Link.new k l)
    (hbodies : ∀ x ∈ k, x.call.body.length ≤ 65536) :
    (∀ x ∈ k, fields x.call.message = some x.call ∧
      handleMessage x.call.message = x.call.served 0) ∧
    (∀ e, (asBytes e).length ≤ 65535 → errorText e = e) ∧
    ((∀ x ∈ k, x.InStep) ↔ ∀ x ∈ k, x.Fits) := by
  refine ⟨?_, fun e => errorText_eq, conversation_iff hk rfl hbodies⟩
  intro x hx
  have hfields := fields_message (hbodies x hx)
  exact ⟨hfields, handleMessage_eq_served hfields⟩

/-! ## A file of four gigabytes -/

/-- A handler that ends without an error is all that serving its message does. -/
theorem passes_served {c : Call} (hbody : c.body.length ≤ 65536) {h : List (Answered ninep)}
    (hp : Passes (c.served 0).run h (.done (.ok ()))) :
    Passes (serveMessage c.message) h (.done ()) := by
  have hserved : handleMessage c.message = c.served 0 := handleMessage_eq_served (fields_message hbody)
  unfold serveMessage
  rw [hserved, ← List.append_nil h]
  exact hp.bind (.refl _)

theorem passes_link {c : Call} (hbody : c.body.length ≤ 65536) {h : List (Answered ninep)}
    (hp : Passes (c.served 0).run h (.done (.ok ()))) :
    Passes (Link.new.server >>= fun _ => runConnection handleMessage sendError Source.contiguous
      (encodeMessage c.message)) h (.done ()) := by
  have hone : runConnection handleMessage sendError Source.contiguous (encodeMessage c.message) =
      serveMessage c.message := (runConnection_message hbody).trans (Prog.bind_done _)
  rw [hone]
  exact passes_served hbody hp

/-- One exchange with a reply that fits, at the start of a conversation. -/
theorem Conversation.replied {c : Call} (hbody : c.body.length ≤ 65536)
    {h : List (Answered ninep)} {ty : UInt8} {body : Bytes}
    (hp : Passes (c.served 0).run (h ++ [⟨.send (message ty 0 body), ()⟩]) (.done (.ok ())))
    (hs : Silence h) (hty : ty ≠ RERROR) (hlt : body.length < 2 ^ 32 - 7) {k : List Exchange}
    {l : Link} (hk : Conversation Link.new k l) :
    Conversation Link.new (⟨c, h ++ [⟨.send (message ty 0 body), ()⟩], .ok body⟩ :: k) l := by
  have hsize : (7 + body.length) % 2 ^ 32 - 7 = body.length := by
    rw [Nat.mod_eq_of_lt (by omega)]
    omega
  have hreceive : receive (Link.new.unread ++ written (h ++ [⟨.send (message ty 0 body), ()⟩])) =
      some (.ok body, []) := by
    change receive ([] ++ written _) = _
    rw [List.nil_append, written_reply hs, receive_message, if_neg hty, hsize, List.take_length,
      List.drop_length]
  exact .exchange c (passes_link hbody hp) hreceive hk

def NOFID : UInt32 := 0xFFFFFFFF

def attaching : List (Answered ninep) := [⟨.locked (.attach 1), ()⟩]

/-- Fid 4 is bound to the file `a`. -/
def walking : List (Answered ninep) :=
  [⟨.locked (.getFid 1), some (⟨0, "/", false, true⟩ : FidEntry)⟩,
    ⟨.route ⟨.lookup, "/a", []⟩, .reply (.ok ⟨[], none, false⟩)⟩,
    ⟨.locked (.allocQid "/a" false), (1 : ℕ)⟩, ⟨.locked (.setFid 4 1 "/a" false), ()⟩]

def opening : List (Answered ninep) :=
  [⟨.locked (.getFid 4), some (⟨1, "/a", false, false⟩ : FidEntry)⟩,
    ⟨.route ⟨.openFile, "/a", []⟩, .reply (.ok ⟨[], none, false⟩)⟩, ⟨.locked (.markOpen 4), ()⟩,
    ⟨.locked .readMsize, (8192 : ℕ)⟩]

def reading (data : Bytes) : List (Answered ninep) :=
  [⟨.locked (.getFid 4), some (⟨1, "/a", true, false⟩ : FidEntry)⟩,
    ⟨.route ⟨.read, "/a", []⟩, .reply (.ok ⟨data, none, false⟩)⟩]

def readBody (data : Bytes) : Bytes := leBytes 4 data.length ++ data

theorem passes_reading (data : Bytes) : Passes ((Call.read 4 0 8192).served 0).run
    (reading data ++ [⟨.send (message RREAD 0 (readBody data)), ()⟩]) (.done (.ok ())) :=
  .answer _ _ _ (.answer _ _ _ (.answer _ _ _ (.refl _)))

def attachReply : Bytes := encodeQid ⟨0x80, 0, 0⟩

def walkReply : Bytes := leBytes 2 1 ++ encodeQid ⟨0, 0, 1⟩

def openReply : Bytes := encodeQid ⟨0, 0, 0⟩ ++ leBytes 4 8192

theorem passes_attaching : Passes ((Call.attach 1 NOFID).served 0).run
    (attaching ++ [⟨.send (message RATTACH 0 attachReply), ()⟩]) (.done (.ok ())) :=
  .answer _ _ _ (.answer _ _ _ (.refl _))

theorem passes_walking : Passes ((Call.walk 1 4 ["a"]).served 0).run
    (walking ++ [⟨.send (message RWALK 0 walkReply), ()⟩]) (.done (.ok ())) :=
  .answer _ _ _ (.answer _ _ _ (.answer _ _ _ (.answer _ _ _ (.answer _ _ _ (.refl _)))))

theorem passes_opening : Passes ((Call.openFid 4 0).served 0).run
    (opening ++ [⟨.send (message ROPEN 0 openReply), ()⟩]) (.done (.ok ())) :=
  .answer _ _ _ (.answer _ _ _ (.answer _ _ _ (.answer _ _ _ (.answer _ _ _ (.refl _)))))

theorem silence_of {h : List (Answered ninep)}
    (hs : (h.all fun e => match e.op with | .send _ => false | _ => true) = true) : Silence h := by
  intro e he msg hmsg
  have hquiet := List.all_eq_true.mp hs e he
  rw [hmsg] at hquiet
  cases hquiet

/-- The exchanges before a read, and then those from the read on. -/
def upToRead (k : List Exchange) : List Exchange :=
  ⟨.attach 1 NOFID, attaching ++ [⟨.send (message RATTACH 0 attachReply), ()⟩], .ok attachReply⟩ ::
    ⟨.walk 1 4 ["a"], walking ++ [⟨.send (message RWALK 0 walkReply), ()⟩], .ok walkReply⟩ ::
    ⟨.openFid 4 0, opening ++ [⟨.send (message ROPEN 0 openReply), ()⟩], .ok openReply⟩ :: k

def readExchange (data : Bytes) (r : Except String Bytes) : Exchange :=
  ⟨.read 4 0 8192, reading data ++ [⟨.send (message RREAD 0 (readBody data)), ()⟩], r⟩

theorem conversation_to_read {k : List Exchange} {l : Link} (hk : Conversation Link.new k l) :
    Conversation Link.new (upToRead k) l := by
  refine Conversation.replied (by decide) passes_attaching (silence_of rfl) (by decide)
    (by decide) ?_
  refine Conversation.replied (by decide) passes_walking (silence_of rfl) (by decide)
    (by decide) ?_
  exact Conversation.replied (by decide) passes_opening (silence_of rfl) (by decide)
    (by decide) hk

/-- All these answers, and any data for the read, are those of one server. -/
theorem performs_reading (data : Bytes) : ∃ s, Performs (semantics anyRouter) Shared.new
    (attaching ++ [⟨.send (message RATTACH 0 attachReply), ()⟩] ++
      (walking ++ [⟨.send (message RWALK 0 walkReply), ()⟩] ++
        (opening ++ [⟨.send (message ROPEN 0 openReply), ()⟩] ++
          (reading data ++ [⟨.send (message RREAD 0 (readBody data)), ()⟩])))) s :=
  ⟨_, .answer _ _ (semantics_exec _ _) (.answer _ _ rfl
    (.answer _ _ (semantics_exec _ _) (.answer _ _ ⟨trivial, rfl⟩
    (.answer _ _ (semantics_exec _ _) (.answer _ _ (semantics_exec _ _) (.answer _ _ rfl
    (.answer _ _ (semantics_exec _ _) (.answer _ _ ⟨trivial, rfl⟩
    (.answer _ _ (semantics_exec _ _) (.answer _ _ (semantics_exec _ _) (.answer _ _ rfl
    (.answer _ _ (semantics_exec _ _) (.answer _ _ ⟨trivial, rfl⟩ (.answer _ _ rfl
    (.refl _)))))))))))))))⟩

/-- Whatever is in the file, the client returns as much of the reply as the size field
says. -/
theorem conversation_reading (data : Bytes) :
    ∃ r l, Conversation Link.new (upToRead [readExchange data r]) l := by
  have hs : Silence (reading data) := silence_of rfl
  have hreceive : receive ([] ++ written
      (reading data ++ [⟨.send (message RREAD 0 (readBody data)), ()⟩])) =
      some (.ok ((readBody data).take ((7 + (readBody data).length) % 2 ^ 32 - 7)),
        (readBody data).drop ((7 + (readBody data).length) % 2 ^ 32 - 7)) := by
    rw [List.nil_append, written_reply hs, receive_message, if_neg (by decide)]
  exact ⟨_, _, conversation_to_read (.exchange (.read 4 0 8192)
    (passes_link (by decide) (passes_reading data)) hreceive (.refl _))⟩

/-- A file of 2^32 - 11 bytes makes the size field zero: the client returns an empty body
and leaves the whole reply for its next request. -/
theorem four_gigabytes_not_returned : ¬ ∀ (k : List Exchange) (l : Link),
    Conversation Link.new k l → (∀ x ∈ k, x.call.body.length ≤ 65536) →
    (∃ s, Performs (semantics anyRouter) Shared.new (k.flatMap Exchange.history) s) →
    ∀ x ∈ k, x.InStep := by
  intro h
  obtain ⟨data, hdata⟩ : ∃ data : Bytes, data.length = 2 ^ 32 - 11 :=
    ⟨List.replicate (2 ^ 32 - 11) 0, List.length_replicate ..⟩
  obtain ⟨r, l, hk⟩ := conversation_reading data
  have hbodies : ∀ x ∈ upToRead [readExchange data r], x.call.body.length ≤ 65536 := by
    intro x hx
    simp only [upToRead, List.mem_cons, List.not_mem_nil, or_false] at hx
    rcases hx with rfl | rfl | rfl | rfl
    · decide
    · decide
    · decide
    · exact show (Call.read 4 0 8192).body.length ≤ 65536 by decide
  have hsteps := h _ l hk hbodies (by simpa [upToRead, readExchange] using performs_reading data)
  have hfits := (conversation_iff hk rfl hbodies).mp hsteps (readExchange data r) (by simp [upToRead])
  have hread : data.length < 0 + (2 ^ 32 - 11) :=
    hfits ⟨.route ⟨.read, "/a", []⟩, .reply (.ok ⟨data, none, false⟩)⟩ (by simp [readExchange, reading])
  omega

/-- What the handler of a stat of an unknown fid does. -/
def unknownFid : List (Answered ninep) := [⟨.locked (.getFid 9), (none : Option FidEntry)⟩]

theorem in_step_iff_replies_fit_unknown : ∃ k l, Conversation Link.new k l ∧
    k.map Exchange.result = [.ok attachReply, .error "9p error: unknown fid"] ∧
    ∀ x ∈ k, x.InStep := by
  have hstat : Conversation Link.new [⟨.stat 9,
      unknownFid ++ [⟨.send (message RERROR 0 (errorBody "unknown fid")), ()⟩],
      .error ("9p error: " ++ errorText "unknown fid")⟩] ⟨.done (), []⟩ := by
    have hreceive : receive (Link.new.unread ++ written (unknownFid ++
        [⟨.send (message RERROR 0 (errorBody "unknown fid")), ()⟩])) =
        some (.error ("9p error: " ++ errorText "unknown fid"), []) := by
      have hs : Silence unknownFid := silence_of rfl
      change receive ([] ++ written _) = _
      rw [List.nil_append, written_reply hs, receive_error]
    refine .exchange (.stat 9) ?_ hreceive (.refl _)
    rw [show runConnection handleMessage sendError Source.contiguous
      (encodeMessage (Call.stat 9).message) = serveMessage (Call.stat 9).message from
        (runConnection_message (by decide)).trans (Prog.bind_done _)]
    exact .answer _ _ _ (.answer _ _ _ (.refl _))
  have hk := Conversation.replied (by decide) passes_attaching (silence_of rfl) (by decide)
    (by decide) hstat
  refine ⟨_, _, hk, ?_, (in_step_iff_replies_fit _ _ hk ?_).2.2.mpr ?_⟩
  · rw [errorText_eq (by decide)]
    rfl
  · intro x hx
    simp only [List.mem_cons, List.not_mem_nil, or_false] at hx
    rcases hx with rfl | rfl <;> decide
  · intro x hx e he
    simp only [List.mem_cons, List.not_mem_nil, or_false] at hx
    rcases hx with rfl | rfl
    · simp only [attaching, List.cons_append, List.nil_append, List.mem_cons, List.not_mem_nil,
        or_false] at he
      rcases he with rfl | rfl <;> trivial
    · simp only [unknownFid, List.cons_append, List.nil_append, List.mem_cons, List.not_mem_nil,
        or_false] at he
      rcases he with rfl | rfl <;> trivial

end Pinhead.NinepLockstep
