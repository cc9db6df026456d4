import Pinhead.NinepConnections
import Pinhead.NinepTotality
import Pinhead.Histories

/-!
# Replies over a multiplexed connection

The streams of a connection do not write to the socket. A reply is put, under the number of its
stream, on a channel to the writer of the connection, which encodes one frame after another.
The writer stops at the first frame that the socket does not take in full, and replies after
that are dropped.

The bytes on the wire are read by the same framing at the other end. What arrives there on a
stream are replies to the messages of that stream, one for each message and in their order,
whatever else happens on the connection, on the other connections of the listener, or to the
bytes in transit.
-/
namespace Pinhead.MuxReplies
open ByteStrings ByteStreams FsRequests Resumption Histories NinepShared NinepHandlers NinepRuns
  NinepMux NinepConnections NinepTotality

/-! ## The writer of a connection -/

/-- The frames that wait, the bytes that the socket took, and whether the writer has stopped. -/
structure MuxWriter where
  queue : List Frame
  wire : Bytes
  gone : Bool

namespace MuxWriter

def new : MuxWriter := ⟨[], [], false⟩

/-- Sending fails once the writer is gone; the failure is dropped with the reply. -/
def send (w : MuxWriter) (streamId : UInt32) (payload : Bytes) : MuxWriter :=
  if w.gone then w else { w with queue := w.queue ++ [⟨streamId, payload⟩] }

/-- The socket takes the next frame. -/
def writeAll (w : MuxWriter) : Option MuxWriter :=
  match w.queue with
  | [] => none
  | f :: queue =>
      if w.gone then none
      else some ⟨queue, w.wire ++ encodeMuxFrame f.streamId f.payload, false⟩

/-- The socket takes a part of the next frame and fails. -/
def writeError (w : MuxWriter) (n : ℕ) : Option MuxWriter :=
  match w.queue with
  | [] => none
  | f :: _ =>
      if w.gone then none
      else some ⟨[], w.wire ++ (encodeMuxFrame f.streamId f.payload).take n, true⟩

end MuxWriter

/-! ## Connections of one listener -/

section
variable {κ : Type} [DecidableEq κ]

/-- Every stream of every connection is a task over the shared state. -/
structure Listener (κ : Type) where
  config : Config ninep (κ × UInt32) Shared
  writers : κ → MuxWriter

/-- What an operation of a stream does to the writer of its connection. -/
def heard (writers : κ → MuxWriter) (e : Event ninep (κ × UInt32)) : κ → MuxWriter :=
  match e.op with
  | .send msg => Function.update writers e.task.1 ((writers e.task.1).send e.task.2 msg)
  | _ => writers

inductive Steps (sem : Semantics ninep Shared) :
    Listener κ → List (Event ninep (κ × UInt32)) → Listener κ → Prop
  | refl (l : Listener κ) : Steps sem l [] l
  | task {l m : Listener κ} {t : List (Event ninep (κ × UInt32))}
      {e : Event ninep (κ × UInt32)} {d : Config ninep (κ × UInt32) Shared} :
      Steps sem l t m → Step sem m.config e d →
      Steps sem l (t ++ [e]) ⟨d, heard m.writers e⟩
  | write {l m : Listener κ} {t : List (Event ninep (κ × UInt32))} (k : κ) {w : MuxWriter} :
      Steps sem l t m → (m.writers k).writeAll = some w →
      Steps sem l t ⟨m.config, Function.update m.writers k w⟩
  | error {l m : Listener κ} {t : List (Event ninep (κ × UInt32))} (k : κ) (n : ℕ)
      {w : MuxWriter} : Steps sem l t m → (m.writers k).writeError n = some w →
      Steps sem l t ⟨m.config, Function.update m.writers k w⟩

/-- All streams that the frames of each connection open, over the payloads of their frames. A
stream without frames reads nothing. -/
def serveFrames (s : Shared) (frames : κ → List Frame) : Listener κ where
  config := ⟨s, fun i => runConnection handleMessage sendError MuxStream.source
    (MuxStream.new (payloadsOf i.2 (frames i.1)))⟩
  writers _ := .new

/-- The messages that the loop over a stream reads from its payloads. -/
def requests (payloads : List Bytes) : List Message :=
  calls (fun _ => .ok ()) MuxStream.source (MuxStream.new payloads)

/-- A complete reply that carries the tag of the message. -/
def Answers (msg : Message) (payload : Bytes) : Prop :=
  ∃ ty body, payload = message ty msg.tag body

/-! ## What a stream writes -/

def writes (h : List (Answered ninep)) : List Bytes :=
  h.filterMap fun e => match e.op with
    | .send msg => some msg
    | _ => none

theorem sent_eq_writes {ι : Type} [DecidableEq ι] (i : ι) (t : List (Event ninep ι)) :
    sent i t = writes (own i t) := by
  induction t with
  | nil => rfl
  | cons e t ih =>
      obtain ⟨j, o, r⟩ := e
      rw [sent_cons, ih]
      by_cases hij : j = i
      · subst j
        rw [own_cons_self]
        cases o <;> simp [sent, writes]
      · rw [own_cons_other hij]
        simp [sent, hij]

/-- A task that crashes nowhere can be carried to its end, with more writes. -/
theorem emitted_extends {A : Type} {p : Prog ninep A} {Q : A → List Bytes → Prop} {l : List Bytes}
    (h : wp emitted p Q l) : ∃ a more, Q a (l ++ more) := by
  induction p generalizing l with
  | done a => exact ⟨a, [], by rw [List.append_nil]; exact h⟩
  | call o next ih =>
      cases o with
      | locked c =>
          have hnext : ∀ r : c.Ret, ∃ a more, Q a (l ++ more) := fun r => ih r (h r)
          cases c with
          | getFid fid => exact hnext (none : Option FidEntry)
          | allocQid path isDir => exact hnext (0 : ℕ)
          | createFid fid path isDir => exact hnext (0 : ℕ)
          | readMsize => exact hnext (0 : ℕ)
          | listDir dir => exact hnext ([] : List DirEntry)
          | _ => exact hnext ()
      | route req => exact ih Answer.routerGone (h _)
      | now => exact ih (0 : ℕ) (h (0 : ℕ))
      | send msg =>
          obtain ⟨a, more, hQ⟩ := ih () h
          exact ⟨a, msg :: more, by simpa using hQ⟩
      | crash => exact h.elim

theorem emitted_passes {A : Type} {p q : Prog ninep A} {h : List (Answered ninep)}
    {Q : A → List Bytes → Prop} {l : List Bytes} (hp : Passes p h q) (hw : wp emitted p Q l) :
    wp emitted q Q (l ++ writes h) := by
  induction hp generalizing l with
  | refl p => simpa [writes] using hw
  | answer o next r _ ih =>
      cases o with
      | send msg =>
          have hnext := ih hw
          simpa [writes] using hnext
      | crash => exact hw.elim
      | _ => exact ih (hw r)

/-- One message is replied to once, and before its end at most once. -/
theorem writes_serveMessage {msg : Message} {h : List (Answered ninep)} {q : Prog ninep Unit}
    (hp : Passes (serveMessage msg) h q) :
    (writes h = [] ∨ ∃ payload, writes h = [payload] ∧ Answers msg payload) ∧
      (q = .done () → ∃ payload, writes h = [payload] ∧ Answers msg payload) := by
  by_cases hshort : ShortCheck msg
  · obtain ⟨next, hcrash⟩ := serveMessage_crash hshort
    rw [hcrash] at hp
    cases hp with
    | refl p => exact ⟨.inl rfl, fun h => by cases h⟩
    | answer o next r _ => exact r.elim
  · have hw := emitted_passes hp (serveMessage_replies msg hshort)
    rw [List.nil_append] at hw
    constructor
    · obtain ⟨_, more, ty, body, hmore⟩ := emitted_extends hw
      cases hwrites : writes h with
      | nil => exact .inl rfl
      | cons payload rest =>
          rw [hwrites, List.cons_append, List.cons.injEq] at hmore
          obtain ⟨rfl, hrest⟩ := hmore
          rw [(List.append_eq_nil_iff.mp hrest).1]
          exact .inr ⟨_, rfl, ty, body, rfl⟩
    · rintro rfl
      obtain ⟨ty, body, hdone⟩ := hw
      exact ⟨_, hdone, ty, body, rfl⟩

theorem writes_append (h k : List (Answered ninep)) : writes (h ++ k) = writes h ++ writes k :=
  List.filterMap_append

/-- The replies of a stream answer its first messages, one each and in order. -/
theorem writes_serveAll {msgs : List Message} {h : List (Answered ninep)} {q : Prog ninep Unit}
    (hp : Passes (serveAll msgs) h q) :
    ∃ n, List.Forall₂ Answers (msgs.take n) (writes h) := by
  induction msgs generalizing h with
  | nil =>
      obtain ⟨rfl, _⟩ := passes_done hp
      exact ⟨0, .nil⟩
  | cons msg msgs ih =>
      rcases passes_bind hp with ⟨p', hp', _⟩ | ⟨_, h₁, h₂, rfl, hp₁, hp₂⟩
      · rcases (writes_serveMessage hp').1 with hnone | ⟨payload, hone, hanswers⟩
        · exact ⟨0, by rw [hnone]; exact .nil⟩
        · exact ⟨1, by rw [hone]; exact .cons hanswers .nil⟩
      · obtain ⟨payload, hone, hanswers⟩ := (writes_serveMessage hp₁).2 rfl
        obtain ⟨n, hrest⟩ := ih hp₂
        rw [writes_append, hone]
        exact ⟨n + 1, .cons hanswers hrest⟩

/-- All of them once the stream has ended. -/
theorem writes_ended {msgs : List Message} {h : List (Answered ninep)}
    (hp : Passes (serveAll msgs) h (.done ())) : List.Forall₂ Answers msgs (writes h) := by
  induction msgs generalizing h with
  | nil =>
      obtain ⟨rfl, _⟩ := passes_done hp
      exact .nil
  | cons msg msgs ih =>
      obtain ⟨_, h₁, h₂, rfl, hp₁, hp₂⟩ := passes_bind_done hp
      obtain ⟨payload, hone, hanswers⟩ := (writes_serveMessage hp₁).2 rfl
      rw [writes_append, hone]
      exact .cons hanswers (ih hp₂)

/-! ## What a loop over a stream serves -/

/-- Whatever the bytes are, the loop serves the same list of frames in every reading. -/
theorem loop_forM {M σ : Type} (F : Framing M) (src : Source σ) (s : σ) :
    ∃ xs : List M, ∀ (m : Type → Type) [Monad m] (act : M → m Unit),
      F.loop src act s = xs.forM act := by
  induction hn : (src.unread s).length using Nat.strong_induction_on generalizing s with
  | _ n ih =>
      cases hnext : F.next src s with
      | none => exact ⟨[], fun m _ act => Framing.loop_none act hnext⟩
      | some x =>
          obtain ⟨x, s'⟩ := x
          obtain ⟨xs, hxs⟩ := ih _ (hn ▸ F.next_unread src hnext) s' rfl
          refine ⟨x :: xs, ?_⟩
          intro m _ act
          rw [Framing.loop_some act hnext, hxs]
          rfl

theorem forM_serveAll (msgs : List Message) :
    msgs.forM (serveWith handleMessage sendError) = serveAll msgs := by
  induction msgs with
  | nil => rfl
  | cons msg msgs ih => exact congrArg (fun rest => serveMessage msg >>= fun _ => rest) ih

theorem runConnection_requests (payloads : List Bytes) :
    runConnection handleMessage sendError MuxStream.source (MuxStream.new payloads) =
      serveAll (requests payloads) := by
  obtain ⟨xs, hxs⟩ := loop_forM messageFraming MuxStream.source (MuxStream.new payloads)
  have hrequests : requests payloads = xs := by
    rw [requests, calls, runConnection, hxs]
    exact forM_recorded (record_serve _) xs []
  rw [hrequests, runConnection, hxs, forM_serveAll]

/-! ## What is on the wire -/

/-- The frames that the streams of a connection put on the channel. -/
def framesOf (k : κ) (t : List (Event ninep (κ × UInt32))) : List Frame :=
  t.filterMap fun e => if e.task.1 = k then
    match e.op with
    | .send msg => some ⟨e.task.2, msg⟩
    | _ => none
  else none

/-- The frames written and those in the queue are all that were put on the channel, until the
writer stops; then the wire ends inside a frame. -/
def Carries (w : MuxWriter) (fs : List Frame) : Prop :=
  ∃ done rest, fs = done ++ rest ∧
    if w.gone then ∃ f rest' n, rest = f :: rest' ∧
      w.wire = done.flatMap Frame.encode ++ f.encode.take n
    else w.wire = done.flatMap Frame.encode ∧ rest = w.queue

variable {w w' : MuxWriter} {fs : List Frame}

theorem Carries.send (h : Carries w fs) (streamId : UInt32) (payload : Bytes) :
    Carries (w.send streamId payload) (fs ++ [⟨streamId, payload⟩]) := by
  obtain ⟨done, rest, rfl, hstate⟩ := h
  refine ⟨done, rest ++ [⟨streamId, payload⟩], by rw [List.append_assoc], ?_⟩
  unfold MuxWriter.send
  by_cases hgone : w.gone
  · simp only [hgone, if_true] at hstate ⊢
    obtain ⟨f, rest', n, rfl, hwire⟩ := hstate
    exact ⟨f, rest' ++ [⟨streamId, payload⟩], n, rfl, hwire⟩
  · simp only [hgone, if_false, Bool.false_eq_true] at hstate ⊢
    exact ⟨hstate.1, by rw [hstate.2]⟩

theorem Carries.writeAll (h : Carries w fs) (hw : w.writeAll = some w') : Carries w' fs := by
  obtain ⟨done, rest, rfl, hstate⟩ := h
  unfold MuxWriter.writeAll at hw
  split at hw
  · cases hw
  · next f queue hqueue =>
      split at hw
      · cases hw
      · next hgone =>
          cases hw
          simp only [hgone, hqueue] at hstate
          obtain ⟨hwire, rfl⟩ := hstate
          refine ⟨done ++ [f], queue, by simp, ?_⟩
          simp [hwire, Frame.encode]

theorem Carries.writeError (h : Carries w fs) {n : ℕ} (hw : w.writeError n = some w') :
    Carries w' fs := by
  obtain ⟨done, rest, rfl, hstate⟩ := h
  unfold MuxWriter.writeError at hw
  split at hw
  · cases hw
  · next f queue hqueue =>
      split at hw
      · cases hw
      · next hgone =>
          cases hw
          simp only [hgone, hqueue] at hstate
          obtain ⟨hwire, rfl⟩ := hstate
          refine ⟨done, f :: queue, rfl, ?_⟩
          simp only [if_true]
          exact ⟨f, queue, n, rfl, by rw [hwire]; rfl⟩

theorem carries_steps {sem : Semantics ninep Shared} {l m : Listener κ}
    {t : List (Event ninep (κ × UInt32))} (h : Steps sem l t m) (hnew : ∀ k, l.writers k = .new)
    (k : κ) : Carries (m.writers k) (framesOf k t) := by
  induction h with
  | refl =>
      rw [hnew]
      exact ⟨[], [], rfl, by simp [MuxWriter.new]⟩
  | @task m t e d _ _ ih =>
      obtain ⟨⟨j, streamId⟩, o, r⟩ := e
      have happend : ∀ u, framesOf k (t ++ u) = framesOf k t ++ framesOf k u := fun u =>
        List.filterMap_append
      rw [happend]
      by_cases hj : j = k
      · subst j
        cases o with
        | send msg =>
            have hone : framesOf k [(⟨(k, streamId), .send msg, r⟩ : Event ninep (κ × UInt32))] =
                [⟨streamId, msg⟩] := by simp [framesOf]
            rw [hone]
            simpa [heard] using ih.send streamId msg
        | _ => simpa [heard, framesOf] using ih
      · cases o with
        | send msg => simpa [heard, framesOf, hj, Function.update_of_ne (Ne.symm hj)] using ih
        | _ => simpa [heard, framesOf] using ih
  | @write m t j w _ hw ih =>
      by_cases hj : j = k
      · subst j
        simpa using ih.writeAll hw
      · simpa [Function.update_of_ne (Ne.symm hj)] using ih
  | @error m t j n w _ hw ih =>
      by_cases hj : j = k
      · subst j
        simpa using ih.writeError hw
      · simpa [Function.update_of_ne (Ne.symm hj)] using ih

theorem run_of_steps {sem : Semantics ninep Shared} {l m : Listener κ}
    {t : List (Event ninep (κ × UInt32))} (h : Steps sem l t m) : Run sem l.config t m.config := by
  induction h with
  | refl => exact .refl _
  | task _ hstep ih => exact ih.append (.step hstep (.refl _))
  | write _ _ _ ih => exact ih
  | error _ _ _ _ ih => exact ih

theorem Carries.wire (h : Carries w fs) : ∃ n, w.wire = (fs.flatMap Frame.encode).take n := by
  obtain ⟨done, rest, rfl, hstate⟩ := h
  rw [List.flatMap_append]
  split at hstate
  · obtain ⟨f, rest', n, rfl, hwire⟩ := hstate
    refine ⟨(done.flatMap Frame.encode).length + min n f.encode.length, ?_⟩
    rw [hwire, List.take_length_add_append, List.flatMap_cons,
      List.take_append_of_le_length (Nat.min_le_right _ _), ← List.take_take,
      List.take_of_length_le (le_refl f.encode.length)]
  · exact ⟨(done.flatMap Frame.encode).length, by rw [hstate.1, List.take_left]⟩

/-- A cut through encoded frames leaves the first of them and less than one more. -/
theorem take_encoded (hfs : ∀ f ∈ fs, f.payload.length < 2 ^ 32) (n : ℕ) :
    ∃ (xs : List Frame) (last : Frame) (j : ℕ), xs <+: fs ∧
      (fs.flatMap Frame.encode).take n = xs.flatMap Frame.encode ++ last.encode.take j ∧
      j < last.encode.length ∧ last.payload.length < 2 ^ 32 := by
  induction fs generalizing n with
  | nil => exact ⟨[], ⟨0, []⟩, 0, List.nil_prefix, by simp, by decide, by decide⟩
  | cons f fs ih =>
      rw [List.flatMap_cons]
      rcases lt_or_ge n f.encode.length with hn | hn
      · refine ⟨[], f, n, List.nil_prefix, ?_, hn, hfs f List.mem_cons_self⟩
        rw [List.take_append_of_le_length hn.le]
        rfl
      · obtain ⟨m, rfl⟩ := Nat.exists_eq_add_of_le hn
        obtain ⟨xs, last, j, hxs, htake, hj, hlast⟩ :=
          ih (fun g hg => hfs g (List.mem_cons_of_mem f hg)) m
        refine ⟨f :: xs, last, j, ?_, ?_, hj, hlast⟩
        · obtain ⟨ys, rfl⟩ := hxs
          exact ⟨ys, rfl⟩
        · rw [List.take_length_add_append, htake, List.flatMap_cons, List.append_assoc]

theorem payloadsOf_framesOf (k : κ) (id : UInt32) (t : List (Event ninep (κ × UInt32))) :
    payloadsOf id (framesOf k t) = sent (k, id) t := by
  induction t with
  | nil => rfl
  | cons e t ih =>
      obtain ⟨⟨j, streamId⟩, o, r⟩ := e
      rw [sent_cons, ← ih]
      have hcons : framesOf k (⟨(j, streamId), o, r⟩ :: t) =
          framesOf k [(⟨(j, streamId), o, r⟩ : Event ninep (κ × UInt32))] ++ framesOf k t := by
        rw [framesOf, ← List.singleton_append, List.filterMap_append]
        rfl
      rw [hcons, payloadsOf_append]
      congr 1
      by_cases hj : j = k
      · subst j
        cases o with
        | send msg =>
            by_cases hid : streamId = id
            · simp [framesOf, sent, payloadsOf, hid]
            · simp [framesOf, sent, payloadsOf, hid]
        | _ => simp [framesOf, sent, payloadsOf]
      · cases o with
        | _ => simp [framesOf, sent, payloadsOf, hj]

/-- What the client has read is a first part of what the streams have written. -/
theorem Carries.delivered_prefix (h : Carries w fs) (hfs : ∀ f ∈ fs, f.payload.length < 2 ^ 32)
    {τ : Type} {client : Source τ} {back : τ} {n : ℕ}
    (hback : client.unread back = w.wire.take n) : delivered client back <+: fs := by
  obtain ⟨n', hwire⟩ := h.wire
  rw [hwire, List.take_take] at hback
  obtain ⟨xs, last, j, ⟨ys, rfl⟩, htake, hj, hlast⟩ := take_encoded hfs (min n n')
  rw [htake] at hback
  have hxs := delivered_encoded client (fun f hf => hfs f (List.mem_append_left ys hf)) hlast hj
    hback
  exact ⟨ys, by rw [hxs]⟩

/-- The whole of it once the writer has nothing left to write. -/
theorem Carries.delivered_all (h : Carries w fs) (hfs : ∀ f ∈ fs, f.payload.length < 2 ^ 32)
    (hgone : w.gone = false) (hqueue : w.queue = []) {τ : Type} {client : Source τ} {back : τ}
    (hback : client.unread back = w.wire) : delivered client back = fs := by
  obtain ⟨done, rest, rfl, hstate⟩ := h
  simp only [hgone, if_false, Bool.false_eq_true, hqueue] at hstate
  obtain ⟨hwire, rfl⟩ := hstate
  rw [List.append_nil] at hfs ⊢
  refine @delivered_encoded _ client _ hfs ⟨0, []⟩ (by decide) 0 (by decide) back ?_
  rw [hback, hwire, List.take_zero, List.append_nil]

end

/-! ### One flush on one stream -/

def flushMessage : Message := ⟨TFLUSH, 7, []⟩

def flushFrame : Frame := ⟨1, encodeMessage flushMessage⟩

theorem delivered_flush : delivered Source.contiguous flushFrame.encode = [flushFrame] :=
  @delivered_encoded _ Source.contiguous [flushFrame] (by decide) ⟨0, []⟩ (by decide) 0 (by decide)
    flushFrame.encode (by simp [Source.contiguous])

theorem requests_flush : requests (payloadsOf 1 [flushFrame]) = [flushMessage] := by
  refine @calls_encoded _ MuxStream.source (MuxStream.new [encodeMessage flushMessage])
    [flushMessage] flushMessage 0 _ (by decide) (by decide) (by decide) ?_
  simp [MuxStream.source, MuxStream.unread, MuxStream.new]

def flushReply : Bytes := message RFLUSH 7 []

def flushed : List (Event ninep (Unit × UInt32)) := [⟨((), 1), .send flushReply, ()⟩]

theorem steps_flush : ∃ l : Listener Unit,
    Steps (semantics anyRouter)
        (serveFrames Shared.new fun _ => delivered Source.contiguous flushFrame.encode) flushed l ∧
      l.config.tasks ((), 1) = .done () ∧
      l.writers () = ⟨[], encodeMuxFrame 1 flushReply, false⟩ := by
  have htask : (serveFrames Shared.new fun _ : Unit =>
      delivered Source.contiguous flushFrame.encode).config.tasks ((), 1) =
        serveAll [flushMessage] := by
    simp only [serveFrames, delivered_flush]
    rw [runConnection_requests, requests_flush]
  obtain ⟨next, hcall, hnext⟩ : ∃ next : Unit → Prog ninep Unit,
      serveAll [flushMessage] = .call (.send flushReply) next ∧ next () = .done () := ⟨_, rfl, rfl⟩
  have hsem : semantics anyRouter (.send flushReply) Shared.new () Shared.new := rfl
  have hstep := Step.answer ((), 1) (Op.send flushReply) next () Shared.new (htask.trans hcall) hsem
  refine ⟨_, .write () (.task (.refl _) hstep) rfl, ?_, rfl⟩
  simp [hnext]

end Pinhead.MuxReplies
