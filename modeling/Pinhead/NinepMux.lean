import Mathlib.Data.List.AList
import Pinhead.ByteStreams

/-!
# Streams multiplexed over one connection

Frames carry a stream number and a payload. `runServerMux` is the read loop of a
connection: it puts every complete frame on the channel to the dispatcher, which
creates a stream at the first frame of its number and queues every payload on
that stream. A stream keeps its place in the table after its handler has ended;
payloads sent to it from then on are dropped.

The handlers of the streams run beside the dispatcher. Their receives and their
ends are events of the environment, so a sequence of events is one interleaving
of the frames with everything the handlers do.

A `MuxStream` is read through a buffer and a position into it. Its channel is the
list of payloads that come before the close, queued already or not.
-/
namespace Pinhead.NinepMux
open ByteStrings ByteStreams

/-! ## Frames -/

structure Frame where
  streamId : UInt32
  payload : Bytes
  deriving DecidableEq, Repr

def encodeMuxFrame (streamId : UInt32) (payload : Bytes) : Bytes :=
  leBytes 4 streamId.toNat ++ leBytes 4 payload.length ++ payload

def decodeMuxHeader (header : Bytes) : UInt32 × ℕ :=
  (UInt32.ofNat (leValue (header.take 4)), leValue ((header.drop 4).take 4))

def Frame.encode (f : Frame) : Bytes := encodeMuxFrame f.streamId f.payload

def muxFraming : Framing Frame where
  headerLength := 8
  header_pos := by decide
  bodyLength header := some (decodeMuxHeader header).2
  frame header payload := ⟨(decodeMuxHeader header).1, payload⟩

theorem decodeMuxHeader_encode (streamId : UInt32) {n : ℕ} (h : n < 2 ^ 32) :
    decodeMuxHeader (leBytes 4 streamId.toNat ++ leBytes 4 n) = (streamId, n) := by
  have hid : leValue (leBytes 4 streamId.toNat) = streamId.toNat :=
    leValue_leBytes_of_lt streamId.toNat_lt
  have hn : leValue (leBytes 4 n) = n := leValue_leBytes_of_lt h
  simp [decodeMuxHeader, hid, hn, List.take_of_length_le]

theorem Frame.spells {f : Frame} (h : f.payload.length < 2 ^ 32) :
    muxFraming.Spells f f.encode := by
  refine ⟨leBytes 4 f.streamId.toNat ++ leBytes 4 f.payload.length, f.payload, rfl, ?_, ?_, ?_⟩
  · simp [muxFraming]
  · simp only [muxFraming, decodeMuxHeader_encode _ h]
  · simp only [muxFraming, decodeMuxHeader_encode _ h]

section Reader
variable {σ : Type} (src : Source σ)

/-- `streamTx` stands for the channel to the dispatcher. -/
def runServerMux {m : Type → Type} [Monad m] (streamTx : Frame → m Unit) (reader : σ) : m Unit :=
  muxFraming.loop src streamTx reader

/-- The frames put on the channel, in order. -/
def delivered (reader : σ) : List Frame :=
  ((runServerMux src (fun f => modify (· ++ [f])) reader : StateM (List Frame) Unit).run []).2

theorem delivered_encoded {frames : List Frame} (hframes : ∀ f ∈ frames, f.payload.length < 2 ^ 32)
    {last : Frame} (hlast : last.payload.length < 2 ^ 32) {k : ℕ} (hk : k < last.encode.length)
    {reader : σ} (h : src.unread reader = frames.flatMap Frame.encode ++ last.encode.take k) :
    delivered src reader = frames := by
  have hloop := Framing.loop_truncated (fun f => (modify (· ++ [f]) : StateM (List Frame) Unit))
    (fun f hf => Frame.spells (hframes f hf)) (Frame.spells hlast) hk h
  rw [delivered, runServerMux, hloop]
  exact forM_recorded (fun _ _ => rfl) frames []

end Reader

/-! ## The stream dispatcher -/

/-- A created stream as its channel and its handler see it: the payloads the
handler has received, those still queued, and whether it is still there. -/
structure Stream where
  received : List Bytes
  queue : List Bytes
  running : Bool

/-- The payload is dropped if nobody will ever receive it. -/
def Stream.send (s : Stream) (payload : Bytes) : Stream :=
  if s.running then { s with queue := s.queue ++ [payload] } else s

def Stream.recv (s : Stream) : Stream :=
  match s.queue with
  | p :: q => if s.running then { s with received := s.received ++ [p], queue := q } else s
  | [] => s

inductive StreamEvent where
  | frame (f : Frame)
  | recv (id : UInt32)
  | terminated (id : UInt32)
  deriving DecidableEq

/-- `created` lists the streams for which a handler was started, in order. -/
structure Dispatcher where
  streams : AList fun _ : UInt32 => Stream
  created : List UInt32

namespace Dispatcher

def new : Dispatcher := ⟨∅, []⟩

def modify (d : Dispatcher) (id : UInt32) (f : Stream → Stream) : Dispatcher :=
  match d.streams.lookup id with
  | some s => { d with streams := d.streams.insert id (f s) }
  | none => d

/-- The body of the dispatch loop for one frame. -/
def dispatch (d : Dispatcher) (f : Frame) : Dispatcher :=
  match d.streams.lookup f.streamId with
  | some s => { d with streams := d.streams.insert f.streamId (s.send f.payload) }
  | none =>
      { streams := d.streams.insert f.streamId ⟨[], [f.payload], true⟩,
        created := d.created ++ [f.streamId] }

def step (d : Dispatcher) : StreamEvent → Dispatcher
  | .frame f => d.dispatch f
  | .recv id => d.modify id Stream.recv
  | .terminated id => d.modify id fun s => { s with running := false }

def run (d : Dispatcher) (es : List StreamEvent) : Dispatcher := es.foldl step d

/-- Everything that was ever put on the queue of a stream, in order. -/
def queued (d : Dispatcher) (id : UInt32) : List Bytes :=
  match d.streams.lookup id with
  | some s => s.received ++ s.queue
  | none => []

/-- Unless its handler has ended, a stream that exists is running. -/
def Running (d : Dispatcher) (id : UInt32) : Prop :=
  ∀ s, d.streams.lookup id = some s → s.running = true

/-- One stream was created for each number in the table. -/
def Sound (d : Dispatcher) : Prop :=
  d.created.Nodup ∧ ∀ id, id ∈ d.created ↔ (d.streams.lookup id).isSome

end Dispatcher

def arrival : StreamEvent → Option Frame
  | .frame f => some f
  | _ => none

/-- The payloads meant for one stream. -/
def payloadsOf (id : UInt32) (frames : List Frame) : List Bytes :=
  (frames.filter fun f => f.streamId = id).map Frame.payload

theorem payloadsOf_append (id : UInt32) (fs gs : List Frame) :
    payloadsOf id (fs ++ gs) = payloadsOf id fs ++ payloadsOf id gs := by
  simp [payloadsOf]

namespace Stream

@[simp] theorem recv_running (s : Stream) : s.recv.running = s.running := by
  unfold recv
  split
  · split <;> rfl
  · rfl

theorem recv_queued (s : Stream) : s.recv.received ++ s.recv.queue = s.received ++ s.queue := by
  unfold recv
  split
  · next p q hq =>
      split
      · simp [hq]
      · rfl
  · rfl

theorem send_running {s : Stream} (h : s.running = true) (p : Bytes) :
    s.send p = { s with queue := s.queue ++ [p] } := if_pos h

end Stream

namespace Dispatcher

theorem lookup_modify (d : Dispatcher) (id id' : UInt32) (f : Stream → Stream) :
    (d.modify id f).streams.lookup id' =
      if id' = id then (d.streams.lookup id).map f else d.streams.lookup id' := by
  unfold modify
  cases h : d.streams.lookup id with
  | none =>
      by_cases hid : id' = id
      · subst hid
        simp [h]
      · simp [hid]
  | some s =>
      by_cases hid : id' = id
      · subst hid
        simp
      · simp [hid, AList.lookup_insert_ne hid]

@[simp] theorem created_modify (d : Dispatcher) (id : UInt32) (f : Stream → Stream) :
    (d.modify id f).created = d.created := by
  unfold modify
  cases d.streams.lookup id <;> rfl

theorem lookup_dispatch_ne (d : Dispatcher) {f : Frame} {id : UInt32} (h : id ≠ f.streamId) :
    (d.dispatch f).streams.lookup id = d.streams.lookup id := by
  unfold dispatch
  cases d.streams.lookup f.streamId <;> exact AList.lookup_insert_ne h

theorem lookup_dispatch_self (d : Dispatcher) (f : Frame) :
    (d.dispatch f).streams.lookup f.streamId =
      some (((d.streams.lookup f.streamId).map fun s => s.send f.payload).getD
        ⟨[], [f.payload], true⟩) := by
  unfold dispatch
  cases d.streams.lookup f.streamId <;> simp

theorem Sound.modify {d : Dispatcher} (h : d.Sound) (id : UInt32) (f : Stream → Stream) :
    (d.modify id f).Sound := by
  obtain ⟨hnodup, hmem⟩ := h
  have hmem' : ∀ id', id' ∈ (d.modify id f).created ↔
      ((d.modify id f).streams.lookup id').isSome := by
    intro id'
    rw [created_modify, hmem, lookup_modify]
    split
    · next hid => rw [hid, Option.isSome_map]
    · rfl
  exact ⟨by rwa [created_modify], hmem'⟩

theorem Sound.dispatch {d : Dispatcher} (h : d.Sound) (f : Frame) : (d.dispatch f).Sound := by
  obtain ⟨hnodup, hmem⟩ := h
  have hself := lookup_dispatch_self d f
  have hother : ∀ id, id ≠ f.streamId →
      (d.dispatch f).streams.lookup id = d.streams.lookup id := fun id => lookup_dispatch_ne d
  cases hold : d.streams.lookup f.streamId with
  | some s =>
      have hcreated : (d.dispatch f).created = d.created := by simp [Dispatcher.dispatch, hold]
      rw [Sound, hcreated]
      have hmem' : ∀ id, id ∈ d.created ↔ ((d.dispatch f).streams.lookup id).isSome := by
        intro id
        by_cases hid : id = f.streamId
        · rw [hid, hmem, hself, hold]
          rfl
        · rw [hmem, hother id hid]
      exact ⟨hnodup, hmem'⟩
  | none =>
      have hcreated : (d.dispatch f).created = d.created ++ [f.streamId] := by
        simp [Dispatcher.dispatch, hold]
      have hfresh : f.streamId ∉ d.created := by simp [hmem, hold]
      rw [Sound, hcreated]
      have hmem' : ∀ id, id ∈ d.created ++ [f.streamId] ↔
          ((d.dispatch f).streams.lookup id).isSome := by
        intro id
        by_cases hid : id = f.streamId
        · subst hid
          simp [hself]
        · simp [hid, hmem, hother id hid]
      exact ⟨List.nodup_append_comm.mpr (by simpa using ⟨hfresh, hnodup⟩), hmem'⟩

theorem Sound.step {d : Dispatcher} (h : d.Sound) (e : StreamEvent) : (d.step e).Sound := by
  cases e with
  | frame f => exact h.dispatch f
  | recv id => exact h.modify id _
  | terminated id => exact h.modify id _

theorem created_step (d : Dispatcher) (h : d.Sound) (e : StreamEvent) (id : UInt32) :
    id ∈ (d.step e).created ↔ id ∈ d.created ∨ ∃ f, arrival e = some f ∧ f.streamId = id := by
  cases e with
  | frame f =>
      simp only [arrival, Option.some.injEq, exists_eq_left']
      rw [(h.step _).2, h.2, Dispatcher.step]
      by_cases hid : id = f.streamId
      · subst hid
        simp [lookup_dispatch_self]
      · simp [lookup_dispatch_ne d hid, Ne.symm hid]
  | recv id' => simp [Dispatcher.step, arrival]
  | terminated id' => simp [Dispatcher.step, arrival]

/-- One event, for a stream whose handler does not end in it. -/
theorem running_step {d : Dispatcher} {id : UInt32} (h : d.Running id) {e : StreamEvent}
    (he : e ≠ .terminated id) : (d.step e).Running id := by
  intro s hs
  cases e with
  | frame f =>
      by_cases hid : id = f.streamId
      · subst hid
        rw [Dispatcher.step, lookup_dispatch_self] at hs
        cases hold : d.streams.lookup f.streamId with
        | none =>
            rw [hold] at hs
            rw [← Option.some.inj hs]
            rfl
        | some old =>
            rw [hold] at hs
            rw [← Option.some.inj hs]
            simp [Stream.send_running (h old hold), h old hold]
      · rw [Dispatcher.step, lookup_dispatch_ne d hid] at hs
        exact h s hs
  | recv id' =>
      rw [Dispatcher.step, lookup_modify] at hs
      split at hs
      · next hid =>
          obtain ⟨old, hold, rfl⟩ := Option.map_eq_some_iff.mp hs
          rw [Stream.recv_running]
          exact h old (hid ▸ hold)
      · exact h s hs
  | terminated id' =>
      have hid : id ≠ id' := fun heq => he (heq ▸ rfl)
      rw [Dispatcher.step, lookup_modify, if_neg hid] at hs
      exact h s hs

theorem queued_step {d : Dispatcher} {id : UInt32} (h : d.Running id) {e : StreamEvent}
    (he : e ≠ .terminated id) :
    (d.step e).queued id = d.queued id ++ payloadsOf id ([e].filterMap arrival) := by
  cases e with
  | frame f =>
      by_cases hid : id = f.streamId
      · subst hid
        have hnew : payloadsOf f.streamId ([StreamEvent.frame f].filterMap arrival) =
            [f.payload] := by simp [payloadsOf, arrival]
        rw [hnew, queued, Dispatcher.step, lookup_dispatch_self, queued]
        cases hold : d.streams.lookup f.streamId with
        | none => rfl
        | some old =>
            simp only [Option.map_some, Option.getD_some, Stream.send_running (h old hold),
              List.append_assoc]
      · rw [queued, Dispatcher.step, lookup_dispatch_ne d hid, queued]
        simp [payloadsOf, arrival, Ne.symm hid]
  | recv id' =>
      have hnone : payloadsOf id ([StreamEvent.recv id'].filterMap arrival) = [] := rfl
      rw [hnone, List.append_nil, queued, queued, Dispatcher.step, lookup_modify]
      by_cases hid : id = id'
      · rw [if_pos hid, hid]
        cases d.streams.lookup id' with
        | none => rfl
        | some s => exact s.recv_queued
      · rw [if_neg hid]
  | terminated id' =>
      have hid : id ≠ id' := fun heq => he (heq ▸ rfl)
      simp [queued, Dispatcher.step, lookup_modify, hid, payloadsOf, arrival]

/-- What holds of the table and of one stream after any interleaving. -/
theorem run_spec {d : Dispatcher} (h : d.Sound) (es : List StreamEvent) :
    (d.run es).Sound ∧
      (∀ id, id ∈ (d.run es).created ↔
        id ∈ d.created ∨ ∃ f ∈ es.filterMap arrival, f.streamId = id) ∧
      ∀ id, d.Running id → .terminated id ∉ es →
        (d.run es).queued id = d.queued id ++ payloadsOf id (es.filterMap arrival) := by
  induction es generalizing d with
  | nil => exact ⟨h, by simp [run], by simp [run, payloadsOf]⟩
  | cons e es ih =>
      obtain ⟨hsound, hcreated, hqueued⟩ := ih (h.step e)
      have hcreated' : ∀ id, id ∈ (d.run (e :: es)).created ↔
          id ∈ d.created ∨ ∃ f ∈ (e :: es).filterMap arrival, f.streamId = id := by
        intro id
        rw [run, List.foldl_cons, ← run, hcreated, created_step d h]
        cases harr : arrival e <;> simp [harr, or_assoc]
      have hqueued' : ∀ id, d.Running id → .terminated id ∉ e :: es →
          (d.run (e :: es)).queued id =
            d.queued id ++ payloadsOf id ((e :: es).filterMap arrival) := by
        intro id hrun hnot
        have he : e ≠ .terminated id := fun heq => hnot (heq ▸ List.mem_cons_self)
        have hrest : .terminated id ∉ es := fun hmem => hnot (List.mem_cons_of_mem e hmem)
        rw [run, List.foldl_cons, ← run, hqueued id (running_step hrun he) hrest,
          queued_step hrun he, List.append_assoc, ← payloadsOf_append, ← List.filterMap_append]
        rfl
      exact ⟨hsound, hcreated', hqueued'⟩

theorem sound_new : new.Sound := ⟨List.nodup_nil, by simp [new]⟩

theorem running_new (id : UInt32) : new.Running id := by simp [Running, new]

end Dispatcher

/-- Frames written one after another, the last of them possibly cut, reach the
streams exactly: each payload once, in order, on the stream it names. -/
theorem mux_delivery {σ : Type} (src : Source σ) (frames : List Frame)
    (hframes : ∀ f ∈ frames, f.payload.length < 2 ^ 32) (last : Frame)
    (hlast : last.payload.length < 2 ^ 32) (k : ℕ)
    (hk : k < (encodeMuxFrame last.streamId last.payload).length) (reader : σ)
    (hreader : src.unread reader =
      (frames.flatMap fun f => encodeMuxFrame f.streamId f.payload) ++
        (encodeMuxFrame last.streamId last.payload).take k)
    (events : List StreamEvent) (hevents : events.filterMap arrival = delivered src reader) :
    delivered src reader = frames ∧
      (Dispatcher.new.run events).created.Nodup ∧
      (∀ id, id ∈ (Dispatcher.new.run events).created ↔ ∃ f ∈ frames, f.streamId = id) ∧
      ∀ id, .terminated id ∉ events →
        (Dispatcher.new.run events).queued id = payloadsOf id frames := by
  have hdelivered : delivered src reader = frames :=
    delivered_encoded src hframes hlast hk hreader
  obtain ⟨hsound, hcreated, hqueued⟩ := Dispatcher.run_spec Dispatcher.sound_new events
  rw [hevents, hdelivered] at hcreated hqueued
  have hcreated' : ∀ id, id ∈ (Dispatcher.new.run events).created ↔
      ∃ f ∈ frames, f.streamId = id := by
    intro id
    rw [hcreated]
    simp [Dispatcher.new]
  exact ⟨hdelivered, hsound.1, hcreated', fun id hid =>
    hqueued id (Dispatcher.running_new id) hid⟩

/-- Two streams interleaved, one of them with an empty payload, and a third frame
cut inside its payload. -/
theorem mux_delivery_interleaved :
    (Dispatcher.new.run [.frame ⟨7, [1]⟩, .frame ⟨9, []⟩, .recv 7, .terminated 9,
        .frame ⟨7, [2, 3]⟩]).created.Nodup ∧
      (Dispatcher.new.run [.frame ⟨7, [1]⟩, .frame ⟨9, []⟩, .recv 7, .terminated 9,
        .frame ⟨7, [2, 3]⟩]).queued 7 = [[1], [2, 3]] := by
  have hframes : ∀ f ∈ [(⟨7, [1]⟩ : Frame), ⟨9, []⟩, ⟨7, [2, 3]⟩], f.payload.length < 2 ^ 32 := by
    decide
  have hlast : (⟨8, [4, 5]⟩ : Frame).payload.length < 2 ^ 32 := by decide
  have hk : 9 < (⟨8, [4, 5]⟩ : Frame).encode.length := by decide
  have hdelivered := delivered_encoded Source.contiguous hframes hlast hk rfl
  obtain ⟨_, hnodup, _, hqueued⟩ := mux_delivery Source.contiguous _ hframes _ hlast 9 hk _ rfl
    [.frame ⟨7, [1]⟩, .frame ⟨9, []⟩, .recv 7, .terminated 9, .frame ⟨7, [2, 3]⟩]
    hdelivered.symm
  exact ⟨hnodup, hqueued 7 (by decide)⟩

/-! ## Reading a stream -/

structure MuxStream where
  rx : List Bytes
  buf : Bytes
  pos : ℕ

namespace MuxStream

def new (payloads : List Bytes) : MuxStream := ⟨payloads, [], 0⟩

/-- Take the next payload once the buffer is exhausted. -/
def refill (s : MuxStream) : Option MuxStream :=
  if s.pos ≥ s.buf.length then
    match s.rx with
    | data :: rx => some ⟨rx, data, 0⟩
    | [] => none
  else some s

def advance (s : MuxStream) (n : ℕ) : MuxStream := { s with pos := s.pos + n }

def unread (s : MuxStream) : Bytes := s.buf.drop s.pos ++ s.rx.flatten

/-- A refill changes no byte, and either shortens the channel or was not needed. -/
theorem refill_some {s t : MuxStream} (h : s.refill = some t) :
    s.unread = t.unread ∧
      (t.rx.length < s.rx.length ∨ t.rx.length = s.rx.length ∧ t.pos < t.buf.length) := by
  unfold refill at h
  split at h
  · next hpos =>
      cases hrx : s.rx with
      | nil =>
          rw [hrx] at h
          cases h
      | cons data rx =>
          rw [hrx] at h
          cases h
          have hempty : s.buf.drop s.pos = [] := List.drop_eq_nil_of_le hpos
          simp [unread, hempty, hrx]
  · next hpos =>
      cases h
      exact ⟨rfl, .inr ⟨rfl, by omega⟩⟩

theorem refill_none {s : MuxStream} (h : s.refill = none) : s.unread = [] := by
  unfold refill at h
  split at h
  · next hpos =>
      cases hrx : s.rx with
      | nil => simp [unread, hrx, List.drop_eq_nil_of_le hpos]
      | cons data rx =>
          rw [hrx] at h
          cases h
  · cases h

/-- The read loop: `need` bytes are still to be copied. -/
def readExact (s : MuxStream) (need : ℕ) : Option (Bytes × MuxStream) :=
  if hneed : need = 0 then some ([], s)
  else
    match h : s.refill with
    | none => none
    | some t =>
        let avail := min (t.buf.length - t.pos) need
        have : need - min (t.buf.length - t.pos) need + t.rx.length < need + s.rx.length := by
          have := (refill_some h).2
          omega
        (readExact (t.advance avail) (need - avail)).map fun r =>
          ((t.buf.drop t.pos).take avail ++ r.1, r.2)
termination_by need + s.rx.length

theorem unread_advance (s : MuxStream) (n : ℕ) :
    s.unread = (s.buf.drop s.pos).take n ++ (s.advance n).unread := by
  simp only [unread, advance, ← List.append_assoc, ← List.drop_drop, List.take_append_drop]

theorem readExact_none {s : MuxStream} {need : ℕ} (hneed : need ≠ 0) (h : s.refill = none) :
    s.readExact need = none := by
  rw [readExact, dif_neg hneed]
  split
  · rfl
  · next hsome => rw [h] at hsome; cases hsome

theorem readExact_some {s t : MuxStream} {need : ℕ} (hneed : need ≠ 0)
    (h : s.refill = some t) :
    s.readExact need =
      ((t.advance (min (t.buf.length - t.pos) need)).readExact
        (need - min (t.buf.length - t.pos) need)).map fun r =>
          ((t.buf.drop t.pos).take (min (t.buf.length - t.pos) need) ++ r.1, r.2) := by
  rw [readExact, dif_neg hneed]
  split
  · next hnone => rw [h] at hnone; cases hnone
  · next t' hsome =>
      rw [h] at hsome
      cases hsome
      rfl

/-- The two outcomes of an exact read, in terms of the unread bytes alone. -/
theorem readExact_spec (s : MuxStream) (need : ℕ) :
    (∀ bs t, s.readExact need = some (bs, t) → s.unread = bs ++ t.unread ∧ bs.length = need) ∧
      (s.readExact need = none → s.unread.length < need) := by
  induction s, need using readExact.induct with
  | case1 s => simp [readExact]
  | case2 s need hneed h =>
      rw [readExact_none hneed h, refill_none h]
      exact ⟨fun _ _ hsome => (by cases hsome), fun _ => Nat.pos_of_ne_zero hneed⟩
  | case3 s need hneed t h avail _ ih =>
      obtain ⟨ihsome, ihnone⟩ := ih
      have hle : avail ≤ t.buf.length - t.pos := Nat.min_le_left _ _
      have hneed' : avail ≤ need := Nat.min_le_right _ _
      have htake : ((t.buf.drop t.pos).take avail).length = avail := by
        rw [List.length_take, List.length_drop]
        omega
      have hunread := (refill_some h).1.trans (t.unread_advance avail)
      rw [readExact_some hneed h]
      constructor
      · intro bs t' hsome
        obtain ⟨⟨cs, u⟩, hread, heq⟩ := Option.map_eq_some_iff.mp hsome
        obtain ⟨rfl, rfl⟩ := Prod.mk.inj heq
        obtain ⟨hrest, hlength⟩ := ihsome cs u hread
        rw [hunread, hrest, List.append_assoc, List.length_append, htake, hlength]
        exact ⟨rfl, by omega⟩
      · intro hnone
        have hshort := ihnone (Option.map_eq_none_iff.mp hnone)
        rw [hunread, List.length_append, htake]
        omega

def source : Source MuxStream where
  readExact := readExact
  unread := unread
  unread_some := fun h => (readExact_spec _ _).1 _ _ h
  unread_none := fun h => (readExact_spec _ _).2 h

end MuxStream

end Pinhead.NinepMux
