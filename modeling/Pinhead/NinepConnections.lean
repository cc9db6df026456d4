import Pinhead.NinepMux
import Pinhead.NinepRuns

/-!
# The connection loop

`runConnection` reads messages off a stream and hands each one to
`handle_message`; an error of the handler is replied and the loop goes on. It
ends at the first read that falls short and at a size field that asks for too
large a body. The listener for Unix sockets carries its own copy of the same
loop.

The loop is written for an arbitrary handler in an arbitrary monad. What it calls
therefore does not depend on anything the handler does, and recording the calls
is one of the readings.
-/
namespace Pinhead.NinepConnections
open ByteStrings ByteStreams Resumption NinepShared NinepHandlers NinepRuns NinepMux

/-- The size field counts the header; a smaller size means an empty body. -/
def messageFraming : Framing Message where
  headerLength := 7
  header_pos := by decide
  bodyLength header :=
    let bodyLen := leValue (header.take 4) - 7
    if bodyLen > 65536 then none else some bodyLen
  frame header body :=
    ⟨(header.drop 4).headD 0, UInt16.ofNat (leValue ((header.drop 5).take 2)), body⟩

section
variable {m : Type → Type} [Monad m] (handleMessage : Message → ExceptT String m Unit)
  (sendError : UInt16 → String → m Unit)

def serveWith (msg : Message) : m Unit := do
  match ← (handleMessage msg).run with
  | .ok () => pure ()
  | .error e => sendError msg.tag e

def runConnection {σ : Type} (src : Source σ) (stream : σ) : m Unit :=
  messageFraming.loop src (serveWith handleMessage sendError) stream

end

/-- A handler that keeps the list of its calls and answers each one by the whole
history up to it. -/
def record (outcome : List Message → Except String Unit) (msg : Message) :
    ExceptT String (StateM (List Message)) Unit :=
  ExceptT.mk do
    modify (· ++ [msg])
    outcome <$> get

/-- The messages handed to the handler, for any outcomes of the calls. -/
def calls {σ : Type} (outcome : List Message → Except String Unit) (src : Source σ) (stream : σ) :
    List Message :=
  ((runConnection (record outcome) (fun _ _ => pure ()) src stream).run []).2

def encodeMessage (msg : Message) : Bytes := message msg.ty msg.tag msg.body

theorem spells_encodeMessage {msg : Message} (h : msg.body.length ≤ 65536) :
    messageFraming.Spells msg (encodeMessage msg) := by
  have hsize : leValue (leBytes 4 (7 + msg.body.length)) = 7 + msg.body.length :=
    leValue_leBytes_of_lt (by omega)
  have htag : leValue (leBytes 2 msg.tag.toNat) = msg.tag.toNat :=
    leValue_leBytes_of_lt msg.tag.toNat_lt
  refine ⟨leBytes 4 (7 + msg.body.length) ++ [msg.ty] ++ leBytes 2 msg.tag.toNat, msg.body,
    rfl, ?_, ?_, ?_⟩
  · simp [messageFraming]
  · simp [messageFraming, hsize, h]
  · have hdrop : (leBytes 4 (7 + msg.body.length) ++ [msg.ty] ++ leBytes 2 msg.tag.toNat).drop 5 =
        leBytes 2 msg.tag.toNat := List.drop_left' (by simp)
    simp only [messageFraming, hdrop]
    simp [htag, List.take_of_length_le]

section Chunks
variable {σ : Type} {src : Source σ} {stream : σ} {msgs : List Message} {last : Message} {k : ℕ}

/-- Any source that carries the messages and then at most a part of one more. -/
theorem runConnection_encoded {m : Type → Type} [Monad m]
    (handleMessage : Message → ExceptT String m Unit) (sendError : UInt16 → String → m Unit)
    (hmsgs : ∀ msg ∈ msgs, msg.body.length ≤ 65536) (hlast : last.body.length ≤ 65536)
    (hk : k < (encodeMessage last).length)
    (h : src.unread stream = msgs.flatMap encodeMessage ++ (encodeMessage last).take k) :
    runConnection handleMessage sendError src stream =
      msgs.forM (serveWith handleMessage sendError) :=
  Framing.loop_truncated _ (fun msg hmsg => spells_encodeMessage (hmsgs msg hmsg))
    (spells_encodeMessage hlast) hk h

theorem record_serve (outcome : List Message → Except String Unit) (msg : Message)
    (acc : List Message) :
    (serveWith (record outcome) (fun _ _ => pure ()) msg).run acc = ((), acc ++ [msg]) := by
  change (match outcome (acc ++ [msg]) with
    | .ok () => (pure () : StateM (List Message) Unit)
    | .error _ => pure ()).run (acc ++ [msg]) = _
  split <;> rfl

theorem calls_encoded (outcome : List Message → Except String Unit)
    (hmsgs : ∀ msg ∈ msgs, msg.body.length ≤ 65536) (hlast : last.body.length ≤ 65536)
    (hk : k < (encodeMessage last).length)
    (h : src.unread stream = msgs.flatMap encodeMessage ++ (encodeMessage last).take k) :
    calls outcome src stream = msgs := by
  rw [calls, runConnection_encoded _ _ hmsgs hlast hk h]
  exact forM_recorded (record_serve outcome) msgs []

end Chunks

/-- A message whose body is too long ends the loop at its header. -/
theorem runConnection_refused {m : Type → Type} [Monad m]
    (handleMessage : Message → ExceptT String m Unit) (sendError : UInt16 → String → m Unit)
    {σ : Type} {src : Source σ} {stream : σ} {msg : Message} (hlong : 65536 < msg.body.length)
    (hsize : msg.body.length < 2 ^ 32 - 7) {rest : Bytes}
    (h : src.unread stream = encodeMessage msg ++ rest) :
    runConnection handleMessage sendError src stream = pure () := by
  have hvalue : leValue (leBytes 4 (7 + msg.body.length)) = 7 + msg.body.length :=
    leValue_leBytes_of_lt (by omega)
  have hheader : src.unread stream = (leBytes 4 (7 + msg.body.length) ++ [msg.ty] ++
      leBytes 2 msg.tag.toNat) ++ (msg.body ++ rest) := by
    rw [h, encodeMessage, message]
    simp only [List.append_assoc]
  exact Framing.loop_none _ (Framing.next_refused (by simp [messageFraming])
    (by simp [messageFraming, hvalue, hlong]) hheader)

/-- However the bytes are cut into payloads, the loop over a multiplexed stream
does what the loop over the contiguous bytes does: it handles the complete
messages, in order, and nothing of a message that is cut. -/
theorem chunking_irrelevant (msgs : List Message)
    (hmsgs : ∀ msg ∈ msgs, msg.body.length ≤ 65536) (last : Message)
    (hlast : last.body.length ≤ 65536) (k : ℕ) (hk : k < (encodeMessage last).length)
    (payloads : List Bytes)
    (hpayloads : payloads.flatten = msgs.flatMap encodeMessage ++ (encodeMessage last).take k) :
    (∀ outcome, calls outcome MuxStream.source (MuxStream.new payloads) = msgs ∧
      calls outcome Source.contiguous payloads.flatten = msgs) ∧
    ∀ (m : Type → Type) [Monad m] (handleMessage : Message → ExceptT String m Unit)
      (sendError : UInt16 → String → m Unit),
      runConnection handleMessage sendError MuxStream.source (MuxStream.new payloads) =
        msgs.forM (serveWith handleMessage sendError) ∧
      runConnection handleMessage sendError Source.contiguous payloads.flatten =
        msgs.forM (serveWith handleMessage sendError) := by
  constructor
  · intro outcome
    exact ⟨calls_encoded outcome hmsgs hlast hk hpayloads,
      calls_encoded outcome hmsgs hlast hk hpayloads⟩
  · intro m _ handleMessage sendError
    exact ⟨runConnection_encoded _ _ hmsgs hlast hk hpayloads,
      runConnection_encoded _ _ hmsgs hlast hk hpayloads⟩

/-- Two flushes and half a header, in payloads that straddle every boundary. -/
theorem chunking_irrelevant_flushes :
    calls (fun _ => .error "refused") MuxStream.source
      (MuxStream.new [[7, 0, 0], [], [0, 108, 1, 0, 8, 0, 0, 0, 108, 2, 0], [5], [7, 0], [0]]) =
      [⟨TFLUSH, 1, []⟩, ⟨TFLUSH, 2, [5]⟩] := by
  have h := chunking_irrelevant [⟨TFLUSH, 1, []⟩, ⟨TFLUSH, 2, [5]⟩] (by decide)
    ⟨TFLUSH, 3, []⟩ (by decide) 3 (by decide)
    [[7, 0, 0], [], [0, 108, 1, 0, 8, 0, 0, 0, 108, 2, 0], [5], [7, 0], [0]] (by decide)
  exact (h.1 _).1

/-- The tasks of a listener are connection loops over the bytes they read. -/
theorem runConnection_serveAll {σ : Type} {src : Source σ} {stream : σ} {msgs : List Message}
    {last : Message} {k : ℕ} (hmsgs : ∀ msg ∈ msgs, msg.body.length ≤ 65536)
    (hlast : last.body.length ≤ 65536) (hk : k < (encodeMessage last).length)
    (h : src.unread stream = msgs.flatMap encodeMessage ++ (encodeMessage last).take k) :
    runConnection handleMessage sendError src stream = serveAll msgs := by
  rw [runConnection_encoded _ _ hmsgs hlast hk h]
  clear h hmsgs
  induction msgs with
  | nil => rfl
  | cons msg msgs ih => exact congrArg (fun rest => serveMessage msg >>= fun _ => rest) ih

end Pinhead.NinepConnections
