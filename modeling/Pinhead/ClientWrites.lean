import Pinhead.ClientReads
import Pinhead.OpenFids

/-!
# Writing a whole file over the client

The client cuts the data into pieces that leave 24 bytes of the message size, and sends
them at increasing offsets. What is said of the messages holds whatever the answers are,
for a message size that a server can have negotiated. What arrives at the router is read
off the server's own history.
-/
namespace Pinhead.ClientWrites
open ByteStrings ByteStreams FsRequests Resumption Histories NinepShared NinepHandlers NinepRuns
open NinepTotality NinepDatagrams NinepConnections NinepScripts NinepCalls NinepLockstep OpenFids
open NinepClient (components)
open ClientOperations FidBindings ClientSessions ClientReads

/-! ## The pieces -/

/-- The data in the messages, one behind the other. -/
def sent (h : List (Answered wire)) : Bytes := h.flatMap fun e => match e.op with
  | .write _ _ chunk => chunk
  | _ => []

/-- What a message that carries data has to be behind the messages in `h`. -/
structure Piece (data : Bytes) (msize : UInt32) (h : List (Answered wire)) (offset : UInt64)
    (chunk : Bytes) : Prop where
  offset : offset.toNat = (sent h).length
  nonempty : chunk ≠ []
  fits : 23 + chunk.length ≤ msize.toNat
  covers : sent h ++ chunk <+: data

def Cut (data : Bytes) (msize : UInt32) (h : List (Answered wire)) : Call → Prop
  | .write _ offset chunk => Piece data msize h offset chunk
  | .read _ _ _ => False
  | _ => True

abbrev cutting (data : Bytes) (msize : UInt32) : Spec wire (List (Answered wire)) :=
  observed (fun h e => h ++ [e]) (fun _ _ => True) (Cut data msize)

/-- An operation that succeeds has sent all the data, and none runs out of rounds. -/
def Through {A : Type} (data : Bytes) : Except Stop A → List (Answered wire) → Prop
  | .ok _, h => sent h = data
  | .error stop, _ => stop ≠ .exhausted

section
variable {data : Bytes} {msize fid : UInt32} {offset : UInt64} {fuel : ℕ}
  {h : List (Answered wire)}

def chunkAt (data : Bytes) (msize : UInt32) (offset : UInt64) : Bytes :=
  (data.drop offset.toNat).take (msize.toNat - 24)

theorem chunkAt_length : (chunkAt data msize offset).length =
    min (data.length - offset.toNat) (msize.toNat - 24) := by
  rw [chunkAt, List.length_take, List.length_drop, Nat.min_comm]

theorem writeLoop_done (hend : data.length ≤ offset.toNat) :
    writeLoop fid msize data (fuel + 1) offset = pure () := by
  rw [writeLoop, if_neg (by omega)]

/-- One round of the loop sends the next piece. -/
theorem writeLoop_round (hlt : offset.toNat < data.length) (hmsize : 24 ≤ msize.toNat) :
    writeLoop fid msize data (fuel + 1) offset = (do
      let _ ← sendRecv (.write fid offset (chunkAt data msize offset))
      writeLoop fid msize data fuel
        (offset + UInt64.ofNat (chunkAt data msize offset).length)) := by
  have hchunk : (data.drop offset.toNat).take
      (min (data.length - offset.toNat) (msize.toNat - 24)) = chunkAt data msize offset := by
    rw [chunkAt, Nat.min_comm, ← List.length_drop, ← List.take_take, List.take_length]
  rw [writeLoop, if_pos hlt, minus, if_pos hmsize, pure_bind]
  dsimp only
  rw [part_of_le (by omega) (by omega), pure_bind, Nat.add_sub_cancel_left, hchunk, chunkAt_length]

theorem offset_next (hlt : offset.toNat < data.length) (hdata : data.length < 2 ^ 63) :
    (offset + UInt64.ofNat (chunkAt data msize offset).length).toNat =
      offset.toNat + (chunkAt data msize offset).length := by
  have hle := @chunkAt_length data msize offset
  rw [UInt64.toNat_add, UInt64.toNat_ofNat', Nat.mod_eq_of_lt (by omega), Nat.mod_eq_of_lt (by omega)]

theorem sent_append (h k : List (Answered wire)) : sent (h ++ k) = sent h ++ sent k :=
  List.flatMap_append

/-- A message is sent where it has to be, and its answer may be any. -/
theorem cutting_sendRecv {c : Call} {Q : Except Stop Bytes → List (Answered wire) → Prop}
    (hcut : Cut data msize h c) (hok : ∀ body, Q (.ok body) (h ++ [⟨c, .ok body⟩]))
    (herr : ∀ e, Q (.error (.failed e)) (h ++ [⟨c, .error e⟩])) :
    wp (cutting data msize) (sendRecv c).run Q h := by
  refine ⟨hcut, fun r _ => ?_⟩
  cases r with
  | ok body => exact hok body
  | error e => exact herr e

theorem cutting_writeLoop (hmsize : 24 < msize.toNat) (hdata : data.length < 2 ^ 63)
    (hoffset : offset.toNat ≤ data.length) (hsent : sent h = data.take offset.toNat)
    (hfuel : data.length - offset.toNat < fuel) :
    wp (cutting data msize) (writeLoop fid msize data fuel offset).run (Through data) h := by
  induction fuel generalizing offset h with
  | zero => omega
  | succ fuel ih =>
      by_cases hlt : offset.toNat < data.length
      · have hlength := @chunkAt_length data msize offset
        have hcovers : sent h ++ chunkAt data msize offset =
            data.take (offset.toNat + (msize.toNat - 24)) := by
          rw [hsent, chunkAt, List.take_add]
        have hnext : sent h ++ chunkAt data msize offset =
            data.take (offset.toNat + (chunkAt data msize offset).length) := by
          rw [hcovers, hlength, List.take_eq_take_iff]
          omega
        rw [writeLoop_round hlt hmsize.le]
        refine wp_seq (cutting_sendRecv ⟨?_, ?_, ?_, ?_⟩ (fun body => ?_) nofun)
        · rw [hsent, List.length_take]
          omega
        · rw [← List.length_pos_iff]
          omega
        · omega
        · rw [hnext]
          exact List.take_prefix _ _
        · have hmoved := @offset_next data msize offset hlt hdata
          refine ih (by omega) ?_ (by omega)
          rw [sent_append, hmoved, ← hnext]
          simp [sent]
      · rw [writeLoop_done (by omega)]
        change sent h = data
        rw [hsent, List.take_of_length_le (by omega)]

theorem cutting_writeFile {c : Client} (hmsize : 24 < c.msize.toNat) {path text : String}
    (hdata : (asBytes text).length < 2 ^ 63) (hfuel : (asBytes text).length < fuel) :
    wp (cutting (asBytes text) c.msize) (writeFile fuel c path text).run
      (Through (asBytes text)) [] := by
  refine wp_seq (wp_seq (cutting_sendRecv trivial (fun body => ?_) nofun))
  refine wp_seq (wp_uintFrom ?_ nofun)
  dsimp only [onSuccess]
  split
  · exact nofun
  refine wp_seq (wp_seq (cutting_sendRecv trivial (fun body => ?_) nofun))
  refine wp_seq (wp_mono (observed_monotone _ _ _) _ ?_ _
    (cutting_writeLoop hmsize hdata (Nat.zero_le _) rfl hfuel))
  intro r h hr
  cases r with
  | error stop => exact hr
  | ok _ =>
      have hclunk : ∀ a, sent (h ++ [⟨.clunk c.nextFid, a⟩]) = asBytes text := by
        intro a
        rw [sent_append, show sent h = asBytes text from hr]
        exact List.append_nil _
      refine wp_seq ?_
      rw [wp_ignoring]
      exact wp_seq (cutting_sendRecv trivial (fun _ => hclunk _) fun _ => hclunk _)

/-! ## The same loop against the server -/

variable {F : Set UInt32} {router : Request → Answer → Prop} {A : Call → Option Outcome → Prop}
  {b : Bindings}

def Writing : Call → Prop
  | .write _ _ _ => True
  | _ => False

theorem heard_write {chunk : Bytes} (hlength : chunk.length < 2 ^ 32 - 23)
    {Q : Except Stop Bytes → View → Prop} (hok : ∀ body, Q (.ok body) ⟨b, true⟩)
    (herr : ∀ e, A (.write fid offset chunk) (some (.failed e)) →
      ∀ text, Q (.error (.failed text)) ⟨b, true⟩)
    (hcut : A (.write fid offset chunk) none → ∀ e, Q (.error (.failed e)) ⟨b, false⟩) :
    wp (heard F router A) (sendRecv (.write fid offset chunk)).run Q ⟨b, true⟩ := by
  have hsize : (Call.write fid offset chunk).body.length = 16 + chunk.length := by
    simp [Call.body]
    omega
  refine heard_sendRecv (by omega) (fun _ body b' heffect _ => ?_) (fun e _ => herr e)
    fun _ => hcut
  cases heffect with
  | write _ _ =>
      refine ⟨?_, hok _⟩
      rw [leBytes_length]
      decide

/-- An operation that does not go down, and succeeds if all its exchanges do. -/
def Steady (A : Call → Option Outcome → Prop) {B : Type} : Except Stop B → Prop
  | .ok _ => True
  | .error (.failed _) => ∃ c, (Opening c ∨ Writing c) ∧ (A c none ∨ ∃ e, A c (some (.failed e)))
  | .error _ => False

theorem heard_writeLoop (hmsize : 24 < msize.toNat) (hsmall : msize.toNat ≤ 65536)
    (hdata : data.length < 2 ^ 63) (hfuel : data.length - offset.toNat < fuel) :
    wp (heard F router A) (writeLoop fid msize data fuel offset).run
      (fun r v => Steady A r ∧ (r = .ok () → v = ⟨b, true⟩)) ⟨b, true⟩ := by
  induction fuel generalizing offset with
  | zero => omega
  | succ fuel ih =>
      by_cases hlt : offset.toNat < data.length
      · have hlength := @chunkAt_length data msize offset
        have hmoved := @offset_next data msize offset hlt hdata
        rw [writeLoop_round hlt hmsize.le]
        refine wp_seq (heard_write (by omega) (fun _ => ih (by omega)) (fun e hA text => ?_)
          fun hA e => ?_)
        · exact ⟨⟨.write _ _ _, Or.inr trivial, Or.inr ⟨e, hA⟩⟩, nofun⟩
        · exact ⟨⟨.write _ _ _, Or.inr trivial, Or.inl hA⟩, nofun⟩
      · rw [writeLoop_done (by omega)]
        exact ⟨trivial, fun _ => rfl⟩

theorem heard_writeFile {c : Client} (hmsize : 24 < c.msize.toNat) (hsmall : c.msize.toNat ≤ 65536)
    {path text : String} (hsize : (Call.walk 1 c.nextFid (components path)).body.length < 2 ^ 32 - 7)
    (hdata : (asBytes text).length < 2 ^ 63) (hfuel : (asBytes text).length < fuel) :
    wp (heard F router A) (writeFile fuel c path text).run (fun r _ => Steady A r) ⟨b, true⟩ := by
  refine wp_seq (heard_walk hsize (fun x _ => ?_) (fun e hA text => ?_) fun _ hA e => ?_)
  · refine wp_seq (heard_openFid ?_ fun e hA text => ?_)
    · refine wp_seq (wp_mono heard_monotone _ ?_ _
        (heard_writeLoop hmsize hsmall hdata (Nat.lt_of_le_of_lt (Nat.sub_le _ _) hfuel)))
      rintro r v ⟨hsteady, hview⟩
      cases r with
      | ok _ =>
          obtain rfl := hview rfl
          exact wp_seq (heard_clunk trivial)
      | error stop =>
          rcases stop with e | _ | _
          · exact hsteady
          · exact hsteady
          · exact hsteady
    · exact ⟨.openFid _ _, Or.inl trivial, Or.inr ⟨e, hA⟩⟩
  · exact ⟨.walk _ _ _, Or.inl trivial, Or.inr ⟨e, hA⟩⟩
  · exact ⟨.walk _ _ _, Or.inl trivial, Or.inl hA⟩

end

/-! ## The message size -/

/-- The client has sent a Tversion, and the reply was one that the server gives to some
proposal. -/
def Versioned (c : Client) : Prop :=
  ∃ (c₀ : Client) (proposed : UInt32) (h : List (Answered ninep)) (body : Bytes),
    Ended (.version proposed) h (.replied body) ∧
    Passes (version c₀).run [⟨.version c₀.msize, .ok body⟩] (.done (.ok c))

theorem ended_version {proposed : UInt32} {h : List (Answered ninep)} {body : Bytes}
    (hE : Ended (.version proposed) h (.replied body)) :
    body = leBytes 4 (max 4096 (min proposed.toNat 65536)) ++ leBytes 2 6 ++ asBytes "9P2000" := by
  have hbody : (Call.version proposed).body.length ≤ 65536 := by
    have htext : (asBytes "9P2000").length = 6 := by decide
    simp [Call.body, htext]
  cases hE with
  | @replied h ty _ hp hs =>
      rw [handleMessage_eq_served (fields_message hbody)] at hp
      have hwritten : written (h ++ [⟨.send (message ty 0 body), ()⟩]) = message RVERSION 0
          (leBytes 4 (max 4096 (min proposed.toNat 65536)) ++ leBytes 2 6 ++ asBytes "9P2000") :=
        hp.traced (Q := fun _ h => written h = _)
          ⟨trivial, fun _ _ => ⟨trivial, fun _ _ => List.append_nil _⟩⟩
      rw [written_reply hs] at hwritten
      rw [← message_drop ty 0 body, hwritten, message_drop]

theorem traced_version (c : Client) : wp traced (version c).run (fun r h => ∀ c' body, r = .ok c' →
    h = [(⟨.version c.msize, .ok body⟩ : Answered wire)] →
    c'.msize = UInt32.ofNat (min (uintAt 4 body 0) 65536)) [] := by
  refine wp_seq ⟨trivial, fun r _ => ?_⟩
  cases r with
  | error e => exact nofun
  | ok body =>
      refine wp_seq (wp_uintFrom ?_ nofun)
      rintro c' body' hc hbody
      obtain rfl := Except.ok.inj hc
      cases hbody
      rfl

/-- The client takes over the server's answer, which leaves room for a header. -/
theorem versioned_bounds {c : Client} (hc : Versioned c) :
    4096 ≤ c.msize.toNat ∧ c.msize.toNat ≤ 65536 := by
  obtain ⟨c₀, proposed, h, body, hended, hp⟩ := hc
  have hmsize := hp.traced (traced_version c₀) c body rfl rfl
  rw [ended_version hended, List.append_assoc, uintAt_here 4 _ _ (by omega)] at hmsize
  rw [hmsize, UInt32.toNat_ofNat', Nat.mod_eq_of_lt (by omega)]
  omega

/-- Any message size between these bounds can be agreed on. -/
theorem versioned_of_bounds {c : Client} (hlow : 4096 ≤ c.msize.toNat)
    (hhigh : c.msize.toNat ≤ 65536) : Versioned c := by
  have hbody : (Call.version c.msize).body.length ≤ 65536 := by
    have htext : (asBytes "9P2000").length = 6 := by decide
    simp [Call.body, htext]
  have hkept : max 4096 (min c.msize.toNat 65536) = c.msize.toNat := by omega
  have hserved : Passes ((Call.version c.msize).served 0).run
      ([(⟨.locked (.writeMsize (max 4096 (min c.msize.toNat 65536))), ()⟩ : Answered ninep)] ++
        [⟨.send (message RVERSION 0 (leBytes 4 (max 4096 (min c.msize.toNat 65536)) ++
          leBytes 2 6 ++ asBytes "9P2000")), ()⟩]) (.done (.ok ())) :=
    .answer _ _ _ (.answer _ _ _ (.refl _))
  rw [hkept] at hserved
  refine ⟨c, c.msize, _, _, ended_of_served hbody hserved (silence_of rfl), ?_⟩
  refine .answer _ _ _ ?_
  have hlength : 0 + 4 ≤ (leBytes 4 c.msize.toNat ++ leBytes 2 6 ++ asBytes "9P2000").length := by
    rw [List.append_assoc, List.length_append, leBytes_length]
    omega
  have hread : uintAt 4 (leBytes 4 c.msize.toNat ++ leBytes 2 6 ++ asBytes "9P2000") 0 =
      c.msize.toNat := by
    rw [List.append_assoc, uintAt_here 4 _ _ (by omega)]
  change Passes (uintFrom 4 _ 0 >>= fun msize =>
    pure { c with msize := UInt32.ofNat (min msize 65536) } : Operation Client).run [] _
  rw [uintFrom_of_le hlength, pure_bind, hread, Nat.min_eq_left hhigh, UInt32.ofNat_toNat]
  exact .refl _

/-! ## What arrives -/

/-- The data that the router is asked to write. -/
def arrived (h : List (Answered ninep)) : Bytes := h.flatMap fun e => match e.op with
  | .route ⟨.write, _, data⟩ => data
  | _ => []

/-- A Twrite that is accepted asks the router for exactly its data. -/
theorem arrived_write {fid : UInt32} {offset : UInt64} {chunk body : Bytes}
    {h : List (Answered ninep)} (hlength : (Call.write fid offset chunk).body.length ≤ 65536)
    (hE : Ended (.write fid offset chunk) h (.replied body)) : arrived h = chunk := by
  obtain ⟨_, hp⟩ := ended_replied hE
  rw [handleMessage_eq_served (fields_message hlength)] at hp
  refine hp.traced (Q := fun r h => r = .ok () → arrived h = chunk) ?_ rfl
  refine wp_seq (wp_seq ⟨trivial, fun entry _ => ?_⟩)
  match entry with
  | none => exact nofun
  | some e =>
      refine wp_seq ⟨trivial, fun a _ => ?_⟩
      match a with
      | .routerGone => exact nofun
      | .handlerGone => exact nofun
      | .reply (.error e) => exact nofun
      | .reply (.ok r) => exact ⟨trivial, fun _ _ _ => List.append_nil _⟩

/-- No other message but a read asks for the contents of a file. -/
theorem arrived_other {x : Exchange} {eo : Option Outcome} (hx : Ends x eo)
    (hread : ∀ fid offset count, x.call ≠ .read fid offset count) (hwrite : ¬ Writing x.call) :
    arrived x.history = [] := by
  match eo with
  | none =>
      rw [show x.history = [] from hx]
      rfl
  | some o =>
      refine List.flatMap_eq_nil_iff.mpr fun e he => ?_
      obtain ⟨last, howes⟩ := (ended_serves hx).admitted (fun _ _ _ _ => trivial)
        (pays_serveMessage x.call.message none) e he
      split
      · next path data hop =>
          rw [hop] at howes
          obtain ⟨hty, _⟩ := howes (Or.inr (Or.inr rfl))
          cases hcall : x.call with
          | read fid offset count => exact absurd hcall (hread fid offset count)
          | write fid offset chunk =>
              rw [hcall] at hwrite
              exact absurd trivial hwrite
          | _ =>
              rw [hcall] at hty
              rcases hty with hty | hty <;> cases hty
      · rfl

/-- What arrives in a dialogue is what its messages carry. -/
theorem arrived_dialogue {k : List Exchange}
    (h : ∀ x ∈ k, arrived x.history = sent (answers [x])) :
    arrived (k.flatMap Exchange.history) = sent (answers k) := by
  induction k with
  | nil => rfl
  | cons x k ih =>
      obtain ⟨hx, hk⟩ := List.forall_mem_cons.mp h
      have hsplit : arrived (x.history ++ k.flatMap Exchange.history) =
          arrived x.history ++ arrived (k.flatMap Exchange.history) := List.flatMap_append
      rw [List.flatMap_cons, hsplit, hx, ih hk, ← sent_append]
      rfl

theorem arrived_exchange {x : Exchange} {data : Bytes} {msize : UInt32} {h : List (Answered wire)}
    (hmsize : msize.toNat ≤ 65536) (hcut : Cut data msize h x.call) {eo : Option Outcome}
    (heo : Ends x eo)
    (hwritten : Writing x.call → ∃ body, Ended x.call x.history (.replied body)) :
    arrived x.history = sent (answers [x]) := by
  obtain ⟨c, history, result⟩ := x
  cases c with
  | write fid offset chunk =>
      obtain ⟨body, hbody⟩ := hwritten trivial
      have hfits := Piece.fits hcut
      have hlength : (Call.write fid offset chunk).body.length ≤ 65536 := by
        simp [Call.body]
        omega
      rw [arrived_write hlength hbody]
      exact (List.append_nil chunk).symm
  | read fid offset count => exact hcut.elim
  | _ =>
      refine arrived_other heo (fun fid offset count hread => ?_) id
      cases hread

/-- Each message of a run is sent where it has to be. -/
theorem cut_of_passes {A : Type} {data : Bytes} {msize : UInt32} {p q : Prog wire A}
    {Q : A → List (Answered wire) → Prop} (hcut : wp (cutting data msize) p Q [])
    {before after : List (Answered wire)} {m : Call} {r : Except String Bytes}
    (hp : Passes p (before ++ (⟨m, r⟩ : Answered wire) :: after) q) : Cut data msize before m := by
  have hguaranteed := hp.guaranteed (fun _ _ => trivial) hcut
  rwa [foldl_append_singleton, List.nil_append] at hguaranteed

/-- The message of a piece fits the message size, and the server's loop takes it. -/
theorem Piece.taken {data : Bytes} {msize : UInt32} {h : List (Answered wire)} {fid : UInt32}
    {offset : UInt64} {chunk : Bytes} (hpiece : Piece data msize h offset chunk)
    (hmsize : msize.toNat ≤ 65536) :
    (encodeMessage (Call.write fid offset chunk).message).length ≤ msize.toNat ∧
    runConnection handleMessage sendError Source.contiguous
        (encodeMessage (Call.write fid offset chunk).message) =
      serveMessage (Call.write fid offset chunk).message := by
  have hfits := hpiece.fits
  have hbody : (Call.write fid offset chunk).body.length = 16 + chunk.length := by
    simp [Call.body]
    omega
  have hmessage : (encodeMessage (Call.write fid offset chunk).message).length =
      7 + (Call.write fid offset chunk).body.length := by
    simp [encodeMessage, message, Call.message]
    omega
  exact ⟨by omega, runConnection_served (by omega)⟩

/-- If all writes of a run are accepted, what arrives is what was sent. -/
theorem arrived_run {A : Type} {data : Bytes} {msize : UInt32} {p q : Prog wire A}
    {Q : A → List (Answered wire) → Prop} (hcut : wp (cutting data msize) p Q [])
    (hmsize : msize.toNat ≤ 65536) {k : List Exchange} (hp : Passes p (answers k) q)
    (hends : ∀ x ∈ k, ∃ eo, Ends x eo) (hwritten : ∀ x ∈ k, Writing x.call → Succeeds x) :
    arrived (k.flatMap Exchange.history) = sent (answers k) := by
  refine arrived_dialogue fun x hx => ?_
  obtain ⟨k₁, k₂, rfl⟩ := List.append_of_mem hx
  have hsplit : answers (k₁ ++ x :: k₂) =
      answers k₁ ++ (⟨x.call, x.result⟩ : Answered wire) :: answers k₂ := List.map_append
  rw [hsplit] at hp
  obtain ⟨eo, heo⟩ := hends x hx
  exact arrived_exchange hmsize (cut_of_passes hcut hp) heo fun hx' => (hwritten x hx hx').2

/-- An operation whose exchanges succeed succeeds. -/
theorem ok_of_steady {B : Type} {r : Except Stop B} (h : Steady (fun c eo =>
    Opening c ∨ Writing c → ∃ body, eo = some (.replied body)) r) : ∃ out, r = .ok out := by
  cases r with
  | ok out => exact ⟨out, rfl⟩
  | error stop =>
      cases stop with
      | failed e =>
          obtain ⟨m, hm, hnone | ⟨e, hfailed⟩⟩ := h
          · obtain ⟨body, hbody⟩ := hnone hm
            cases hbody
          · obtain ⟨body, hbody⟩ := hfailed hm
            cases hbody
      | panicked => exact h.elim
      | exhausted => exact h.elim

/-- Whatever the answers, the messages carry the data in pieces at the offsets where these
belong; each piece has at least one byte, and its message fits the message size and the
server's loop. The number of messages is bounded, and with one round for each byte the loop
ends. Against a server the operation never goes down and never waits for good, and if all
is accepted, the bytes that arrive at the router are those of the text. -/
theorem write_file_covers {c : Client} (hc : Versioned c) {path text : String}
    (htext : (asBytes text).length < 2 ^ 63) {fuel : ℕ} (hfuel : (asBytes text).length < fuel) :
    (∀ h q, Passes (writeFile fuel c path text).run h q →
      h.length ≤ fuel + 3 ∧ q ≠ .done (.error .exhausted) ∧
      ∀ before fid offset chunk r after,
        h = before ++ (⟨.write fid offset chunk, r⟩ : Answered wire) :: after →
        Piece (asBytes text) c.msize before offset chunk ∧
        (encodeMessage (Call.write fid offset chunk).message).length ≤ c.msize.toNat ∧
        runConnection handleMessage sendError Source.contiguous
            (encodeMessage (Call.write fid offset chunk).message) =
          serveMessage (Call.write fid offset chunk).message) ∧
    ∀ (F : Set UInt32) (router : Request → Answer → Prop) (ch ch' : Channel) (k : List Exchange)
      (q : Prog wire (Except Stop String)), ch.link = some Link.new →
      Dialogue (amid (Spares F) (semantics router)) ch k ch' →
      Passes (writeFile fuel c path text).run (answers k) q →
      ((∀ x ∈ k, x.call.body.length < 2 ^ 32 - 7) → q ≠ .done (.error .panicked) ∧
        ((∀ req, ∃ a, router req a) → ∀ m next, q = .call m next → m.body.length < 2 ^ 32 - 7 →
          ∃ x ch'', x.call = m ∧ Exchanged (amid (Spares F) (semantics router)) ch' x ch'')) ∧
      ∀ r, q = .done r → (∀ x ∈ k, Opening x.call ∨ Writing x.call → Succeeds x) →
        (∃ out, r = .ok out) ∧ arrived (k.flatMap Exchange.history) = asBytes text := by
  obtain ⟨hlow, hhigh⟩ := versioned_bounds hc
  have hcut : wp (cutting (asBytes text) c.msize) (writeFile fuel c path text).run
      (Through (asBytes text)) [] := cutting_writeFile (by omega) htext hfuel
  constructor
  · intro h q hp
    refine ⟨hp.length_le (within_writeFile fuel c path text), ?_, ?_⟩
    · rintro rfl
      exact absurd rfl (hp.observed (fun _ _ => trivial) hcut)
    · rintro before fid offset chunk r after rfl
      have hpiece : Piece _ _ _ _ _ := cut_of_passes hcut hp
      exact ⟨hpiece, hpiece.taken hhigh⟩
  · intro F router ch ch' k q hlink hk hp
    have hseen : Seen F ch ⟨bindings ch.shared, true⟩ := ⟨fun _ _ => rfl, hlink⟩
    by_cases hsize : (Call.walk 1 c.nextFid (components path)).body.length < 2 ^ 32 - 7
    · have hheard : ∀ A, wp (heard F router A) (writeFile fuel c path text).run
          (fun r _ => Steady A r) ⟨bindings ch.shared, true⟩ :=
        fun A => heard_writeFile (by omega) hhigh hsize htext hfuel
      refine ⟨fun _ => ⟨?_, ?_⟩, ?_⟩
      · rintro rfl
        obtain ⟨_, v, _, hsteady⟩ :=
          hk.heard hp hseen (fun _ _ _ _ => trivial) (hheard fun _ _ => True)
        exact hsteady
      · rintro hrouter m next rfl _
        exact hk.continues hp hseen (fun _ _ _ _ => trivial) (hheard fun _ _ => True) hrouter
      · rintro r rfl haccepted
        obtain ⟨hends, v, _, hsteady⟩ := hk.heard hp hseen
          (fun x hx eo heo hcall => (haccepted x hx hcall).replied heo) (hheard fun c eo =>
            Opening c ∨ Writing c → ∃ body, eo = some (.replied body))
        obtain ⟨out, rfl⟩ := ok_of_steady hsteady
        have hsent := hp.observed (fun _ _ => trivial) hcut
        rw [foldl_append_singleton, List.nil_append] at hsent
        refine ⟨⟨out, rfl⟩, ?_⟩
        rw [arrived_run hcut hhigh hp hends fun x hx hx' => haccepted x hx (Or.inr hx')]
        exact hsent
    · -- a walk of that length is neither answered nor accepted
      rcases first_exchange hp with ⟨_, rfl⟩ | ⟨x, hx, hwalk⟩
      · refine ⟨fun _ => ⟨fun hdone => ?_, fun _ m next hcall hm => ?_⟩, fun r hdone => ?_⟩
        · cases hdone
        · obtain ⟨rfl, _⟩ := Prog.call.inj hcall
          exact absurd hm hsize
        · cases hdone
      · refine ⟨fun hsized => ?_, fun r _ haccepted => ?_⟩
        · have hx' := hsized x hx
          rw [hwalk] at hx'
          exact absurd hx' hsize
        · obtain ⟨hbody, _⟩ := haccepted x hx (Or.inl (by rw [hwalk]; trivial))
          rw [hwalk] at hbody
          omega

/-! ## A text of two bytes -/

def writing : List (Answered ninep) :=
  [⟨.locked (.getFid 4), some (⟨1, "/a", true, false⟩ : FidEntry)⟩,
    ⟨.route ⟨.write, "/a", [104, 105]⟩, .reply (.ok ⟨[], none, false⟩)⟩]

def writeExchange : Exchange :=
  ⟨.write 4 0 [104, 105], writing ++ [⟨.send (message RWRITE 0 (leBytes 4 2)), ()⟩],
    .ok (leBytes 4 2)⟩

theorem passes_writing : Passes ((Call.write 4 0 [104, 105]).served 0).run
    (writing ++ [⟨.send (message RWRITE 0 (leBytes 4 2)), ()⟩]) (.done (.ok ())) :=
  .answer _ _ _ (.answer _ _ _ (.answer _ _ _ (.refl _)))

theorem exchanged_write {F : Set UInt32} : Exchanged (amid (Spares F) (semantics (serving [])))
    ⟨fileOpened, some Link.new⟩ writeExchange ⟨fileOpened, some Link.new⟩ :=
  .served (by decide) passes_writing (silence_of rfl) (by decide) (by decide)
    (Performs.amid (idle_spares F) (.answer _ _ (semantics_exec _ _) (.answer _ _ ⟨rfl, rfl⟩
      (.answer _ _ rfl (.refl _)))))

def exchangesOut : List Exchange := [walkExchange, openExchange 1, writeExchange, clunkExchange]

theorem dialogue_out : Dialogue (amid (Spares ∅) (semantics (serving [])))
    ⟨rootAttached 8192, some Link.new⟩ exchangesOut
    ⟨((Critical.removeFid 4).exec fileOpened).2, some Link.new⟩ :=
  .exchange (exchanged_walk 8192) (.exchange (exchanged_open 1)
    (.exchange exchanged_write (.exchange exchanged_clunk (.refl _))))

theorem passes_out : ∃ r, Passes (writeFile 3 ⟨8192, 4⟩ "a" "hi").run (answers exchangesOut)
    (.done r) :=
  ⟨_, .answer _ _ _ (.answer _ _ _ (.answer _ _ _ (.answer _ _ _ (.refl _))))⟩

theorem accepted_out : ∀ x ∈ exchangesOut, Opening x.call ∨ Writing x.call → Succeeds x := by
  have hwalk := ended_of_served (by decide) passes_walking (silence_of rfl)
  have hopen := ended_of_served (by decide) (passes_openingFor 1) (silence_of rfl)
  have hwrite := ended_of_served (by decide) passes_writing (silence_of rfl)
  simp only [exchangesOut, List.forall_mem_cons]
  refine ⟨fun _ => ⟨by decide, _, hwalk⟩, fun _ => ⟨by decide, _, hopen⟩,
    fun _ => ⟨by decide, _, hwrite⟩, ?_, nofun⟩
  rintro (h | h) <;> exact h.elim

/-- Two bytes go out in one piece, and arrive. -/
theorem write_file_covers_hi : ∃ (k : List Exchange) (ch : Channel) (r : Except Stop String),
    Dialogue (amid (Spares ∅) (semantics (serving []))) ⟨rootAttached 8192, some Link.new⟩ k ch ∧
    Passes (writeFile 3 ⟨8192, 4⟩ "a" "hi").run (answers k) (.done r) ∧ k.length ≤ 6 ∧
    (∃ out, r = .ok out) ∧ arrived (k.flatMap Exchange.history) = asBytes "hi" := by
  obtain ⟨r, hp⟩ := passes_out
  have hc : Versioned ⟨8192, 4⟩ := versioned_of_bounds (by decide) (by decide)
  obtain ⟨hpieces, hserver⟩ := @write_file_covers _ hc "a" "hi" (by decide) 3 (by decide)
  obtain ⟨hcount, _, _⟩ := hpieces _ _ hp
  obtain ⟨_, hdone⟩ := hserver _ _ _ _ _ _ rfl dialogue_out hp
  obtain ⟨hout, harrived⟩ := hdone r rfl accepted_out
  rw [answers, List.length_map] at hcount
  exact ⟨_, _, r, dialogue_out, hp, hcount, hout, harrived⟩

end Pinhead.ClientWrites
