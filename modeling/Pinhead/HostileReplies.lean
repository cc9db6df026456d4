import Pinhead.ClientWrites

/-!
# Replies of any bytes

The server may answer a message with any bytes. What the client finds in them is a reply of
some type with some body, and what is left over belongs to the next exchange; a stream that
ends before a reply is complete is an error. The client does not look at the type of a reply,
beyond telling an error from the others, and takes the lengths in the body at their word.

An operation then ends well, with a result or with an error text, exactly if the bodies it
reads are as long as it takes them to be, if the reading of a file or directory comes to a
reply without data, and if the message size leaves room for the data that it writes.
-/
namespace Pinhead.HostileReplies
open ByteStrings FsRequests Resumption NinepHandlers NinepDatagrams NinepLockstep NinepCalls
open NinepClient (components dirPath)
open ClientOperations ClientWrites

/-! ## Replies -/

structure Reply where
  ty : UInt8
  body : Bytes
  deriving DecidableEq, Repr

/-- The first reply in the bytes, by its size field, and the bytes behind it. -/
def takeReply (unread : Bytes) : Option (Reply × Bytes) := do
  let header ← slice unread 0 7
  let bodyLen := leValue (header.take 4) - 7
  let resp ← slice unread 7 (7 + bodyLen)
  some (⟨(header.drop 4).headD 0, resp⟩, unread.drop (7 + bodyLen))

/-- What `send_recv` makes of a reply, if it does not go down with it. -/
def Reply.received (r : Reply) : Option (Except String Bytes) :=
  if r.ty = RERROR then do
    let errLen ← slice r.body 0 2
    let err ← slice r.body 2 (2 + leValue errLen)
    some (.error ("9p error: " ++ fromUtf8Lossy err))
  else some (.ok r.body)

theorem receive_eq (unread : Bytes) : receive unread =
    (takeReply unread).bind fun x => x.1.received.map fun result => (result, x.2) := by
  simp only [receive, takeReply, Reply.received, bind, Option.bind_assoc]
  cases slice unread 0 7 with
  | none => rfl
  | some header =>
      simp only [Option.bind_some]
      cases slice unread 7 (7 + (leValue (header.take 4) - 7)) with
      | none => rfl
      | some resp =>
          simp only [Option.bind_some]
          split
          · cases slice resp 0 2 with
            | none => rfl
            | some errLen =>
                simp only [Option.bind_some]
                cases slice resp 2 (2 + leValue errLen) <;> rfl
          · rfl

section
variable (answers : ℕ → Bytes)

/-- The bytes left over when the first `n` messages have got their replies. -/
def leftover : ℕ → Bytes
  | 0 => []
  | n + 1 => ((takeReply (leftover n ++ answers n)).map Prod.snd).getD []

/-- The reply that the client reads to the message with this number. -/
def reply (n : ℕ) : Option Reply := (takeReply (leftover answers n ++ answers n)).map Prod.fst

def exchange (n : ℕ) : Option (Except String Bytes) :=
  match reply answers n with
  | none =>
      let what := if (leftover answers n ++ answers n).length < 7 then "header" else "body"
      some (.error ("read " ++ what ++ ": failed to fill whole buffer"))
  | some r => r.received

/-- An operation from the message with the number `n` on, if no exchange takes it down. -/
def exec {A : Type} : Prog wire A → ℕ → Option (A × ℕ)
  | .done a, n => some (a, n)
  | .call _ next, n => (exchange answers n).bind fun r => exec (next r) (n + 1)

/-- With a result that has `Q`, or with an error text. -/
def Leads {A : Type} (x : Operation A) (n : ℕ) (Q : A → ℕ → Prop) : Prop :=
  ∃ r m, exec answers x.run n = some (r, m) ∧
    onSuccess Q (fun stop _ => ∃ e, stop = Stop.failed e) r m

def Ends {A : Type} (x : Operation A) (n : ℕ) : Prop := Leads answers x n fun _ _ => True

/-! ## Conditions -/

/-- The text of an error is in the body. -/
def Whole (body : Bytes) : Prop := 2 ≤ body.length ∧ 2 + uintAt 2 body 0 ≤ body.length

/-- The reply is an error with its text, or its body has `P`. -/
def Replied (n : ℕ) (P : Bytes → Prop) : Prop :=
  ∀ r, reply answers n = some r → if r.ty = RERROR then Whole r.body else P r.body

/-- The reply says how far the walk has come, and all the way only with `P`. -/
def Walked (n : ℕ) (path : String) (P : Prop) : Prop :=
  Replied answers n fun body => 2 ≤ body.length ∧ (uintAt 2 body 0 = (components path).length → P)

/-- A walk and an open. -/
def Entered (n : ℕ) (path : String) (P : Prop) : Prop :=
  Walked answers n path (Replied answers (n + 1) fun _ => P)

/-- The reply is an error with its text, or no error. -/
def Harmless (n : ℕ) : Prop := Replied answers n fun _ => True

/-- The reply to a read has data, and all that it announces. -/
def Carries (n : ℕ) : Prop :=
  ∃ r, reply answers n = some r ∧ r.ty ≠ RERROR ∧ 4 ≤ r.body.length ∧
    uintAt 4 r.body 0 ≠ 0 ∧ 4 + uintAt 4 r.body 0 ≤ r.body.length

def chunk (n : ℕ) : Bytes :=
  (reply answers n).elim [] fun r => (r.body.drop 4).take (uintAt 4 r.body 0)

/-- The data of `k` replies. -/
def collected : ℕ → ℕ → Bytes
  | _, 0 => []
  | n, k + 1 => chunk answers n ++ collected (n + 1) k

/-- After `k` replies with data comes one that has none. -/
def DrainedBy (n k : ℕ) (P : Bytes → ℕ → Prop) : Prop :=
  (∀ i < k, Carries answers (n + i)) ∧ Replied answers (n + k) fun body =>
    4 ≤ body.length ∧ uintAt 4 body 0 = 0 ∧ P (collected answers n k) (n + k + 1)

def Drained (n : ℕ) (P : Bytes → ℕ → Prop) : Prop := ∃ k, DrainedBy answers n k P

def Accepted (n : ℕ) : Prop := ∃ r, reply answers n = some r ∧ r.ty ≠ RERROR

/-- After `k` accepted pieces of the data comes a refusal, or nothing is left to write. -/
def StoredBy (n k room length : ℕ) (P : ℕ → Prop) : Prop :=
  (∀ i < k, i * room < length ∧ Accepted answers (n + i)) ∧
    if k * room < length then Replied answers (n + k) fun _ => False else P (n + k)

/-- A message holds some of the data next to its own 24 bytes. -/
def Stored (n : ℕ) (msize : UInt32) (length : ℕ) (P : ℕ → Prop) : Prop :=
  (length = 0 ∨ 24 ≤ msize.toNat) ∧ ∃ k, StoredBy answers n k (msize.toNat - 24) length P

/-- A record without a size field, up to the end of its name. -/
def RecordFits (data : Bytes) : Prop := 41 ≤ data.length ∧ 41 + uintAt 2 data 39 ≤ data.length

/-- The records of a listing, each found by the sizes of those before. -/
inductive Reached (raw : Bytes) : ℕ → ℕ → Prop
  | here (off : ℕ) : Reached raw off off
  | next {off o : ℕ} : off < raw.length → uintAt 2 raw off ≠ 0 →
      off + uintAt 2 raw off ≤ raw.length → Reached raw (off + uintAt 2 raw off) o →
      Reached raw off o

/-- The listing ends at the record, or goes on behind its name. -/
def EntryFits (raw : Bytes) (off : ℕ) : Prop :=
  off + 2 ≤ raw.length ∧ (uintAt 2 raw off ≠ 0 → off + uintAt 2 raw off ≤ raw.length →
    off + 41 ≤ raw.length ∧ off + 41 + uintAt 2 raw (off + 39) ≤ raw.length)

def Listable (raw : Bytes) : Prop :=
  ∀ off, Reached raw 0 off → off < raw.length → EntryFits raw off

/-- The replies to a connection. -/
def Connectable (n : ℕ) : Prop :=
  Replied answers n fun body => 4 ≤ body.length ∧ Harmless answers (n + 1)

/-- The replies to a command from the message with the number `n` on. -/
def Sound (n : ℕ) (c : Client) : Command → Prop
  | .readFile path => Entered answers n path (Drained answers (n + 2) fun _ m => Harmless answers m)
  | .writeFile path data =>
      Entered answers n path (Stored answers (n + 2) c.msize (asBytes data).length (Harmless answers))
  | .stat path => Walked answers n path (Replied answers (n + 1) fun body =>
      2 ≤ body.length ∧ 2 + uintAt 2 body 0 ≤ body.length ∧
      RecordFits ((body.drop 2).take (uintAt 2 body 0)) ∧ Harmless answers (n + 2))
  | .ls path _ => Entered answers n (dirPath path)
      (Drained answers (n + 2) fun raw m => Harmless answers m ∧ Listable raw)
  | .mkdir path | .createFile path => Walked answers n (splitParentName path).1
      (Replied answers (n + 1) fun _ => Harmless answers (n + 2))
  | .remove path => Walked answers n path (Harmless answers (n + 1))

end

/-! ## Steps -/

section
variable {answers : ℕ → Bytes} {n : ℕ} {A B : Type}

theorem exec_bind (p : Prog wire A) (f : A → Prog wire B) (n : ℕ) :
    exec answers (p >>= f) n = (exec answers p n).bind fun x => exec answers (f x.1) x.2 := by
  induction p generalizing n with
  | done a => rfl
  | call c next ih =>
      rw [Prog.call_bind, exec, exec, Option.bind_assoc]
      congr 1
      funext r
      exact ih r (n + 1)

theorem leads_pure {a : A} {Q : A → ℕ → Prop} : Leads answers (pure a) n Q ↔ Q a n := by
  constructor
  · rintro ⟨r, m, hexec, hQ⟩
    cases hexec
    exact hQ
  · exact fun hQ => ⟨.ok a, n, rfl, hQ⟩

theorem leads_throw {stop : Stop} {Q : A → ℕ → Prop} :
    Leads answers (throw stop) n Q ↔ ∃ e, stop = .failed e := by
  constructor
  · rintro ⟨r, m, hexec, hQ⟩
    cases hexec
    exact hQ
  · exact fun hstop => ⟨.error stop, n, rfl, hstop⟩

theorem leads_failed {e : String} {Q : A → ℕ → Prop} : Leads answers (throw (.failed e)) n Q :=
  leads_throw.mpr ⟨e, rfl⟩

theorem not_leads_panicked {Q : A → ℕ → Prop} : ¬ Leads answers (throw .panicked) n Q := by
  simp [leads_throw]

theorem not_leads_exhausted {Q : A → ℕ → Prop} : ¬ Leads answers (throw .exhausted) n Q := by
  simp [leads_throw]

theorem leads_bind {x : Operation A} {f : A → Operation B} {Q : B → ℕ → Prop} :
    Leads answers (x >>= f) n Q ↔ Leads answers x n fun a m => Leads answers (f a) m Q := by
  have hexec : exec answers (x >>= f).run n = (exec answers x.run n).bind fun y =>
      exec answers (match y.1 with
        | .ok a => (f a).run
        | .error e => pure (.error e)) y.2 := by
    rw [ExceptT.run_bind, exec_bind]
    congr 1
    funext y
    cases y.1 <;> rfl
  constructor
  · rintro ⟨r, m, hr, hQ⟩
    rw [hexec] at hr
    obtain ⟨⟨r', m'⟩, hx, hf⟩ := Option.bind_eq_some_iff.mp hr
    cases r' with
    | ok a => exact ⟨.ok a, m', hx, r, m, hf, hQ⟩
    | error e =>
        cases hf
        exact ⟨.error e, _, hx, hQ⟩
  · rintro ⟨r', m', hx, hQ⟩
    cases r' with
    | ok a =>
        obtain ⟨r, m, hf, hQ⟩ := hQ
        exact ⟨r, m, by rw [hexec, hx]; exact hf, hQ⟩
    | error e => exact ⟨.error e, m', by rw [hexec, hx]; rfl, hQ⟩

theorem slice_eq_some {bs out : Bytes} {i j : ℕ} :
    slice bs i j = some out ↔ (i ≤ j ∧ j ≤ bs.length) ∧ (bs.drop i).take (j - i) = out := by
  unfold slice
  split <;> simp_all

theorem replied_congr {P Q : Bytes → Prop} (h : ∀ body, P body ↔ Q body) :
    Replied answers n P ↔ Replied answers n Q := by
  simp only [Replied, h]

theorem received_reply {r : Reply} (hty : r.ty ≠ RERROR) : r.received = some (.ok r.body) :=
  if_neg hty

theorem received_error {r : Reply} (hty : r.ty = RERROR) (hwhole : Whole r.body) :
    ∃ e, r.received = some (.error e) := by
  have hlen : leValue ((r.body.drop 0).take 2) = uintAt 2 r.body 0 := rfl
  rw [Reply.received, if_pos hty, slice_of_le (Nat.zero_le 2) hwhole.1]
  simp only [bind, Option.bind_some, Nat.sub_zero, hlen]
  rw [slice_of_le (Nat.le_add_right 2 _) hwhole.2]
  exact ⟨_, rfl⟩

theorem received_short {r : Reply} (hty : r.ty = RERROR) (hwhole : ¬ Whole r.body) :
    r.received = none := by
  rw [Reply.received, if_pos hty]
  cases hlen : slice r.body 0 2 with
  | none => rfl
  | some errLen =>
      obtain ⟨⟨-, hle⟩, rfl⟩ := slice_eq_some.mp hlen
      simp only [bind, Option.bind_some]
      rw [slice_eq_none]
      · rfl
      · by_contra hlt
        exact hwhole ⟨hle, Nat.le_of_not_lt hlt⟩

theorem exec_sendRecv (c : Call) : exec answers (sendRecv c).run n =
    (exchange answers n).map fun r => (r.mapError .failed, n + 1) := by
  change (exchange answers n).bind _ = _
  cases exchange answers n with
  | none => rfl
  | some r => cases r <;> rfl

theorem leads_sendRecv {c : Call} {Q : Bytes → ℕ → Prop} :
    Leads answers (sendRecv c) n Q ↔ Replied answers n fun body => Q body (n + 1) := by
  rw [Leads, exec_sendRecv, exchange, Replied]
  cases hreply : reply answers n with
  | none => simp [Except.mapError, onSuccess]
  | some r =>
      simp only [Option.some.injEq, forall_eq']
      by_cases hty : r.ty = RERROR
      · rw [if_pos hty]
        by_cases hwhole : Whole r.body
        · obtain ⟨e, he⟩ := received_error hty hwhole
          simp [he, hwhole, Except.mapError, onSuccess]
        · simp [received_short hty hwhole, hwhole]
      · rw [if_neg hty, received_reply hty]
        simp [Except.mapError, onSuccess]

theorem leads_part {bs : Bytes} {i j : ℕ} {Q : Bytes → ℕ → Prop} :
    Leads answers (part bs i j) n Q ↔
      (i ≤ j ∧ j ≤ bs.length) ∧ Q ((bs.drop i).take (j - i)) n := by
  unfold part
  cases h : slice bs i j with
  | some out =>
      obtain ⟨hle, rfl⟩ := slice_eq_some.mp h
      rw [leads_pure]
      exact (and_iff_right hle).symm
  | none =>
      refine iff_of_false not_leads_panicked fun hle => ?_
      rw [slice_of_le hle.1.1 hle.1.2] at h
      cases h

theorem leads_uintFrom {width i : ℕ} {bs : Bytes} {Q : ℕ → ℕ → Prop} :
    Leads answers (uintFrom width bs i) n Q ↔ i + width ≤ bs.length ∧ Q (uintAt width bs i) n := by
  rw [uintFrom, leads_bind, leads_part]
  simp only [leads_pure, Nat.add_sub_cancel_left, Nat.le_add_right, true_and]
  rfl

theorem leads_minus {a b : ℕ} {Q : ℕ → ℕ → Prop} :
    Leads answers (minus a b) n Q ↔ b ≤ a ∧ Q (a - b) n := by
  unfold minus
  split
  · next h => rw [leads_pure, and_iff_right h]
  · next h => exact iff_of_false not_leads_panicked fun hle => h hle.1

theorem harmless_of_exchange {r : Except String Bytes} (h : exchange answers n = some r) :
    Harmless answers n := by
  intro x hx
  split
  · next hty =>
      by_contra hshort
      rw [exchange, hx] at h
      exact absurd h (by simp [received_short hty hshort])
  · trivial

theorem exchange_of_harmless (h : Harmless answers n) :
    ∃ r, exchange answers n = some r := by
  rw [exchange]
  cases hreply : reply answers n with
  | none => exact ⟨_, rfl⟩
  | some r =>
      have hr := h r hreply
      by_cases hty : r.ty = RERROR
      · rw [if_pos hty] at hr
        obtain ⟨e, he⟩ := received_error hty hr
        exact ⟨_, he⟩
      · exact ⟨_, received_reply hty⟩

/-- An error in the reply to a clunk is dropped. -/
theorem leads_clunk {fid : UInt32} {Q : Unit → ℕ → Prop} :
    Leads answers (ignoring (clunk fid)) n Q ↔
      Harmless answers n ∧ Q () (n + 1) := by
  have hexec : exec answers (ignoring (clunk fid)).run n =
      (exchange answers n).map fun _ => (.ok (), n + 1) := by
    change (exchange answers n).bind _ = _
    cases exchange answers n with
    | none => rfl
    | some r => cases r <;> rfl
  rw [Leads, hexec]
  constructor
  · rintro ⟨r, m, hmap, hQ⟩
    obtain ⟨x, hx, hdone⟩ := Option.map_eq_some_iff.mp hmap
    cases hdone
    exact ⟨harmless_of_exchange hx, hQ⟩
  · rintro ⟨hreplied, hQ⟩
    obtain ⟨r, hr⟩ := exchange_of_harmless hreplied
    exact ⟨.ok (), n + 1, by rw [hr]; rfl, hQ⟩

/-! ## Operations -/

theorem leads_walk {fid newFid : UInt32} {path : String} {P : ℕ → Prop} :
    Leads answers (walk fid newFid path) n (fun _ m => P m) ↔ Walked answers n path (P (n + 1)) := by
  rw [walk, leads_bind, leads_sendRecv]
  refine replied_congr fun body => ?_
  rw [leads_bind, leads_uintFrom, Nat.zero_add]
  refine and_congr_right fun _ => ?_
  split
  · next hne => exact iff_of_true leads_failed fun heq => absurd heq hne
  · next heq => rw [leads_pure, forall_prop_of_true (not_not.mp heq)]

theorem leads_openFid {fid : UInt32} {mode : UInt8} {P : ℕ → Prop} :
    Leads answers (openFid fid mode) n (fun _ m => P m) ↔
      Replied answers n fun _ => P (n + 1) := by
  simp only [openFid, leads_bind, leads_sendRecv, leads_pure]

theorem leads_create {fid : UInt32} {name : String} {perm : UInt32} {mode : UInt8}
    {P : ℕ → Prop} : Leads answers (create fid name perm mode) n (fun _ m => P m) ↔
      Replied answers n fun _ => P (n + 1) := by
  simp only [create, leads_bind, leads_sendRecv, leads_pure]

theorem leads_removeFid {fid : UInt32} {P : ℕ → Prop} :
    Leads answers (removeFid fid) n (fun _ m => P m) ↔ Replied answers n fun _ => P (n + 1) := by
  simp only [removeFid, leads_bind, leads_sendRecv, leads_pure]

theorem leads_parseStat {data : Bytes} {P : ℕ → Prop} :
    Leads answers (parseStat data) n (fun _ m => P m) ↔ RecordFits data ∧ P n := by
  simp only [parseStat, leads_bind, leads_uintFrom, leads_part, leads_pure, RecordFits]
  constructor
  · rintro ⟨-, -, hname, ⟨-, hend⟩, hP⟩
    exact ⟨⟨hname, hend⟩, hP⟩
  · rintro ⟨⟨hname, hend⟩, hP⟩
    exact ⟨by omega, by omega, hname, ⟨by omega, hend⟩, hP⟩

/-! ## Loops -/

theorem drainedBy_zero {P : Bytes → ℕ → Prop} : DrainedBy answers n 0 P ↔
    Replied answers n fun body => 4 ≤ body.length ∧ uintAt 4 body 0 = 0 ∧ P [] (n + 1) := by
  simp [DrainedBy, collected]

theorem drainedBy_succ {k : ℕ} {P : Bytes → ℕ → Prop} : DrainedBy answers n (k + 1) P ↔
    Carries answers n ∧ DrainedBy answers (n + 1) k fun data m => P (chunk answers n ++ data) m := by
  have hshift : ∀ i, n + 1 + i = n + (i + 1) := fun i => by omega
  rw [DrainedBy, DrainedBy, Nat.forall_lt_succ_left, and_assoc]
  simp only [hshift, Nat.add_zero, collected]

/-- The rounds of the loop are the replies with data and the one behind them. -/
theorem leads_readLoop {fid count : UInt32} {fuel : ℕ} {offset : UInt64} {raw : Bytes}
    {P : Bytes → ℕ → Prop} : Leads answers (readLoop fid count fuel offset raw) n P ↔
      ∃ k < fuel, DrainedBy answers n k fun data m => P (raw ++ data) m := by
  induction fuel generalizing n offset raw with
  | zero => exact iff_of_false not_leads_exhausted (by simp)
  | succ fuel ih =>
      rw [readLoop, leads_bind, leads_sendRecv, Nat.exists_lt_succ_left, drainedBy_zero]
      simp only [drainedBy_succ, List.append_nil]
      cases hreply : reply answers n with
      | none => simp [Replied, hreply]
      | some r =>
          by_cases hty : r.ty = RERROR
          · simp [Replied, Carries, hreply, hty]
          · simp only [Replied, Carries, hreply, hty, Option.some.injEq, forall_eq',
              exists_eq_left', if_false, ne_eq, not_false_eq_true, true_and]
            rw [leads_bind, leads_uintFrom, Nat.zero_add]
            by_cases hzero : uintAt 4 r.body 0 = 0
            · simp [hzero, leads_pure]
            · have hchunk : chunk answers n = (r.body.drop 4).take (uintAt 4 r.body 0) := by
                rw [chunk, hreply]
                rfl
              rw [if_neg hzero, leads_bind, leads_part, ih, Nat.add_sub_cancel_left, ← hchunk]
              simp only [hzero, List.append_assoc, false_and, and_false, false_or, not_false_eq_true,
                true_and, Nat.le_add_right]
              constructor
              · rintro ⟨hlen, hfits, k, hk, hdone⟩
                exact ⟨k, hk, ⟨hlen, hfits⟩, hdone⟩
              · rintro ⟨k, hk, ⟨hlen, hfits⟩, hdone⟩
                exact ⟨hlen, hfits, k, hk, hdone⟩

theorem round_lt (i room length : ℕ) :
    i * room < length - min length room ↔ (i + 1) * room < length := by
  rw [Nat.succ_mul]
  omega

theorem storedBy_zero {room length : ℕ} {P : ℕ → Prop} : StoredBy answers n 0 room length P ↔
    if 0 < length then Replied answers n fun _ => False else P n := by
  simp [StoredBy]

theorem storedBy_succ {k room length : ℕ} {P : ℕ → Prop} :
    StoredBy answers n (k + 1) room length P ↔ (0 < length ∧ Accepted answers n) ∧
      StoredBy answers (n + 1) k room (length - min length room) P := by
  have hshift : ∀ i, n + 1 + i = n + (i + 1) := fun i => by omega
  rw [StoredBy, StoredBy, Nat.forall_lt_succ_left, and_assoc]
  simp only [hshift, round_lt, Nat.zero_mul, Nat.add_zero]

/-- The rounds of the loop are the accepted pieces and the reply behind them. -/
theorem leads_writeLoop {fid msize : UInt32} {data : Bytes} {fuel : ℕ} {offset : UInt64}
    (hdata : data.length < 2 ^ 63) (hoffset : offset.toNat ≤ data.length) {P : ℕ → Prop} :
    Leads answers (writeLoop fid msize data fuel offset) n (fun _ m => P m) ↔
      (data.length - offset.toNat = 0 ∨ 24 ≤ msize.toNat) ∧ ∃ k < fuel,
        StoredBy answers n k (msize.toNat - 24) (data.length - offset.toNat) P := by
  induction fuel generalizing n offset with
  | zero => exact iff_of_false not_leads_exhausted (by simp)
  | succ fuel ih =>
      rw [Nat.exists_lt_succ_left, storedBy_zero]
      simp only [storedBy_succ]
      by_cases hlt : offset.toNat < data.length
      · have hpos : 0 < data.length - offset.toNat := by omega
        by_cases hmsize : 24 ≤ msize.toNat
        · have hmoved := @offset_next data msize offset hlt hdata
          have hlength := @chunkAt_length data msize offset
          have hleft : data.length -
              (offset + UInt64.ofNat (chunkAt data msize offset).length).toNat =
              data.length - offset.toNat -
                min (data.length - offset.toNat) (msize.toNat - 24) := by omega
          rw [writeLoop_round hlt hmsize, leads_bind, leads_sendRecv, ih (by omega), hleft]
          simp only [hmsize, hpos, or_true, if_true, true_and]
          cases hreply : reply answers n with
          | none => simp [Replied, hreply]
          | some r =>
              by_cases hty : r.ty = RERROR
              · simp [Replied, Accepted, hreply, hty]
              · simp [Replied, Accepted, hreply, hty]
        · rw [writeLoop, if_pos hlt, leads_bind, leads_minus]
          refine iff_of_false (fun h => hmsize h.1) fun h => ?_
          rcases h.1 with hzero | hle
          · exact hpos.ne' hzero
          · exact hmsize hle
      · have hzero : data.length - offset.toNat = 0 := by omega
        rw [writeLoop_done (by omega), leads_pure, hzero]
        simp

theorem reached_le {raw : Bytes} {off o : ℕ} (h : Reached raw off o) : off ≤ o := by
  induction h with
  | here off => exact le_rfl
  | next _ _ _ _ ih => omega

theorem leads_parseLine {long : Bool} {raw : Bytes} {off : ℕ} {P : ℕ → Prop} :
    Leads answers (parseLine long raw off) n (fun _ m => P m) ↔
      (off + 41 ≤ raw.length ∧ off + 41 + uintAt 2 raw (off + 39) ≤ raw.length) ∧ P n := by
  have hlength : off + 6 + 33 = off + 39 := by omega
  simp only [parseLine, leads_bind, leads_uintFrom, leads_part, leads_pure, hlength]
  constructor
  · rintro ⟨-, -, hname, ⟨-, hend⟩, hP⟩
    exact ⟨⟨by omega, by omega⟩, hP⟩
  · rintro ⟨⟨hname, hend⟩, hP⟩
    exact ⟨by omega, by omega, by omega, ⟨by omega, by omega⟩, hP⟩

/-- The loop ends well just when every record it comes to fits. -/
theorem leads_parseLines {long : Bool} {raw : Bytes} {fuel off : ℕ} (hfuel : raw.length ≤ off + fuel) :
    Leads answers (parseLines long raw fuel off) n (fun _ _ => True) ↔
      ∀ o, Reached raw off o → o < raw.length → EntryFits raw o := by
  induction fuel generalizing off with
  | zero =>
      refine iff_of_true (leads_pure.mpr trivial) fun o ho hlt => ?_
      have hle := reached_le ho
      omega
  | succ fuel ih =>
      rw [parseLines]
      by_cases hlt : off < raw.length
      · rw [if_pos hlt, leads_bind, leads_uintFrom]
        by_cases hend : uintAt 2 raw off = 0 ∨ off + uintAt 2 raw off > raw.length
        · rw [if_pos hend, leads_pure, and_true]
          constructor
          · intro hsize o ho _
            cases ho with
            | here => exact ⟨hsize, fun hne hle => by omega⟩
            | next _ hne hle _ => omega
          · exact fun h => (h off (.here off) hlt).1
        · have hne : uintAt 2 raw off ≠ 0 := fun h => hend (.inl h)
          have hle : off + uintAt 2 raw off ≤ raw.length := by omega
          rw [if_neg hend]
          simp only [leads_bind, leads_pure, leads_parseLine]
          rw [ih (by omega)]
          constructor
          · rintro ⟨hsize, hline, hrest⟩ o ho ho'
            cases ho with
            | here => exact ⟨hsize, fun _ _ => hline⟩
            | next _ _ _ ho => exact hrest o ho ho'
          · intro h
            obtain ⟨hsize, hline⟩ := h off (.here off) hlt
            exact ⟨hsize, hline hne hle, fun o ho => h o (.next hlt hne hle ho)⟩
      · rw [if_neg hlt, leads_pure]
        refine iff_of_true trivial fun o ho ho' => ?_
        have hle := reached_le ho
        omega

/-! ## Commands -/

theorem replied_exists {P : ℕ → Bytes → Prop} :
    (∃ m, Replied answers n (P m)) ↔ Replied answers n fun body => ∃ m, P m body := by
  cases hreply : reply answers n with
  | none => simp [Replied, hreply]
  | some r => by_cases hty : r.ty = RERROR <;> simp [Replied, hreply, hty]

theorem walked_exists {path : String} {P : ℕ → Prop} :
    (∃ m, Walked answers n path (P m)) ↔ Walked answers n path (∃ m, P m) := by
  simp only [Walked, replied_exists]
  refine replied_congr fun body => ?_
  by_cases hall : uintAt 2 body 0 = (components path).length <;> simp [hall]

theorem entered_exists {path : String} {P : ℕ → Prop} :
    (∃ m, Entered answers n path (P m)) ↔ Entered answers n path (∃ m, P m) := by
  simp only [Entered, walked_exists, replied_exists]

theorem exists_fuel {P : ℕ → Prop} : (∃ fuel, ∃ k < fuel, P k) ↔ ∃ k, P k := by
  constructor
  · rintro ⟨_, k, _, hk⟩
    exact ⟨k, hk⟩
  · rintro ⟨k, hk⟩
    exact ⟨k + 1, k, Nat.lt_succ_self k, hk⟩

theorem ends_readFile {fuel : ℕ} {c : Client} {path : String} :
    Ends answers (readFile fuel c path) n ↔ Entered answers n path
      (∃ k < fuel, DrainedBy answers (n + 2) k fun _ m => Harmless answers m) := by
  simp only [Ends, readFile, leads_bind, leads_walk, leads_openFid, leads_readLoop, leads_clunk,
    leads_pure, and_true]
  rfl

theorem ends_writeFile {fuel : ℕ} {c : Client} {path data : String}
    (hdata : (asBytes data).length < 2 ^ 63) :
    Ends answers (writeFile fuel c path data) n ↔ Entered answers n path
      (((asBytes data).length = 0 ∨ 24 ≤ c.msize.toNat) ∧ ∃ k < fuel,
        StoredBy answers (n + 2) k (c.msize.toNat - 24) (asBytes data).length (Harmless answers)) := by
  have hstart : (0 : UInt64).toNat ≤ (asBytes data).length := Nat.zero_le _
  simp only [Ends, writeFile, leads_bind, leads_walk, leads_openFid, leads_writeLoop hdata hstart,
    leads_clunk, leads_pure, and_true]
  rfl

theorem ends_stat {c : Client} {path : String} : Ends answers (stat c path) n ↔
    Walked answers n path (Replied answers (n + 1) fun body =>
      2 ≤ body.length ∧ 2 + uintAt 2 body 0 ≤ body.length ∧
      RecordFits ((body.drop 2).take (uintAt 2 body 0)) ∧ Harmless answers (n + 2)) := by
  simp only [Ends, stat, leads_bind, leads_walk, leads_sendRecv, leads_uintFrom, leads_part,
    leads_parseStat, leads_clunk, leads_pure, and_true, Nat.zero_add, Nat.le_add_right, true_and,
    Nat.add_sub_cancel_left]

theorem ends_ls {fuel : ℕ} {c : Client} {path : String} {long : Bool} :
    Ends answers (ls fuel c path long) n ↔ Entered answers n (dirPath path)
      (∃ k < fuel, DrainedBy answers (n + 2) k fun raw m => Harmless answers m ∧ Listable raw) := by
  have hlines (raw : Bytes) (m : ℕ) : Leads answers (parseLines long raw raw.length 0) m
      (fun _ _ => True) ↔ Listable raw := leads_parseLines (Nat.zero_add _).ge
  simp only [Ends, ls, leads_bind, leads_walk, leads_openFid, leads_readLoop, leads_clunk,
    leads_pure, List.nil_append, hlines]
  rfl

theorem ends_createIn {c : Client} {path : String} {perm : UInt32} {mode : UInt8} :
    Ends answers (createIn c path perm mode) n ↔ Walked answers n (splitParentName path).1
      (Replied answers (n + 1) fun _ => Harmless answers (n + 2)) := by
  simp only [Ends, createIn, leads_bind, leads_walk, leads_create, leads_clunk, leads_pure, and_true]

theorem ends_remove {c : Client} {path : String} : Ends answers (remove c path) n ↔
    Walked answers n path (Harmless answers (n + 1)) := by
  simp only [Ends, remove, leads_bind, leads_walk, leads_removeFid, leads_pure]
  rfl

theorem ends_connect : Ends answers connect n ↔ Connectable answers n := by
  simp only [Ends, connect, version, attach, leads_bind, leads_sendRecv, leads_uintFrom, leads_pure,
    Nat.zero_add]
  rfl

end

/-- A text of a length that there is. -/
def Sized : Command → Prop
  | .writeFile _ data => (asBytes data).length < 2 ^ 63
  | _ => True

/-- Every operation ends, with a result or an error text, exactly if the replies allow it. -/
theorem operations_end_iff (answers : ℕ → Bytes) (n : ℕ) (c : Client) :
    (Ends answers connect n ↔ Connectable answers n) ∧ ∀ command, Sized command →
      ((∃ fuel, Ends answers (command.run fuel c) n) ↔ Sound answers n c command) := by
  refine ⟨ends_connect, fun command hsized => ?_⟩
  cases command with
  | readFile path =>
      simp only [Command.run, ends_readFile, entered_exists, exists_fuel]
      rfl
  | writeFile path data =>
      simp only [Command.run, ends_writeFile hsized, entered_exists, exists_and_left, exists_fuel]
      rfl
  | stat path => simp only [Command.run, ends_stat, exists_const, Sound]
  | ls path long =>
      simp only [Command.run, ends_ls, entered_exists, exists_fuel]
      rfl
  | mkdir path => simp only [Command.run, mkdir, ends_createIn, exists_const, Sound]
  | createFile path => simp only [Command.run, createFile, ends_createIn, exists_const, Sound]
  | remove path => simp only [Command.run, ends_remove, exists_const, Sound]

/-! ## One reply to every message -/

/-- Every message is answered by the same reply to a walk. -/
def repeated (body : Bytes) : ℕ → Bytes := fun _ => message RWALK 0 body

theorem takeReply_message {ty : UInt8} {body : Bytes} (hshort : body.length < 2 ^ 32 - 7) :
    takeReply (message ty 0 body) = some (⟨ty, body⟩, []) := by
  have hlength : (message ty 0 body).length = 7 + body.length := by
    simp [message]
    omega
  have hheader : (message ty 0 body).take 7 = leBytes 4 (7 + body.length) ++ ([ty] ++ leBytes 2 0) := by
    rw [← List.append_assoc]
    exact List.take_left' (by simp)
  have hsize : leValue ((leBytes 4 (7 + body.length) ++ ([ty] ++ leBytes 2 0)).take 4) =
      7 + body.length := by
    rw [List.take_left' (leBytes_length 4 _), leValue_leBytes_of_lt (by omega)]
  have htype : ((leBytes 4 (7 + body.length) ++ ([ty] ++ leBytes 2 0)).drop 4).headD 0 = ty := by
    rw [List.drop_left' (leBytes_length 4 _)]
    rfl
  rw [takeReply, slice_of_le (Nat.zero_le 7) (by omega), List.drop_zero, Nat.sub_zero, hheader]
  simp only [bind, Option.bind_some, hsize, htype, Nat.add_sub_cancel_left]
  rw [slice_of_le (by omega) (by omega), message_drop, Nat.add_sub_cancel_left, List.take_length,
    Option.bind_some, ← hlength, List.drop_length]

section
variable {body : Bytes}

theorem reply_repeated (hshort : body.length < 2 ^ 32 - 7) (n : ℕ) :
    reply (repeated body) n = some ⟨RWALK, body⟩ := by
  have hleft : leftover (repeated body) n = [] := by
    induction n with
    | zero => rfl
    | succ n ih =>
        rw [leftover, ih, List.nil_append, repeated, takeReply_message hshort]
        rfl
  rw [reply, hleft, List.nil_append, repeated, takeReply_message hshort]
  rfl

theorem replied_repeated (hshort : body.length < 2 ^ 32 - 7) (n : ℕ) {P : Bytes → Prop} :
    Replied (repeated body) n P ↔ P body := by
  simp only [Replied, reply_repeated hshort, Option.some.injEq, forall_eq']
  rw [if_neg (by decide)]

end

/-- A count of one, so that the walk is complete and every other reply is taken. -/
theorem sound_repeated : Sound (repeated [1, 0]) 0 ⟨8192, 4⟩ (.writeFile "a" "hi") := by
  have hreplied (n : ℕ) {P : Bytes → Prop} : Replied (repeated [1, 0]) n P ↔ P [1, 0] :=
    replied_repeated (by decide) n
  have hlength : (asBytes "hi").length = 2 := by decide
  simp only [Sound, Entered, Walked, Stored, StoredBy, Accepted, Harmless, hreplied, hlength]
  refine ⟨by decide, fun _ => ⟨.inr (by decide), 1, ?_, ?_⟩⟩
  · intro i hi
    obtain rfl : i = 0 := by omega
    exact ⟨by decide, _, reply_repeated (by decide) _, by decide⟩
  · rw [if_neg (by decide)]
    trivial

theorem operations_end_iff_repeated :
    ∃ fuel, Ends (repeated [1, 0]) ((Command.writeFile "a" "hi").run fuel ⟨8192, 4⟩) 0 :=
  ((operations_end_iff (repeated [1, 0]) 0 ⟨8192, 4⟩).2 (.writeFile "a" "hi")
    (show (asBytes "hi").length < 2 ^ 63 by decide)).mpr sound_repeated

/-- The server has sent complete replies, and the client goes down with the first one. -/
theorem short_walk_panics :
    ¬ ∀ (answers : ℕ → Bytes) (n : ℕ) (c : Client), (∀ m, ∃ r, reply answers m = some r) →
      Ends answers connect n ∧
        ∀ command : Command, ∃ fuel, Ends answers (command.run fuel c) n := by
  intro h
  obtain ⟨-, hcommands⟩ := h (repeated []) 0 ⟨8192, 4⟩ fun m => ⟨_, reply_repeated (by decide) m⟩
  obtain ⟨fuel, hends⟩ := hcommands (.readFile "a")
  have hwalked : Entered (repeated []) 0 "a" _ := ends_readFile.mp hends
  rw [Entered, Walked, replied_repeated (by decide)] at hwalked
  exact absurd hwalked.1 (by decide)

end Pinhead.HostileReplies
