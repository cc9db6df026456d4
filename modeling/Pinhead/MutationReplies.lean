import Pinhead.FuseFilesystem
import Pinhead.SftpSessions
import Pinhead.WstatParsing

/-!
# Successes that no handler stands behind

A request that changes the file tree should be acknowledged only when a handler has
accepted the operation for the path it names. Whether a reply is backed like this is
read off the history of the request: the requests accepted and the replies sent, for
arbitrary answers. Each frontend acknowledges most requests so and some not, and
here the line between them is drawn exactly.
-/
namespace Pinhead.MutationReplies
open ByteStrings FsRequests Resumption Histories NinepShared NinepHandlers NinepRuns
open NinepDatagrams NinepScripts

/-! ## 9P -/

namespace Ninep

/-- The requests that were accepted and the messages that were sent. -/
structure Ledger where
  accepted : List Request
  sent : List Bytes

def Ledger.note (l : Ledger) : Answered ninep → Ledger
  | ⟨.route req, a⟩ => if Answer.accepted a then { l with accepted := l.accepted ++ [req] } else l
  | ⟨.send msg, _⟩ => { l with sent := l.sent ++ [msg] }
  | _ => l

def ledger (h : List (Answered ninep)) : Ledger := h.foldl Ledger.note ⟨[], []⟩

/-- The history took the fid of its message for `entry`. -/
def Given (entry : Option FidEntry) : (o : Op) → Op.Ret o → Prop
  | .locked (.getFid _), r => r = entry
  | _, _ => True

/-- The operation and the path that a message is about, for the four that change
something. A wstat is a rename when a new name is read from it. -/
def demanded (e : FidEntry) (m : Message) : Option (FsOperation × String) :=
  match m.ty with
  | TCREATE => some (if (createPerm m.body).testBit 31 then .mkDir else .create,
      joinPath e.path (nameAt m.body 4))
  | TWRITE => some (.write, e.path)
  | TREMOVE => some (if e.isDir then .rmDir else .unlink, e.path)
  | TWSTAT =>
      let stat := statIn m.body
      some (if (nameIn e.path stat (statLayout stat.length).nameAt).isSome then .rename
        else .setAttr, e.path)
  | _ => none

def Mutates (m : Message) : Prop :=
  m.ty = TCREATE ∨ m.ty = TWRITE ∨ m.ty = TREMOVE ∨ m.ty = TWSTAT

/-- What a success reply to a message claims. -/
def Justified (entry : Option FidEntry) (m : Message) (accepted : List Request)
    (reply : Bytes) : Prop :=
  ∃ e, entry = some e ∧ ∃ req ∈ accepted, demanded e m = some (req.op, req.path) ∧
    (m.ty = TWRITE → uintAt 4 reply 7 = req.data.length)

/-- However a message that changes something is answered while its fid is taken for
`entry`, every reply to it other than an error is justified. -/
def Honest (entry : Option FidEntry) (m : Message) : Prop :=
  Mutates m → ∀ h, Passes (serveMessage m) h (.done ()) →
    (∀ a ∈ h, Given entry a.op a.answer) → ∀ reply ∈ (ledger h).sent,
      (reply.drop 4).headD 0 ≠ RERROR → Justified entry m (ledger h).accepted reply

/-- The new name that is read from a wstat. -/
def wstatName (e : FidEntry) (m : Message) : Option String :=
  nameIn e.path (statIn m.body) (statLayout (statIn m.body).length).nameAt

/-- The write carries as many bytes as it announces, and the wstat a new name or
enough of a record to have a mode. -/
def Complete (entry : Option FidEntry) (m : Message) : Prop :=
  ∀ e, entry = some e →
    (m.ty = TWRITE → 16 ≤ m.body.length → uintAt 4 m.body 12 ≤ m.body.length - 16) ∧
    (m.ty = TWSTAT → 6 ≤ m.body.length →
      (wstatName e m).isSome ∨ 23 ≤ (statIn m.body).length)

/-! ### The ledger of one message -/

section
variable {entry : Option FidEntry} {m : Message}

abbrev audited (entry : Option FidEntry) : Spec ninep Ledger :=
  observed Ledger.note (Given entry) fun _ _ => True

/-- A handler that succeeds has sent nothing but justified replies, and one that
fails has sent none. -/
def Good (entry : Option FidEntry) (m : Message) : Except String Unit → Ledger → Prop
  | .ok _, l => ∀ reply ∈ l.sent, Justified entry m l.accepted reply
  | .error _, l => l.sent = []

theorem honest_of_handler (hw : wp (audited entry) (handleMessage m).run (Good entry m) ⟨[], []⟩) :
    Honest entry m := by
  intro _ h hp hgiven
  have hserve : wp (audited entry) (serveMessage m) (fun _ l => ∀ reply ∈ l.sent,
      (reply.drop 4).headD 0 ≠ RERROR → Justified entry m l.accepted reply) ⟨[], []⟩ := by
    rw [serveMessage, wp_bind]
    refine wp_mono (observed_monotone _ _ _) _ ?_ _ hw
    intro r l hl
    cases r with
    | ok _ => exact fun reply hreply _ => hl reply hreply
    | error e =>
        refine ⟨trivial, fun _ _ => ?_⟩
        intro reply hreply hty
        rw [Ledger.note, show l.sent = [] from hl] at hreply
        rw [List.mem_singleton.mp hreply] at hty
        exact absurd rfl hty
  exact hp.observed hgiven hserve

theorem wp_getFid {B : Type} {fid : UInt32} {f : FidEntry → Handler B}
    {Q : Except String B → Ledger → Prop} {l : Ledger}
    (hnone : entry = none → Q (.error "unknown fid") l)
    (hsome : ∀ e, entry = some e → wp (audited entry) (f e).run Q l) :
    wp (audited entry) (getFid fid >>= f).run Q l := by
  refine ⟨trivial, ?_⟩
  intro x hx
  obtain rfl : x = entry := hx
  match x with
  | none => exact hnone rfl
  | some e => exact hsome e rfl

theorem wp_request {B : Type} {what : String} {op : FsOperation} {path : String} {data : Bytes}
    {f : Response → Handler B} {Q : Except String B → Ledger → Prop} {l : Ledger}
    (hrefused : ∀ e, Q (.error e) l)
    (haccepted : ∀ r, wp (audited entry) (f r).run Q
      { l with accepted := l.accepted ++ [⟨op, path, data⟩] }) :
    wp (audited entry) (request what op path data >>= f).run Q l := by
  refine ⟨trivial, ?_⟩
  intro a _
  match a with
  | .routerGone => exact hrefused _
  | .handlerGone => exact hrefused _
  | .reply (.error e) => exact hrefused _
  | .reply (.ok r) => exact haccepted r

theorem good_reply {ty : UInt8} {tag : UInt16} {body : Bytes} {e : FidEntry} {req : Request}
    (hentry : entry = some e) (hdemand : demanded e m = some (req.op, req.path))
    (hcount : m.ty = TWRITE → uintAt 4 (message ty tag body) 7 = req.data.length) :
    wp (audited entry) (sendReply ty tag body).run (Good entry m) ⟨[req], []⟩ := by
  refine ⟨trivial, ?_⟩
  intro _ _ reply hreply
  obtain rfl := List.mem_singleton.mp hreply
  exact ⟨e, hentry, req, List.mem_singleton_self _, hdemand, hcount⟩

/-- The shape that the handlers here have: the fid, one request, and a rest that only
starts when the request was accepted. -/
theorem good_request {fid : UInt32} {what : FidEntry → String} {op : FidEntry → FsOperation}
    {path : FidEntry → String} {data : FidEntry → Bytes} {rest : FidEntry → Handler Unit}
    (hrest : ∀ e, entry = some e →
      wp (audited entry) (rest e).run (Good entry m) ⟨[⟨op e, path e, data e⟩], []⟩) :
    wp (audited entry) (getFid fid >>= fun e =>
      request (what e) (op e) (path e) (data e) >>= fun _ => rest e).run (Good entry m)
      ⟨[], []⟩ := by
  apply wp_getFid
  · exact fun _ => rfl
  · intro e he
    apply wp_request
    · exact fun _ => rfl
    · exact fun _ => hrest e he

theorem good_handleCreate (tag : UInt16) (body : Bytes) :
    wp (audited entry) (handleCreate tag body).run (Good entry ⟨TCREATE, tag, body⟩) ⟨[], []⟩ := by
  rw [handleCreate_eq]
  split
  · rfl
  · split
    · rfl
    · apply good_request
      intro e he
      exact ⟨trivial, fun _ _ => good_reply he rfl nofun⟩

theorem good_handleRemove (tag : UInt16) (body : Bytes) :
    wp (audited entry) (handleRemove tag body).run (Good entry ⟨TREMOVE, tag, body⟩) ⟨[], []⟩ := by
  rw [handleRemove_eq]
  split
  · rfl
  · apply good_request
    intro e he
    exact good_reply he rfl nofun

theorem writePayload_length (body : Bytes) :
    (writePayload body).length = min (uintAt 4 body 12) (body.length - 16) := by
  rw [writePayload, List.length_take, List.length_drop, min_eq_left (min_le_right _ _)]

theorem written_count (tag : UInt16) (body : Bytes) :
    uintAt 4 (message RWRITE tag (leBytes 4 (uintAt 4 body 12))) 7 = uintAt 4 body 12 := by
  rw [uintAt, message_drop, List.take_of_length_le (by simp)]
  exact leValue_leBytes_of_lt (uintAt_lt 4 body 12)

theorem good_handleWrite (tag : UInt16) {body : Bytes}
    (h : entry ≠ none → 16 ≤ body.length → uintAt 4 body 12 ≤ body.length - 16) :
    wp (audited entry) (handleWrite tag body).run (Good entry ⟨TWRITE, tag, body⟩) ⟨[], []⟩ := by
  rw [handleWrite_eq]
  split
  · rfl
  · next hlong =>
      apply good_request
      intro e he
      apply good_reply he rfl
      intro _
      have hcount := h (by simp [he]) (not_lt.mp hlong)
      rw [written_count]
      change _ = (writePayload body).length
      rw [writePayload_length, min_eq_left hcount]

theorem demanded_wstat (e : FidEntry) (tag : UInt16) (body : Bytes) :
    demanded e ⟨TWSTAT, tag, body⟩ = some (if (wstatName e ⟨TWSTAT, tag, body⟩).isSome then .rename
      else .setAttr, e.path) := rfl

/-- The record leads to one request, the one that is demanded, or to a failure. -/
theorem audited_wstatScript (tag : UInt16) {body : Bytes} (fid : UInt32) {e : FidEntry}
    (h : (wstatName e ⟨TWSTAT, tag, body⟩).isSome ∨ 23 ≤ (statIn body).length) :
    wp (audited entry) (wstatScript fid e (statIn body)).run
      (onSuccess (fun _ l => ∃ req, l = ⟨[req], []⟩ ∧
        demanded e ⟨TWSTAT, tag, body⟩ = some (req.op, req.path)) fun _ l => l.sent = [])
      ⟨[], []⟩ := by
  rw [demanded_wstat]
  unfold wstatScript
  split
  · next name hname =>
      apply wp_request
      · exact fun _ => rfl
      · intro r
        refine ⟨trivial, fun _ _ => ⟨_, rfl, ?_⟩⟩
        rw [wstatName, hname]
        rfl
  · next hnone =>
      have hmode : (statLayout (statIn body).length).hasMode = true := by
        rcases h with hsome | hlong
        · rw [wstatName, hnone] at hsome
          cases hsome
        · exact decide_eq_true hlong
      rw [hmode, Bool.true_or, Bool.true_or, if_pos rfl]
      apply wp_request
      · exact fun _ => rfl
      · intro r
        refine ⟨_, rfl, ?_⟩
        rw [wstatName, hnone]
        rfl

theorem good_handleWstat (tag : UInt16) {body : Bytes}
    (h : ∀ e, entry = some e → 6 ≤ body.length →
      (wstatName e ⟨TWSTAT, tag, body⟩).isSome ∨ 23 ≤ (statIn body).length) :
    wp (audited entry) (handleWstat tag body).run (Good entry ⟨TWSTAT, tag, body⟩) ⟨[], []⟩ := by
  rw [handleWstat_eq]
  split
  · rfl
  · apply wp_getFid
    · exact fun _ => rfl
    · intro e he
      split
      · rfl
      · next hlong =>
          have hstat := h e he (not_lt.mp hlong)
          have hsix : ¬ (statIn body).length < 6 := by
            rcases hstat with hname | hmode
            · obtain ⟨name, hname⟩ := Option.isSome_iff_exists.mp hname
              exact not_lt.mpr (WstatParsing.nameIn_short hname)
            · omega
          rw [if_neg hsix, wp_run_bind]
          apply wp_mono (observed_monotone _ _ _) _ _ _ (audited_wstatScript tag _ hstat)
          intro r l hl
          cases r with
          | ok _ =>
              obtain ⟨req, rfl, hdemand⟩ := hl
              exact good_reply he hdemand nofun
          | error _ => exact hl

theorem honest_of_complete (h : Complete entry m) : Honest entry m := by
  intro hm
  apply honest_of_handler _ hm
  obtain ⟨ty, tag, body⟩ := m
  rcases hm with hty | hty | hty | hty
  · obtain rfl : ty = TCREATE := hty
    exact good_handleCreate tag body
  · obtain rfl : ty = TWRITE := hty
    apply good_handleWrite
    intro hentry
    obtain ⟨e, he⟩ := Option.ne_none_iff_exists'.mp hentry
    exact (h e he).1 rfl
  · obtain rfl : ty = TREMOVE := hty
    exact good_handleRemove tag body
  · obtain rfl : ty = TWSTAT := hty
    exact good_handleWstat tag fun e he => (h e he).2 rfl

/-- The history took the fid for `entry`, and this is what it accepted and sent. -/
def Yields (entry : Option FidEntry) (m : Message) (l : Ledger) : Prop :=
  ∃ h, Passes (serveMessage m) h (.done ()) ∧ (∀ a ∈ h, Given entry a.op a.answer) ∧ ledger h = l

theorem Honest.justified (h : Honest entry m) (hm : Mutates m) {accepted : List Request}
    {ty : UInt8} {body : Bytes} (hy : Yields entry m ⟨accepted, [message ty m.tag body]⟩)
    (hty : ty ≠ RERROR) : Justified entry m accepted (message ty m.tag body) := by
  obtain ⟨hist, hp, hgiven, hledger⟩ := hy
  have hj := h hm hist hp hgiven (message ty m.tag body)
  rw [hledger] at hj
  exact hj (List.mem_singleton_self _) hty

theorem yields_write (e : FidEntry) (tag : UInt16) {body : Bytes} (hlong : 16 ≤ body.length) :
    Yields (some e) ⟨TWRITE, tag, body⟩ ⟨[⟨.write, e.path, writePayload body⟩],
      [message RWRITE tag (leBytes 4 (uintAt 4 body 12))]⟩ := by
  refine ⟨[⟨.locked (.getFid (fidAt body 0)), some e⟩,
    ⟨.route ⟨.write, e.path, writePayload body⟩, .reply (.ok ⟨[], none, false⟩)⟩,
    ⟨.send (message RWRITE tag (leBytes 4 (uintAt 4 body 12))), ()⟩], ?_, ?_, rfl⟩
  · rw [serveMessage]
    change Passes ((handleWrite tag body).run >>= _) _ _
    rw [handleWrite_eq, if_neg (not_lt.mpr hlong)]
    exact .answer _ _ _ (.answer _ _ _ (.answer _ _ _ (.refl _)))
  · intro a ha
    fin_cases ha <;> trivial

/-- A record without a new name and too short for a mode is acknowledged at once. -/
theorem yields_short_wstat {e : FidEntry} (tag : UInt16) {body : Bytes} (hlong : 6 ≤ body.length)
    (hname : wstatName e ⟨TWSTAT, tag, body⟩ = none) (hshort : (statIn body).length < 23) :
    Yields (some e) ⟨TWSTAT, tag, body⟩ ⟨[], [message RWSTAT tag []]⟩ := by
  have hscript : wstatScript (fidAt body 0) e (statIn body) = pure () := by
    have hfields : ((statLayout (statIn body).length).hasMode ||
        (statLayout (statIn body).length).hasTime ||
        (statLayout (statIn body).length).hasLength) = false := by
      have hmode : decide (19 + 4 ≤ (statIn body).length) = false := decide_eq_false (by omega)
      have htime : decide (19 + 8 ≤ (statIn body).length) = false := decide_eq_false (by omega)
      simp only [statLayout, hmode, Bool.false_eq_true, if_false, htime, Bool.or_self]
    unfold wstatScript
    rw [show nameIn e.path (statIn body) _ = none from hname, hfields]
    rfl
  refine ⟨[⟨.locked (.getFid (fidAt body 0)), some e⟩, ⟨.send (message RWSTAT tag []), ()⟩],
    ?_, ?_, rfl⟩
  · rw [serveMessage]
    change Passes ((handleWstat tag body).run >>= _) _ _
    rw [handleWstat_eq, if_neg (by omega)]
    apply Passes.answer
    change Passes ((if body.length < 6 then (throw _ : Handler Unit) else _).run >>= _) _ _
    rw [if_neg (not_lt.mpr hlong), hscript]
    split <;> exact .answer _ _ _ (.refl _)
  · intro a ha
    fin_cases ha <;> trivial

theorem complete_of_honest (h : Honest entry m) : Complete entry m := by
  intro e he
  obtain rfl := he
  obtain ⟨ty, tag, body⟩ := m
  constructor
  · intro hty hlong
    obtain rfl : ty = TWRITE := hty
    obtain ⟨_, _, req, hreq, _, hcount⟩ := h.justified (Or.inr (Or.inl rfl))
      (yields_write e tag hlong) (by decide)
    obtain rfl := List.mem_singleton.mp hreq
    have hlength := hcount rfl
    rw [written_count, writePayload_length] at hlength
    exact min_eq_left_iff.mp hlength.symm
  · intro hty hlong
    obtain rfl : ty = TWSTAT := hty
    by_contra hno
    obtain ⟨hname, hshort⟩ := not_or.mp hno
    obtain ⟨_, _, req, hreq, _⟩ := h.justified (Or.inr (Or.inr (Or.inr rfl)))
      (yields_short_wstat tag hlong (Option.not_isSome_iff_eq_none.mp hname) (not_le.mp hshort))
      (by decide)
    cases hreq

theorem honest_iff (entry : Option FidEntry) (m : Message) : Honest entry m ↔ Complete entry m :=
  ⟨complete_of_honest, honest_of_complete⟩

end

end Ninep

/-! ## SFTP -/

namespace Sftp
open SftpSessions

def accepted (h : List (Answered sftp)) : List Request :=
  h.filterMap fun a => if granted a.answer then some a.op else none

/-- The packets that change something; an open does when it may create the file. -/
def mutates : Packet → Bool
  | .open _ _ pflags => pflags.testBit 3
  | .write .. | .remove .. | .mkDir .. | .rmDir .. | .rename .. | .setStat .. | .fSetStat .. => true
  | _ => false

/-- The operation and the path that such a packet is about. A handle that the table
does not have names no path. -/
def demanded (s : HandleState) : Packet → Option (FsOperation × String)
  | .open _ filename _ => some (.create, normalized filename)
  | .write _ handle _ _ => (s.get handle).map fun e => (.write, normalized e.path)
  | .remove _ filename => some (.unlink, normalized filename)
  | .mkDir _ path => some (.mkDir, normalized path)
  | .rmDir _ path => some (.rmDir, normalized path)
  | .rename _ oldpath _ => some (.rename, normalized oldpath)
  | .setStat _ path _ => some (.setAttr, normalized path)
  | .fSetStat _ handle _ => (s.get handle).map fun e => (.setAttr, normalized e.path)
  | _ => none

/-- A write is acknowledged as a whole, without a count. -/
def payload : Packet → Option Bytes
  | .write _ _ _ data => some data
  | _ => none

def Succeeds : Reply → Prop
  | .status _ code _ _ => code = .ok
  | _ => True

def Honest (s : HandleState) (p : Packet) : Prop :=
  mutates p = true → ∀ h reply s', Passes (dispatch s p) h (.done (some reply, s')) →
    Succeeds reply → ∃ req ∈ accepted h, demanded s p = some (req.op, req.path) ∧
      ∀ data, payload p = some data → req.data = data

/-- The packet does not set attributes through a handle that the table does not have. -/
def Resolved (s : HandleState) : Packet → Prop
  | .fSetStat _ handle _ => s.get handle ≠ none
  | _ => True

section
variable {s s' : HandleState} {id : ℕ} {op : FsOperation} {path : String} {data : Bytes}
  {h : List (Answered sftp)} {reply : Reply}

theorem not_succeeds (id : ℕ) (message language : String) :
    ¬ Succeeds (.status id .failure message language) := fun h => by cases h

theorem no_payload {p : Packet} (hnone : payload p = none) {P : Bytes → Prop} :
    ∀ data, payload p = some data → P data := by
  intro data hdata
  rw [hnone] at hdata
  cases hdata

/-- A method that fails whenever its request does succeeds on an accepted request. -/
theorem accepted_of_success {g : Except String Bytes → Prog sftp Result}
    (hp : Passes (replyTo id (route op path data >>= g)) h (.done (some reply, s')))
    (hfail : ∀ e, ∃ rep s'', replyTo id (g (.error e)) = .done (some rep, s'') ∧ ¬ Succeeds rep)
    (hok : Succeeds reply) : ⟨op, normalized path, data⟩ ∈ accepted h := by
  cases hp with
  | answer o next a hrest =>
      rcases outcome_cases a with ⟨_, hgranted⟩ | ⟨⟨e, herr⟩, _⟩
      · simp [accepted, hgranted]
      · exfalso
        obtain ⟨rep, s'', hrep, hno⟩ := hfail e
        change Passes (replyTo id (g (outcome a))) _ _ at hrest
        rw [herr, hrep] at hrest
        cases hrest
        exact hno hok

theorem accepted_of_acknowledge
    (hp : Passes (replyTo id (acknowledge s op id path data)) h (.done (some reply, s')))
    (hok : Succeeds reply) : ⟨op, normalized path, data⟩ ∈ accepted h :=
  accepted_of_success hp (fun _ => ⟨_, _, rfl, not_succeeds _ _ _⟩) hok

theorem accepted_withHandle {handle : String}
    (hp : Passes (replyTo id (withHandle s handle fun e => acknowledge s op id e.path data)) h
      (.done (some reply, s'))) (hok : Succeeds reply) :
    ∃ e, s.get handle = some e ∧ ⟨op, normalized e.path, data⟩ ∈ accepted h := by
  cases hget : s.get handle with
  | none =>
      rw [withHandle, hget] at hp
      cases hp
      cases hok
  | some e =>
      rw [withHandle, hget] at hp
      exact ⟨e, rfl, accepted_of_acknowledge hp hok⟩

theorem honest_of_resolved {p : Packet} (hres : Resolved s p) : Honest s p := by
  intro hm h reply s' hp hok
  cases p with
  | «open» id filename pflags =>
      have hcreate : pflags.testBit 3 = true := hm
      rw [dispatch, openFile, hcreate, if_pos rfl] at hp
      exact ⟨_, accepted_of_success hp (fun _ => ⟨_, _, rfl, not_succeeds _ _ _⟩) hok, rfl, no_payload rfl⟩
  | write id handle offset data =>
      obtain ⟨e, he, hacc⟩ := accepted_withHandle hp hok
      refine ⟨_, hacc, by rw [demanded, he]; rfl, ?_⟩
      rintro _ ⟨⟩
      rfl
  | remove id filename => exact ⟨_, accepted_of_acknowledge hp hok, rfl, no_payload rfl⟩
  | mkDir id path => exact ⟨_, accepted_of_acknowledge hp hok, rfl, no_payload rfl⟩
  | rmDir id path => exact ⟨_, accepted_of_acknowledge hp hok, rfl, no_payload rfl⟩
  | rename id oldpath newpath =>
      exact ⟨_, accepted_of_success hp (fun _ => ⟨_, _, rfl, not_succeeds _ _ _⟩) hok, rfl, no_payload rfl⟩
  | setStat id path attrs => exact ⟨_, accepted_of_acknowledge hp hok, rfl, no_payload rfl⟩
  | fSetStat id handle attrs =>
      obtain ⟨e, he⟩ := Option.ne_none_iff_exists'.mp hres
      have hacc := accepted_of_acknowledge hp hok
      rw [he] at hacc
      exact ⟨_, hacc, by rw [demanded, he]; rfl, no_payload rfl⟩
  | _ => cases hm

theorem resolved_of_honest {p : Packet} (hh : Honest s p) : Resolved s p := by
  cases p with
  | fSetStat id handle attrs =>
      intro hnone
      have hp : Passes (dispatch s (.fSetStat id handle attrs))
          [⟨⟨.setAttr, "/", []⟩, some (.reply (.ok ⟨[], none, false⟩))⟩]
          (.done (some (makeStatus id .ok), s)) := by
        rw [dispatch, fSetStat, replyTo_acknowledge, hnone]
        exact .answer _ _ _ (.refl _)
      obtain ⟨req, _, hdemand, _⟩ := hh rfl _ _ _ hp rfl
      rw [demanded, hnone] at hdemand
      cases hdemand
  | _ => trivial

theorem honest_iff (s : HandleState) (p : Packet) : Honest s p ↔ Resolved s p :=
  ⟨resolved_of_honest, honest_of_resolved⟩

end

end Sftp

/-! ## FUSE -/

namespace Fuse
open FuseFilesystem

def acceptedRequest : Answered fuse → Option Request
  | ⟨.route req, a⟩ => if Answer.accepted a then some req else none
  | _ => none

def accepted (h : List (Answered fuse)) : List Request := h.filterMap acceptedRequest

def mutates : Callback → Bool
  | .create .. | .mkdir .. | .write .. | .rename .. | .unlink .. | .rmdir .. | .setattr .. => true
  | _ => false

/-- The operation and the path that such a callback is about. An inode that the table
does not have names no path. -/
def demanded (s : FuseState) : Callback → Option (FsOperation × String)
  | .create parent name => (s.pathFor parent).map fun _ => (.create, childPath s parent name)
  | .mkdir parent name => (s.pathFor parent).map fun _ => (.mkDir, childPath s parent name)
  | .unlink parent name => (s.pathFor parent).map fun _ => (.unlink, childPath s parent name)
  | .rmdir parent name => (s.pathFor parent).map fun _ => (.rmDir, childPath s parent name)
  | .rename parent name newparent _ => (s.pathFor parent).bind fun _ =>
      (s.pathFor newparent).map fun _ => (.rename, childPath s parent name)
  | .write ino _ _ => (s.pathFor ino).map fun path => (.write, path)
  | .setattr ino .. => (s.pathFor ino).map fun path => (.setAttr, path)
  | _ => none

def Succeeds (reply : Reply) : Prop := ∀ errno, reply ≠ .error errno

def Honest (s : FuseState) (cb : Callback) : Prop :=
  mutates cb = true → ∀ mounted h reply s', Passes (dispatch mounted s cb) h (.done (reply, s')) →
    Succeeds reply → ∃ req ∈ accepted h, demanded s cb = some (req.op, req.path) ∧
      ∀ ino offset data, cb = .write ino offset data → reply = .written req.data.length

/-- Directories are known, counts fit into 32 bits, and the callback is none of the
two that are replied without an accepted request. -/
def Answerable (s : FuseState) : Callback → Prop
  | .create .. => False
  | .mkdir parent _ | .unlink parent _ | .rmdir parent _ => s.pathFor parent ≠ none
  | .rename parent _ newparent _ => s.pathFor parent ≠ none ∧ s.pathFor newparent ≠ none
  | .write ino _ data => s.pathFor ino = none ∨ data.length < 2 ^ 32
  | .setattr ino .. => s.pathFor ino = none
  | _ => True

section
variable {s s' : FuseState} {op : FsOperation} {path : String} {data : Bytes}
  {h : List (Answered fuse)} {reply : Reply} {parent newparent : ℕ} {name newname : Bytes}

/-- A callback that fails whenever its request does succeeds on an accepted request. -/
theorem accepted_of_success {g : Except String Bytes → Prog fuse Result}
    (hp : Passes (sendReq op path data >>= g) h (.done (reply, s')))
    (hfail : ∀ e, ∃ errno s'', g (.error e) = .done (.error errno, s''))
    (hok : Succeeds reply) : ⟨op, path, data⟩ ∈ accepted h := by
  cases hp with
  | answer o next a hrest =>
      rcases outcome_cases a with ⟨_, hacc⟩ | ⟨⟨e, herr⟩, _⟩
      · exact List.mem_filterMap.mpr ⟨_, List.mem_cons_self .., if_pos hacc⟩
      · exfalso
        obtain ⟨errno, s'', hg⟩ := hfail e
        change Passes (g (outcome a)) _ _ at hrest
        rw [herr, hg] at hrest
        cases hrest
        exact hok errno rfl

theorem known_parent {op : FsOperation} (hknown : s.pathFor parent ≠ none) :
    ((s.pathFor parent).map fun _ => (op, childPath s parent name)) =
      some (op, childPath s parent name) := by
  obtain ⟨p, hparent⟩ := Option.ne_none_iff_exists'.mp hknown
  rw [hparent]
  rfl

theorem honest_write {ino offset : ℕ} (hfits : s.pathFor ino = none ∨ data.length < 2 ^ 32) :
    Honest s (.write ino offset data) := by
  intro _ mounted h reply s' hp hok
  cases hpath : s.pathFor ino with
  | none =>
      rw [dispatch, write, withPath_none hpath] at hp
      cases hp
      exact absurd rfl (hok .enoent)
  | some path =>
      rw [hpath] at hfits
      rw [dispatch_write hpath] at hp
      cases hp with
      | answer o next a hrest =>
          by_cases hacc : Answer.accepted a = true
          · simp only [hacc, if_true] at hrest
            cases hrest
            refine ⟨⟨.write, path, data⟩, ?_, by rw [demanded, hpath]; rfl, ?_⟩
            · exact List.mem_filterMap.mpr ⟨_, List.mem_cons_self .., if_pos hacc⟩
            · intro _ _ _ _
              exact congrArg Reply.written (Nat.mod_eq_of_lt (hfits.resolve_left (Option.some_ne_none path)))
          · simp only [hacc] at hrest
            cases hrest
            exact absurd rfl (hok .eio)

theorem honest_of_answerable {cb : Callback} (ha : Answerable s cb) : Honest s cb := by
  intro hm mounted h reply s' hp hok
  cases cb with
  | create parent name => exact ha.elim
  | mkdir parent name =>
      exact ⟨_, accepted_of_success hp (fun _ => ⟨_, _, rfl⟩) hok, known_parent ha, fun _ _ _ h => by cases h⟩
  | unlink parent name =>
      exact ⟨_, accepted_of_success hp (fun _ => ⟨_, _, rfl⟩) hok, known_parent ha, fun _ _ _ h => by cases h⟩
  | rmdir parent name =>
      exact ⟨_, accepted_of_success hp (fun _ => ⟨_, _, rfl⟩) hok, known_parent ha, fun _ _ _ h => by cases h⟩
  | rename parent name newparent newname =>
      obtain ⟨p, hparent⟩ := Option.ne_none_iff_exists'.mp ha.1
      obtain ⟨q, hnewparent⟩ := Option.ne_none_iff_exists'.mp ha.2
      refine ⟨_, accepted_of_success hp (fun _ => ⟨_, _, rfl⟩) hok, ?_, fun _ _ _ h => by cases h⟩
      rw [demanded, hparent, hnewparent]
      rfl
  | write ino offset data => exact honest_write ha hm mounted h reply s' hp hok
  | setattr ino mode uid gid size atime mtime =>
      rw [dispatch, setattr, withPath_none ha] at hp
      cases hp
      exact absurd rfl (hok .enoent)
  | _ => cases hm

/-- A callback that succeeds when every request is accepted has to name a path. -/
theorem demanded_of_honest {cb : Callback} (hh : Honest s cb) (hm : mutates cb = true)
    (hok : Succeeds (answered obliging (dispatch 0 s cb)).2.1) : demanded s cb ≠ none := by
  obtain ⟨req, _, hdemand, _⟩ := hh hm 0 _ _ _ (passes_answered obliging _) hok
  rw [hdemand]
  exact Option.some_ne_none _

theorem known_of_mapped {B : Type} {o : Option String} {f : String → B} (h : o.map f ≠ none) :
    o ≠ none := fun hnone => h (by rw [hnone]; rfl)

theorem succeeds_found (s : FuseState) (path : String) {k : Option ℕ → Prog fuse Result}
    (hk : ∀ found, Succeeds (answered obliging (k found)).2.1) :
    Succeeds (answered obliging (findInode s path >>= k)).2.1 := hk _

theorem renamed_succeeds (parent : ℕ) (name : Bytes) (newparent : ℕ) (newname : Bytes) :
    Succeeds (answered obliging (dispatch 0 s (.rename parent name newparent newname))).2.1 := by
  apply succeeds_found s (childPath s parent name)
  intro found
  cases found <;> exact fun _ h => by cases h

/-- The count of an accepted write is the length only if that fits into 32 bits. -/
theorem short_of_honest_write {ino offset : ℕ} {data : Bytes} {path : String}
    (hpath : s.pathFor ino = some path) (hh : Honest s (.write ino offset data)) :
    data.length < 2 ^ 32 := by
  have hp : Passes (dispatch 0 s (.write ino offset data))
      [⟨.route ⟨.write, path, data⟩, .reply (.ok ⟨[], none, false⟩)⟩]
      (.done (.written (data.length % 2 ^ 32), s.cacheSize path data.length)) := by
    rw [dispatch_write hpath]
    exact .answer _ _ _ (.refl _)
  obtain ⟨req, hreq, _, hcount⟩ := hh rfl 0 _ _ _ hp fun _ h => by cases h
  obtain rfl := List.mem_singleton.mp hreq
  have hmod := Reply.written.inj (hcount ino offset data rfl)
  exact (Nat.mod_eq_iff_lt (by decide)).mp hmod

/-- A refused change of attributes is still replied with attributes. -/
theorem not_honest_setattr {ino : ℕ} {mode uid gid size : Option ℕ} {atime mtime : Option TimeOrNow}
    {path : String} (hpath : s.pathFor ino = some path) :
    ¬ Honest s (.setattr ino mode uid gid size atime mtime) := by
  intro hh
  have hp : Passes (dispatch 0 s (.setattr ino mode uid gid size atime mtime))
      [⟨.route ⟨.setAttr, path, attrPayload mode uid gid size atime mtime⟩, .routerGone⟩,
        ⟨.route ⟨.getAttr, path, []⟩, .reply (.ok ⟨[], none, false⟩)⟩, ⟨.now, (0 : ℕ)⟩]
      (.done (.attr (fileAttr 0 ino (parseAttr []).2 (parseAttr []).1), s)) := by
    rw [dispatch, setattr, withPath_some hpath]
    exact .answer _ _ _ (.answer _ _ _ (.answer _ _ _ (.refl _)))
  obtain ⟨req, hreq, hdemand, _⟩ := hh rfl 0 _ _ _ hp fun _ h => by cases h
  obtain rfl := List.mem_singleton.mp hreq
  rw [demanded, hpath] at hdemand
  cases hdemand

theorem answerable_of_honest {cb : Callback} (hh : Honest s cb) : Answerable s cb := by
  cases cb with
  | create parent name =>
      obtain ⟨req, hreq, _⟩ := hh rfl 0 [⟨.now, (0 : ℕ)⟩] _ _ (.answer _ _ _ (.refl _))
        fun _ h => by cases h
      cases hreq
  | mkdir parent name => exact known_of_mapped (demanded_of_honest hh rfl fun _ h => by cases h)
  | unlink parent name => exact known_of_mapped (demanded_of_honest hh rfl fun _ h => by cases h)
  | rmdir parent name => exact known_of_mapped (demanded_of_honest hh rfl fun _ h => by cases h)
  | rename parent name newparent newname =>
      have hdemand := demanded_of_honest hh rfl (renamed_succeeds parent name newparent newname)
      constructor
      · intro hnone
        rw [demanded, hnone] at hdemand
        exact hdemand rfl
      · intro hnone
        rw [demanded, hnone] at hdemand
        exact hdemand (Option.bind_fun_none _)
  | write ino offset data =>
      cases hpath : s.pathFor ino with
      | none => exact Or.inl hpath
      | some path => exact Or.inr (short_of_honest_write hpath hh)
  | setattr ino mode uid gid size atime mtime =>
      cases hpath : s.pathFor ino with
      | none => exact hpath
      | some path => exact absurd hh (not_honest_setattr hpath)
  | _ => trivial

theorem honest_iff (s : FuseState) (cb : Callback) : Honest s cb ↔ Answerable s cb :=
  ⟨answerable_of_honest, honest_of_answerable⟩

end

end Fuse

/-! ## All frontends -/

/-- A write of one byte that announces a hundred. -/
def shortWrite : Message :=
  ⟨TWRITE, 1, [0, 0, 0, 0, 0, 0, 0, 0, 0, 0, 0, 0, 100, 0, 0, 0, 120]⟩

end Pinhead.MutationReplies
