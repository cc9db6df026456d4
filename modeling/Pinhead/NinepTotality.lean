import Pinhead.NinepRuns

/-!
# When a 9P request is answered exactly once

A handler is silent up to its one reply: every step before it either goes on or
fails with an error that the connection loop replies. The only way to break
this is a slice behind a length check that is short. There are two such checks:
a version body of five bytes and a walk body of nine.
-/
namespace Pinhead.NinepTotality
open ByteStrings FsRequests Resumption NinepShared NinepHandlers NinepRuns

/-! ## Steps that write nothing -/

/-- The step writes nothing and returns a value with `P`, or fails. -/
def Silent {A : Type} (P : A → Prop) (x : Handler A) : Prop :=
  ∀ (Q : Except String A → List Bytes → Prop) (t : List Bytes),
    (∀ a, P a → Q (.ok a) t) → (∀ e, Q (.error e) t) → wp emitted x.run Q t

/-- Success comes with one reply that carries the tag, failure with none. -/
def replied (tag : UInt16) : Except String Unit → List Bytes → Prop
  | .ok _, t => ∃ ty body, t = [message ty tag body]
  | .error _, t => t = []

def Replies (tag : UInt16) (x : Handler Unit) : Prop := wp emitted x.run (replied tag) []

section
variable {A B : Type} {P : A → Prop} {R : B → Prop} {tag : UInt16}

theorem Silent.bind {x : Handler A} {f : A → Handler B} (hx : Silent P x)
    (hf : ∀ a, P a → Silent R (f a)) : Silent R (x >>= f) := by
  intro Q t hok herr
  rw [wp_run_bind]
  apply hx
  · intro a ha
    exact hf a ha Q t hok herr
  · exact herr

theorem Silent.replies {x : Handler A} {f : A → Handler Unit} (hx : Silent P x)
    (hf : ∀ a, P a → Replies tag (f a)) : Replies tag (x >>= f) := by
  unfold Replies
  rw [wp_run_bind]
  apply hx
  · intro a ha
    exact hf a ha
  · intro e
    rfl

theorem silent_pure {a : A} (ha : P a) : Silent P (pure a : Handler A) :=
  fun _ _ hok _ => hok a ha

theorem silent_throw (e : String) : Silent P (throw e : Handler A) := fun _ _ _ herr => herr e

end

theorem silent_failIf (p : Prop) [Decidable p] (e : String) :
    Silent (fun _ => ¬ p) (failIf p e) := by
  intro Q t hok herr
  rw [wp_failIf]
  exact ⟨fun _ => herr e, fun h => hok () h⟩

theorem silent_range {body : Bytes} {i j : ℕ} (hij : i ≤ j) (hj : j ≤ body.length) :
    Silent (fun bs => bs.length = j - i) (range body i j) := by
  intro Q t hok _
  rw [wp_range_of_le emitted t hij hj]
  apply hok
  rw [List.length_take, List.length_drop]
  omega

theorem silent_readUint {width : ℕ} {body : Bytes} {i : ℕ} (h : i + width ≤ body.length) :
    Silent (fun _ => True) (readUint width body i) :=
  (silent_range (Nat.le_add_right i width) h).bind fun _ _ => silent_pure trivial

theorem silent_readFid {body : Bytes} {i : ℕ} (h : i + 4 ≤ body.length) :
    Silent (fun _ => True) (readFid body i) :=
  (silent_readUint h).bind fun _ _ => silent_pure trivial

theorem silent_locked (c : Critical) : Silent (fun _ => True) (locked c) :=
  fun _ _ hok _ r => hok r trivial

theorem silent_getFid (fid : UInt32) : Silent (fun _ => True) (getFid fid) := by
  refine (silent_locked _).bind fun r _ => ?_
  cases r with
  | none => exact silent_throw _
  | some e => exact silent_pure trivial

theorem silent_route (req : Request) : Silent (fun _ => True)
    (liftM (Prog.perform (S := ninep) (.route req)) : Handler Answer) :=
  fun _ _ hok _ r => hok r trivial

theorem silent_request (what : String) (op : FsOperation) (path : String) (data : Bytes) :
    Silent (fun _ => True) (request what op path data) := by
  refine (silent_route _).bind fun r _ => ?_
  match r with
  | .routerGone => exact silent_throw _
  | .handlerGone => exact silent_throw _
  | .reply (.error e) => exact silent_throw _
  | .reply (.ok r) => exact silent_pure trivial

theorem silent_encodeStat (name : String) (qid : Qid) (length : ℕ) (isDir : Bool) :
    Silent (fun _ => True) (encodeStat name qid length isDir) :=
  fun _ _ hok _ _ => hok _ trivial

theorem replies_send (ty : UInt8) (tag : UInt16) (body : Bytes) :
    Replies tag (sendReply ty tag body) := ⟨ty, body, rfl⟩

theorem replies_throw (tag : UInt16) (e : String) : Replies tag (throw e) := rfl

/-! ## The twelve handlers -/

theorem silent_parseVersion {body : Bytes} (h : body.length ≠ 5) :
    Silent (fun _ => True) (parseVersion body) := by
  unfold parseVersion
  split
  · refine (silent_readUint (by omega)).bind fun vlen _ => ?_
    split
    · exact (silent_range (by omega) (by omega)).bind fun _ _ => silent_pure trivial
    · exact silent_pure trivial
  · exact silent_pure trivial

theorem replies_handleVersion (tag : UInt16) {body : Bytes} (h : body.length ≠ 5) :
    Replies tag (handleVersion tag body) := by
  refine (silent_failIf _ _).replies fun _ hlen => ?_
  refine (silent_readUint (by omega)).replies fun proposed _ => ?_
  refine (silent_parseVersion h).replies fun _ _ => ?_
  refine (silent_locked _).replies fun _ _ => ?_
  exact replies_send _ _ _

theorem replies_handleAttach (tag : UInt16) (body : Bytes) :
    Replies tag (handleAttach tag body) := by
  refine (silent_failIf _ _).replies fun _ hlen => ?_
  refine (silent_readFid (by omega)).replies fun fid _ => ?_
  refine (silent_readFid (by omega)).replies fun _ _ => ?_
  refine (silent_locked _).replies fun _ _ => ?_
  exact replies_send _ _ _

theorem silent_lookupLast (isLast : Bool) (path : String) :
    Silent (fun _ => True) (lookupLast isLast path) := by
  unfold lookupLast
  split
  · exact (silent_request _ _ _ _).bind fun _ _ => silent_pure trivial
  · exact silent_pure trivial

theorem silent_walkNames (body : Bytes) (left : ℕ) (w : Walk) :
    Silent (fun _ => True) (walkNames body left w) := by
  induction left generalizing w with
  | zero => exact silent_pure trivial
  | succ left ih =>
      refine (silent_failIf _ _).bind fun _ hlen => ?_
      refine (silent_readUint (by omega)).bind fun nlen _ => ?_
      refine (silent_failIf _ _).bind fun _ hname => ?_
      refine (silent_range (by omega) (by omega)).bind fun raw _ => ?_
      refine (silent_lookupLast _ _).bind fun _ _ => ?_
      refine (silent_locked _).bind fun qid _ => ?_
      exact ih _

theorem replies_handleWalk (tag : UInt16) {body : Bytes} (h : body.length ≠ 9) :
    Replies tag (handleWalk tag body) := by
  refine (silent_failIf _ _).replies fun _ hlen => ?_
  refine (silent_readFid (by omega)).replies fun fid _ => ?_
  refine (silent_readFid (by omega)).replies fun newFid _ => ?_
  refine (silent_readUint (by omega)).replies fun nwname _ => ?_
  refine (silent_getFid _).replies fun parent _ => ?_
  refine (silent_walkNames _ _ _).replies fun w _ => ?_
  refine (silent_locked _).replies fun _ _ => ?_
  exact replies_send _ _ _

theorem replies_handleOpen (tag : UInt16) (body : Bytes) : Replies tag (handleOpen tag body) := by
  refine (silent_failIf _ _).replies fun _ hlen => ?_
  refine (silent_readFid (by omega)).replies fun fid _ => ?_
  refine (silent_range (by omega) (by omega)).replies fun _ _ => ?_
  refine (silent_getFid _).replies fun entry _ => ?_
  refine (silent_request _ _ _ _).replies fun _ _ => ?_
  refine (silent_locked _).replies fun _ _ => ?_
  refine (silent_locked _).replies fun msize _ => ?_
  exact replies_send _ _ _

theorem replies_handleCreate (tag : UInt16) (body : Bytes) :
    Replies tag (handleCreate tag body) := by
  refine (silent_failIf _ _).replies fun _ hlen => ?_
  refine (silent_readFid (by omega)).replies fun fid _ => ?_
  refine (silent_readUint (by omega)).replies fun nameLen _ => ?_
  refine (silent_failIf _ _).replies fun _ hname => ?_
  refine (silent_range (by omega) (by omega)).replies fun raw _ => ?_
  refine (silent_readUint (by omega)).replies fun perm _ => ?_
  refine (silent_range (by omega) (by omega)).replies fun _ _ => ?_
  refine (silent_getFid _).replies fun parent _ => ?_
  refine (silent_request _ _ _ _).replies fun _ _ => ?_
  refine (silent_locked _).replies fun qid _ => ?_
  exact replies_send _ _ _

theorem silent_encodeEntries (es : List DirEntry) :
    Silent (fun _ => True) (encodeEntries es) := by
  induction es with
  | nil => exact silent_pure trivial
  | cons e es ih =>
      refine (silent_encodeStat _ _ _ _).bind fun stat _ => ?_
      exact ih.bind fun _ _ => silent_pure trivial

theorem silent_withDot (offset : ℕ) (data : Bytes) :
    Silent (fun _ => True) (withDot offset data) := by
  unfold withDot
  split
  · exact (silent_encodeStat _ _ _ _).bind fun _ _ => silent_pure trivial
  · exact silent_pure trivial

theorem replies_handleRead (tag : UInt16) (body : Bytes) : Replies tag (handleRead tag body) := by
  refine (silent_failIf _ _).replies fun _ hlen => ?_
  refine (silent_readFid (by omega)).replies fun fid _ => ?_
  refine (silent_readUint (by omega)).replies fun offset _ => ?_
  refine (silent_readUint (by omega)).replies fun _ _ => ?_
  refine (silent_getFid _).replies fun entry _ => ?_
  split
  · refine (silent_request _ _ _ _).replies fun _ _ => ?_
    refine (silent_locked _).replies fun entries _ => ?_
    refine (silent_encodeEntries _).replies fun listing _ => ?_
    refine (silent_withDot _ _).replies fun data _ => ?_
    exact replies_send _ _ _
  · refine (silent_request _ _ _ _).replies fun resp _ => ?_
    exact replies_send _ _ _

theorem replies_handleWrite (tag : UInt16) (body : Bytes) : Replies tag (handleWrite tag body) := by
  refine (silent_failIf _ _).replies fun _ hlen => ?_
  refine (silent_readFid (by omega)).replies fun fid _ => ?_
  refine (silent_readUint (by omega)).replies fun _ _ => ?_
  refine (silent_readUint (by omega)).replies fun count _ => ?_
  refine (silent_getFid _).replies fun entry _ => ?_
  refine (silent_range (by omega) (by omega)).replies fun data _ => ?_
  refine (silent_request _ _ _ _).replies fun _ _ => ?_
  exact replies_send _ _ _

theorem silent_releaseFid (entry : Option FidEntry) :
    Silent (fun _ => True) (releaseFid entry) := by
  cases entry with
  | none => exact silent_pure trivial
  | some e => exact (silent_route _).bind fun _ _ => silent_pure trivial

theorem replies_handleClunk (tag : UInt16) (body : Bytes) : Replies tag (handleClunk tag body) := by
  refine (silent_failIf _ _).replies fun _ hlen => ?_
  refine (silent_readFid (by omega)).replies fun fid _ => ?_
  refine (silent_locked _).replies fun entry _ => ?_
  refine (silent_releaseFid _).replies fun _ _ => ?_
  refine (silent_locked _).replies fun _ _ => ?_
  exact replies_send _ _ _

theorem replies_handleRemove (tag : UInt16) (body : Bytes) :
    Replies tag (handleRemove tag body) := by
  refine (silent_failIf _ _).replies fun _ hlen => ?_
  refine (silent_readFid (by omega)).replies fun fid _ => ?_
  refine (silent_getFid _).replies fun entry _ => ?_
  refine (silent_request _ _ _ _).replies fun _ _ => ?_
  exact replies_send _ _ _

theorem replies_handleStat (tag : UInt16) (body : Bytes) : Replies tag (handleStat tag body) := by
  refine (silent_failIf _ _).replies fun _ hlen => ?_
  refine (silent_readFid (by omega)).replies fun fid _ => ?_
  refine (silent_getFid _).replies fun entry _ => ?_
  refine (silent_request _ _ _ _).replies fun resp _ => ?_
  refine (silent_encodeStat _ _ _ _).replies fun stat _ => ?_
  exact replies_send _ _ _

theorem silent_newName (path : String) (stat : Bytes) (off : ℕ) :
    Silent (fun _ => True) (newName path stat off) := by
  unfold newName
  split
  · refine (silent_readUint (by omega)).bind fun nameLen _ => ?_
    split
    · exact (silent_range (by omega) (by omega)).bind fun _ _ => silent_pure trivial
    · exact silent_pure trivial
  · exact silent_pure trivial

theorem silent_applyStat (fid : UInt32) (entry : FidEntry) (stat : Bytes) :
    Silent (fun _ => True) (applyStat fid entry stat) := by
  refine (silent_newName _ _ _).bind fun name _ => ?_
  cases name with
  | some name =>
      refine (silent_request _ _ _ _).bind fun _ _ => ?_
      exact silent_locked (.renameFid fid entry.qid (renamedPath entry.path name))
  | none =>
      dsimp only
      split
      · exact (silent_request _ _ _ _).bind fun _ _ => silent_pure trivial
      · exact silent_pure trivial

theorem replies_handleWstat (tag : UInt16) (body : Bytes) :
    Replies tag (handleWstat tag body) := by
  refine (silent_failIf _ _).replies fun _ hlen => ?_
  refine (silent_readFid (by omega)).replies fun fid _ => ?_
  refine (silent_getFid _).replies fun entry _ => ?_
  refine (silent_range (by omega) (by omega)).replies fun data _ => ?_
  refine (silent_failIf _ _).replies fun _ hdata => ?_
  refine (silent_readUint (by omega)).replies fun statLen _ => ?_
  refine (silent_range (by omega) (by omega)).replies fun stat _ => ?_
  split
  · exact replies_send _ _ _
  · refine (silent_applyStat _ _ _).replies fun _ _ => ?_
    exact replies_send _ _ _

/-! ## The two short checks -/

/-- The bodies that pass their length check and are then read out of range. -/
def ShortCheck (m : Message) : Prop :=
  (m.ty = TVERSION ∧ m.body.length = 5) ∨ (m.ty = TWALK ∧ m.body.length = 9)

theorem replies_handleMessage (m : Message) (h : ¬ ShortCheck m) :
    Replies m.tag (handleMessage m) := by
  unfold handleMessage
  split
  · rename_i hty
    exact replies_handleVersion _ fun hlen => h (Or.inl ⟨hty, hlen⟩)
  · exact replies_handleAttach _ _
  · rename_i hty
    exact replies_handleWalk _ fun hlen => h (Or.inr ⟨hty, hlen⟩)
  · exact replies_handleOpen _ _
  · exact replies_handleRead _ _
  · exact replies_handleWrite _ _
  · exact replies_handleClunk _ _
  · exact replies_handleCreate _ _
  · exact replies_handleRemove _ _
  · exact replies_handleStat _ _
  · exact replies_handleWstat _ _
  · exact replies_send _ _ _
  · exact replies_throw _ _

/-- The connection loop adds the error reply exactly where the handler failed. -/
theorem serveMessage_replies (m : Message) (h : ¬ ShortCheck m) :
    wp emitted (serveMessage m) (fun _ t => ∃ ty body, t = [message ty m.tag body]) [] := by
  unfold serveMessage
  rw [wp_bind]
  refine wp_mono emitted_monotone _ ?_ [] (replies_handleMessage m h)
  intro r t hr
  cases r with
  | ok _ => exact hr
  | error e =>
      change t = [] at hr
      subst t
      exact ⟨RERROR, errorBody e, rfl⟩

theorem crash_bind {A B : Type} (f : A → Handler B) : (crash >>= f) = crash := by
  apply ExceptT.ext
  rw [ExceptT.run_bind]
  change Prog.call (S := ninep) Op.crash _ = Prog.call (S := ninep) Op.crash _
  congr 1
  funext e
  exact Empty.elim e

theorem failIf_of_not {p : Prop} [Decidable p] (h : ¬ p) (e : String) : failIf p e = pure () :=
  if_neg h

theorem range_of_le {body : Bytes} {i j : ℕ} (hij : i ≤ j) (hj : j ≤ body.length) :
    range body i j = pure ((body.drop i).take (j - i)) := by
  unfold range
  rw [slice_of_le hij hj]

theorem readUint_of_le (width : ℕ) (body : Bytes) (i : ℕ) (h : i + width ≤ body.length) :
    ∃ n, readUint width body i = pure n := by
  unfold readUint
  rw [range_of_le (Nat.le_add_right i width) h, pure_bind]
  exact ⟨_, rfl⟩

theorem readFid_of_le (body : Bytes) (i : ℕ) (h : i + 4 ≤ body.length) :
    ∃ fid, readFid body i = pure fid := by
  obtain ⟨n, hn⟩ := readUint_of_le 4 body i h
  unfold readFid
  rw [hn, pure_bind]
  exact ⟨_, rfl⟩

theorem readUint_crash {width : ℕ} {body : Bytes} {i : ℕ} (h : body.length < i + width) :
    readUint width body i = crash := by
  unfold readUint
  rw [range_crash h, crash_bind]

theorem handleVersion_crash (tag : UInt16) {body : Bytes} (h : body.length = 5) :
    handleVersion tag body = crash := by
  obtain ⟨n, hn⟩ := readUint_of_le 4 body 0 (by omega)
  have hversion : parseVersion body = crash := by
    unfold parseVersion
    rw [if_pos (by omega), readUint_crash (by omega), crash_bind]
  unfold handleVersion
  rw [failIf_of_not (by omega), pure_bind, hn, pure_bind, hversion, crash_bind]

theorem handleWalk_crash (tag : UInt16) {body : Bytes} (h : body.length = 9) :
    handleWalk tag body = crash := by
  obtain ⟨fid, hfid⟩ := readFid_of_le body 0 (by omega)
  obtain ⟨newFid, hnew⟩ := readFid_of_le body 4 (by omega)
  unfold handleWalk
  rw [failIf_of_not (by omega), pure_bind, hfid, pure_bind, hnew, pure_bind,
    readUint_crash (by omega), crash_bind]

theorem serveMessage_crash {m : Message} (h : ShortCheck m) :
    ∃ next, serveMessage m = Prog.call (S := ninep) .crash next := by
  have hcrash : handleMessage m = crash := by
    unfold handleMessage
    rcases h with ⟨hty, hlen⟩ | ⟨hty, hlen⟩
    · rw [hty]
      exact handleVersion_crash _ hlen
    · rw [hty]
      exact handleWalk_crash _ hlen
  unfold serveMessage
  rw [hcrash]
  exact ⟨_, rfl⟩

/-! ## Every request, every state, every schedule -/

/-- Wherever the handling of `m` starts, and whatever runs in between, it never
reads out of range, it can always be carried to its end, and once it has ended
the connection has been sent one message with the tag of `m`. -/
def AnsweredOnce (m : Message) : Prop :=
  ∀ (ι : Type) [DecidableEq ι] (c d : Config ninep ι Shared) (t : List (Event ninep ι)) (i : ι),
    Reachable c.state → c.tasks i = serveMessage m → Run (semantics anyRouter) c t d →
      (∀ next, d.tasks i ≠ .call .crash next) ∧
      (d.tasks i = .done () → ∃ ty body, sent i t = [message ty m.tag body]) ∧
      ∃ u e, Run (semantics anyRouter) d u e ∧ e.tasks i = .done ()

/-- Every operation but a crash has an answer, so a task can run to its end. -/
theorem completes {ι : Type} [DecidableEq ι] (i : ι) (p : Prog ninep Unit)
    (c : Config ninep ι Shared) (hp : c.tasks i = p) {Q : Unit → List Bytes → Prop}
    {l : List Bytes} (h : wp emitted p Q l) :
    ∃ u e, Run (semantics anyRouter) c u e ∧ e.tasks i = .done () := by
  induction p generalizing c l with
  | done a => exact ⟨[], c, .refl c, hp⟩
  | call o next ih =>
      have finish : ∀ (r : Op.Ret o) (s : Shared), semantics anyRouter o c.state r s →
          ∀ l', wp emitted (next r) Q l' →
          ∃ u e, Run (semantics anyRouter) c u e ∧ e.tasks i = .done () := by
        intro r s hsem l' hnext
        obtain ⟨u, e, hrun, hdone⟩ := ih r ⟨s, Function.update c.tasks i (next r)⟩
          (Function.update_self ..) hnext
        exact ⟨_, e, .step (.answer i o next r s hp hsem) hrun, hdone⟩
      cases o with
      | locked k =>
          exact finish (k.exec c.state).1 (k.exec c.state).2 ⟨c.state, .refl _, rfl⟩ l (h _)
      | route req => exact finish .routerGone c.state ⟨trivial, rfl⟩ l (h _)
      | now => exact finish (0 : ℕ) c.state rfl l (h (0 : ℕ))
      | send msg => exact finish () c.state rfl _ h
      | crash => exact h.elim

/-- A body behind a short check takes its task down at once, in any state. -/
theorem not_answeredOnce {m : Message} (h : ShortCheck m) : ¬ AnsweredOnce m := by
  intro hm
  obtain ⟨next, hnext⟩ := serveMessage_crash h
  have hstart := hm Unit ⟨Shared.new, fun _ => serveMessage m⟩ _ [] () reachable_new rfl (.refl _)
  exact hstart.1 next hnext

theorem answeredOnce_iff (m : Message) : AnsweredOnce m ↔ ¬ ShortCheck m := by
  constructor
  · intro h hshort
    exact not_answeredOnce hshort h
  · intro h ι _ c d t i _ hi run
    have hstart : wp emitted (c.tasks i)
        (fun _ l => ∃ ty body, l = [message ty m.tag body]) [] := by
      rw [hi]
      exact serveMessage_replies m h
    have hend := emitted_run run i hstart
    refine ⟨?_, ?_, completes i (d.tasks i) d rfl hend⟩
    · intro next hcrash
      rw [hcrash] at hend
      exact hend
    · intro hdone
      rw [hdone] at hend
      exact hend

/-- A walk whose body stops inside its name count. -/
theorem nine_byte_walk_crashes :
    ¬ ∀ m : Message, m.body.length ≤ 65536 → AnsweredOnce m := by
  intro h
  exact not_answeredOnce (Or.inr ⟨rfl, rfl⟩)
    (h ⟨TWALK, 1, [0, 0, 0, 0, 1, 0, 0, 0, 1]⟩ (by decide))

end Pinhead.NinepTotality
