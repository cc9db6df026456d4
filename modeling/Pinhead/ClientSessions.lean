import Pinhead.ClientOperations
import Pinhead.FidBindings

/-!
# A client and its server over one connection

The client sends a message and waits until it has read a reply; its server is the
connection loop over the bytes of the message. A message that is too long for the loop
makes the server hang up, and every exchange from then on fails. Other connections may
move the server's state at any time, as far as they spare the fids in question.

`heard` reads an operation of the client as what it may expect of its server: each reply
is that of one of the effects of the message. What is proved of an operation by it holds
of every dialogue between the two, and a dialogue never gets stuck.
-/
namespace Pinhead.ClientSessions
open ByteStrings ByteStreams FsRequests Resumption Histories NinepShared NinepHandlers NinepRuns
open NinepTotality NinepDatagrams NinepConnections NinepScripts NinepCalls NinepLockstep
open NinepClient (components runConnection_message)
open ClientOperations FidBindings

/-! ## Dialogues -/

/-- The state of the server, and the connection as long as it is open. -/
structure Channel where
  shared : Shared
  link : Option Link

/-- One exchange. The text of an input or output error may be any. -/
inductive Exchanged (sem : Semantics ninep Shared) : Channel → Exchange → Channel → Prop
  | replied {s s' : Shared} {l : Link} {c : Call} {h : List (Answered ninep)}
      {server : Prog ninep Unit} {r : Except String Bytes} {rest : Bytes} :
      Passes (l.server >>= fun _ =>
        runConnection handleMessage sendError Source.contiguous (encodeMessage c.message)) h server →
      Performs sem s h s' → receive (l.unread ++ written h) = some (r, rest) →
      Exchanged sem ⟨s, some l⟩ ⟨c, h, r⟩ ⟨s', some ⟨server, rest⟩⟩
  | hungUp {s s' : Shared} {l : Link} {c : Call} {h : List (Answered ninep)} (e : String) :
      65536 < c.body.length → c.body.length < 2 ^ 32 - 7 → Passes l.server h (.done ()) →
      Performs sem s h s' → receive (l.unread ++ written h) = none →
      Exchanged sem ⟨s, some l⟩ ⟨c, h, .error e⟩ ⟨s', none⟩
  | closed (s : Shared) (c : Call) (e : String) :
      Exchanged sem ⟨s, none⟩ ⟨c, [], .error e⟩ ⟨s, none⟩

inductive Dialogue (sem : Semantics ninep Shared) : Channel → List Exchange → Channel → Prop
  | refl (ch : Channel) : Dialogue sem ch [] ch
  | exchange {ch ch' ch'' : Channel} {x : Exchange} {k : List Exchange} :
      Exchanged sem ch x ch' → Dialogue sem ch' k ch'' → Dialogue sem ch (x :: k) ch''

/-- The exchanges as the client sees them. -/
def answers (k : List Exchange) : List (Answered wire) := k.map fun x => ⟨x.call, x.result⟩

/-- How the handling of the message ended, if the server took it. -/
def Ends (x : Exchange) : Option Outcome → Prop
  | some o => Ended x.call x.history o
  | none => x.history = []

/-- The reply and its header fit the 32-bit size field. -/
def Short : Outcome → Prop
  | .replied body => body.length < 2 ^ 32 - 7
  | .failed _ => True

theorem ended_failed {c : Call} {h : List (Answered ninep)} {e : String}
    (hE : Ended c h (.failed e)) :
    ∃ h₀ a, h = h₀ ++ [a] ∧ Passes (handleMessage c.message).run h₀ (.done (.error e)) := by
  cases hE with
  | failed _ hp _ => exact ⟨_, _, rfl, hp⟩

theorem ended_replied {c : Call} {h : List (Answered ninep)} {body : Bytes}
    (hE : Ended c h (.replied body)) :
    h ≠ [] ∧ Passes (handleMessage c.message).run h (.done (.ok ())) := by
  cases hE with
  | replied ty _ hp _ => exact ⟨List.append_ne_nil_of_right_ne_nil _ (List.cons_ne_nil _ _), hp⟩

theorem ended_serves {c : Call} {h : List (Answered ninep)} {o : Outcome} (hE : Ended c h o) :
    Passes (serveMessage c.message) h (.done ()) := by
  cases hE with
  | @replied h ty body hp _ =>
      rw [← List.append_nil (h ++ _)]
      exact hp.bind (.refl _)
  | @failed h e hp _ => exact hp.bind (.answer _ _ _ (.refl _))

/-- A history ends in one way only. -/
theorem replied_of_ends {x : Exchange} {body : Bytes} (hx : Ended x.call x.history (.replied body))
    {eo : Option Outcome} (heo : Ends x eo) : eo = some (.replied body) := by
  obtain ⟨hne, hp⟩ := ended_replied hx
  match eo with
  | none => exact absurd heo hne
  | some (.replied body') => rw [Ended.body_unique hx heo]
  | some (.failed e) =>
      obtain ⟨h₀, a, hsplit, h₀'⟩ := ended_failed heo
      rw [hsplit] at hp
      cases (passes_done (h₀'.rest hp)).1

/-! ## What a client may expect -/

/-- What the fids stand for, and whether the connection is open. -/
structure View where
  bound : Bindings
  opened : Bool

/-- The server is done with all messages and the client has read all replies. -/
structure Seen (F : Set UInt32) (ch : Channel) (v : View) : Prop where
  bound : ∀ f ∈ F, bindings ch.shared f = v.bound f
  link : ch.link = if v.opened then some Link.new else none

/-- Every exchange ends in a way that `A` admits, and then its reply has to be short. -/
def heard (F : Set UInt32) (router : Request → Answer → Prop) (A : Call → Option Outcome → Prop) :
    Spec wire View
  | c, K, ⟨b, true⟩ => c.body.length < 2 ^ 32 - 7 ∧
      (c.body.length ≤ 65536 → ∀ o b', Effect F router c b o b' → A c (some o) →
        Short o ∧ K o.returned ⟨b', true⟩) ∧
      (65536 < c.body.length → A c none → ∀ e, K (.error e) ⟨b, false⟩)
  | c, K, ⟨b, false⟩ => A c none → ∀ e, K (.error e) ⟨b, false⟩

theorem runConnection_served {c : Call} (h : c.body.length ≤ 65536) :
    runConnection handleMessage sendError Source.contiguous (encodeMessage c.message) =
      serveMessage c.message := (runConnection_message h).trans (Prog.bind_done _)

theorem receive_replied {ty : UInt8} {body : Bytes} (hty : ty ≠ RERROR)
    (hshort : body.length < 2 ^ 32 - 7) : receive (message ty 0 body) = some (.ok body, []) := by
  have hsize : (7 + body.length) % 2 ^ 32 - 7 = body.length := by
    rw [Nat.mod_eq_of_lt (by omega)]
    omega
  rw [receive_message, if_neg hty, hsize, List.take_length, List.drop_length]

/-- What the client reads once the server has written the reply. -/
theorem received {c : Call} (hbody : c.body.length ≤ 65536) {h : List (Answered ninep)}
    {server : Prog ninep Unit} (hp : Passes (serveMessage c.message) h server)
    (hw : written h ≠ []) : server = .done () ∧ (∃ r rest, receive (written h) = some (r, rest)) ∧
      ∃ o, Ended c h o ∧ (Short o → receive (written h) = some (o.returned, [])) := by
  obtain ⟨hserver, ⟨ty, body, hty, hended, hwritten, _⟩ | ⟨e, hended, hwritten, _⟩⟩ :=
    ended_of_passes hbody hp hw
  · refine ⟨hserver, ?_, .replied body, hended, fun hshort => ?_⟩
    · rw [hwritten, receive_message, if_neg hty]
      exact ⟨_, _, rfl⟩
    · rw [hwritten]
      exact receive_replied hty hshort
  · have hreceive := receive_error e
    rw [← hwritten] at hreceive
    exact ⟨hserver, ⟨_, _, hreceive⟩, .failed e, hended, fun _ => hreceive⟩

section
variable {F : Set UInt32} {router : Request → Answer → Prop} {A : Call → Option Outcome → Prop}
  {ch ch' : Channel} {v : View}

/-- The server takes the message of an exchange, or the connection is closed. -/
theorem Exchanged.taken {sem : Semantics ninep Shared} {x : Exchange} (hx : Exchanged sem ch x ch')
    {opened : Bool} (hlink : ch.link = if opened then some Link.new else none)
    (hsize : opened = true → x.call.body.length < 2 ^ 32 - 7) :
    (opened = true ∧ x.call.body.length ≤ 65536 ∧
      Performs sem ch.shared x.history ch'.shared ∧ ∃ o, Ended x.call x.history o ∧
        (Short o → x.result = o.returned ∧ ch'.link = some Link.new)) ∨
    ((opened = true → 65536 < x.call.body.length) ∧ x.history = [] ∧
      (∃ e, x.result = .error e) ∧ ch'.shared = ch.shared ∧ ch'.link = none) := by
  cases hx with
  | @replied s s' l c h server r rest hp hs hr =>
      cases opened with
      | false => cases hlink
      | true =>
          obtain rfl := Option.some.inj hlink
          have hr' : receive (written h) = some (r, rest) := hr
          have hw : written h ≠ [] := by
            intro hnil
            rw [hnil] at hr'
            cases hr'
          change Passes (runConnection handleMessage sendError Source.contiguous
            (encodeMessage c.message)) h server at hp
          by_cases hbody : c.body.length ≤ 65536
          · rw [runConnection_served hbody] at hp
            obtain ⟨rfl, _, o, hended, hreceive⟩ := received hbody hp hw
            refine Or.inl ⟨rfl, hbody, hs, o, hended, fun hshort => ?_⟩
            rw [hreceive hshort] at hr'
            obtain ⟨rfl, rfl⟩ := Prod.mk.inj (Option.some.inj hr')
            exact ⟨rfl, rfl⟩
          · -- the loop ends at the header and writes nothing
            rw [runConnection_refused handleMessage sendError (not_le.mp hbody) (hsize rfl)
              (List.append_nil _).symm] at hp
            obtain ⟨rfl, _⟩ := passes_done hp
            exact absurd rfl hw
  | @hungUp s s' l c h e hlong _ hp hs _ =>
      cases opened with
      | false => cases hlink
      | true =>
          obtain rfl := Option.some.inj hlink
          obtain ⟨rfl, _⟩ := passes_done hp
          cases hs
          exact Or.inr ⟨fun _ => hlong, rfl, ⟨e, rfl⟩, rfl, rfl⟩
  | closed s c e =>
      cases opened with
      | true => cases hlink
      | false => exact Or.inr ⟨nofun, rfl, ⟨e, rfl⟩, rfl, rfl⟩

theorem heard_short {c : Call} {K : Except String Bytes → View → Prop}
    (hK : ClientSessions.heard F router A c K v) (hopened : v.opened = true) :
    c.body.length < 2 ^ 32 - 7 := by
  obtain ⟨b, _ | _⟩ := v
  · cases hopened
  · exact hK.1

/-- One exchange leads to what was expected of it. -/
theorem Exchanged.heard {x : Exchange} (hx : Exchanged (amid (Spares F) (semantics router)) ch x ch')
    (hv : Seen F ch v) (hA : ∀ eo, Ends x eo → A x.call eo)
    {K : Except String Bytes → View → Prop} (hK : heard F router A x.call K v) :
    (∃ eo, Ends x eo) ∧ ∃ v', Seen F ch' v' ∧ K x.result v' := by
  obtain ⟨b, opened⟩ := v
  rcases hx.taken hv.link (heard_short hK) with ⟨rfl, hbody, hs, o, hended, hresult⟩ |
    ⟨hlong, hnil, ⟨e, he⟩, hshared, hlink⟩
  · obtain ⟨_, hreplied, _⟩ := hK
    obtain ⟨b', heffect, hb'⟩ := effect_of_ended hbody hended hs hv.bound
    obtain ⟨hshort, hnext⟩ := hreplied hbody o b' heffect (hA (some o) hended)
    obtain ⟨hreturned, hlink⟩ := hresult hshort
    rw [hreturned]
    exact ⟨⟨some o, hended⟩, ⟨b', true⟩, ⟨hb', hlink⟩, hnext⟩
  · have hnone := hA none hnil
    have hbound : ∀ f ∈ F, bindings ch'.shared f = b f := by
      rw [hshared]
      exact hv.bound
    rw [he]
    refine ⟨⟨none, hnil⟩, ⟨b, false⟩, ⟨hbound, hlink⟩, ?_⟩
    cases opened with
    | true => exact hK.2.2 (hlong rfl) hnone e
    | false => exact hK hnone e

/-- What is proved of an operation holds at the end of every dialogue. -/
theorem Dialogue.heard {B : Type} {p q : Prog wire B} {k : List Exchange}
    (hk : Dialogue (amid (Spares F) (semantics router)) ch k ch') (hp : Passes p (answers k) q)
    (hv : Seen F ch v) (hA : ∀ x ∈ k, ∀ eo, Ends x eo → A x.call eo) {Q : B → View → Prop}
    (hw : wp (ClientSessions.heard F router A) p Q v) :
    (∀ x ∈ k, ∃ eo, Ends x eo) ∧
      ∃ v', Seen F ch' v' ∧ wp (ClientSessions.heard F router A) q Q v' := by
  induction hk generalizing p v with
  | refl ch =>
      cases hp
      exact ⟨nofun, v, hv, hw⟩
  | exchange hx _ ih =>
      cases hp with
      | answer o next r hrest =>
          obtain ⟨hends, v₁, hv₁, hnext⟩ := hx.heard hv (hA _ (List.mem_cons_self ..)) hw
          obtain ⟨hall, hlast⟩ := ih hrest hv₁ (fun y hy => hA y (List.mem_cons_of_mem _ hy)) hnext
          exact ⟨List.forall_mem_cons.mpr ⟨hends, hall⟩, hlast⟩

/-! ## The messages of an operation -/

section
variable {b : Bindings} {fid : UInt32}

theorem heard_monotone : (ClientSessions.heard F router A).Monotone := by
  rintro c K L ⟨b, _ | _⟩ h hK
  · exact fun hA e => h _ _ (hK hA e)
  · obtain ⟨hsize, hreplied, hrefused⟩ := hK
    refine ⟨hsize, fun hbody o b' heffect hA => ?_, fun hlong hA e => h _ _ (hrefused hlong hA e)⟩
    obtain ⟨hshort, hnext⟩ := hreplied hbody o b' heffect hA
    exact ⟨hshort, h _ _ hnext⟩

/-- A failure leaves what the fids stand for as it is. -/
theorem effect_failed {c : Call} {b' : Bindings} {e : String}
    (h : Effect F router c b (.failed e) b') : b' = b := by
  cases h <;> rfl

theorem heard_sendRecv {c : Call} {Q : Except Stop Bytes → View → Prop}
    (hsize : c.body.length < 2 ^ 32 - 7)
    (hok : c.body.length ≤ 65536 → ∀ body b', Effect F router c b (.replied body) b' →
      A c (some (.replied body)) → body.length < 2 ^ 32 - 7 ∧ Q (.ok body) ⟨b', true⟩)
    (herr : ∀ e, Effect F router c b (.failed e) b → A c (some (.failed e)) →
      ∀ text, Q (.error (.failed text)) ⟨b, true⟩)
    (hcut : 65536 < c.body.length → A c none → ∀ e, Q (.error (.failed e)) ⟨b, false⟩) :
    wp (ClientSessions.heard F router A) (sendRecv c).run Q ⟨b, true⟩ := by
  refine ⟨hsize, fun hbody o b' heffect hA => ?_, fun hlong hA e => hcut hlong hA e⟩
  cases o with
  | replied body => exact hok hbody body b' heffect hA
  | failed e =>
      obtain rfl := effect_failed heffect
      exact ⟨trivial, herr e heffect hA _⟩

/-- The reply to a walk that succeeds counts all its names. -/
theorem heard_walk {newFid : UInt32} {path : String} {Q : Except Stop Unit → View → Prop}
    (hsize : (Call.walk fid newFid (components path)).body.length < 2 ^ 32 - 7)
    (hok : ∀ x : String × Bool, (fid ∈ F → b fid = some x) → Q (.ok ()) ⟨Function.update b newFid
      (some ((components path).foldl joinPath x.1, walkedDir (components path) x.2)), true⟩)
    (herr : ∀ e, A (.walk fid newFid (components path)) (some (.failed e)) →
      ∀ text, Q (.error (.failed text)) ⟨b, true⟩)
    (hcut : 65536 < (Call.walk fid newFid (components path)).body.length →
      A (.walk fid newFid (components path)) none → ∀ e, Q (.error (.failed e)) ⟨b, false⟩) :
    wp (ClientSessions.heard F router A) (walk fid newFid path).run Q ⟨b, true⟩ := by
  refine wp_seq (heard_sendRecv hsize (fun hbody body b' heffect _ => ?_)
    (fun e _ => herr e) hcut)
  have hnames : (components path).length < 2 ^ 16 := by
    have hcount := (length_flatMap_counted (components path)).1
    simp only [Call.body, List.length_append, leBytes_length] at hbody
    omega
  cases heffect with
  | @walk _ _ _ _ parent isDir qids hparent hqids =>
      have hlength : (leBytes 2 (components path).length ++ qids).length =
          2 + 13 * (components path).length := by
        rw [List.length_append, leBytes_length, hqids]
      refine ⟨by omega, ?_⟩
      dsimp only [onSuccess]
      rw [uintFrom_of_le (by omega), pure_bind, uintAt_here 2 _ _ (by omega), if_neg (not_not.mpr rfl)]
      exact hok (parent, isDir) hparent

theorem heard_openFid {mode : UInt8} {Q : Except Stop Unit → View → Prop}
    (hok : Q (.ok ()) ⟨b, true⟩)
    (herr : ∀ e, A (.openFid fid mode) (some (.failed e)) →
      ∀ text, Q (.error (.failed text)) ⟨b, true⟩) :
    wp (ClientSessions.heard F router A) (openFid fid mode).run Q ⟨b, true⟩ := by
  have hlength : (Call.openFid fid mode).body.length = 5 := by simp [Call.body]
  refine wp_seq (heard_sendRecv (by omega) (fun _ body b' heffect _ => ?_) (fun e _ => herr e)
    (by omega))
  cases heffect with
  | openFid hbody => exact ⟨by omega, hok⟩

/-- A clunk always goes through. -/
theorem heard_clunk {Q : Except Stop Unit → View → Prop}
    (h : Q (.ok ()) ⟨Function.update b fid none, true⟩) :
    wp (ClientSessions.heard F router A) (ignoring (clunk fid)).run Q ⟨b, true⟩ := by
  have hlength : (Call.clunk fid).body.length = 4 := by simp [Call.body]
  rw [wp_ignoring]
  refine wp_seq (heard_sendRecv (by omega) (fun _ body b' heffect _ => ?_)
    (fun e heffect _ => ?_) (by omega))
  · cases heffect with
    | clunk => exact ⟨by decide, h⟩
  · cases heffect with
    | unknown _ hfid _ => cases hfid
    | refused _ hfid _ _ _ _ => cases hfid

end

/-- An exchange whose handler has replied. -/
theorem Exchanged.served {sem : Semantics ninep Shared} {c : Call} (hbody : c.body.length ≤ 65536)
    {h : List (Answered ninep)} {ty : UInt8} {body : Bytes}
    (hp : Passes (c.served 0).run (h ++ [⟨.send (message ty 0 body), ()⟩]) (.done (.ok ())))
    (hs : Silence h) (hty : ty ≠ RERROR) (hshort : body.length < 2 ^ 32 - 7) {s s' : Shared}
    (hperforms : Performs sem s (h ++ [⟨.send (message ty 0 body), ()⟩]) s') :
    Exchanged sem ⟨s, some Link.new⟩ ⟨c, h ++ [⟨.send (message ty 0 body), ()⟩], .ok body⟩
      ⟨s', some Link.new⟩ := by
  refine .replied (passes_link hbody hp) hperforms ?_
  change receive ([] ++ written _) = _
  rw [List.nil_append, written_reply hs, receive_replied hty hshort]

theorem ended_of_served {c : Call} (hbody : c.body.length ≤ 65536) {h : List (Answered ninep)}
    {ty : UInt8} {body : Bytes}
    (hp : Passes (c.served 0).run (h ++ [⟨.send (message ty 0 body), ()⟩]) (.done (.ok ())))
    (hs : Silence h) : Ended c (h ++ [⟨.send (message ty 0 body), ()⟩]) (.replied body) := by
  have hserved : handleMessage c.message = c.served 0 :=
    handleMessage_eq_served (fields_message hbody)
  rw [← hserved] at hp
  exact .replied ty body hp hs

/-! ## No exchange gets stuck -/

theorem not_shortCheck (c : Call) : ¬ ShortCheck c.message := by
  rintro (⟨hty, hlen⟩ | ⟨hty, hlen⟩)
  · cases c with
    | version msize =>
        have htext : (asBytes "9P2000").length = 6 := by decide
        simp [Call.message, Call.body, htext] at hlen
    | _ => cases hty
  · cases c with
    | walk fid newFid names =>
        simp only [Call.message, Call.body, List.length_append, leBytes_length] at hlen
        omega
    | _ => cases hty

/-- A task that never goes down can be answered to its end. -/
theorem exists_passage {B : Type} {p : Prog ninep B} {Q : B → List Bytes → Prop} {t : List Bytes}
    (hp : wp emitted p Q t) (hrouter : ∀ req, ∃ a, router req a) (s : Shared) :
    ∃ h b s', Passes p h (.done b) ∧ Performs (amid (Spares F) (semantics router)) s h s' := by
  induction p generalizing t s with
  | done b => exact ⟨[], b, s, .refl _, .refl s⟩
  | call o next ih =>
      have hstep : ∀ r s₁ t₁, semantics router o s r s₁ → wp emitted (next r) Q t₁ →
          ∃ h b s', Passes (.call o next) h (.done b) ∧
            Performs (amid (Spares F) (semantics router)) s h s' := by
        intro r s₁ t₁ hsem hnext
        obtain ⟨h, b, s', hpass, hperforms⟩ := ih r hnext s₁
        exact ⟨_, b, s', .answer o next r hpass,
          .answer o r ⟨s, fun _ _ => rfl, hsem⟩ hperforms⟩
      cases o with
      | locked c => exact hstep _ _ t (semantics_exec c s) (hp _)
      | route req =>
          obtain ⟨a, ha⟩ := hrouter req
          exact hstep a s t ⟨ha, rfl⟩ (hp a)
      | now => exact hstep (0 : ℕ) s t rfl (hp (0 : ℕ))
      | send msg => exact hstep () s _ rfl hp
      | crash => exact hp.elim

theorem written_of_done {c : Call} (hbody : c.body.length ≤ 65536) {h : List (Answered ninep)}
    (hp : Passes (serveMessage c.message) h (.done ())) : written h ≠ [] := by
  obtain ⟨r, h₁, h₂, rfl, h₁', h₂'⟩ := passes_bind_done hp
  cases r with
  | ok _ =>
      obtain ⟨rfl, _⟩ := passes_done h₂'
      obtain ⟨ty, body, _, _, hwritten, _⟩ := replied_of_passes hbody h₁'
      rw [List.append_nil, hwritten]
      exact List.cons_ne_nil _ _
  | error e =>
      cases h₂' with
      | answer o next r hrest =>
          obtain ⟨rfl, _⟩ := passes_done hrest
          unfold written
          rw [List.flatMap_append]
          exact List.append_ne_nil_of_right_ne_nil _ (List.cons_ne_nil _ _)

/-- Whatever the client sends next, the exchange comes to an end. -/
theorem exists_exchanged {c : Call} (hv : Seen F ch v) (hsize : c.body.length < 2 ^ 32 - 7)
    (hrouter : ∀ req, ∃ a, router req a) :
    ∃ x ch', x.call = c ∧ Exchanged (amid (Spares F) (semantics router)) ch x ch' := by
  obtain ⟨s, link⟩ := ch
  have hlink := hv.link
  cases hopened : v.opened with
  | false =>
      rw [hopened] at hlink
      obtain rfl : link = none := hlink
      exact ⟨_, _, rfl, .closed s c ""⟩
  | true =>
      rw [hopened] at hlink
      obtain rfl : link = some Link.new := hlink
      by_cases hbody : c.body.length ≤ 65536
      · obtain ⟨h, _, s', hp, hs⟩ := exists_passage (F := F)
          (serveMessage_replies c.message (not_shortCheck c)) hrouter s
        obtain ⟨_, ⟨r, rest, hreceive⟩, _⟩ := received hbody hp (written_of_done hbody hp)
        rw [← runConnection_served hbody] at hp
        exact ⟨_, _, rfl, .replied hp hs hreceive⟩
      · exact ⟨_, _, rfl, .hungUp "" (not_le.mp hbody) hsize (.refl _) (.refl s) rfl⟩

/-- An operation that waits for a reply gets one. -/
theorem Dialogue.continues {B : Type} {p : Prog wire B} {k : List Exchange} {c : Call}
    {next : Except String Bytes → Prog wire B}
    (hk : Dialogue (amid (Spares F) (semantics router)) ch k ch')
    (hp : Passes p (answers k) (.call c next)) (hv : Seen F ch v)
    (hA : ∀ x ∈ k, ∀ eo, Ends x eo → A x.call eo) {Q : B → View → Prop}
    (hw : wp (ClientSessions.heard F router A) p Q v) (hrouter : ∀ req, ∃ a, router req a) :
    ∃ x ch'', x.call = c ∧ Exchanged (amid (Spares F) (semantics router)) ch' x ch'' := by
  obtain ⟨_, ⟨b, opened⟩, hv', hnext⟩ := hk.heard hp hv hA hw
  cases opened with
  | true => exact exists_exchanged hv' hnext.1 hrouter
  | false =>
      obtain ⟨s, link⟩ := ch'
      obtain rfl : link = none := hv'.link
      exact ⟨_, _, rfl, .closed s c ""⟩

end

end Pinhead.ClientSessions
