import Pinhead.AtomicCalls
import Pinhead.NinepRuns
import Pinhead.ServedRequests

/-!
# Frontends over running workers

The tasks of a frontend, the router, the dispatcher and the workers in one system. A task
sends a request through the channel to the router and waits for its own reply, some tasks not
for ever; other frontends send theirs through the same channel. The frontend's model knows the
router as an operation that is answered in one step. Here it is the service with all its steps,
and every run is one in which each request is a single operation on the world: a whole call of
the handler, with nothing of any other call in it.
-/
namespace Pinhead.FrontendStack
open ByteStrings FsRequests Resumption Histories RouteResolution StateMachines WorkerPool
  HandlerSerialization ServedRequests AtomicCalls

/-- The requests that the router has been sent, in order. -/
def sentTo {S : Signature} {V σ : Type} (s : Service S V σ) : List Request :=
  s.taken ++ s.system.requests

/-- A reply belongs to the task that owns the request; `none` owns those of other frontends and
those that nobody waits for any more. -/
structure Stack (T : Signature) (ι τ : Type) (S : Signature) (V σ : Type) where
  config : Config T ι τ
  owners : List (Option ι)
  ticket : ι → Option ℕ
  trace : List (Event T ι)
  service : Service S V σ

section
variable {T S : Signature} {ι τ V σ : Type} [DecidableEq ι]
  (ask : Asking T Request (Except String Response)) (front : Semantics T τ) (trie : Trie)
  (table : PatternMap) (cfg : WorkerConfig) (code : LuaCode S V) (sem : Semantics S σ)

def started (c : Config T ι τ) (world : σ) : Stack T ι τ S V σ where
  config := c
  owners := []
  ticket _ := none
  trace := []
  service := ServedRequests.start cfg code world

/-- A task makes an operation of its own, sends a request, receives its reply, or stops waiting
for it as long as there is none. The service makes any step in which it is sent nothing. -/
inductive StackStep : Stack T ι τ S V σ → Stack T ι τ S V σ → Prop
  | act {s : Stack T ι τ S V σ} (i : ι) (o : T.Op) (next : T.Ret o → Prog T Unit) (r : T.Ret o)
      (u : τ) : s.config.tasks i = .call o next → ask.request o = none →
      front o s.config.state r u → StackStep s { s with
        config := ⟨u, Function.update s.config.tasks i (next r)⟩,
        trace := s.trace ++ [⟨i, o, r⟩] }
  | send {s : Stack T ι τ S V σ} (i : ι) (o : T.Op) (next : T.Ret o → Prog T Unit) (req : Request)
      (t : System) : s.config.tasks i = .call o next → ask.request o = some req →
      s.ticket i = none →
      HandlerSerialization.step trie table cfg s.service.system (.frontend req) = some t →
      StackStep s { s with
        owners := s.owners ++ [some i],
        ticket := Function.update s.ticket i (some s.owners.length),
        service := { s.service with system := t } }
  | sendElsewhere {s : Stack T ι τ S V σ} (req : Request) (t : System) :
      HandlerSerialization.step trie table cfg s.service.system (.frontend req) = some t →
      StackStep s { s with
        owners := s.owners ++ [none], service := { s.service with system := t } }
  | serve {s : Stack T ι τ S V σ} (u : Service S V σ) :
      ServedRequests.Step trie table cfg code sem s.service u → sentTo u = sentTo s.service →
      StackStep s { s with service := u }
  | receive {s : Stack T ι τ S V σ} (i : ι) (k : ℕ) (o : T.Op) (next : T.Ret o → Prog T Unit)
      (req : Request) (h : ask.request o = some req) (a : Except String Response) :
      s.config.tasks i = .call o next → s.ticket i = some k → s.service.answers[k]? = some a →
      StackStep s { s with
        config := ⟨s.config.state, Function.update s.config.tasks i (next (ask.answer o req h a))⟩,
        ticket := Function.update s.ticket i none,
        trace := s.trace ++ [⟨i, o, ask.answer o req h a⟩] }
  | giveUp {s : Stack T ι τ S V σ} (i : ι) (k : ℕ) (o : T.Op) (next : T.Ret o → Prog T Unit)
      (req : Request) (r : T.Ret o) : s.config.tasks i = .call o next →
      ask.request o = some req → s.ticket i = some k → s.service.answers.length ≤ k →
      ask.gaveUp o r = true → StackStep s { s with
        config := ⟨s.config.state, Function.update s.config.tasks i (next r)⟩,
        owners := s.owners.set k none,
        ticket := Function.update s.ticket i none,
        trace := s.trace ++ [⟨i, o, r⟩] }

inductive StackReachable (c : Config T ι τ) (world : σ) : Stack T ι τ S V σ → Prop
  | start : StackReachable c world (started cfg code c world)
  | step {s u : Stack T ι τ S V σ} : StackReachable c world s →
      StackStep ask front trie table cfg code sem s u → StackReachable c world u

end

section
variable {S : Signature} {V σ : Type} (trie : Trie) (table : PatternMap) (code : LuaCode S V)
  (sem : Semantics S σ)

/-- One request and its answer, with nothing of another request in between: the router answers
it, it is lost before anything is executed for it, or a whole call is made for it. -/
inductive Answers : Request → Except String Response → σ → σ → Prop
  | refused {req : Request} {e : String} (w : σ) : dispatch trie table req = .error e →
      Answers req (.error e) w w
  | lost {req : Request} {hreq : HandlerRequest} {e : String} (w : σ) :
      dispatch trie table req = .ok hreq →
      e = "no workers available" ∨ e = "handler did not respond" → Answers req (.error e) w w
  | called {req : Request} {hreq : HandlerRequest} {vm vm' : V} {h : List (Answered S)}
      {r : Reply} {w w' : σ} : dispatch trie table req = .ok hreq → Grown code vm →
      Passes (code.callLua vm hreq) h (.done (vm', r)) →
      Performs (amid (Beside code sem) sem) w h w' →
      Answers req (respond trie table req r) w w'

variable {trie table code sem}

theorem served_of_serves {world w : σ} {log : List (Request × Except String Response)}
    (h : Serves trie table code sem world log w) :
    Served (Answers trie table code sem) (Beside code sem) world log w := by
  induction h with
  | start => exact .start
  | beside _ hbeside ih => exact ih.beside hbeside
  | refused _ hdispatch ih => exact ih.one (.refused _ hdispatch)
  | lost _ hdispatch he ih => exact ih.one (.lost _ hdispatch he)
  | called _ hdispatch hgrown hpasses hperforms ih =>
      exact ih.one (.called hdispatch hgrown hpasses hperforms)

end

/-! ## The service as a server behind a queue -/

section
variable {T S : Signature} {ι τ V σ : Type} [DecidableEq ι]
  {ask : Asking T Request (Except String Response)} {front : Semantics T τ} {trie : Trie}
  {table : PatternMap} {cfg : WorkerConfig} {code : LuaCode S V} {sem : Semantics S σ}
  {c : Config T ι τ} {world : σ} {s u : Stack T ι τ S V σ}

theorem sentTo_frontend {s : Service S V σ} {req : Request} {t : System}
    (h : HandlerSerialization.step trie table cfg s.system (.frontend req) = some t) :
    sentTo { s with system := t } = sentTo s ++ [req] := by
  obtain ⟨_, ht⟩ := Option.ite_none_right_eq_some.mp h
  obtain rfl := Option.some.inj ht
  rw [sentTo, sentTo, List.append_assoc]

/-- The router gives one answer when it refuses a request or has its result. -/
theorem answers_follow {s u : Service S V σ} {t : System} {e : SystemEvent}
    (h : s.follow trie table cfg code t e = some u) :
    u.answers = s.answers ∨ ∃ a, u.answers = s.answers ++ [a] := by
  cases e with
  | frontend req =>
      cases h
      exact Or.inl rfl
  | send =>
      cases h
      exact Or.inl rfl
  | dequeue =>
      simp only [Service.follow] at h
      split at h
      · cases h
      · split at h
        · cases h
          exact Or.inr ⟨_, rfl⟩
        · cases h
          exact Or.inl rfl
  | resolve =>
      simp only [Service.follow] at h
      split at h
      · obtain ⟨req, _, rfl⟩ := Option.map_eq_some_iff.mp h
        exact Or.inr ⟨_, rfl⟩
      · cases h
  | pool e =>
      left
      cases e with
      | built i =>
          simp only [Service.follow] at h
          split at h <;> cases h
          rfl
      | buildFailed i =>
          simp only [Service.follow] at h
          split at h <;> cases h
          rfl
      | take i =>
          simp only [Service.follow] at h
          split at h
          · obtain ⟨hreq, _, rfl⟩ := Option.map_eq_some_iff.mp h
            rfl
          · cases h
      | complete i =>
          simp only [Service.follow] at h
          split at h <;> cases h
          rfl
      | _ =>
          cases h
          rfl

theorem answers_step {s u : Service S V σ}
    (h : ServedRequests.Step trie table cfg code sem s u) :
    u.answers = s.answers ∨ ∃ a, u.answers = s.answers ++ [a] := by
  cases h with
  | system e h hu => exact answers_follow hu
  | build i o next r htask hsem => exact Or.inl rfl
  | call i id queue o next r hworker htask hsem => exact Or.inl rfl

theorem answers_le {s : Service S V σ}
    (h : ServedRequests.Reachable trie table cfg code sem world s) :
    s.answers.length ≤ s.taken.length := by
  have hanswered := (sound_of_reachable h).answered
  omega

/-- The stack as its tasks see it. -/
def Stack.queued (s : Stack T ι τ S V σ) : Queued T ι τ Request (Except String Response) :=
  ⟨s.config, s.owners.zip (sentTo s.service), s.service.answers, s.ticket, s.trace⟩

/-- What a step of the stack is to its parts. -/
structure Layered (ask : Asking T Request (Except String Response)) (front : Semantics T τ)
    (trie : Trie) (table : PatternMap) (cfg : WorkerConfig) (code : LuaCode S V)
    (sem : Semantics S σ) (c : Config T ι τ) (world : σ) (s : Stack T ι τ S V σ) : Prop where
  service : ServedRequests.Reachable trie table cfg code sem world s.service
  owners : s.owners.length = (sentTo s.service).length
  tasks : Reached ask front c s.queued

theorem zip_set {A B : Type} {xs : List A} {ys : List B} {k : ℕ} {y : B} (h : ys[k]? = some y)
    (x : A) : (xs.set k x).zip ys = (xs.zip ys).set k (x, y) := by
  induction xs generalizing ys k with
  | nil => rfl
  | cons x' xs ih =>
      cases ys with
      | nil => cases h
      | cons y' ys =>
          cases k with
          | zero =>
              obtain rfl := Option.some.inj h
              rfl
          | succ k => exact congrArg (List.cons (x', y')) (ih h)

theorem layered_start : Layered ask front trie table cfg code sem c world
    (started cfg code c world) where
  service := .start
  owners := rfl
  tasks := .start

theorem Layered.step (hs : Layered ask front trie table cfg code sem c world s)
    (h : StackStep ask front trie table cfg code sem s u) :
    Layered ask front trie table cfg code sem c world u := by
  cases h with
  | act i o next r x htask ho hfront =>
      exact ⟨hs.service, hs.owners, hs.tasks.move (.act i o next r x htask ho hfront)⟩
  | send i o next req t htask hq hfree ht =>
      have hsent := sentTo_frontend ht
      have hlength : s.owners.length = (s.owners.zip (sentTo s.service)).length := by
        rw [List.length_zip, hs.owners, Nat.min_self]
      refine ⟨hs.service.system (.frontend req) ht rfl, ?_, ?_⟩
      · rw [hsent, List.length_append, List.length_append, hs.owners]
        rfl
      · have hmove := hs.tasks.move (.issue i o next req htask hq hfree)
        unfold Stack.queued at hmove ⊢
        dsimp only at hmove ⊢
        rw [hsent, List.zip_append hs.owners, hlength]
        exact hmove
  | sendElsewhere req t ht =>
      have hsent := sentTo_frontend ht
      refine ⟨hs.service.system (.frontend req) ht rfl, ?_, ?_⟩
      · rw [hsent, List.length_append, List.length_append, hs.owners]
        rfl
      · have hmove := hs.tasks.move (.elsewhere req)
        unfold Stack.queued at hmove ⊢
        dsimp only at hmove ⊢
        rw [hsent, List.zip_append hs.owners]
        exact hmove
  | serve x hx hsent =>
      have hservice := hs.service.step hx
      refine ⟨hservice, ?_, ?_⟩
      · rw [hsent]
        exact hs.owners
      · unfold Stack.queued
        dsimp only
        rw [hsent]
        rcases answers_step hx with hanswers | ⟨a, hanswers⟩
        · rw [hanswers]
          exact hs.tasks
        · rw [hanswers]
          apply hs.tasks.move
          apply Move.answer
          have hle := answers_le hservice
          have htaken : x.taken.length ≤ (sentTo s.service).length := by
            rw [← hsent, sentTo, List.length_append]
            exact Nat.le_add_right _ _
          rw [hanswers, List.length_append, List.length_singleton] at hle
          change _ < (s.owners.zip (sentTo s.service)).length
          rw [List.length_zip, hs.owners, Nat.min_self]
          change s.service.answers.length < _
          omega
  | receive i k o next req hq a htask hticket ha =>
      exact ⟨hs.service, hs.owners, hs.tasks.move (.collect i k o next req hq a htask hticket ha)⟩
  | giveUp i k o next req r htask hq hticket hle hr =>
      have hmove := hs.tasks.move (.giveUp i k o next req r htask hq hticket hle hr)
      obtain ⟨o', next', req', htask', hq', hissued⟩ :=
        (ticketed_of_reached hs.tasks).asking hticket
      obtain ⟨rfl, _⟩ := Prog.call.inj (htask.symm.trans htask')
      obtain rfl := Option.some.inj (hq.symm.trans hq')
      have hsent := (List.getElem?_zip_eq_some.mp hissued).2
      refine ⟨hs.service, ?_, ?_⟩
      · dsimp only
        rw [List.length_set]
        exact hs.owners
      · unfold Stack.queued at hmove ⊢
        dsimp only at hmove hsent ⊢
        rw [zip_set hsent]
        exact hmove

theorem layered_of_reachable
    (h : StackReachable ask front trie table cfg code sem c world s) :
    Layered ask front trie table cfg code sem c world s := by
  induction h with
  | start => exact layered_start
  | step _ hstep ih => exact ih.step hstep

/-- The answers of the service are those of its requests in the order in which they were sent. -/
theorem log_eq (hs : Layered ask front trie table cfg code sem c world s) :
    s.queued.log = s.service.taken.zip s.service.answers := by
  have hle := answers_le hs.service
  have hissued : (s.owners.zip (sentTo s.service)).map Prod.snd = sentTo s.service :=
    List.map_snd_zip (le_of_eq hs.owners.symm)
  unfold Queued.log Stack.queued
  dsimp only
  rw [List.map_take, hissued, sentTo, List.take_append_of_le_length hle]
  conv_rhs => rw [List.zip_eq_zip_take_min, Nat.min_eq_right hle, List.take_length]

end

section
variable {T S : Signature} {ι τ V σ : Type} [DecidableEq ι]

/-- The tasks alone run over a router that answers each request by one call of its handler. -/
theorem run_answering {ask : Asking T Request (Except String Response)} {front : Semantics T τ}
    {trie : Trie} {table : PatternMap} {cfg : WorkerConfig} {code : LuaCode S V}
    {sem : Semantics S σ} {c : Config T ι τ} {world : σ} {s : Stack T ι τ S V σ}
    (h : StackReachable ask front trie table cfg code sem c world s) :
    Run (answering ask front fun req a => ∃ w w', Answers trie table code sem req a w w') c
      s.trace s.config := by
  induction h with
  | start => exact .refl c
  | @step s u hreachable hstep ih =>
      cases hstep with
      | act i o next r x htask ho hfront =>
          exact ih.append (.step (.answer i o next r x htask (.inl ⟨ho, hfront⟩)) (.refl _))
      | send => exact ih
      | sendElsewhere => exact ih
      | serve => exact ih
      | receive i k o next req hq a htask hticket ha =>
          have hs := layered_of_reachable hreachable
          obtain ⟨w, _, hserves, _⟩ := (sound_of_reachable hs.service).atomic
          rw [← log_eq hs] at hserves
          have hmem := mem_log (ticketed_of_reached hs.tasks) htask hq hticket ha
          have hanswers := (served_of_serves hserves).mem hmem
          exact ih.append (.step (.answer i o next _ s.config.state htask
            (.inr (.inl ⟨req, hq, a, hanswers, rfl, rfl⟩))) (.refl _))
      | giveUp i k o next req x htask hq hticket hle hx =>
          have hsome : ask.request o ≠ none := by
            rw [hq]
            exact Option.some_ne_none req
          exact ih.append (.step (.answer i o next x s.config.state htask
            (.inr (.inr ⟨hsome, hx, rfl⟩))) (.refl _))

end

/-! ## 9P connections over the service -/

def ninepAsking : Asking NinepShared.ninep Request (Except String Response) where
  request
    | .route req => some req
    | _ => none
  answer
    | .route _, _, _, a => .reply a
  gaveUp _ _ := false
  waited _ _ _ _ := rfl

/-- The replies that one call of a handler can give to a request, whatever the world. -/
def answeredBy {S : Signature} {V σ : Type} (trie : Trie) (table : PatternMap)
    (code : LuaCode S V) (sem : Semantics S σ) (req : Request) (r : Answer) : Prop :=
  ∃ a w w', r = .reply a ∧ Answers trie table code sem req a w w'

/-- 9P connections then have the router of their own model. -/
theorem answering_semantics {S : Signature} {V σ : Type} {trie : Trie} {table : PatternMap}
    {code : LuaCode S V} {sem : Semantics S σ} (o : NinepShared.ninep.Op) (s : NinepShared.Shared)
    (r : NinepShared.ninep.Ret o) (u : NinepShared.Shared)
    (h : answering ninepAsking (NinepShared.semantics NinepRuns.anyRouter)
      (fun req a => ∃ w w', Answers trie table code sem req a w w') o s r u) :
    NinepShared.semantics (answeredBy trie table code sem) o s r u := by
  rcases h with ⟨ho, hfront⟩ | ⟨req, hq, a, hanswers, rfl, rfl⟩ | ⟨_, hr, _⟩
  · cases o with
    | route req => cases ho
    | _ => exact hfront
  · cases o with
    | route req' =>
        obtain rfl := Option.some.inj hq
        obtain ⟨w, w', hanswers⟩ := hanswers
        exact ⟨⟨a, w, w', rfl, hanswers⟩, rfl⟩
    | _ => cases hq
  · cases hr

/-! ### One connection with one request -/

def oneConnection : Config NinepShared.ninep Unit NinepShared.Shared :=
  ⟨NinepShared.Shared.new, fun _ => .call (.route oneRequest) fun _ => .done ()⟩

theorem StackReachable.serve {T S : Signature} {ι τ V σ : Type} [DecidableEq ι]
    {ask : Asking T Request (Except String Response)} {front : Semantics T τ} {trie : Trie}
    {table : PatternMap} {cfg : WorkerConfig} {code : LuaCode S V} {sem : Semantics S σ}
    {c : Config T ι τ} {world : σ} {s : Stack T ι τ S V σ} {u : Service S V σ} {t : System}
    (hs : StackReachable ask front trie table cfg code sem c world s) (e : SystemEvent)
    (h : HandlerSerialization.step trie table cfg s.service.system e = some t)
    (hu : s.service.follow trie table cfg code t e = some u) (hsent : sentTo u = sentTo s.service) :
    StackReachable ask front trie table cfg code sem c world { s with service := u } :=
  hs.step (.serve u (.system e h hu) hsent)

/-- The request goes through all the layers and its reply comes back. -/
theorem stack_one : ∃ s : Stack NinepShared.ninep Unit NinepShared.Shared counter Unit ℕ,
    StackReachable ninepAsking (NinepShared.semantics NinepRuns.anyRouter) staticTrie oneTable
        ⟨1, 4⟩ countingCode counting oneConnection 5 s ∧
      s.trace.length = 1 ∧ s.service.world = 6 ∧ s.ticket () = none := by
  have h₀ : StackReachable ninepAsking (NinepShared.semantics NinepRuns.anyRouter) staticTrie
    oneTable ⟨1, 4⟩ countingCode counting oneConnection 5
    (started ⟨1, 4⟩ countingCode oneConnection 5) := .start
  have h₁ := h₀.step (.send () _ _ oneRequest _ rfl rfl rfl rfl)
  have h₂ := h₁.serve .dequeue rfl rfl rfl
  have h₃ := h₂.serve .send rfl rfl rfl
  have h₄ := h₃.serve (.pool .dispatch) rfl rfl rfl
  have h₅ := h₄.serve (.pool (.built 0)) rfl rfl rfl
  have h₆ := h₅.serve (.pool (.take 0)) rfl rfl rfl
  have h₇ := h₆.step (.serve _ (Step.call (S := counter) 0 0 [] ()
    (fun n => .done ((), .ok [UInt8.ofNat n])) (5 : ℕ) rfl rfl ⟨rfl, rfl⟩) rfl)
  have h₈ := h₇.serve (.pool (.complete 0)) rfl rfl rfl
  have h₉ := h₈.serve .resolve rfl rfl rfl
  have h₁₀ := h₉.step (.receive () 0 _ _ oneRequest rfl _ rfl rfl rfl)
  exact ⟨_, h₁₀, rfl, rfl, rfl⟩

end Pinhead.FrontendStack
