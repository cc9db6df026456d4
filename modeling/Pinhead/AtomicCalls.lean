import Pinhead.Histories

/-!
# Requests answered later, each as one operation

Tasks put requests into one queue and stop until they are answered, or until they give up. The
server behind the queue is known only by its answers: they come in the order of the queue, each
at any time. If the requests answered so far could have been served one at a time, then the
tasks could have run with every request a single operation.

A request takes effect when it is answered, although its task learns of it later. In between
that task is one operation ahead in the run with single operations. A request that its task has
given up takes effect all the same, as one from elsewhere would.
-/
namespace Pinhead.AtomicCalls
open Resumption Histories

/-- Which operations are requests, how their answers read, and what a task goes on with when it
has stopped waiting for one. -/
structure Asking (S : Signature) (Q A : Type) where
  request : S.Op → Option Q
  answer : (o : S.Op) → (q : Q) → request o = some q → A → S.Ret o
  gaveUp : (o : S.Op) → S.Ret o → Bool
  waited : ∀ o q h a, gaveUp o (answer o q h a) = false

/-- Requests are answered as `P` allows or given up, and everything else is as before. -/
def answering {S : Signature} {Q A σ : Type} (ask : Asking S Q A) (sem : Semantics S σ)
    (P : Q → A → Prop) : Semantics S σ := fun o s r u =>
  (ask.request o = none ∧ sem o s r u) ∨
  (∃ q h a, P q a ∧ r = ask.answer o q h a ∧ u = s) ∨
  (ask.request o ≠ none ∧ ask.gaveUp o r = true ∧ u = s)

/-- The request that an event is, unless it was given up. -/
def Asking.asks {S : Signature} {Q A ι : Type} (ask : Asking S Q A) (e : Event S ι) : Option Q :=
  if ask.gaveUp e.op e.answer then none else ask.request e.op

/-- `issued` are the requests so far, each with the task that waits for it; nobody here waits
for those from elsewhere and those given up. A ticket is a place in this list. -/
structure Queued (S : Signature) (ι σ Q A : Type) where
  config : Config S ι σ
  issued : List (Option ι × Q)
  answers : List A
  ticket : ι → Option ℕ
  trace : List (Event S ι)

section
variable {S : Signature} {ι σ Q A : Type} [DecidableEq ι] (ask : Asking S Q A)
  (sem : Semantics S σ)

def start (c : Config S ι σ) : Queued S ι σ Q A := ⟨c, [], [], fun _ => none, []⟩

inductive Move : Queued S ι σ Q A → Queued S ι σ Q A → Prop
  | act {s : Queued S ι σ Q A} (i : ι) (o : S.Op) (next : S.Ret o → Prog S Unit) (r : S.Ret o)
      (u : σ) : s.config.tasks i = .call o next → ask.request o = none →
      sem o s.config.state r u → Move s { s with
        config := ⟨u, Function.update s.config.tasks i (next r)⟩,
        trace := s.trace ++ [⟨i, o, r⟩] }
  | issue {s : Queued S ι σ Q A} (i : ι) (o : S.Op) (next : S.Ret o → Prog S Unit) (q : Q) :
      s.config.tasks i = .call o next → ask.request o = some q → s.ticket i = none →
      Move s { s with
        issued := s.issued ++ [(some i, q)],
        ticket := Function.update s.ticket i (some s.issued.length) }
  | elsewhere {s : Queued S ι σ Q A} (q : Q) :
      Move s { s with issued := s.issued ++ [(none, q)] }
  | answer {s : Queued S ι σ Q A} (a : A) : s.answers.length < s.issued.length →
      Move s { s with answers := s.answers ++ [a] }
  | collect {s : Queued S ι σ Q A} (i : ι) (k : ℕ) (o : S.Op) (next : S.Ret o → Prog S Unit)
      (q : Q) (h : ask.request o = some q) (a : A) : s.config.tasks i = .call o next →
      s.ticket i = some k → s.answers[k]? = some a → Move s { s with
        config := ⟨s.config.state, Function.update s.config.tasks i (next (ask.answer o q h a))⟩,
        ticket := Function.update s.ticket i none,
        trace := s.trace ++ [⟨i, o, ask.answer o q h a⟩] }
  | giveUp {s : Queued S ι σ Q A} (i : ι) (k : ℕ) (o : S.Op) (next : S.Ret o → Prog S Unit) (q : Q)
      (r : S.Ret o) : s.config.tasks i = .call o next → ask.request o = some q →
      s.ticket i = some k → s.answers.length ≤ k → ask.gaveUp o r = true → Move s { s with
        config := ⟨s.config.state, Function.update s.config.tasks i (next r)⟩,
        issued := s.issued.set k (none, q),
        ticket := Function.update s.ticket i none,
        trace := s.trace ++ [⟨i, o, r⟩] }

inductive Reached (c : Config S ι σ) : Queued S ι σ Q A → Prop
  | start : Reached c (start c)
  | move {s u : Queued S ι σ Q A} : Reached c s → Move ask sem s u → Reached c u

end

/-! ## Requests served one at a time -/

section
variable {Q A ω : Type} (one : Q → A → ω → ω → Prop) (env : ω → ω → Prop)

/-- Requests with their answers, and the world after them. Between two requests the world may
move by itself. -/
inductive Served (w₀ : ω) : List (Q × A) → ω → Prop
  | start : Served w₀ [] w₀
  | beside {log : List (Q × A)} {w w' : ω} : Served w₀ log w → env w w' → Served w₀ log w'
  | one {log : List (Q × A)} {w w' : ω} {q : Q} {a : A} : Served w₀ log w → one q a w w' →
      Served w₀ (log ++ [(q, a)]) w'

/-- What the world does by itself, and requests of others. -/
def Elsewhere : ω → ω → Prop :=
  Relation.ReflTransGen fun w w' => env w w' ∨ ∃ q a, one q a w w'

variable {one env}

theorem Elsewhere.of_env {w w' : ω} (h : Relation.ReflTransGen env w w') :
    Elsewhere one env w w' := by
  induction h with
  | refl => exact .refl
  | tail _ hstep ih => exact ih.tail (Or.inl hstep)

theorem Elsewhere.of_one {w w' : ω} {q : Q} {a : A} (h : one q a w w') :
    Elsewhere one env w w' := .single (Or.inr ⟨q, a, h⟩)

theorem served_nil {w₀ w : ω} (h : Served one env w₀ [] w) : Relation.ReflTransGen env w₀ w := by
  generalize hlog : ([] : List (Q × A)) = log at h
  induction h with
  | start => exact .refl
  | beside _ henv ih => exact (ih hlog).tail henv
  | one _ _ _ => simp at hlog

/-- The last request is served after all the others. -/
theorem served_concat {w₀ w : ω} {log : List (Q × A)} {q : Q} {a : A}
    (h : Served one env w₀ (log ++ [(q, a)]) w) : ∃ w₁ w₂, Served one env w₀ log w₁ ∧
      one q a w₁ w₂ ∧ Relation.ReflTransGen env w₂ w := by
  generalize hlog : log ++ [(q, a)] = full at h
  induction h with
  | start => simp at hlog
  | beside _ henv ih =>
      obtain ⟨w₁, w₂, hserved, hone, hrest⟩ := ih hlog
      exact ⟨w₁, w₂, hserved, hone, hrest.tail henv⟩
  | @one log' w₁ w₂ q' a' hserved hone _ =>
      obtain ⟨rfl, hlast⟩ := List.append_inj' hlog rfl
      obtain ⟨rfl, rfl⟩ := Prod.mk.inj (List.singleton_inj.mp hlast)
      exact ⟨w₁, w₂, hserved, hone, .refl⟩

theorem Served.mem {w₀ w : ω} {log : List (Q × A)} (h : Served one env w₀ log w) {q : Q} {a : A}
    (hmem : (q, a) ∈ log) : ∃ w₁ w₂, one q a w₁ w₂ := by
  induction h with
  | start => cases hmem
  | beside _ _ ih => exact ih hmem
  | one _ hone ih =>
      rcases List.mem_append.mp hmem with hmem | hmem
      · exact ih hmem
      · obtain ⟨rfl, rfl⟩ := Prod.mk.inj (List.mem_singleton.mp hmem)
        exact ⟨_, _, hone⟩

end

/-! ## Tickets -/

section
variable {S : Signature} {ι σ Q A : Type} [DecidableEq ι] {ask : Asking S Q A}
  {sem : Semantics S σ} {s u : Queued S ι σ Q A}

/-- A task with a ticket stands at its request, and has kept the ticket while the request has
no answer. -/
structure Ticketed (ask : Asking S Q A) (s : Queued S ι σ Q A) : Prop where
  bound : s.answers.length ≤ s.issued.length
  asking : ∀ {i : ι} {k : ℕ}, s.ticket i = some k → ∃ o next q, s.config.tasks i = .call o next ∧
    ask.request o = some q ∧ s.issued[k]? = some (some i, q)
  waiting : ∀ {i : ι} {k : ℕ} {q : Q}, s.issued[k]? = some (some i, q) → s.answers.length ≤ k →
    s.ticket i = some k

theorem ticketed_start (c : Config S ι σ) : Ticketed ask (start c) where
  bound := le_rfl
  asking h := by cases h
  waiting h := by cases h

/-- A task at an operation that is not a request has no ticket. -/
theorem Ticketed.free (hs : Ticketed ask s) {i : ι} {o : S.Op} {next : S.Ret o → Prog S Unit}
    (htask : s.config.tasks i = .call o next) (ho : ask.request o = none) :
    s.ticket i = none := by
  cases hticket : s.ticket i with
  | none => rfl
  | some k =>
      obtain ⟨o', next', q, htask', hq, _⟩ := hs.asking hticket
      rw [htask] at htask'
      obtain ⟨rfl, _⟩ := Prog.call.inj htask'
      rw [ho] at hq
      cases hq

theorem ne_of_ticket {ticket : ι → Option ℕ} {i j : ι} {k : ℕ} (hi : ticket i = none)
    (hj : ticket j = some k) : j ≠ i := by
  rintro rfl
  rw [hi] at hj
  cases hj

theorem getElem?_concat_cases {B : Type} {xs : List B} {x y : B} {k : ℕ}
    (h : (xs ++ [x])[k]? = some y) : xs[k]? = some y ∨ (k = xs.length ∧ x = y) := by
  rcases Nat.lt_or_ge k xs.length with hk | hk
  · rw [List.getElem?_append_left hk] at h
    exact Or.inl h
  · rw [List.getElem?_append_right hk] at h
    obtain ⟨hzero, hx⟩ := List.getElem?_eq_some_iff.mp h
    rw [List.length_singleton] at hzero
    have hk : k = xs.length := by omega
    subst hk
    simp only [Nat.sub_self, List.getElem_cons_zero] at hx
    exact Or.inr ⟨rfl, hx⟩

theorem getElem?_concat_of_some {B : Type} {xs : List B} {y : B} {k : ℕ} (h : xs[k]? = some y)
    (x : B) : (xs ++ [x])[k]? = some y := by
  rw [List.getElem?_append_left (List.getElem?_eq_some_iff.mp h).choose]
  exact h

theorem Ticketed.move (hs : Ticketed ask s) (h : Move ask sem s u) : Ticketed ask u := by
  cases h with
  | act i o next r w htask ho hsem =>
      have hfree := hs.free htask ho
      constructor
      · exact hs.bound
      · intro j k hj
        have hji := ne_of_ticket hfree hj
        simp only [Function.update_of_ne hji]
        exact hs.asking hj
      · exact hs.waiting
  | issue i o next q htask hq hfree =>
      constructor
      · simp only [List.length_append, List.length_singleton]
        have hbound := hs.bound
        omega
      · intro j k hj
        by_cases hji : j = i
        · subst hji
          simp only [Function.update_self, Option.some.injEq] at hj
          subst hj
          refine ⟨o, next, q, htask, hq, ?_⟩
          simp
        · simp only [Function.update_of_ne hji] at hj
          obtain ⟨o', next', q', htask', hq', hissued⟩ := hs.asking hj
          exact ⟨o', next', q', htask', hq', getElem?_concat_of_some hissued _⟩
      · intro j k q' hk hle
        rcases getElem?_concat_cases hk with hk | ⟨rfl, hx⟩
        · have hj := hs.waiting hk hle
          have hji := ne_of_ticket hfree hj
          simp only [Function.update_of_ne hji]
          exact hj
        · simp only [Prod.mk.injEq, Option.some.injEq] at hx
          rw [← hx.1]
          exact Function.update_self ..
  | elsewhere q =>
      constructor
      · simp only [List.length_append, List.length_singleton]
        have hbound := hs.bound
        omega
      · intro j k hj
        obtain ⟨o, next, q', htask, hq, hissued⟩ := hs.asking hj
        exact ⟨o, next, q', htask, hq, getElem?_concat_of_some hissued _⟩
      · intro j k q' hk hle
        rcases getElem?_concat_cases hk with hk | ⟨_, hx⟩
        · exact hs.waiting hk hle
        · cases hx
  | answer a hlt =>
      constructor
      · simp only [List.length_append, List.length_singleton]
        omega
      · exact hs.asking
      · intro j k q hk hle
        simp only [List.length_append, List.length_singleton] at hle
        exact hs.waiting hk (by omega)
  | collect i k o next q hq a htask hticket ha =>
      constructor
      · exact hs.bound
      · intro j m hj
        have hji := ne_of_ticket (Function.update_self i none s.ticket) hj
        simp only [Function.update_of_ne hji] at hj ⊢
        exact hs.asking hj
      · intro j m q' hm hle
        have hj := hs.waiting hm hle
        have hji : j ≠ i := by
          intro hji
          rw [hji, hticket] at hj
          obtain rfl := Option.some.inj hj
          have hlt := (List.getElem?_eq_some_iff.mp ha).choose
          dsimp only at hle
          omega
        simp only [Function.update_of_ne hji]
        exact hj
  | giveUp i k o next q r htask hq hticket hle hr =>
      obtain ⟨_, _, _, _, _, hissued⟩ := hs.asking hticket
      constructor
      · dsimp only
        rw [List.length_set]
        exact hs.bound
      · intro j m hj
        have hji := ne_of_ticket (Function.update_self i none s.ticket) hj
        simp only [Function.update_of_ne hji] at hj ⊢
        obtain ⟨o', next', q', htask', hq', hissued'⟩ := hs.asking hj
        have hkm : k ≠ m := by
          intro hkm
          rw [← hkm, hissued] at hissued'
          exact hji (Option.some.inj (Prod.mk.inj (Option.some.inj hissued')).1).symm
        refine ⟨o', next', q', htask', hq', ?_⟩
        rw [List.getElem?_set_ne hkm]
        exact hissued'
      · intro j m q' hm hle'
        dsimp only at hm hle' ⊢
        have hkm : k ≠ m := by
          rintro rfl
          rw [List.getElem?_set_self (List.getElem?_eq_some_iff.mp hissued).choose] at hm
          cases hm
        rw [List.getElem?_set_ne hkm] at hm
        have hj := hs.waiting hm hle'
        have hji : j ≠ i := by
          rintro rfl
          exact hkm (Option.some.inj (hticket.symm.trans hj))
        rw [Function.update_of_ne hji]
        exact hj

theorem ticketed_of_reached {c : Config S ι σ} (h : Reached ask sem c s) : Ticketed ask s := by
  induction h with
  | start => exact ticketed_start c
  | move _ hmove ih => exact ih.move hmove

end

/-! ## The run with single operations -/

section
variable {S : Signature} {ι σ ω Q A : Type} [DecidableEq ι] (ask : Asking S Q A)
  (sem : Semantics S σ) (one : Q → A → ω → ω → Prop) (env : ω → ω → Prop)

/-- A request is one operation on the world. Every other operation leaves the world alone, and
so does a task that gives up its request. -/
def atomic : Semantics S (σ × ω) := fun o s r s' =>
  (ask.request o = none ∧ sem o s.1 r s'.1 ∧ s'.2 = s.2) ∨
  (∃ q, ∃ h : ask.request o = some q, ∃ a, r = ask.answer o q h a ∧ s'.1 = s.1 ∧
    one q a s.2 s'.2) ∨
  (ask.request o ≠ none ∧ ask.gaveUp o r = true ∧ s' = s)

/-- Other things happen to the world, not to what the tasks share. -/
def Aside (s s' : σ × ω) : Prop := s'.1 = s.1 ∧ Elsewhere one env s.2 s'.2

/-- The answer that a task has not collected yet. -/
def Queued.due (s : Queued S ι σ Q A) (i : ι) : Option A :=
  (s.ticket i).bind fun k => s.answers[k]?

/-- A task with an answer due is one operation ahead in the other run. -/
def Ahead (s : Queued S ι σ Q A) (t : List (Event S ι)) (tasks : ι → Prog S Unit) (i : ι) : Prop :=
  match s.due i with
  | none => tasks i = s.config.tasks i ∧ own i t = own i s.trace
  | some a => ∃ o next q, ∃ h : ask.request o = some q, s.config.tasks i = .call o next ∧
      tasks i = next (ask.answer o q h a) ∧ own i t = own i s.trace ++ [⟨o, ask.answer o q h a⟩]

/-- The operations that are not requests, or are requests given up. -/
def apart (t : List (Event S ι)) : List (Event S ι) :=
  t.filter fun e => (ask.asks e).isNone

def requests (t : List (Event S ι)) : List (ι × Q) :=
  t.filterMap fun e => (ask.asks e).map fun q => (e.task, q)

/-- The answered requests of the tasks, in the order in which they were issued. -/
def Queued.answered (s : Queued S ι σ Q A) : List (ι × Q) :=
  (s.issued.take s.answers.length).filterMap fun x => x.1.map fun i => (i, x.2)

def Queued.log (s : Queued S ι σ Q A) : List (Q × A) :=
  ((s.issued.take s.answers.length).map Prod.snd).zip s.answers

/-- A run with single operations that looks the same: to every task, in what is not a request,
and in the order of the requests. -/
structure Simulated (c : Config S ι σ) (w₀ : ω) (s : Queued S ι σ Q A) (w : ω)
    (t : List (Event S ι)) (d : Config S ι (σ × ω)) : Prop where
  run : Run (amid (Aside one env) (atomic ask sem one)) ⟨(c.state, w₀), c.tasks⟩ t d
  state : d.state.1 = s.config.state
  world : Elsewhere one env d.state.2 w
  ahead : ∀ i, Ahead ask s t d.tasks i
  apart : apart ask t = apart ask s.trace
  requests : requests ask t = s.answered

end

section
variable {S : Signature} {ι σ ω Q A : Type} [DecidableEq ι] {ask : Asking S Q A}
  {sem : Semantics S σ} {one : Q → A → ω → ω → Prop} {env : ω → ω → Prop}
  {c : Config S ι σ} {w₀ w : ω} {s : Queued S ι σ Q A} {t : List (Event S ι)}
  {d : Config S ι (σ × ω)}

theorem asks_of_request {i : ι} {o : S.Op} (r : S.Ret o) (h : ask.request o = none) :
    ask.asks (⟨i, o, r⟩ : Event S ι) = none := by
  unfold Asking.asks
  split
  · rfl
  · exact h

theorem asks_answer (i : ι) {o : S.Op} {q : Q} (h : ask.request o = some q) (a : A) :
    ask.asks (⟨i, o, ask.answer o q h a⟩ : Event S ι) = some q := by
  rw [Asking.asks, ask.waited]
  exact h

theorem asks_gaveUp (i : ι) {o : S.Op} {r : S.Ret o} (h : ask.gaveUp o r = true) :
    ask.asks (⟨i, o, r⟩ : Event S ι) = none := by
  rw [Asking.asks, h]
  rfl

theorem apart_concat (t : List (Event S ι)) {e : Event S ι} (h : ask.asks e = none) :
    apart ask (t ++ [e]) = apart ask t ++ [e] := by
  simp [apart, h]

theorem apart_concat_request (t : List (Event S ι)) {e : Event S ι} {q : Q}
    (h : ask.asks e = some q) : apart ask (t ++ [e]) = apart ask t := by
  simp [apart, h]

theorem requests_concat (t : List (Event S ι)) {e : Event S ι} (h : ask.asks e = none) :
    requests ask (t ++ [e]) = requests ask t := by
  simp [requests, h]

theorem requests_concat_request (t : List (Event S ι)) {e : Event S ι} {q : Q}
    (h : ask.asks e = some q) :
    requests ask (t ++ [e]) = requests ask t ++ [(e.task, q)] := by
  simp [requests, h]

theorem Ahead.of_due_none {tasks : ι → Prog S Unit} {i : ι} (hdue : s.due i = none)
    (htask : tasks i = s.config.tasks i) (hown : own i t = own i s.trace) :
    Ahead ask s t tasks i := by
  unfold Ahead
  rw [hdue]
  exact ⟨htask, hown⟩

theorem Ahead.same {tasks : ι → Prog S Unit} {i : ι} (h : Ahead ask s t tasks i)
    (hdue : s.due i = none) : tasks i = s.config.tasks i ∧ own i t = own i s.trace := by
  unfold Ahead at h
  rw [hdue] at h
  exact h

/-- What a task is ahead by depends on nothing but the task itself. -/
theorem Ahead.congr {u : Queued S ι σ Q A} {t' : List (Event S ι)} {tasks tasks' : ι → Prog S Unit}
    {i : ι} (h : Ahead ask s t tasks i) (hdue : u.due i = s.due i) (htasks : tasks' i = tasks i)
    (hconfig : u.config.tasks i = s.config.tasks i) (hown : own i t' = own i t)
    (htrace : own i u.trace = own i s.trace) : Ahead ask u t' tasks' i := by
  unfold Ahead at h ⊢
  rw [hdue, htasks, hconfig, hown, htrace]
  exact h

theorem run_concat {c e : Config S ι (σ × ω)} {sem' : Semantics S (σ × ω)}
    (hrun : Run sem' c t d) {ev : Event S ι} (hstep : Step sem' d ev e) :
    Run sem' c (t ++ [ev]) e :=
  hrun.append (.step hstep (.refl e))

/-- An operation that is not a request is made in both runs. -/
theorem Simulated.act (hs : Ticketed ask s) (h : Simulated ask sem one env c w₀ s w t d) {i : ι}
    {o : S.Op} {next : S.Ret o → Prog S Unit} {r : S.Ret o} {x : σ}
    (htask : s.config.tasks i = .call o next) (ho : ask.request o = none)
    (hsem : sem o s.config.state r x) :
    Simulated ask sem one env c w₀ { s with
        config := ⟨x, Function.update s.config.tasks i (next r)⟩,
        trace := s.trace ++ [⟨i, o, r⟩] } w
      (t ++ [⟨i, o, r⟩]) ⟨(x, d.state.2), Function.update d.tasks i (next r)⟩ := by
  have hdue : s.due i = none := by
    rw [Queued.due, hs.free htask ho]
    rfl
  obtain ⟨hd, hown⟩ := (h.ahead i).same hdue
  rw [← h.state] at hsem
  constructor
  · apply run_concat h.run
    apply Step.answer i o next r (x, d.state.2) (hd.trans htask)
    exact ⟨d.state, ⟨rfl, .refl⟩, Or.inl ⟨ho, hsem, rfl⟩⟩
  · rfl
  · exact h.world
  · intro j
    by_cases hji : j = i
    · subst hji
      apply Ahead.of_due_none
      · exact hdue
      · simp only [Function.update_self]
      · rw [own_concat_self, own_concat_self, hown]
    · apply (h.ahead j).congr
      · rfl
      · simp only [Function.update_of_ne hji]
      · simp only [Function.update_of_ne hji]
      · exact own_concat_other (Ne.symm hji) t
      · exact own_concat_other (Ne.symm hji) s.trace
  · rw [apart_concat t (asks_of_request r ho), apart_concat s.trace (asks_of_request r ho), h.apart]
  · rw [requests_concat t (asks_of_request r ho)]
    exact h.requests

/-- A request that is only issued has no effect yet. -/
theorem Simulated.issue (hs : Ticketed ask s) (h : Simulated ask sem one env c w₀ s w t d) {i : ι}
    {q : Q} (hfree : s.ticket i = none) :
    Simulated ask sem one env c w₀ { s with
        issued := s.issued ++ [(some i, q)],
        ticket := Function.update s.ticket i (some s.issued.length) } w t d := by
  have hdue : ∀ j, Queued.due { s with
      issued := s.issued ++ [(some i, q)],
      ticket := Function.update s.ticket i (some s.issued.length) } j = s.due j := by
    intro j
    unfold Queued.due
    by_cases hji : j = i
    · subst hji
      simp only [Function.update_self, hfree, Option.bind_some, Option.bind_none]
      exact List.getElem?_eq_none_iff.mpr hs.bound
    · simp only [Function.update_of_ne hji]
  refine ⟨h.run, h.state, h.world, ?_, h.apart, ?_⟩
  · intro j
    exact (h.ahead j).congr (hdue j) rfl rfl rfl rfl
  · rw [h.requests, Queued.answered, Queued.answered, List.take_append_of_le_length hs.bound]

theorem Simulated.elsewhere (hs : Ticketed ask s) (h : Simulated ask sem one env c w₀ s w t d)
    (q : Q) :
    Simulated ask sem one env c w₀ { s with issued := s.issued ++ [(none, q)] } w t d := by
  refine ⟨h.run, h.state, h.world, ?_, h.apart, ?_⟩
  · intro j
    exact (h.ahead j).congr rfl rfl rfl rfl rfl
  · rw [h.requests, Queued.answered, Queued.answered, List.take_append_of_le_length hs.bound]

/-- A collected answer has had its effect before. -/
theorem Simulated.collect (h : Simulated ask sem one env c w₀ s w t d) {i : ι} {k : ℕ} {o : S.Op}
    {next : S.Ret o → Prog S Unit} {q : Q} (hq : ask.request o = some q) {a : A}
    (htask : s.config.tasks i = .call o next) (hticket : s.ticket i = some k)
    (ha : s.answers[k]? = some a) :
    Simulated ask sem one env c w₀ { s with
        config := ⟨s.config.state, Function.update s.config.tasks i (next (ask.answer o q hq a))⟩,
        ticket := Function.update s.ticket i none,
        trace := s.trace ++ [⟨i, o, ask.answer o q hq a⟩] } w t d := by
  refine ⟨h.run, h.state, h.world, ?_, ?_, h.requests⟩
  · intro j
    by_cases hji : j = i
    · subst hji
      have hahead := h.ahead j
      unfold Ahead at hahead
      rw [Queued.due, hticket, Option.bind_some, ha] at hahead
      obtain ⟨o', next', q', hq', htask', hd, hown⟩ := hahead
      rw [htask] at htask'
      obtain ⟨rfl, hnext⟩ := Prog.call.inj htask'
      obtain rfl := eq_of_heq hnext
      obtain rfl := Option.some.inj (hq.symm.trans hq')
      apply Ahead.of_due_none
      · simp [Queued.due]
      · simp only [Function.update_self]
        exact hd
      · rw [hown, own_concat_self]
    · apply (h.ahead j).congr
      · simp only [Queued.due, Function.update_of_ne hji]
      · rfl
      · simp only [Function.update_of_ne hji]
      · rfl
      · exact own_concat_other (Ne.symm hji) s.trace
  · rw [apart_concat_request s.trace (asks_answer i hq a), h.apart]

/-- A request that is given up is one from elsewhere. -/
theorem Simulated.giveUp (h : Simulated ask sem one env c w₀ s w t d) {i : ι} {k : ℕ} {o : S.Op}
    {next : S.Ret o → Prog S Unit} {q : Q} {r : S.Ret o}
    (htask : s.config.tasks i = .call o next) (hq : ask.request o = some q)
    (hticket : s.ticket i = some k) (hle : s.answers.length ≤ k) (hr : ask.gaveUp o r = true) :
    Simulated ask sem one env c w₀ { s with
        config := ⟨s.config.state, Function.update s.config.tasks i (next r)⟩,
        issued := s.issued.set k (none, q),
        ticket := Function.update s.ticket i none,
        trace := s.trace ++ [⟨i, o, r⟩] } w
      (t ++ [⟨i, o, r⟩]) ⟨d.state, Function.update d.tasks i (next r)⟩ := by
  have hdue : s.due i = none := by
    rw [Queued.due, hticket]
    exact List.getElem?_eq_none hle
  obtain ⟨hd, hown⟩ := (h.ahead i).same hdue
  constructor
  · apply run_concat h.run
    apply Step.answer i o next r d.state (hd.trans htask)
    refine ⟨d.state, ⟨rfl, .refl⟩, Or.inr (Or.inr ⟨?_, hr, rfl⟩)⟩
    rw [hq]
    exact Option.some_ne_none q
  · exact h.state
  · exact h.world
  · intro j
    by_cases hji : j = i
    · subst hji
      apply Ahead.of_due_none
      · simp [Queued.due]
      · simp only [Function.update_self]
      · rw [own_concat_self, own_concat_self, hown]
    · apply (h.ahead j).congr
      · simp only [Queued.due, Function.update_of_ne hji]
      · simp only [Function.update_of_ne hji]
      · simp only [Function.update_of_ne hji]
      · exact own_concat_other (Ne.symm hji) t
      · exact own_concat_other (Ne.symm hji) s.trace
  · rw [apart_concat t (asks_gaveUp i hr), apart_concat s.trace (asks_gaveUp i hr), h.apart]
  · rw [requests_concat t (asks_gaveUp i hr), h.requests, Queued.answered, Queued.answered,
      List.take_set_of_le hle]

theorem due_answer (s : Queued S ι σ Q A) (a : A) (i : ι) :
    Queued.due { s with answers := s.answers ++ [a] } i =
      if s.ticket i = some s.answers.length then some a else s.due i := by
  unfold Queued.due
  cases s.ticket i with
  | none => rfl
  | some k =>
      simp only [Option.bind_some, Option.some.injEq]
      split
      · next h =>
          rw [h]
          exact List.getElem?_concat_length
      · next h =>
          rcases Nat.lt_or_ge k s.answers.length with hk | hk
          · exact List.getElem?_append_left hk
          · rw [List.getElem?_eq_none hk]
            apply List.getElem?_eq_none
            simp only [List.length_append, List.length_singleton]
            omega

theorem answered_answer {x : Option ι × Q} (hx : s.issued[s.answers.length]? = some x) (a : A) :
    Queued.answered { s with answers := s.answers ++ [a] } =
      s.answered ++ (x.1.map fun i => (i, x.2)).toList := by
  simp only [Queued.answered, List.length_append, List.length_singleton, List.take_add_one, hx,
    List.filterMap_append, Option.toList_some]
  cases hx' : x.1 with
  | none => simp [hx']
  | some i => simp [hx']

/-- The answer of a request from elsewhere. -/
theorem Simulated.answerElsewhere (hs : Ticketed ask s) {w₁ w₂ : ω}
    (h : Simulated ask sem one env c w₀ s w₁ t d) {q : Q} {a : A}
    (hq : s.issued[s.answers.length]? = some (none, q)) (hone : one q a w₁ w₂)
    (henv : Relation.ReflTransGen env w₂ w) :
    Simulated ask sem one env c w₀ { s with answers := s.answers ++ [a] } w t d := by
  refine ⟨h.run, h.state, ?_, ?_, h.apart, ?_⟩
  · have hmoved : Elsewhere one env w₁ w := (Elsewhere.of_one hone).trans (Elsewhere.of_env henv)
    exact h.world.trans hmoved
  · intro j
    apply (h.ahead j).congr
    · rw [due_answer, if_neg]
      intro hticket
      obtain ⟨_, _, _, _, _, hissued⟩ := hs.asking hticket
      rw [hq] at hissued
      cases hissued
    · rfl
    · rfl
    · rfl
    · rfl
  · rw [h.requests, answered_answer hq]
    simp

/-- A request takes effect when its answer comes. -/
theorem Simulated.answer (hs : Ticketed ask s) {w₁ w₂ : ω}
    (h : Simulated ask sem one env c w₀ s w₁ t d) {i : ι} {q : Q} {a : A}
    (hissued : s.issued[s.answers.length]? = some (some i, q)) (hone : one q a w₁ w₂)
    (henv : Relation.ReflTransGen env w₂ w) :
    ∃ t' d', Simulated ask sem one env c w₀ { s with answers := s.answers ++ [a] } w t' d' := by
  have hticket := hs.waiting hissued le_rfl
  obtain ⟨o, next, q', htask, hq, hissued'⟩ := hs.asking hticket
  have hpair := Option.some.inj (hissued.symm.trans hissued')
  obtain rfl := (Prod.mk.inj hpair).2
  have hdue : s.due i = none := by
    rw [Queued.due, hticket]
    exact List.getElem?_eq_none le_rfl
  obtain ⟨hd, hown⟩ := (h.ahead i).same hdue
  refine ⟨t ++ [⟨i, o, ask.answer o q hq a⟩], ⟨(d.state.1, w₂), Function.update d.tasks i
    (next (ask.answer o q hq a))⟩, ?_, h.state, .of_env henv, ?_, ?_, ?_⟩
  · apply run_concat h.run
    apply Step.answer i o next _ (d.state.1, w₂) (hd.trans htask)
    exact ⟨(d.state.1, w₁), ⟨rfl, h.world⟩, Or.inr (Or.inl ⟨q, hq, a, rfl, rfl, hone⟩)⟩
  · intro j
    by_cases hji : j = i
    · subst hji
      unfold Ahead
      rw [due_answer, if_pos hticket]
      refine ⟨o, next, q, hq, htask, ?_, ?_⟩
      · simp only [Function.update_self]
      · rw [own_concat_self, hown]
    · apply (h.ahead j).congr
      · rw [due_answer, if_neg]
        intro hj
        obtain ⟨_, _, _, _, _, hissued'⟩ := hs.asking hj
        rw [hissued] at hissued'
        obtain rfl := Option.some.inj (Prod.mk.inj (Option.some.inj hissued')).1
        exact hji rfl
      · simp only [Function.update_of_ne hji]
      · rfl
      · exact own_concat_other (Ne.symm hji) t
      · rfl
  · rw [apart_concat_request t (asks_answer i hq a)]
    exact h.apart
  · rw [requests_concat_request t (asks_answer i hq a), h.requests, answered_answer hissued]
    rfl

theorem log_issue (hs : Ticketed ask s) (x : Option ι × Q) (ticket : ι → Option ℕ) :
    Queued.log { s with issued := s.issued ++ [x], ticket := ticket } = s.log := by
  simp only [Queued.log, List.take_append_of_le_length hs.bound]

theorem log_answer (hs : Ticketed ask s) {x : Option ι × Q}
    (hx : s.issued[s.answers.length]? = some x) (a : A) :
    Queued.log { s with answers := s.answers ++ [a] } = s.log ++ [(x.2, a)] := by
  simp only [Queued.log, List.length_append, List.length_singleton, List.take_add_one, hx,
    Option.toList_some, List.map_append]
  rw [List.zip_append]
  · rfl
  · rw [List.length_map, List.length_take]
    exact Nat.min_eq_left hs.bound

/-- A collected answer is the one in the log. -/
theorem mem_log (hs : Ticketed ask s) {i : ι} {k : ℕ} {o : S.Op} {next : S.Ret o → Prog S Unit}
    {q : Q} {a : A} (htask : s.config.tasks i = .call o next) (hq : ask.request o = some q)
    (hticket : s.ticket i = some k) (ha : s.answers[k]? = some a) : (q, a) ∈ s.log := by
  obtain ⟨o', next', q', htask', hq', hissued⟩ := hs.asking hticket
  rw [htask] at htask'
  obtain ⟨rfl, _⟩ := Prog.call.inj htask'
  obtain rfl := Option.some.inj (hq.symm.trans hq')
  have hk := (List.getElem?_eq_some_iff.mp ha).choose
  apply List.mem_of_getElem? (i := k)
  rw [Queued.log, List.getElem?_zip_eq_some]
  refine ⟨?_, ha⟩
  rw [List.getElem?_map, List.getElem?_take_of_lt hk, hissued]
  rfl

/-- However the requests answered so far could have been served, there is a run with single
operations over the world that they leave. -/
theorem simulated_of_reached (h : Reached ask sem c s) (hserved : Served one env w₀ s.log w) :
    ∃ t d, Simulated ask sem one env c w₀ s w t d := by
  induction h generalizing w with
  | start =>
      refine ⟨[], ⟨(c.state, w₀), c.tasks⟩, .refl _, rfl, ?_, ?_, rfl, rfl⟩
      · exact .of_env (served_nil hserved)
      · intro i
        exact Ahead.of_due_none rfl rfl rfl
  | @move s u hreached hmove ih =>
      have hs := ticketed_of_reached hreached
      cases hmove with
      | act i o next r x htask ho hsem =>
          obtain ⟨t, d, h⟩ := ih hserved
          exact ⟨_, _, h.act hs htask ho hsem⟩
      | issue i o next q htask hq hfree =>
          rw [log_issue hs] at hserved
          obtain ⟨t, d, h⟩ := ih hserved
          exact ⟨t, d, h.issue hs hfree⟩
      | elsewhere q =>
          rw [log_issue hs] at hserved
          obtain ⟨t, d, h⟩ := ih hserved
          exact ⟨t, d, h.elsewhere hs q⟩
      | answer a hlt =>
          obtain ⟨⟨x, q⟩, hx⟩ : ∃ x, s.issued[s.answers.length]? = some x :=
            ⟨_, List.getElem?_eq_getElem hlt⟩
          rw [log_answer hs hx] at hserved
          obtain ⟨w₁, w₂, hbefore, hone, henv⟩ := served_concat hserved
          obtain ⟨t, d, h⟩ := ih hbefore
          cases x with
          | none => exact ⟨t, d, h.answerElsewhere hs hx hone henv⟩
          | some i => exact h.answer hs hx hone henv
      | collect i k o next q hq a htask hticket ha =>
          obtain ⟨t, d, h⟩ := ih hserved
          exact ⟨t, d, h.collect hq htask hticket ha⟩
      | giveUp i k o next q r htask hq hticket hle hr =>
          have hlog : Queued.log { s with issued := s.issued.set k (none, q) } = s.log := by
            rw [Queued.log, Queued.log, List.take_set_of_le hle]
          rw [← hlog] at ih
          obtain ⟨t, d, h⟩ := ih hserved
          exact ⟨_, _, h.giveUp htask hq hticket hle hr⟩

end

end Pinhead.AtomicCalls
