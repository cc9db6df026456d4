import Pinhead.NinepHandlers

/-!
# Whole runs of one 9P listener

A connection is the task that serves its messages one after another. All
connections of a listener run over one `Shared` value, interleaved at every
critical section, router answer, clock reading and reply. Nothing is assumed
about the number of connections or the schedule.

`emitted` reads a handler for what it writes and for nothing else: each critical
section may answer anything, so what is proved about it holds in every state.
-/
namespace Pinhead.NinepRuns
open ByteStrings FsRequests Resumption NinepShared NinepHandlers

/-- The connection loop over the messages it reads. -/
def serveAll : List Message → Prog ninep Unit
  | [] => pure ()
  | m :: ms => do
      serveMessage m
      serveAll ms

section
variable {ι : Type} [DecidableEq ι]

/-- A listener with one task for each connection. -/
def listener (msgs : ι → List Message) : Config ninep ι Shared :=
  ⟨Shared.new, fun i => serveAll (msgs i)⟩

/-- What one connection has been sent, in order. -/
def sent (i : ι) (t : List (Event ninep ι)) : List Bytes :=
  t.filterMap fun e => if e.task = i then
    match e.op with
    | .send msg => some msg
    | _ => none
  else none

theorem sent_append (i : ι) (t u : List (Event ninep ι)) :
    sent i (t ++ u) = sent i t ++ sent i u :=
  List.filterMap_append

theorem sent_cons (i : ι) (e : Event ninep ι) (t : List (Event ninep ι)) :
    sent i (e :: t) = sent i [e] ++ sent i t := by
  rw [← List.singleton_append]
  exact sent_append i [e] t

end

/-- Any answer at all to any request. -/
def anyRouter (_ : Request) (_ : Answer) : Prop := True

def Reachable (s : Shared) : Prop :=
  ∃ (ι : Type) (_ : DecidableEq ι) (msgs : ι → List Message) (t : List (Event ninep ι))
    (c : Config ninep ι Shared), Run (semantics anyRouter) (listener msgs) t c ∧ c.state = s

theorem reachable_new : Reachable Shared.new :=
  ⟨Unit, inferInstance, fun _ => [], [], _, .refl _, rfl⟩

/-! ## Primitive operations under any reading -/

section Primitive
variable {T : Type} (spec : Spec ninep T) (t : T)

@[simp] theorem wp_failIf (p : Prop) [Decidable p] (e : String) (Q : Except String Unit → T → Prop) :
    wp spec (failIf p e).run Q t = ((p → Q (.error e) t) ∧ (¬ p → Q (.ok ()) t)) := by
  unfold failIf
  by_cases h : p <;> simp [h]

theorem wp_range_of_le {body : Bytes} {i j : ℕ} (hij : i ≤ j) (hj : j ≤ body.length)
    (Q : Except String Bytes → T → Prop) :
    wp spec (range body i j).run Q t = Q (.ok ((body.drop i).take (j - i))) t := by
  unfold range
  rw [slice_of_le hij hj]
  rfl

theorem range_crash {body : Bytes} {i j : ℕ} (h : body.length < j) : range body i j = crash := by
  unfold range
  rw [slice_eq_none h]

end Primitive

/-! ## What a task writes -/

/-- The ghost value lists the messages written so far. -/
def emitted : Spec ninep (List Bytes)
  | .locked _, K, t => ∀ r, K r t
  | .route _, K, t => ∀ r, K r t
  | .now, K, t => ∀ r, K r t
  | .send msg, K, t => K () (t ++ [msg])
  | .crash, _, _ => False

theorem emitted_monotone : emitted.Monotone := by
  intro o K L t h hK
  cases o with
  | locked c => exact fun r => h r t (hK r)
  | route req => exact fun r => h r t (hK r)
  | now => exact fun r => h r t (hK r)
  | send msg => exact h () _ hK
  | crash => exact hK

section
variable {ι : Type} [DecidableEq ι]

/-- One operation of any task extends what the task `i` has been sent and keeps
what is still to be shown about it. -/
theorem emitted_step {router : Request → Answer → Prop} {c d : Config ninep ι Shared}
    {e : Event ninep ι} (hs : Step (semantics router) c e d) (i : ι) {l : List Bytes}
    {Q : Unit → List Bytes → Prop} (h : wp emitted (c.tasks i) Q l) :
    wp emitted (d.tasks i) Q (l ++ sent i [e]) := by
  obtain ⟨j, o, next, r, s, hj, hsem⟩ := hs
  by_cases hi : j = i
  · subst j
    rw [hj] at h
    simp only [Function.update_self]
    cases o with
    | send msg =>
        change wp emitted (next r) Q (l ++ [msg]) at h
        simpa [sent] using h
    | crash => exact h.elim
    | _ => simpa [sent] using h r
  · simpa [sent, hi, Function.update_of_ne (Ne.symm hi)] using h

theorem emitted_run {router : Request → Answer → Prop} {c d : Config ninep ι Shared}
    {t : List (Event ninep ι)} (run : Run (semantics router) c t d) (i : ι) {l : List Bytes}
    {Q : Unit → List Bytes → Prop} (h : wp emitted (c.tasks i) Q l) :
    wp emitted (d.tasks i) Q (l ++ sent i t) := by
  induction run generalizing l with
  | refl c => simpa [sent] using h
  | @step c d e ev t hs _ ih =>
      have hstep := ih (emitted_step hs i h)
      rw [sent_cons, ← List.append_assoc]
      exact hstep

end

/-! ## Sequential evaluation -/

/-- A router that answers by the request alone, and the times that successive
readings of the clock show. -/
structure Env where
  router : Request → Answer
  clock : ℕ → ℕ

/-- The shared state, the number of clock readings and everything written. -/
structure World where
  shared : Shared
  tick : ℕ
  out : List Bytes

def World.start (s : Shared) : World := ⟨s, 0, []⟩

def Env.answer (env : Env) : (o : Op) → World → Option (Op.Ret o × World)
  | .locked c, w => some ((c.exec w.shared).1, { w with shared := (c.exec w.shared).2 })
  | .route req, w => some (env.router req, w)
  | .now, w => some (env.clock w.tick, { w with tick := w.tick + 1 })
  | .send msg, w => some ((), { w with out := w.out ++ [msg] })
  | .crash, _ => none

/-- Run one task alone; a crash leaves no result. -/
def evaluate {A : Type} (env : Env) : Prog ninep A → World → Option (A × World)
  | .done a, w => some (a, w)
  | .call o next, w => (env.answer o w).bind fun x => evaluate env (next x.1) x.2

theorem evaluate_bind {A B : Type} (env : Env) (p : Prog ninep A) (f : A → Prog ninep B)
    (w : World) :
    evaluate env (p >>= f) w = (evaluate env p w).bind fun x => evaluate env (f x.1) x.2 := by
  induction p generalizing w with
  | done a => rfl
  | call o next ih =>
      simp only [Prog.call_bind, evaluate, Option.bind_assoc]
      congr 1
      funext x
      exact ih x.1 x.2

section
variable {ι : Type} [DecidableEq ι]

theorem answer_sound {env : Env} {router : Request → Answer → Prop}
    (hr : ∀ req, router req (env.router req)) (i : ι) {o : Op} {w w' : World} {r : Op.Ret o}
    (h : env.answer o w = some (r, w')) :
    semantics router o w.shared r w'.shared ∧
      w'.out = w.out ++ sent i [(⟨i, o, r⟩ : Event ninep ι)] := by
  cases o with
  | locked c =>
      obtain ⟨rfl, rfl⟩ := Prod.mk.inj (Option.some.inj h)
      exact ⟨⟨w.shared, .refl _, rfl⟩, by simp [sent]⟩
  | route req =>
      obtain ⟨rfl, rfl⟩ := Prod.mk.inj (Option.some.inj h)
      exact ⟨⟨hr req, rfl⟩, by simp [sent]⟩
  | now =>
      obtain ⟨rfl, rfl⟩ := Prod.mk.inj (Option.some.inj h)
      exact ⟨rfl, by simp [sent]⟩
  | send msg =>
      obtain ⟨rfl, rfl⟩ := Prod.mk.inj (Option.some.inj h)
      exact ⟨rfl, by simp [sent]⟩
  | crash => cases h

theorem sent_other {i j : ι} (h : j ≠ i) (o : Op) (r : Op.Ret o) (t : List (Event ninep ι)) :
    sent j (⟨i, o, r⟩ :: t) = sent j t := by
  simp [sent, Ne.symm h]

/-- Evaluating the head of a task is one of its runs among all the others. -/
theorem evaluate_run {A : Type} {env : Env} {router : Request → Answer → Prop}
    (hr : ∀ req, router req (env.router req)) (i : ι) (p : Prog ninep A)
    (f : A → Prog ninep Unit) {a : A} {w w' : World} (h : evaluate env p w = some (a, w'))
    (c : Config ninep ι Shared) (hi : c.tasks i = p >>= f) (hw : c.state = w.shared) :
    ∃ t, Run (semantics router) c t ⟨w'.shared, Function.update c.tasks i (f a)⟩ ∧
      w'.out = w.out ++ sent i t ∧ ∀ j, j ≠ i → sent j t = [] := by
  induction p generalizing w c with
  | done b =>
      obtain ⟨rfl, rfl⟩ := Prod.mk.inj (Option.some.inj h)
      have hsame : Function.update c.tasks i (f b) = c.tasks := by
        rw [Function.update_eq_self_iff, hi]
        rfl
      rw [hsame, ← hw]
      exact ⟨[], .refl c, by simp [sent], fun _ _ => rfl⟩
  | call o next ih =>
      simp only [evaluate, Option.bind_eq_some_iff] at h
      obtain ⟨⟨r, w₁⟩, hans, hrest⟩ := h
      obtain ⟨hsem, hout⟩ := answer_sound hr i hans
      obtain ⟨t, hrun, hsent, hothers⟩ := ih r hrest
        ⟨w₁.shared, Function.update c.tasks i (next r >>= f)⟩ (Function.update_self ..) rfl
      rw [Function.update_idem] at hrun
      rw [← hw] at hsem
      refine ⟨⟨i, o, r⟩ :: t, .step (.answer i o _ r _ hi hsem) hrun, ?_, ?_⟩
      · rw [hsent, hout, sent_cons i _ t, List.append_assoc]
      · intro j hj
        rw [sent_other hj]
        exact hothers j hj

end

end Pinhead.NinepRuns
