import Mathlib.Order.Basic
import Mathlib.Tactic

/-!
# Suspended tasks and their interleavings

A task is a finite tree: it stops at an operation of a fixed signature, and
resumes with whatever answer the environment gives to that operation. Shared
state, message channels and clocks all belong to the environment, so one tree
serves a sequential evaluation, every interleaving with other tasks and the
comparison of two executions.

Three rules are developed here. `wp` carries a postcondition backwards through
a tree for any reading of the operations. `Run.invariant` is the rely and
guarantee rule for interleaved tasks. `Similar` relates two trees over a
growing correspondence between their values, and `Watched.simulated` transports
a whole interleaved run along it.
-/
namespace Pinhead.Resumption

/-- Operations at which a task can stop, each with the type of its answer. -/
structure Signature where
  Op : Type
  Ret : Op → Type

inductive Prog (S : Signature) (A : Type) where
  | done (a : A) : Prog S A
  | call (o : S.Op) (next : S.Ret o → Prog S A) : Prog S A

variable {S : Signature} {A B : Type}

namespace Prog

def bind : Prog S A → (A → Prog S B) → Prog S B
  | .done a, f => f a
  | .call o next, f => .call o fun r => (next r).bind f

instance : Monad (Prog S) where
  pure := .done
  bind := bind

/-- Stop at one operation and return its answer. -/
def perform (o : S.Op) : Prog S (S.Ret o) := .call o .done

@[simp] theorem call_bind (o : S.Op) (next : S.Ret o → Prog S A) (f : A → Prog S B) :
    (Prog.call o next >>= f) = .call o fun r => next r >>= f := rfl

theorem bind_done (p : Prog S A) : (p >>= Prog.done) = p := by
  induction p with
  | done a => rfl
  | call o next ih =>
      rw [call_bind]
      exact congrArg (Prog.call o) (funext ih)

theorem bind_assoc' {C : Type} (p : Prog S A) (f : A → Prog S B) (g : B → Prog S C) :
    (p >>= f) >>= g = p >>= fun a => f a >>= g := by
  induction p with
  | done a => rfl
  | call o next ih =>
      simp only [call_bind]
      exact congrArg (Prog.call o) (funext ih)

instance : LawfulMonad (Prog S) :=
  LawfulMonad.mk' (Prog S) bind_done (fun _ _ => rfl) bind_assoc'

end Prog

/-! ## Backward reasoning over one task -/

/-- How an operation acts on a ghost value, as a predicate transformer. -/
abbrev Spec (S : Signature) (T : Type) := (o : S.Op) → (S.Ret o → T → Prop) → T → Prop

variable {T : Type}

/-- The postcondition holds on every path through the tree that `spec` admits. -/
def wp (spec : Spec S T) : Prog S A → (A → T → Prop) → T → Prop
  | .done a, Q, t => Q a t
  | .call o next, Q, t => spec o (fun r => wp spec (next r) Q) t

@[simp] theorem wp_pure (spec : Spec S T) (a : A) (Q : A → T → Prop) (t : T) :
    wp spec (pure a) Q t = Q a t := rfl

@[simp] theorem wp_bind (spec : Spec S T) (p : Prog S A) (f : A → Prog S B)
    (Q : B → T → Prop) (t : T) :
    wp spec (p >>= f) Q t = wp spec p (fun a => wp spec (f a) Q) t := by
  induction p generalizing t with
  | done a => rfl
  | call o next ih =>
      have step : (fun r => wp spec (next r >>= f) Q) =
          fun r => wp spec (next r) fun a => wp spec (f a) Q := by
        funext r t
        exact ih r t
      exact congrArg (fun K => spec o K t) step

/-- A stronger continuation never makes an operation harder. -/
def Spec.Monotone (spec : Spec S T) : Prop :=
  ∀ (o : S.Op) (K L : S.Ret o → T → Prop) (t : T),
    (∀ r t, K r t → L r t) → spec o K t → spec o L t

theorem wp_mono {spec : Spec S T} (hs : spec.Monotone) (p : Prog S A)
    {Q R : A → T → Prop} (h : ∀ a t, Q a t → R a t) (t : T) (hp : wp spec p Q t) :
    wp spec p R t := by
  induction p generalizing t with
  | done a => exact h a t hp
  | call o next ih => exact hs o _ _ t (fun r t hr => ih r t hr) hp

section Failing
variable {E : Type}

/-- Tasks that may fail: the error layer sits above the operations. -/
abbrev Fallible (S : Signature) (E A : Type) := ExceptT E (Prog S) A

/-- Continue after a fallible task, or pass its error on. -/
def onSuccess (K : A → T → Prop) (Q : E → T → Prop) : Except E A → T → Prop
  | .ok a => K a
  | .error e => Q e

@[simp] theorem wp_run_bind (spec : Spec S T) (x : Fallible S E A) (f : A → Fallible S E B)
    (Q : Except E B → T → Prop) (t : T) :
    wp spec (x >>= f).run Q t =
      wp spec x.run (onSuccess (fun a => wp spec (f a).run Q) fun e => Q (.error e)) t := by
  rw [ExceptT.run_bind, wp_bind]
  congr 1
  funext r t
  cases r <;> rfl

theorem wp_seq {spec : Spec S T} {x : Fallible S E A} {f : A → Fallible S E B}
    {Q : Except E B → T → Prop} {t : T}
    (h : wp spec x.run (onSuccess (fun a => wp spec (f a).run Q) fun e => Q (.error e)) t) :
    wp spec (x >>= f).run Q t := by
  rw [wp_run_bind]
  exact h

/-- From a ghost value with `Pre` the task is as `spec` asks, and on success its
result and the ghost value reached satisfy `Post`. -/
def Meets (spec : Spec S T) (Pre : T → Prop) (x : Fallible S E A) (Post : A → T → Prop) : Prop :=
  ∀ t, Pre t → wp spec x.run (onSuccess Post fun _ _ => True) t

variable {spec : Spec S T} {Pre : T → Prop}

theorem Meets.bind (hs : spec.Monotone) {Mid : A → T → Prop} {Post : B → T → Prop}
    {x : Fallible S E A} {f : A → Fallible S E B} (hx : Meets spec Pre x Mid)
    (hf : ∀ a, Meets spec (Mid a) (f a) Post) : Meets spec Pre (x >>= f) Post := by
  intro t ht
  rw [wp_run_bind]
  refine wp_mono hs _ ?_ t (hx t ht)
  intro r t' hr
  cases r with
  | ok a => exact hf a t' hr
  | error e => trivial

theorem Meets.pure {Post : A → T → Prop} {a : A} (h : ∀ t, Pre t → Post a t) :
    Meets spec Pre (pure a : Fallible S E A) Post := h

theorem Meets.throw {Post : A → T → Prop} (e : E) :
    Meets spec Pre (throw e : Fallible S E A) Post := fun _ _ => trivial

theorem Meets.weaken (hs : spec.Monotone) {Pre' : T → Prop} {Post Post' : A → T → Prop}
    {x : Fallible S E A} (hx : Meets spec Pre x Post) (hpre : ∀ t, Pre' t → Pre t)
    (hpost : ∀ a t, Post a t → Post' a t) : Meets spec Pre' x Post' := by
  intro t ht
  refine wp_mono hs _ ?_ t (hx t (hpre t ht))
  intro r t' hr
  cases r with
  | ok a => exact hpost a t' hr
  | error e => trivial

end Failing

/-! ## Interleaved tasks over a shared state -/

/-- Which answers an operation may receive, and how it moves the shared state. -/
abbrev Semantics (S : Signature) (σ : Type) := (o : S.Op) → σ → S.Ret o → σ → Prop

structure Config (S : Signature) (ι σ : Type) where
  state : σ
  tasks : ι → Prog S Unit

/-- One answered operation of one task. -/
structure Event (S : Signature) (ι : Type) where
  task : ι
  op : S.Op
  answer : S.Ret op

section Interleaving
variable {ι σ : Type} [DecidableEq ι]

inductive Step (sem : Semantics S σ) : Config S ι σ → Event S ι → Config S ι σ → Prop
  | answer {c : Config S ι σ} (i : ι) (o : S.Op) (next : S.Ret o → Prog S Unit)
      (r : S.Ret o) (s : σ) : c.tasks i = .call o next → sem o c.state r s →
      Step sem c ⟨i, o, r⟩ ⟨s, Function.update c.tasks i (next r)⟩

inductive Run (sem : Semantics S σ) :
    Config S ι σ → List (Event S ι) → Config S ι σ → Prop
  | refl (c : Config S ι σ) : Run sem c [] c
  | step {c d e : Config S ι σ} {ev : Event S ι} {t : List (Event S ι)} :
      Step sem c ev d → Run sem d t e → Run sem c (ev :: t) e

theorem Run.append {sem : Semantics S σ} {c d e : Config S ι σ} {t u : List (Event S ι)}
    (h : Run sem c t d) (k : Run sem d u e) : Run sem c (t ++ u) e := by
  induction h with
  | refl c => exact k
  | step hs _ ih => exact .step hs (ih k)

theorem Run.of_append {sem : Semantics S σ} {c e : Config S ι σ} {t u : List (Event S ι)}
    (run : Run sem c (t ++ u) e) : ∃ d, Run sem c t d ∧ Run sem d u e := by
  induction t generalizing c with
  | nil => exact ⟨c, .refl c, run⟩
  | cons ev t ih =>
      cases run with
      | step hs hrest =>
          obtain ⟨d, ht, hu⟩ := ih hrest
          exact ⟨d, .step hs ht, hu⟩

theorem Run.mono {sem sem' : Semantics S σ} (hsub : ∀ o s r s', sem o s r s' → sem' o s r s')
    {c d : Config S ι σ} {t : List (Event S ι)} (run : Run sem c t d) : Run sem' c t d := by
  induction run with
  | refl c => exact .refl c
  | step hs _ ih =>
      obtain ⟨i, o, next, r, s, htask, hsem⟩ := hs
      exact .step (.answer i o next r s htask (hsub o _ r s hsem)) ih

/-- What the environment ensures of each answer holds along a run. -/
theorem Run.answers {sem : Semantics S σ} {P : (o : S.Op) → S.Ret o → Prop}
    (h : ∀ o s r s', sem o s r s' → P o r) {c d : Config S ι σ} {t : List (Event S ι)}
    (run : Run sem c t d) : ∀ e ∈ t, P e.op e.answer := by
  induction run with
  | refl c => simp
  | step hs _ ih =>
      obtain ⟨i, o, next, r, s, _, hsem⟩ := hs
      intro e he
      rcases List.mem_cons.mp he with rfl | he
      · exact h o _ r s hsem
      · exact ih e he

/-- Every task keeps `Inv` and only moves the state along `Ext`, provided the
other tasks do the same between any two of its own operations. -/
def guaranteed (sem : Semantics S σ) (Inv : σ → Prop) (Ext : σ → σ → Prop) : Spec S σ :=
  fun o K s => ∀ s₁, Ext s s₁ → Inv s₁ → ∀ r s₂, sem o s₁ r s₂ →
    Inv s₂ ∧ Ext s₁ s₂ ∧ K r s₂

theorem guaranteed_monotone (sem : Semantics S σ) (Inv : σ → Prop) (Ext : σ → σ → Prop) :
    (guaranteed sem Inv Ext).Monotone := by
  intro o K L s h hK s₁ hext hinv r s₂ hsem
  obtain ⟨hi, he, hk⟩ := hK s₁ hext hinv r s₂ hsem
  exact ⟨hi, he, h r s₂ hk⟩

/-- What a task may still assume survives the steps of its neighbours. -/
theorem guaranteed_extend {sem : Semantics S σ} {Inv : σ → Prop} {Ext : σ → σ → Prop}
    (trans : ∀ a b c, Ext a b → Ext b c → Ext a c) (p : Prog S Unit) {s s' : σ}
    (h : wp (guaranteed sem Inv Ext) p (fun _ _ => True) s) (hext : Ext s s') :
    wp (guaranteed sem Inv Ext) p (fun _ _ => True) s' := by
  cases p with
  | done a => trivial
  | call o next => exact fun s₁ he => h s₁ (trans _ _ _ hext he)

/-- One operation of one task keeps the invariant and what every task guarantees. -/
theorem Step.guaranteed {sem : Semantics S σ} {Inv : σ → Prop} {Ext : σ → σ → Prop}
    (refl : ∀ a, Ext a a) (trans : ∀ a b c, Ext a b → Ext b c → Ext a c)
    {c d : Config S ι σ} {ev : Event S ι} (step : Step sem c ev d) (hinv : Inv c.state)
    (htasks : ∀ i, wp (guaranteed sem Inv Ext) (c.tasks i) (fun _ _ => True) c.state) :
    Inv d.state ∧ Ext c.state d.state ∧
      ∀ i, wp (Resumption.guaranteed sem Inv Ext) (d.tasks i) (fun _ _ => True) d.state := by
  obtain ⟨i, o, next, r, s, hi, hsem⟩ := step
  have hcall := htasks i
  rw [hi] at hcall
  obtain ⟨hinv', hext, hnext⟩ := hcall c.state (refl _) hinv r s hsem
  refine ⟨hinv', hext, ?_⟩
  intro j
  by_cases hj : j = i
  · subst j
    simpa using hnext
  · simp only [Function.update_of_ne hj]
    exact guaranteed_extend trans _ (htasks j) hext

/-- Rely and guarantee: tasks that each guarantee the invariant keep it under
every schedule, and the state only ever moves along `Ext`. -/
theorem Run.invariant {sem : Semantics S σ} {Inv : σ → Prop} {Ext : σ → σ → Prop}
    (refl : ∀ a, Ext a a) (trans : ∀ a b c, Ext a b → Ext b c → Ext a c)
    {c d : Config S ι σ} {t : List (Event S ι)} (run : Run sem c t d)
    (hinv : Inv c.state)
    (htasks : ∀ i, wp (guaranteed sem Inv Ext) (c.tasks i) (fun _ _ => True) c.state) :
    Inv d.state ∧ Ext c.state d.state ∧
      ∀ i, wp (guaranteed sem Inv Ext) (d.tasks i) (fun _ _ => True) d.state := by
  induction run with
  | refl c => exact ⟨hinv, refl _, htasks⟩
  | step hs _ ih =>
      obtain ⟨hinv', hext, htasks'⟩ := hs.guaranteed refl trans hinv htasks
      obtain ⟨h₁, h₂, h₃⟩ := ih hinv' htasks'
      exact ⟨h₁, trans _ _ _ hext h₂, h₃⟩

/-- Fewer behaviours of the environment ask for less. -/
theorem guaranteed_sub {sem sem' : Semantics S σ} {Inv : σ → Prop} {Ext : σ → σ → Prop}
    (hsub : ∀ o s r s', sem' o s r s' → sem o s r s') (p : Prog S A) {Q : A → σ → Prop} {s : σ}
    (h : wp (guaranteed sem Inv Ext) p Q s) : wp (guaranteed sem' Inv Ext) p Q s := by
  induction p generalizing s with
  | done a => exact h
  | call o next ih =>
      intro s₁ hext hinv r s₂ hsem
      obtain ⟨hi, he, hk⟩ := h s₁ hext hinv r s₂ (hsub o s₁ r s₂ hsem)
      exact ⟨hi, he, ih r hk⟩

/-- Every state of a run is on its way to the last one. -/
theorem Run.towards {sem : Semantics S σ} {Inv : σ → Prop} {Ext : σ → σ → Prop}
    (refl : ∀ a, Ext a a) (trans : ∀ a b c, Ext a b → Ext b c → Ext a c)
    {c d : Config S ι σ} {t : List (Event S ι)} (run : Run sem c t d) (hinv : Inv c.state)
    (htasks : ∀ i, wp (guaranteed sem Inv Ext) (c.tasks i) (fun _ _ => True) c.state) :
    Run (fun o s r s' => sem o s r s' ∧ Inv s ∧ Ext s' d.state) c t d := by
  induction run with
  | refl c => exact .refl c
  | step hs hrest ih =>
      obtain ⟨hinv', _, htasks'⟩ := hs.guaranteed refl trans hinv htasks
      obtain ⟨_, hext, _⟩ := hrest.invariant refl trans hinv' htasks'
      obtain ⟨i, o, next, r, s, hi, hsem⟩ := hs
      exact .step (.answer i o next r s hi ⟨hsem, hinv, hext⟩) (ih hinv' htasks')

end Interleaving

/-! ## Triples for fallible tasks among others -/

section Triples
variable {σ E : Type} {sem : Semantics S σ} {Inv : σ → Prop} {Ext : σ → σ → Prop}

/-- The neighbours, which only move the state along `Ext`, cannot undo it. -/
def Stable (Ext : σ → σ → Prop) (P : σ → Prop) : Prop := ∀ s s', Ext s s' → P s → P s'

theorem Stable.and_const {P : σ → Prop} (h : Stable Ext P) (R : Prop) :
    Stable Ext fun s => P s ∧ R := fun s s' hext hP => ⟨h s s' hext hP.1, hP.2⟩

/-- From a state with `Pre` the task keeps what `guaranteed` asks for, and on
success its result and the state reached satisfy `Post`. -/
def Triple (sem : Semantics S σ) (Inv : σ → Prop) (Ext : σ → σ → Prop) (Pre : σ → Prop)
    (x : Fallible S E A) (Post : A → σ → Prop) : Prop :=
  ∀ s, Pre s → wp (guaranteed sem Inv Ext) x.run (onSuccess Post fun _ _ => True) s

theorem Triple.bind {Pre : σ → Prop} {Mid : A → σ → Prop} {Post : B → σ → Prop}
    {x : Fallible S E A} {f : A → Fallible S E B} (hx : Triple sem Inv Ext Pre x Mid)
    (hf : ∀ a, Triple sem Inv Ext (Mid a) (f a) Post) :
    Triple sem Inv Ext Pre (x >>= f) Post := Meets.bind (guaranteed_monotone _ _ _) hx hf

theorem Triple.pure {Pre : σ → Prop} {Post : A → σ → Prop} {a : A}
    (h : ∀ s, Pre s → Post a s) : Triple sem Inv Ext Pre (pure a : Fallible S E A) Post := h

theorem Triple.throw {Pre : σ → Prop} {Post : A → σ → Prop} (e : E) :
    Triple sem Inv Ext Pre (throw e : Fallible S E A) Post := Meets.throw e

theorem Triple.weaken {Pre Pre' : σ → Prop} {Post Post' : A → σ → Prop} {x : Fallible S E A}
    (hx : Triple sem Inv Ext Pre x Post) (hpre : ∀ s, Pre' s → Pre s)
    (hpost : ∀ a s, Post a s → Post' a s) : Triple sem Inv Ext Pre' x Post' :=
  Meets.weaken (guaranteed_monotone _ _ _) hx hpre hpost

/-- The task keeps every stable assertion: nothing has to be said about it. -/
def Inert (sem : Semantics S σ) (Inv : σ → Prop) (Ext : σ → σ → Prop)
    (x : Fallible S E A) : Prop :=
  ∀ F : σ → Prop, Stable Ext F → Triple sem Inv Ext F x fun _ => F

theorem Inert.bind {x : Fallible S E A} {f : A → Fallible S E B}
    (hx : Inert sem Inv Ext x) (hf : ∀ a, Inert sem Inv Ext (f a)) :
    Inert sem Inv Ext (x >>= f) := fun F hF => (hx F hF).bind fun a => hf a F hF

theorem inert_pure (a : A) : Inert sem Inv Ext (pure a : Fallible S E A) :=
  fun _ _ => Triple.pure fun _ h => h

theorem inert_throw (e : E) : Inert sem Inv Ext (throw e : Fallible S E A) :=
  fun _ _ => Triple.throw e

/-- Go on after an inert step with the stable assertion still at hand. -/
theorem Inert.then {F : σ → Prop} (hF : Stable Ext F) {Post : B → σ → Prop}
    {x : Fallible S E A} {f : A → Fallible S E B} (hx : Inert sem Inv Ext x)
    (hf : ∀ a, Triple sem Inv Ext F (f a) Post) : Triple sem Inv Ext F (x >>= f) Post :=
  (hx F hF).bind hf

end Triples

/-! ## Two executions compared over a growing correspondence -/

section Simulation
variable {W : Type} [Preorder W]

/-- When two operations correspond in a world, and how their answers must then
correspond in every later world. -/
abbrev Matching (W : Type) (S : Signature) :=
  W → (o o' : S.Op) → (W → S.Ret o → S.Ret o' → Prop) → Prop

inductive Similar (M : Matching W S) (Q : W → A → B → Prop) :
    W → Prog S A → Prog S B → Prop
  | done {w : W} {a : A} {b : B} : Q w a b → Similar M Q w (.done a) (.done b)
  | call {w : W} {o o' : S.Op} {next : S.Ret o → Prog S A} {next' : S.Ret o' → Prog S B}
      {R : W → S.Ret o → S.Ret o' → Prop} : M w o o' R →
      (∀ w', w ≤ w' → ∀ r r', R w' r r' → Similar M Q w' (next r) (next' r')) →
      Similar M Q w (.call o next) (.call o' next')

theorem Similar.perform {M : Matching W S} {w : W} {o o' : S.Op}
    {R : W → S.Ret o → S.Ret o' → Prop} (h : M w o o' R) :
    Similar M R w (Prog.perform o) (Prog.perform o') :=
  .call h fun _ _ _ _ hr => .done hr

theorem Similar.bind {C D : Type} {M : Matching W S} {Q : W → A → B → Prop}
    {R : W → C → D → Prop} {w : W} {p : Prog S A} {q : Prog S B}
    {f : A → Prog S C} {g : B → Prog S D} (h : Similar M Q w p q)
    (hf : ∀ w', w ≤ w' → ∀ a b, Q w' a b → Similar M R w' (f a) (g b)) :
    Similar M R w (p >>= f) (q >>= g) := by
  induction h with
  | @done w a b hq => exact hf w le_rfl a b hq
  | call hm _ ih =>
      exact .call hm fun w' hw r r' hr => ih w' hw r r' hr
        fun w'' hw' => hf w'' (hw.trans hw')

theorem Similar.mono {M : Matching W S} {Q : W → A → B → Prop}
    (hM : ∀ w w' o o' R, w ≤ w' → M w o o' R → M w' o o' R)
    (hQ : ∀ w w' a b, w ≤ w' → Q w a b → Q w' a b) {w w' : W} (hw : w ≤ w')
    {p : Prog S A} {q : Prog S B} (h : Similar M Q w p q) : Similar M Q w' p q := by
  cases h with
  | done hq => exact .done (hQ _ _ _ _ hw hq)
  | call hm hnext => exact .call (hM _ _ _ _ _ hw hm) fun w'' hw' => hnext w'' (hw.trans hw')

theorem Similar.done_iff {M : Matching W S} {Q : W → Unit → Unit → Prop} {w : W}
    {p q : Prog S Unit} (h : Similar M Q w p q) : p = .done () ↔ q = .done () := by
  cases h with
  | done _ => exact ⟨fun _ => rfl, fun _ => rfl⟩
  | call _ _ => constructor <;> intro hdone <;> cases hdone

section Failing
variable {E C D : Type} {M : Matching W S}

/-- Both results are values that correspond, or both are the same error. -/
def outcome (E : Type) (Q : W → A → B → Prop) (w : W) : Except E A → Except E B → Prop
  | .ok a, .ok b => Q w a b
  | .error e, .error e' => e = e'
  | _, _ => False

def Alike (M : Matching W S) (Q : W → A → B → Prop) (w : W) (x : Fallible S E A)
    (y : Fallible S E B) : Prop :=
  Similar M (outcome E Q) w x.run y.run

theorem alike_pure {Q : W → A → B → Prop} {w : W} {a : A} {b : B} (h : Q w a b) :
    Alike M Q w (pure a : Fallible S E A) (pure b) := .done h

theorem alike_throw {Q : W → A → B → Prop} {w : W} (e : E) :
    Alike M Q w (throw e : Fallible S E A) (throw e) := .done rfl

theorem alike_lift {Q : W → A → B → Prop} {w : W} {p : Prog S A} {q : Prog S B}
    (h : Similar M Q w p q) : Alike M Q w (liftM p : Fallible S E A) (liftM q) :=
  h.bind fun _ _ _ _ hq => .done hq

theorem Alike.bind {Q : W → A → B → Prop} {R : W → C → D → Prop} {w : W}
    {x : Fallible S E A} {y : Fallible S E B} {f : A → Fallible S E C} {g : B → Fallible S E D}
    (h : Alike M Q w x y)
    (hf : ∀ w', w ≤ w' → ∀ a b, Q w' a b → Alike M R w' (f a) (g b)) :
    Alike M R w (x >>= f) (y >>= g) := by
  unfold Alike
  rw [ExceptT.run_bind, ExceptT.run_bind]
  apply Similar.bind h
  intro w' hw r r' hr
  cases r with
  | ok a =>
      cases r' with
      | ok b => exact hf w' hw a b hr
      | error e => exact hr.elim
  | error e =>
      cases r' with
      | ok b => exact hr.elim
      | error e' => exact .done hr

/-- Go on after a step with the same value on both sides. -/
theorem Alike.same {R : W → C → D → Prop} {w : W} {x y : Fallible S E A}
    {f : A → Fallible S E C} {g : A → Fallible S E D} (h : Alike M (fun _ a b => a = b) w x y)
    (hf : ∀ w', w ≤ w' → ∀ a, Alike M R w' (f a) (g a)) :
    Alike M R w (x >>= f) (y >>= g) := by
  apply h.bind
  intro w' hw a b hab
  rw [← hab]
  exact hf w' hw a

end Failing

/-- Two answered operations of the same task that correspond. -/
def Event.Similar {ι : Type} (M : Matching W S) (w : W) (e e' : Event S ι) : Prop :=
  e.task = e'.task ∧ ∃ R, M w e.op e'.op R

section Runs
variable {ι σ σ' G : Type} [DecidableEq ι]

/-- A run observed by a history variable: `P` constrains each step in the state
before it and says how the history moves. -/
inductive Watched (sem : Semantics S σ) (P : G → σ → Event S ι → G → Prop) :
    G → Config S ι σ → List (Event S ι) → Config S ι σ → G → Prop
  | refl (g : G) (c : Config S ι σ) : Watched sem P g c [] c g
  | step {g g' g'' : G} {c d e : Config S ι σ} {ev : Event S ι} {t : List (Event S ι)} :
      Step sem c ev d → P g c.state ev g' → Watched sem P g' d t e g'' →
      Watched sem P g c (ev :: t) e g''

theorem Watched.run {sem : Semantics S σ} {P : G → σ → Event S ι → G → Prop} {g g' : G}
    {c d : Config S ι σ} {t : List (Event S ι)} (h : Watched sem P g c t d g') : Run sem c t d := by
  induction h with
  | refl _ c => exact .refl c
  | step hs _ _ ih => exact .step hs ih

/-- An invariant that the tasks guarantee may be used at every step. -/
theorem Watched.guaranteed {sem : Semantics S σ} {P : G → σ → Event S ι → G → Prop}
    {Inv : σ → Prop} {Ext : σ → σ → Prop} (refl : ∀ a, Ext a a)
    (trans : ∀ a b c, Ext a b → Ext b c → Ext a c) {g g' : G} {c d : Config S ι σ}
    {t : List (Event S ι)} (h : Watched sem P g c t d g') (hinv : Inv c.state)
    (htasks : ∀ i, wp (guaranteed sem Inv Ext) (c.tasks i) (fun _ _ => True) c.state) :
    Watched sem (fun g s e g' => Inv s ∧ P g s e g') g c t d g' := by
  induction h with
  | refl g c => exact .refl g c
  | step hs hP _ ih =>
      obtain ⟨hinv', _, htasks'⟩ := hs.guaranteed refl trans hinv htasks
      exact .step hs ⟨hinv, hP⟩ (ih hinv' htasks')

/-- The tasks selected by `mine` are replayed without the others. Every step of
a selected task is answered correspondingly by the second system, and every
step of another task leaves the correspondence as it was. -/
theorem Watched.simulated {sem : Semantics S σ} {sem' : Semantics S σ'}
    {P : G → σ → Event S ι → G → Prop} (mine : ι → Prop) [DecidablePred mine]
    {M : Matching W S} {Rel : W → G → σ → σ' → Prop}
    (hM : ∀ w w' o o' R, w ≤ w' → M w o o' R → M w' o o' R)
    (own : ∀ w g s s' i o o' R r s₁ g₁, mine i → Rel w g s s' → M w o o' R →
      sem o s r s₁ → P g s ⟨i, o, r⟩ g₁ →
      ∃ w₁ r' s₁', w ≤ w₁ ∧ sem' o' s' r' s₁' ∧ R w₁ r r' ∧ Rel w₁ g₁ s₁ s₁')
    (other : ∀ w g s s' i o r s₁ g₁, ¬ mine i → Rel w g s s' → sem o s r s₁ →
      P g s ⟨i, o, r⟩ g₁ → Rel w g₁ s₁ s')
    {g g' : G} {c d : Config S ι σ} {t : List (Event S ι)} (h : Watched sem P g c t d g')
    (w : W) (c' : Config S ι σ') (hrel : Rel w g c.state c'.state)
    (hsim : ∀ i, mine i → Similar M (fun _ _ _ => True) w (c.tasks i) (c'.tasks i)) :
    ∃ w' t' d', w ≤ w' ∧ Run sem' c' t' d' ∧ Rel w' g' d.state d'.state ∧
      (∀ i, mine i → Similar M (fun _ _ _ => True) w' (d.tasks i) (d'.tasks i)) ∧
      List.Forall₂ (Event.Similar M w') (t.filter fun e => mine e.task) t' := by
  induction h generalizing w c' with
  | refl g c => exact ⟨w, [], c', le_rfl, .refl c', hrel, hsim, .nil⟩
  | @step g g₁ g₂ c d e ev t hs hP _ ih =>
      obtain ⟨i, o, next, r, s, hi, hsem⟩ := hs
      by_cases hmine : mine i
      · have hcall := hsim i hmine
        rw [hi] at hcall
        generalize hp : c'.tasks i = p at hcall
        cases hcall with
        | @call _ _ o' _ next' R hm hnext =>
            obtain ⟨w₁, r', s₁', hw, hsem', hR, hrel₁⟩ :=
              own w g c.state c'.state i o o' R r s g₁ hmine hrel hm hsem hP
            have hsim₁ : ∀ j, mine j → Similar M (fun _ _ _ => True) w₁
                (Function.update c.tasks i (next r) j)
                (Function.update c'.tasks i (next' r') j) := by
              intro j hj
              by_cases hji : j = i
              · subst j
                rw [Function.update_self, Function.update_self]
                exact hnext w₁ hw r r' hR
              · rw [Function.update_of_ne hji, Function.update_of_ne hji]
                exact (hsim j hj).mono hM (fun _ _ _ _ _ _ => trivial) hw
            obtain ⟨w', t', d', hw', hrun, hrel', hsim', hev⟩ :=
              ih w₁ ⟨s₁', Function.update c'.tasks i (next' r')⟩ hrel₁ hsim₁
            refine ⟨w', ⟨i, o', r'⟩ :: t', d', hw.trans hw',
              .step (.answer i o' next' r' s₁' hp hsem') hrun, hrel', hsim', ?_⟩
            rw [List.filter_cons_of_pos (by simpa using hmine)]
            exact .cons ⟨rfl, R, hM _ _ _ _ _ (hw.trans hw') hm⟩ hev
      · have hsim₁ : ∀ j, mine j → Similar M (fun _ _ _ => True) w
            (Function.update c.tasks i (next r) j) (c'.tasks j) := by
          intro j hj
          have hji : j ≠ i := fun h => hmine (h ▸ hj)
          rw [Function.update_of_ne hji]
          exact hsim j hj
        obtain ⟨w', t', d', hw', hrun, hrel', hsim', hev⟩ := ih w c'
          (other w g c.state c'.state i o r s g₁ hmine hrel hsem hP) hsim₁
        refine ⟨w', t', d', hw', hrun, hrel', hsim', ?_⟩
        rw [List.filter_cons_of_neg (by simpa using hmine)]
        exact hev

end Runs

end Simulation

end Pinhead.Resumption
