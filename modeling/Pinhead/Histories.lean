import Pinhead.Resumption

/-!
# What a task did, operation by operation

The history of a task lists the operations it performed with the answers it
received. `Passes` reads a tree along a history and forgets everything else: the
shared state, the schedule and the other tasks. Every interleaved run projects to
such a passage for each of its tasks.

`observed` is the matching backward reading. A ghost value follows the history;
each operation has to meet a guarantee there, and may rely on its answer being an
admissible one. `run_observed` pays for the admissible answers with an invariant
of the shared state that the guaranteed operations keep.
-/
namespace Pinhead.Histories
open Resumption

/-- One operation of a task with the answer it received. -/
structure Answered (S : Signature) where
  op : S.Op
  answer : S.Ret op

variable {S : Signature} {A B T : Type}

/-! ## Passages through one tree -/

/-- Answered as in `h`, the operations of `h` lead from the first tree to the second. -/
inductive Passes : Prog S A → List (Answered S) → Prog S A → Prop
  | refl (p : Prog S A) : Passes p [] p
  | answer (o : S.Op) (next : S.Ret o → Prog S A) (r : S.Ret o) {h : List (Answered S)}
      {q : Prog S A} : Passes (next r) h q → Passes (.call o next) (⟨o, r⟩ :: h) q

theorem passes_done {a : A} {h : List (Answered S)} {q : Prog S A}
    (hp : Passes (.done a) h q) : h = [] ∧ q = .done a := by
  cases hp
  exact ⟨rfl, rfl⟩

theorem Passes.bind {p : Prog S A} {f : A → Prog S B} {h k : List (Answered S)} {a : A}
    {q : Prog S B} (hp : Passes p h (.done a)) (hf : Passes (f a) k q) :
    Passes (p >>= f) (h ++ k) q := by
  generalize hend : Prog.done a = p' at hp
  induction hp with
  | refl p =>
      subst p
      exact hf
  | answer o next r _ ih => exact .answer o _ r (ih hend)

theorem Passes.append {p q r : Prog S A} {h k : List (Answered S)} (hp : Passes p h q)
    (hq : Passes q k r) : Passes p (h ++ k) r := by
  induction hp with
  | refl p => exact hq
  | answer o next a _ ih => exact .answer o next a (ih hq)

theorem Passes.concat {p : Prog S A} {h : List (Answered S)} {o : S.Op} {next : S.Ret o → Prog S A}
    (hp : Passes p h (.call o next)) (r : S.Ret o) : Passes p (h ++ [⟨o, r⟩]) (next r) :=
  hp.append (.answer o next r (.refl _))

/-- A passage through a sequence stays in the first part or goes through its end. -/
theorem passes_bind {p : Prog S A} {f : A → Prog S B} {h : List (Answered S)} {q : Prog S B}
    (hp : Passes (p >>= f) h q) :
    (∃ p', Passes p h p' ∧ q = p' >>= f) ∨
    ∃ a h₁ h₂, h = h₁ ++ h₂ ∧ Passes p h₁ (.done a) ∧ Passes (f a) h₂ q := by
  induction p generalizing h with
  | done a => exact Or.inr ⟨a, [], h, rfl, .refl _, hp⟩
  | call o next ih =>
      generalize hbind : Prog.call o next >>= f = p' at hp
      cases hp with
      | refl p' => exact Or.inl ⟨_, .refl _, hbind.symm⟩
      | @answer _ _ r h' _ hrest =>
          obtain ⟨rfl, hnext⟩ := Prog.call.inj hbind
          have hnext := eq_of_heq hnext
          subst hnext
          rcases ih r hrest with ⟨p', hp', hq⟩ | ⟨a, h₁, h₂, rfl, h₁', h₂'⟩
          · exact Or.inl ⟨p', .answer o next r hp', hq⟩
          · exact Or.inr ⟨a, ⟨o, r⟩ :: h₁, h₂, rfl, .answer o next r h₁', h₂'⟩

/-- A finished sequence has finished both of its parts. -/
theorem passes_bind_done {p : Prog S A} {f : A → Prog S B} {h : List (Answered S)} {b : B}
    (hp : Passes (p >>= f) h (.done b)) :
    ∃ a h₁ h₂, h = h₁ ++ h₂ ∧ Passes p h₁ (.done a) ∧ Passes (f a) h₂ (.done b) := by
  rcases passes_bind hp with ⟨p', hp', hend⟩ | hsplit
  · cases p' with
    | done a =>
        have hlast : Passes (f a) [] (.done b) := by
          rw [hend]
          exact .refl _
        exact ⟨a, h, [], (List.append_nil h).symm, hp', hlast⟩
    | call o next => cases hend
  · exact hsplit

/-- What is done after a part of a history is a passage from where that part leads. -/
theorem Passes.rest {p q r : Prog S A} {h k : List (Answered S)} (hp : Passes p h q)
    (hr : Passes p (h ++ k) r) : Passes q k r := by
  induction hp with
  | refl p => exact hr
  | answer o next a _ ih =>
      cases hr with
      | answer _ _ _ hrest => exact ih hrest

/-- Whatever the answers, the task stops at no more than `n` operations. -/
inductive Within : ℕ → Prog S A → Prop
  | done (n : ℕ) (a : A) : Within n (.done a)
  | call {n : ℕ} {o : S.Op} {next : S.Ret o → Prog S A} : (∀ r, Within n (next r)) →
      Within (n + 1) (.call o next)

theorem Within.mono {m n : ℕ} {p : Prog S A} (hp : Within m p) (h : m ≤ n) : Within n p := by
  induction hp generalizing n with
  | done m a => exact .done n a
  | call _ ih =>
      obtain ⟨n, rfl⟩ := Nat.exists_eq_add_of_le' (Nat.one_le_of_lt h)
      exact .call fun r => ih r (by omega)

theorem Within.bind {m n : ℕ} {p : Prog S A} {f : A → Prog S B} (hp : Within m p)
    (hf : ∀ a, Within n (f a)) : Within (m + n) (p >>= f) := by
  induction hp with
  | done m a => exact (hf a).mono (Nat.le_add_left n m)
  | @call m o next _ ih =>
      rw [Nat.add_right_comm]
      exact .call ih

theorem Within.run_bind {E : Type} {m n : ℕ} {x : Fallible S E A} {f : A → Fallible S E B}
    (hx : Within m x.run) (hf : ∀ a, Within n (f a).run) : Within (m + n) (x >>= f).run := by
  rw [ExceptT.run_bind]
  refine hx.bind fun r => ?_
  cases r with
  | ok a => exact hf a
  | error e => exact .done n _

theorem Within.run_free {E : Type} {n : ℕ} {x : Fallible S E A} {f : A → Fallible S E B}
    (hx : Within 0 x.run) (hf : ∀ a, Within n (f a).run) : Within n (x >>= f).run := by
  rw [← Nat.zero_add n]
  exact hx.run_bind hf

theorem Passes.length_le {n : ℕ} {p q : Prog S A} {h : List (Answered S)} (hp : Passes p h q)
    (hw : Within n p) : h.length ≤ n := by
  induction hp generalizing n with
  | refl p => exact Nat.zero_le n
  | answer o next r _ ih =>
      cases hw with
      | call hnext => exact Nat.succ_le_succ (ih (hnext r))

/-- A task without operations only has a result. -/
theorem Within.wp_of_zero {p : Prog S A} (hp : Within 0 p) {T : Type} {spec : Spec S T}
    {Q : A → T → Prop} {t : T} (h : ∀ a, Q a t) : wp spec p Q t := by
  cases hp with
  | done _ a => exact h a

/-- What a task does when a function answers each of its operations. -/
def answered (f : (o : S.Op) → S.Ret o) : Prog S A → List (Answered S) × A
  | .done a => ([], a)
  | .call o next => (⟨o, f o⟩ :: (answered f (next (f o))).1, (answered f (next (f o))).2)

theorem passes_answered (f : (o : S.Op) → S.Ret o) (p : Prog S A) :
    Passes p (answered f p).1 (.done (answered f p).2) := by
  induction p with
  | done a => exact .refl _
  | call o next ih => exact .answer o next (f o) (ih (f o))

theorem answered_bind (f : (o : S.Op) → S.Ret o) (p : Prog S A) (g : A → Prog S B) :
    (answered f (p >>= g)).2 = (answered f (g (answered f p).2)).2 := by
  induction p with
  | done a => rfl
  | call o next ih => exact ih (f o)

theorem answered_bind_history (f : (o : S.Op) → S.Ret o) (p : Prog S A) (g : A → Prog S B) :
    (answered f (p >>= g)).1 = (answered f p).1 ++ (answered f (g (answered f p).2)).1 := by
  induction p with
  | done a => rfl
  | call o next ih =>
      rw [Prog.call_bind, answered, answered, ih, List.cons_append]

/-! ## Guarantees under any answers -/

/-- Whatever the answers, every operation satisfies `G` and every result `P`. -/
def Confined (G : S.Op → Prop) (P : A → Prop) : Prog S A → Prop
  | .done a => P a
  | .call o next => G o ∧ ∀ r, Confined G P (next r)

section Confined
variable {G : S.Op → Prop} {P : A → Prop} {M : B → Prop}

theorem Confined.bind {p : Prog S B} {f : B → Prog S A} (hp : Confined G M p)
    (hf : ∀ b, M b → Confined G P (f b)) : Confined G P (p >>= f) := by
  induction p with
  | done b => exact hf b hp
  | call o next ih => exact ⟨hp.1, fun r => ih r (hp.2 r)⟩

theorem Confined.ops {p q : Prog S A} (hc : Confined G P p) {h : List (Answered S)}
    (hp : Passes p h q) : ∀ e ∈ h, G e.op := by
  induction hp with
  | refl p => exact nofun
  | answer o next r _ ih =>
      intro e he
      rcases List.mem_cons.mp he with rfl | he
      · exact hc.1
      · exact ih (hc.2 r) e he

theorem Confined.result {p : Prog S A} (hc : Confined G P p) {h : List (Answered S)} {a : A}
    (hp : Passes p h (.done a)) : P a := by
  generalize hend : Prog.done a = q at hp
  induction hp with
  | refl p =>
      subst p
      exact hc
  | answer o next r _ ih => exact ih (hc.2 r) hend

end Confined

/-! ## Guarantees along a history -/

section Observed
variable (upd : T → Answered S → T) (Rely : (o : S.Op) → S.Ret o → Prop) (G : T → S.Op → Prop)

/-- Each operation meets `G` at the ghost value before it; the answer is any that
`Rely` admits. -/
def observed : Spec S T := fun o K t => G t o ∧ ∀ r, Rely o r → K r (upd t ⟨o, r⟩)

theorem observed_monotone : (observed upd Rely G).Monotone := by
  intro o K L t h hK
  exact ⟨hK.1, fun r hr => h r _ (hK.2 r hr)⟩

variable {upd Rely G}

/-- What a passage leaves to be shown, with the ghost value moved along. -/
theorem Passes.observed {p q : Prog S A} {h : List (Answered S)} {Q : A → T → Prop} {t : T}
    (hp : Passes p h q) (hrely : ∀ e ∈ h, Rely e.op e.answer)
    (hw : wp (observed upd Rely G) p Q t) :
    wp (Histories.observed upd Rely G) q Q (h.foldl upd t) := by
  induction hp generalizing t with
  | refl p => exact hw
  | answer o next r _ ih =>
      have hr := hrely ⟨o, r⟩ (List.mem_cons_self ..)
      exact ih (fun e he => hrely e (List.mem_cons_of_mem _ he)) (hw.2 r hr)

/-- Every operation of a passage met its guarantee. -/
theorem Passes.guaranteed {p q : Prog S A} {h₁ h₂ : List (Answered S)} {e : Answered S}
    {Q : A → T → Prop} {t : T} (hp : Passes p (h₁ ++ e :: h₂) q)
    (hrely : ∀ e ∈ h₁, Rely e.op e.answer) (hw : wp (Histories.observed upd Rely G) p Q t) :
    G (h₁.foldl upd t) e.op := by
  induction h₁ generalizing p t with
  | nil =>
      cases hp with
      | answer o next r _ => exact hw.1
  | cons x xs ih =>
      cases hp with
      | answer o next r hrest =>
          have hr := hrely ⟨o, r⟩ (List.mem_cons_self ..)
          exact ih hrest (fun e he => hrely e (List.mem_cons_of_mem _ he)) (hw.2 r hr)

/-- Where the guarantees themselves make the answers admissible, every operation of a
passage meets its guarantee. -/
theorem Passes.admitted {p q : Prog S A} {h : List (Answered S)} {Q : A → T → Prop} {t : T}
    (hp : Passes p h q) (hrely : ∀ e ∈ h, ∀ t, G t e.op → Rely e.op e.answer)
    (hw : wp (Histories.observed upd Rely G) p Q t) : ∀ e ∈ h, ∃ t, G t e.op := by
  induction hp generalizing t with
  | refl p => exact nofun
  | answer o next r _ ih =>
      have hr := hrely ⟨o, r⟩ (List.mem_cons_self ..) t hw.1
      intro e he
      rcases List.mem_cons.mp he with rfl | he
      · exact ⟨t, hw.1⟩
      · exact ih (fun e he => hrely e (List.mem_cons_of_mem _ he)) (hw.2 r hr) e he

end Observed

/-- The reading in which the ghost value is the history itself, under any answers. -/
abbrev traced : Spec S (List (Answered S)) :=
  observed (fun t e => t ++ [e]) (fun _ _ => True) fun _ _ => True

theorem foldl_append_singleton (h k : List (Answered S)) :
    h.foldl (fun t e => t ++ [e]) k = k ++ h := by
  induction h generalizing k with
  | nil => exact (List.append_nil k).symm
  | cons e h ih => rw [List.foldl_cons, ih, List.append_assoc, List.singleton_append]

/-- What holds of a result by the history that led to it. -/
theorem Passes.traced {p : Prog S A} {h : List (Answered S)} {a : A}
    {Q : A → List (Answered S) → Prop} (hp : Passes p h (.done a))
    (hw : wp Histories.traced p Q []) : Q a h := by
  have hdone := hp.observed (fun _ _ => trivial) hw
  rw [foldl_append_singleton, List.nil_append] at hdone
  exact hdone

/-- The ghost value that keeps the last operation. -/
theorem foldl_latest (h : List (Answered S)) :
    h.foldl (fun _ e => some e) none = h.getLast? := by
  induction h using List.reverseRecOn with
  | nil => rfl
  | append_singleton h e _ => simp

/-! ## Interleaved runs -/

section Runs
variable {ι σ : Type} [DecidableEq ι]

/-- The history of one task in a trace. -/
def own (i : ι) (t : List (Event S ι)) : List (Answered S) :=
  t.filterMap fun e => if e.task = i then some ⟨e.op, e.answer⟩ else none

theorem own_cons_self (i : ι) (o : S.Op) (r : S.Ret o) (t : List (Event S ι)) :
    own i (⟨i, o, r⟩ :: t) = ⟨o, r⟩ :: own i t := by
  simp [own]

theorem own_cons_other {i j : ι} (h : j ≠ i) (o : S.Op) (r : S.Ret o) (t : List (Event S ι)) :
    own i (⟨j, o, r⟩ :: t) = own i t := by
  simp [own, h]

theorem forall_own {P : (o : S.Op) → S.Ret o → Prop} {t : List (Event S ι)}
    (h : ∀ e ∈ t, P e.op e.answer) (i : ι) : ∀ e ∈ own i t, P e.op e.answer := by
  intro e he
  obtain ⟨ev, hev, hsome⟩ := List.mem_filterMap.mp he
  split at hsome
  · rw [← Option.some.inj hsome]
    exact h ev hev
  · cases hsome

theorem own_append (i : ι) (t u : List (Event S ι)) : own i (t ++ u) = own i t ++ own i u :=
  List.filterMap_append

theorem own_concat_self (i : ι) (o : S.Op) (r : S.Ret o) (t : List (Event S ι)) :
    own i (t ++ [⟨i, o, r⟩]) = own i t ++ [⟨o, r⟩] := by
  rw [own_append, own_cons_self]
  rfl

theorem own_concat_other {i : ι} {e : Event S ι} (h : e.task ≠ i) (t : List (Event S ι)) :
    own i (t ++ [e]) = own i t := by
  rw [own_append, own_cons_other h]
  exact List.append_nil _

/-- The last operation of a task in a trace, with nothing of the task behind it. -/
theorem own_last {i : ι} {t : List (Event S ι)} {a : Answered S}
    (h : (own i t).getLast? = some a) :
    ∃ t₁ t₂, t = t₁ ++ ⟨i, a.op, a.answer⟩ :: t₂ ∧ ∀ e ∈ t₂, e.task ≠ i := by
  induction t using List.reverseRecOn with
  | nil => cases h
  | append_singleton t e ih =>
      rw [own_append] at h
      by_cases hi : e.task = i
      · subst hi
        have hone : own e.task [e] = [⟨e.op, e.answer⟩] := own_cons_self _ _ _ []
        rw [hone, List.getLast?_append_cons, List.getLast?_singleton] at h
        obtain rfl := Option.some.inj h
        exact ⟨t, [], rfl, nofun⟩
      · have hone : own i [e] = [] := own_cons_other hi _ _ []
        rw [hone, List.append_nil] at h
        obtain ⟨t₁, t₂, rfl, hother⟩ := ih h
        refine ⟨t₁, t₂ ++ [e], by simp, ?_⟩
        intro e' he'
        rcases List.mem_append.mp he' with he' | he'
        · exact hother e' he'
        · rw [List.mem_singleton.mp he']
          exact hi

theorem run_passes {sem : Semantics S σ} {c d : Config S ι σ} {t : List (Event S ι)}
    (run : Run sem c t d) (i : ι) : Passes (c.tasks i) (own i t) (d.tasks i) := by
  induction run with
  | refl c => exact .refl _
  | step hs _ ih =>
      obtain ⟨j, o, next, r, s, hj, _⟩ := hs
      dsimp only at ih
      by_cases hij : j = i
      · subst j
        rw [Function.update_self] at ih
        rw [own_cons_self, hj]
        exact .answer o next r ih
      · rw [Function.update_of_ne (Ne.symm hij)] at ih
        rw [own_cons_other hij]
        exact ih

/-- The states that a history leads through when its task runs alone. -/
inductive Performs (sem : Semantics S σ) : σ → List (Answered S) → σ → Prop
  | refl (s : σ) : Performs sem s [] s
  | answer (o : S.Op) (r : S.Ret o) {s s' u : σ} {h : List (Answered S)} : sem o s r s' →
      Performs sem s' h u → Performs sem s (⟨o, r⟩ :: h) u

theorem Performs.mono {sem sem' : Semantics S σ} (hsub : ∀ o s r s', sem o s r s' → sem' o s r s')
    {s u : σ} {h : List (Answered S)} (hs : Performs sem s h u) : Performs sem' s h u := by
  induction hs with
  | refl s => exact .refl s
  | answer o r hsem _ ih => exact .answer o r (hsub _ _ _ _ hsem) ih

theorem Performs.append {sem : Semantics S σ} {s u v : σ} {h k : List (Answered S)}
    (hs : Performs sem s h u) (hk : Performs sem u k v) : Performs sem s (h ++ k) v := by
  induction hs with
  | refl s => exact hk
  | answer o r hsem _ ih => exact .answer o r hsem (ih hk)

theorem Performs.of_append {sem : Semantics S σ} {s v : σ} {h k : List (Answered S)}
    (hs : Performs sem s (h ++ k) v) : ∃ u, Performs sem s h u ∧ Performs sem u k v := by
  induction h generalizing s with
  | nil => exact ⟨s, .refl s, hs⟩
  | cons e h ih =>
      cases hs with
      | answer o r hsem hrest =>
          obtain ⟨u, hh, hk⟩ := ih hrest
          exact ⟨u, .answer o r hsem hh, hk⟩

/-- The neighbours move the state along `R` before each operation of the task. -/
def amid (R : σ → σ → Prop) (sem : Semantics S σ) : Semantics S σ :=
  fun o s r s' => ∃ s₁, R s s₁ ∧ sem o s₁ r s'

/-- Neighbours may be idle. -/
theorem Performs.amid {R : σ → σ → Prop} (hR : ∀ s, R s s) {sem : Semantics S σ} {s s' : σ}
    {h : List (Answered S)} (hp : Performs sem s h s') : Performs (amid R sem) s h s' := by
  induction hp with
  | refl s => exact .refl s
  | answer o r hstep _ ih => exact .answer o r ⟨_, hR _, hstep⟩ ih

/-- The reading of a task that runs alone, in which the ghost value is the state. -/
def moved (sem : Semantics S σ) : Spec S σ := fun o K s => ∀ r s', sem o s r s' → K r s'

theorem moved_monotone (sem : Semantics S σ) : (moved sem).Monotone :=
  fun _ _ _ _ h hK r s' hsem => h r s' (hK r s' hsem)

/-- What holds of a result and the state in which it is returned. -/
theorem Passes.moved {sem : Semantics S σ} {p : Prog S A} {h : List (Answered S)} {a : A}
    {s s' : σ} {Q : A → σ → Prop} (hp : Passes p h (.done a)) (hs : Performs sem s h s')
    (hw : wp (Histories.moved sem) p Q s) : Q a s' := by
  generalize hend : Prog.done a = q at hp
  induction hp generalizing s with
  | refl p =>
      cases hs
      subst hend
      exact hw
  | answer o next r _ ih =>
      cases hs with
      | answer _ _ hsem hrest => exact ih hrest (hw r _ hsem) hend

def alone (i : ι) (h : List (Answered S)) : List (Event S ι) := h.map fun a => ⟨i, a.op, a.answer⟩

theorem own_alone (i : ι) (h : List (Answered S)) : own i (alone i h) = h := by
  induction h with
  | nil => rfl
  | cons a h ih =>
      change own i (⟨i, a.op, a.answer⟩ :: alone i h) = _
      rw [own_cons_self, ih]

/-- A passage whose states are known is a run in which no other task moves. -/
theorem Passes.run {sem : Semantics S σ} {p q : Prog S Unit} {h : List (Answered S)}
    (hp : Passes p h q) (i : ι) {s u : σ} (hs : Performs sem s h u) {tasks : ι → Prog S Unit}
    (hi : tasks i = p) : Run sem ⟨s, tasks⟩ (alone i h) ⟨u, Function.update tasks i q⟩ := by
  induction hp generalizing s tasks with
  | refl p =>
      cases hs
      rw [Function.update_eq_self_iff.mpr hi.symm]
      exact .refl _
  | answer o next r _ ih =>
      cases hs with
      | answer _ _ hsem hrest =>
          have hnext := ih hrest (Function.update_self i (next r) tasks)
          rw [Function.update_idem] at hnext
          exact .step (.answer i o next r _ hi hsem) hnext

variable {upd : T → Answered S → T} {Rely : (o : S.Op) → S.Ret o → Prop} {G : T → S.Op → Prop}

/-- Tasks whose operations keep an invariant, which in turn makes every answer an
admissible one, do so under every schedule. -/
theorem run_observed {sem : Semantics S σ} {Inv : σ → Prop}
    (hsem : ∀ o s r s' τ, Inv s → G τ o → sem o s r s' → Rely o r ∧ Inv s')
    {c d : Config S ι σ} {t : List (Event S ι)} (run : Run sem c t d) (hinv : Inv c.state)
    (τ : ι → T) (htasks : ∀ i, wp (observed upd Rely G) (c.tasks i) (fun _ _ => True) (τ i)) :
    Inv d.state ∧ ∀ e ∈ t, Rely e.op e.answer ∧ ∃ τ, G τ e.op := by
  induction run generalizing τ with
  | refl c => exact ⟨hinv, by simp⟩
  | @step c d e ev t hs _ ih =>
      obtain ⟨j, o, next, r, s, hj, hstep⟩ := hs
      have hcall := htasks j
      rw [hj] at hcall
      obtain ⟨hrely, hinv'⟩ := hsem o _ r s (τ j) hinv hcall.1 hstep
      have hnext : ∀ i, wp (Histories.observed upd Rely G) (Function.update c.tasks j (next r) i)
          (fun _ _ => True) (Function.update τ j (upd (τ j) ⟨o, r⟩) i) := by
        intro i
        by_cases hij : i = j
        · subst i
          rw [Function.update_self, Function.update_self]
          exact hcall.2 r hrely
        · rw [Function.update_of_ne hij, Function.update_of_ne hij]
          exact htasks i
      obtain ⟨hfinal, hevents⟩ := ih hinv' _ hnext
      refine ⟨hfinal, ?_⟩
      intro e he
      rcases List.mem_cons.mp he with rfl | he
      · exact ⟨hrely, τ j, hcall.1⟩
      · exact hevents e he

end Runs

end Pinhead.Histories
