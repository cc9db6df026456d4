import Pinhead.Histories

/-!
# Systems side by side

Several systems of tasks, each with operations and a state of its own, run at the same time.
Together they are one system, whose operations each belong to one of the systems and leave the
states of the others alone. A run of all together is a shuffle of runs of each alone.
-/
namespace Pinhead.SideBySide
open Resumption Histories

section
variable {F : Type} (T : F → Signature) {A : Type}

def together : Signature where
  Op := Σ f, (T f).Op
  Ret o := (T o.1).Ret o.2

def embed (f : F) : Prog (T f) A → Prog (together T) A
  | .done a => .done a
  | .call o next => .call (S := together T) ⟨f, o⟩ fun r => embed f (next r)

end

section
variable {F : Type} [DecidableEq F] {T : F → Signature} {ι τ : F → Type}

/-- An operation acts on the state of its own system. -/
def beside (sem : ∀ f, Semantics (T f) (τ f)) : Semantics (together T) (∀ f, τ f) :=
  fun o s r u => ∃ v, sem o.1 o.2 (s o.1) r v ∧ u = Function.update s o.1 v

def allOf (c : ∀ f, Config (T f) (ι f) (τ f)) : Config (together T) (Σ f, ι f) (∀ f, τ f) where
  state f := (c f).state
  tasks x := embed T x.1 ((c x.1).tasks x.2)

/-- The events of all together, and those of each alone in the same order. -/
inductive Shuffle :
    (∀ f, List (Event (T f) (ι f))) → List (Event (together T) (Σ f, ι f)) → Prop
  | nil : Shuffle (fun _ => []) []
  | cons {parts : ∀ f, List (Event (T f) (ι f))} {t : List (Event (together T) (Σ f, ι f))}
      (f : F) (i : ι f) (o : (T f).Op) (r : (T f).Ret o) : Shuffle parts t →
      Shuffle (Function.update parts f (⟨i, o, r⟩ :: parts f)) (⟨⟨f, i⟩, ⟨f, o⟩, r⟩ :: t)

variable [∀ f, DecidableEq (ι f)]

theorem allOf_update (c : ∀ f, Config (T f) (ι f) (τ f)) (f : F) (i : ι f)
    (p : Prog (T f) Unit) (v : τ f) :
    (⟨Function.update (allOf c).state f v,
      Function.update (allOf c).tasks ⟨f, i⟩ (embed T f p)⟩ : Config (together T) _ _) =
      allOf (Function.update c f ⟨v, Function.update (c f).tasks i p⟩) := by
  unfold allOf
  congr 1
  · funext g
    by_cases hg : g = f
    · subst hg
      rw [Function.update_self, Function.update_self]
    · rw [Function.update_of_ne hg, Function.update_of_ne hg]
  · funext x
    obtain ⟨g, j⟩ := x
    by_cases hg : g = f
    · subst hg
      dsimp only
      rw [Function.update_self]
      dsimp only
      by_cases hj : j = i
      · subst hj
        rw [Function.update_self, Function.update_self]
      · have hne : (⟨g, j⟩ : Σ f, ι f) ≠ ⟨g, i⟩ := by
          intro h
          exact hj (eq_of_heq (Sigma.mk.inj h).2)
        rw [Function.update_of_ne hne, Function.update_of_ne hj]
    · have hne : (⟨g, j⟩ : Σ f, ι f) ≠ ⟨f, i⟩ := by
        intro h
        exact hg (Sigma.mk.inj h).1
      rw [Function.update_of_ne hne, Function.update_of_ne hg]

/-- A step of all together is a step of one of them. -/
theorem step_of_one {sem : ∀ f, Semantics (T f) (τ f)} {c : ∀ f, Config (T f) (ι f) (τ f)}
    {e : Event (together T) (Σ f, ι f)} {d : Config (together T) (Σ f, ι f) (∀ f, τ f)}
    (h : Step (beside sem) (allOf c) e d) : ∃ f i o r d', e = ⟨⟨f, i⟩, ⟨f, o⟩, r⟩ ∧
      Step (sem f) (c f) ⟨i, o, r⟩ d' ∧ d = allOf (Function.update c f d') := by
  obtain ⟨⟨f, i⟩, o, next, r, s, htask, v, hv, rfl⟩ := h
  change embed T f ((c f).tasks i) = .call o next at htask
  cases hi : (c f).tasks i with
  | done a =>
      rw [hi] at htask
      cases htask
  | call o' next' =>
      rw [hi] at htask
      cases htask
      exact ⟨f, i, o', r, _, rfl, .answer i o' next' r v hi hv, allOf_update c f i (next' r) v⟩

theorem run_apart {sem : ∀ f, Semantics (T f) (τ f)} {c : ∀ f, Config (T f) (ι f) (τ f)}
    {t : List (Event (together T) (Σ f, ι f))} {d : Config (together T) (Σ f, ι f) (∀ f, τ f)}
    (h : Run (beside sem) (allOf c) t d) : ∃ parts ds, Shuffle parts t ∧ d = allOf ds ∧
      ∀ f, Run (sem f) (c f) (parts f) (ds f) := by
  generalize hall : allOf c = start at h
  induction h generalizing c with
  | refl => exact ⟨fun _ => [], c, .nil, hall.symm, fun f => .refl (c f)⟩
  | step hstep _ ih =>
      subst hall
      obtain ⟨f, i, o, r, d', rfl, hone, rfl⟩ := step_of_one hstep
      obtain ⟨parts, ds, hshuffle, rfl, hruns⟩ := ih rfl
      refine ⟨_, ds, hshuffle.cons f i o r, rfl, fun g => ?_⟩
      have hg := hruns g
      by_cases hgf : g = f
      · subst hgf
        rw [Function.update_self] at hg ⊢
        exact .step hone hg
      · rw [Function.update_of_ne hgf] at hg ⊢
        exact hg

end

end Pinhead.SideBySide
