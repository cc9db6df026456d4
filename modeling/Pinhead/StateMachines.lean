import Mathlib.Tactic

/-!
# Runs of a partial step function

An event either moves the state or is not enabled. `Guarded` says that every
event of a run meets a condition in the state before it, and `run_invariant`
carries an invariant through such a run; with no condition it speaks of every run.

The second part counts what a list of slots holds. Rewriting one slot, or removing
it by moving the last slot into its place, changes the count by what that slot
held.
-/
namespace Pinhead.StateMachines

/-! ## Runs -/

section
variable {σ ε : Type} (step : σ → ε → Option σ)

def run : σ → List ε → Option σ
  | s, [] => some s
  | s, e :: es => (step s e).bind fun t => run t es

def Guarded (P : σ → ε → Prop) : σ → List ε → Prop
  | _, [] => True
  | s, e :: es => P s e ∧ ∀ t, step s e = some t → Guarded P t es

variable {step}

theorem run_cons {s t : σ} {e : ε} {es : List ε} (h : run step s (e :: es) = some t) :
    ∃ u, step s e = some u ∧ run step u es = some t := Option.bind_eq_some_iff.mp h

theorem guarded_cons {P : σ → ε → Prop} {s t : σ} {e : ε} {es : List ε} (hP : P s e)
    (hstep : step s e = some t) (hrest : Guarded step P t es) : Guarded step P s (e :: es) := by
  refine ⟨hP, ?_⟩
  intro u hu
  rw [hstep] at hu
  cases hu
  exact hrest

theorem run_invariant {P : σ → ε → Prop} {Inv : σ → Prop}
    (hstep : ∀ s e t, Inv s → P s e → step s e = some t → Inv t) {s t : σ} {es : List ε}
    (hs : Inv s) (hguarded : Guarded step P s es) (hrun : run step s es = some t) : Inv t := by
  induction es generalizing s with
  | nil =>
      cases hrun
      exact hs
  | cons e es ih =>
      obtain ⟨u, hu, hrest⟩ := run_cons hrun
      obtain ⟨hP, hguarded'⟩ := hguarded
      exact ih (hstep s e u hs hP hu) (hguarded' u hu) hrest

theorem guarded_true (s : σ) (es : List ε) : Guarded step (fun _ _ => True) s es := by
  induction es generalizing s with
  | nil => trivial
  | cons e es ih => exact ⟨trivial, fun t _ => ih t⟩

end

/-! ## Slots -/

section
variable {α β : Type} [DecidableEq β] (f : α → List β)

theorem count_flatMap_set {xs : List α} {i : ℕ} {x : α} (h : xs[i]? = some x) (y : α) (b : β) :
    ((xs.set i y).flatMap f).count b + (f x).count b =
      (xs.flatMap f).count b + (f y).count b := by
  induction xs generalizing i with
  | nil => simp at h
  | cons z zs ih =>
      cases i with
      | zero =>
          simp only [List.getElem?_cons_zero, Option.some.injEq] at h
          subst h
          simp only [List.set_cons_zero, List.flatMap_cons, List.count_append]
          omega
      | succ i =>
          have hrest := ih h
          simp only [List.set_cons_succ, List.flatMap_cons, List.count_append]
          omega

theorem sum_map_set {g : α → ℕ} {xs : List α} {i : ℕ} {x : α} (h : xs[i]? = some x) (y : α) :
    ((xs.set i y).map g).sum + g x = (xs.map g).sum + g y := by
  induction xs generalizing i with
  | nil => simp at h
  | cons z zs ih =>
      cases i with
      | zero =>
          simp only [List.getElem?_cons_zero, Option.some.injEq] at h
          subst h
          simp only [List.set_cons_zero, List.map_cons, List.sum_cons]
          omega
      | succ i =>
          have hrest := ih h
          simp only [List.set_cons_succ, List.map_cons, List.sum_cons]
          omega

/-- Remove a slot by moving the last one into its place. -/
def swapRemove (xs : List α) (i : ℕ) : List α :=
  match xs.getLast? with
  | none => []
  | some last => (xs.set i last).dropLast

theorem count_flatMap_swapRemove {xs : List α} {i : ℕ} {x : α} (h : xs[i]? = some x) (b : β) :
    ((swapRemove xs i).flatMap f).count b + (f x).count b = (xs.flatMap f).count b := by
  obtain ⟨hi, _⟩ := List.getElem?_eq_some_iff.mp h
  have hne : xs ≠ [] := by
    intro hnil
    simp [hnil] at hi
  have hlast : xs.getLast? = some (xs.getLast hne) := List.getLast?_eq_some_getLast hne
  have hset : xs.set i (xs.getLast hne) ≠ [] := by simpa using hne
  have hsplit := List.dropLast_append_getLast hset
  have hsame : (xs.set i (xs.getLast hne)).getLast hset = xs.getLast hne := by
    rw [List.getLast_eq_getElem, List.getElem_set]
    split
    · rfl
    · simp [List.getLast_eq_getElem]
  have hcount := count_flatMap_set f h (xs.getLast hne) b
  rw [← hsplit, hsame, List.flatMap_append, List.count_append] at hcount
  simp only [List.flatMap_cons, List.flatMap_nil, List.append_nil] at hcount
  rw [swapRemove, hlast]
  dsimp only
  omega

theorem length_swapRemove (xs : List α) (i : ℕ) : (swapRemove xs i).length = xs.length - 1 := by
  unfold swapRemove
  split
  · next h => simp [List.getLast?_eq_none_iff.mp h]
  · simp

end

end Pinhead.StateMachines
