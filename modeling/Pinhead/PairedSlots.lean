import Mathlib.Data.List.Forall2
import Pinhead.StateMachines

/-!
# Two lists of slots kept side by side

Every slot of one list belongs to the slot of the other at the same index. The operations
that write, remove and add slots keep the two lists related when they are done to both.
-/
namespace Pinhead.PairedSlots
open StateMachines

variable {α β : Type} {R : α → β → Prop} {xs : List α} {ys : List β}

theorem forall₂_getElem? (h : List.Forall₂ R xs ys) {i : ℕ} {x : α} (hx : xs[i]? = some x) :
    ∃ y, ys[i]? = some y ∧ R x y := by
  induction h generalizing i with
  | nil => simp at hx
  | @cons a b as bs hab _ ih =>
      cases i with
      | zero =>
          simp only [List.getElem?_cons_zero, Option.some.injEq] at hx
          exact ⟨b, by simp, hx ▸ hab⟩
      | succ i => simpa using ih (i := i) (by simpa using hx)

theorem forall₂_set (h : List.Forall₂ R xs ys) (i : ℕ) {x : α} {y : β} (hxy : R x y) :
    List.Forall₂ R (xs.set i x) (ys.set i y) := by
  induction h generalizing i with
  | nil => exact .nil
  | cons hab hrest ih =>
      cases i with
      | zero => exact .cons hxy hrest
      | succ i => exact .cons hab (ih i)

theorem forall₂_swapRemove (h : List.Forall₂ R xs ys) (i : ℕ) :
    List.Forall₂ R (swapRemove xs i) (swapRemove ys i) := by
  have hlength := h.length_eq
  unfold swapRemove
  rw [List.getLast?_eq_getElem?, List.getLast?_eq_getElem?, ← hlength]
  cases hx : xs[xs.length - 1]? with
  | none =>
      have hempty : ys[xs.length - 1]? = none := by
        rw [List.getElem?_eq_none_iff] at hx ⊢
        omega
      rw [hempty]
      exact .nil
  | some x =>
      obtain ⟨y, hy, hxy⟩ := forall₂_getElem? h hx
      rw [hy]
      simp only [List.dropLast_eq_take, List.length_set, ← hlength]
      exact List.forall₂_take _ (forall₂_set h i hxy)

/-- Keep the slots beside those that a test keeps. -/
def keepBeside (p : α → Bool) (xs : List α) (ys : List β) : List β :=
  ((xs.zip ys).filter fun z => p z.1).map Prod.snd

theorem forall₂_keepBeside (h : List.Forall₂ R xs ys) (p : α → Bool) :
    List.Forall₂ R (xs.filter p) (keepBeside p xs ys) := by
  unfold keepBeside
  induction h with
  | nil => exact .nil
  | @cons a b as bs hab _ ih =>
      by_cases hp : p a
      · simp only [List.zip_cons_cons, List.filter_cons_of_pos, hp, List.map_cons]
        exact .cons hab ih
      · simp only [List.zip_cons_cons, hp, List.filter_cons_of_neg, Bool.not_eq_true] at ih ⊢
        exact ih

theorem forall₂_replicate {x : α} {y : β} (hxy : R x y) (n : ℕ) :
    List.Forall₂ R (List.replicate n x) (List.replicate n y) := by
  induction n with
  | zero => exact .nil
  | succ n ih => exact .cons hxy ih

/-- The relation has only to be kept at the slots that are there. -/
theorem forall₂_imp_index {Q : α → β → Prop} (h : List.Forall₂ R xs ys)
    (himp : ∀ (i : ℕ) x y, xs[i]? = some x → ys[i]? = some y → R x y → Q x y) :
    List.Forall₂ Q xs ys := by
  induction h with
  | nil => exact .nil
  | @cons a b as bs hab _ ih =>
      refine .cons (himp 0 a b rfl rfl hab) (ih ?_)
      intro i x y hx hy hxy
      exact himp (i + 1) x y (by simpa using hx) (by simpa using hy) hxy

/-- One slot of each list is written, and the relation changes at the others. -/
theorem forall₂_update {Q : α → β → Prop} (h : List.Forall₂ R xs ys) (i : ℕ) {x : α} {y : β}
    (hxy : Q x y)
    (himp : ∀ (j : ℕ) a b, j ≠ i → xs[j]? = some a → ys[j]? = some b → R a b → Q a b) :
    List.Forall₂ Q (xs.set i x) (ys.set i y) := by
  induction h generalizing i with
  | nil => exact .nil
  | @cons a b as bs hab hrest ih =>
      cases i with
      | zero =>
          refine .cons hxy (forall₂_imp_index hrest ?_)
          intro j c d hc hd hcd
          exact himp (j + 1) c d (by omega) (by simpa using hc) (by simpa using hd) hcd
      | succ i =>
          refine .cons (himp 0 a b (by omega) rfl rfl hab) (ih i ?_)
          intro j c d hj hc hd hcd
          exact himp (j + 1) c d (by omega) (by simpa using hc) (by simpa using hd) hcd

theorem set_getElem?_self {i : ℕ} {x : α} (h : xs[i]? = some x) : xs.set i x = xs := by
  obtain ⟨hlt, rfl⟩ := List.getElem?_eq_some_iff.mp h
  exact List.set_getElem_self hlt

/-- What is held once is held in one slot. -/
theorem slot_unique [DecidableEq β] {f : α → List β} {b : β} (hcount : (xs.flatMap f).count b ≤ 1)
    {i j : ℕ} {x y : α} (hx : xs[i]? = some x) (hy : xs[j]? = some y) (hbx : b ∈ f x)
    (hby : b ∈ f y) : i = j := by
  induction xs generalizing i j with
  | nil => simp at hx
  | cons z zs ih =>
      rw [List.flatMap_cons, List.count_append] at hcount
      have hlater : ∀ k w, zs[k]? = some w → b ∈ f w → 0 < (zs.flatMap f).count b :=
        fun k w hw hb =>
          List.count_pos_iff.mpr (List.mem_flatMap.mpr ⟨w, List.mem_of_getElem? hw, hb⟩)
      cases i with
      | zero =>
          cases j with
          | zero => rfl
          | succ j =>
              simp only [List.getElem?_cons_zero, Option.some.injEq] at hx
              have hhead := List.count_pos_iff.mpr (hx ▸ hbx)
              have htail := hlater j y (by simpa using hy) hby
              omega
      | succ i =>
          cases j with
          | zero =>
              simp only [List.getElem?_cons_zero, Option.some.injEq] at hy
              have hhead := List.count_pos_iff.mpr (hy ▸ hby)
              have htail := hlater i x (by simpa using hx) hbx
              omega
          | succ j =>
              have hsame := ih (by omega) (i := i) (j := j) (by simpa using hx) (by simpa using hy)
              rw [hsame]

end Pinhead.PairedSlots
