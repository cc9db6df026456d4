import Mathlib.Tactic

/-!
# Reading through windows

A reader asks for a number of elements at an offset and moves on by as many as it got,
until it is told that there are none left. Each read may change the state of whoever
serves it.

Where every read is served with the elements of one list that it asked for, the pieces
put together are the rest of that list, whatever the lengths asked for.
-/
namespace Pinhead.WindowedReads

variable {α σ : Type}

/-- The elements between two positions; past the end there are none. -/
def window (all : List α) (i j : ℕ) : List α :=
  (all.drop (min i all.length)).take (min j all.length - min i all.length)

theorem window_of_le {all : List α} {o : ℕ} (ho : o ≤ all.length) (c : ℕ) :
    window all o (o + c) = (all.drop o).take c := by
  rw [window, min_eq_left ho]
  by_cases hc : o + c ≤ all.length
  · rw [min_eq_left hc, Nat.add_sub_cancel_left]
  · rw [min_eq_right (by omega), List.take_of_length_le (by rw [List.length_drop]),
      List.take_of_length_le (by rw [List.length_drop]; omega)]

theorem window_past {all : List α} {o : ℕ} (ho : all.length ≤ o) (c : ℕ) :
    window all o (o + c) = [] := by
  rw [window, min_eq_right ho, List.drop_length, List.take_nil]

theorem window_ne_nil {all : List α} {o c : ℕ} (ho : o < all.length) (hc : 0 < c) :
    window all o (o + c) ≠ [] := by
  rw [window_of_le ho.le]
  apply List.ne_nil_of_length_pos
  rw [List.length_take, List.length_drop]
  omega

/-- What lies behind a window starts where the window ends. -/
theorem window_append_rest {all : List α} {o : ℕ} (ho : o ≤ all.length) (c : ℕ) :
    window all o (o + c) ++ all.drop (o + (window all o (o + c)).length) = all.drop o := by
  rw [window_of_le ho, List.length_take, List.length_drop]
  by_cases hc : c ≤ all.length - o
  · rw [min_eq_left hc, ← List.drop_drop, List.take_append_drop]
  · have hall : (all.drop o).take c = all.drop o :=
      List.take_of_length_le (by rw [List.length_drop]; omega)
    have hnone : all.drop (o + (all.length - o)) = [] := List.drop_eq_nil_of_le (by omega)
    rw [min_eq_right (by omega), hall, hnone, List.append_nil]

/-! ## Readers -/

/-- What one read comes back with. -/
inductive Piece (α : Type) where
  | data (xs : List α)
  | ended
  | failed

/-- At most `fuel` reads, the `k`-th of `lens k` elements, each behind what the reads
before it returned. There is no value where a read fails or the data does not end. -/
def readOn (read : σ → ℕ → ℕ → Piece α × σ) (lens : ℕ → ℕ) :
    (fuel k offset : ℕ) → σ → Option (List α × σ)
  | 0, _, _, _ => none
  | fuel + 1, k, offset, s =>
      match read s offset (lens k) with
      | (.data xs, s) => (readOn read lens fuel (k + 1) (offset + xs.length) s).map
          fun r => (xs ++ r.1, r.2)
      | (.ended, s) => some ([], s)
      | (.failed, _) => none

/-- Every read in a state with `Good` is served from `all`, and leads to such a state. -/
def Serves (read : σ → ℕ → ℕ → Piece α × σ) (Good : σ → Prop) (all : List α) : Prop :=
  ∀ s o c, Good s → o ≤ all.length → 0 < c → Good (read s o c).2 ∧
    (read s o c).1 = if o < all.length then .data (window all o (o + c)) else .ended

/-- Each piece has at least one element, so that the elements left bound the reads. -/
theorem readOn_served {read : σ → ℕ → ℕ → Piece α × σ} {Good : σ → Prop} {all : List α}
    (h : Serves read Good all) {lens : ℕ → ℕ} (hlens : ∀ k, 0 < lens k) {fuel k o : ℕ} {s : σ}
    (hs : Good s) (ho : o ≤ all.length) (hfuel : all.length - o < fuel) :
    ∃ s', readOn read lens fuel k o s = some (all.drop o, s') ∧ Good s' := by
  induction fuel generalizing k o s with
  | zero => omega
  | succ fuel ih =>
      obtain ⟨hgood, hpiece⟩ := h s o (lens k) hs ho (hlens k)
      generalize hread : read s o (lens k) = r at hgood hpiece
      obtain ⟨piece, s₁⟩ := r
      rw [readOn, hread]
      dsimp only at hgood hpiece
      by_cases hlt : o < all.length
      · rw [if_pos hlt] at hpiece
        have hpos := List.length_pos_iff.mpr (window_ne_nil hlt (hlens k))
        have hend : o + (window all o (o + lens k)).length ≤ all.length := by
          rw [window_of_le ho, List.length_take, List.length_drop]
          omega
        obtain ⟨s', hrest, hs'⟩ := ih (k := k + 1) hgood hend (by omega)
        refine ⟨s', ?_, hs'⟩
        rw [hpiece]
        dsimp only
        rw [hrest, Option.map_some, window_append_rest ho]
      · rw [if_neg hlt] at hpiece
        rw [hpiece, List.drop_eq_nil_of_le (by omega)]
        exact ⟨s₁, rfl, hgood⟩

end Pinhead.WindowedReads
