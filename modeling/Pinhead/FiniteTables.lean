import Mathlib.Data.List.AList
import Mathlib.Tactic

/-!
# Finite tables

What a table holds after an insertion or a removal, read off the table before it.
-/
namespace Pinhead.FiniteTables

variable {κ V : Type} [DecidableEq κ]

theorem lookup_insert_iff (l : AList fun _ : κ => V) (a x : κ) (b y : V) :
    (l.insert a b).lookup x = some y ↔ (x = a ∧ y = b) ∨ (x ≠ a ∧ l.lookup x = some y) := by
  by_cases h : x = a
  · subst x
    rw [AList.lookup_insert]
    simp [eq_comm]
  · rw [AList.lookup_insert_ne h]
    simp [h]

/-- A binding that is made again changes nothing. -/
theorem lookup_insert_same {l : AList fun _ : κ => V} {a : κ} {b : V} (h : l.lookup a = some b)
    (x : κ) : (l.insert a b).lookup x = l.lookup x := by
  by_cases hx : x = a
  · rw [hx, AList.lookup_insert, h]
  · exact AList.lookup_insert_ne hx

theorem lookup_erase_iff (l : AList fun _ : κ => V) (a x : κ) (y : V) :
    (l.erase a).lookup x = some y ↔ x ≠ a ∧ l.lookup x = some y := by
  by_cases h : x = a
  · subst x
    simp
  · rw [AList.lookup_erase_ne h]
    simp [h]

/-- A property of every binding of a table can be read off its entries. -/
theorem forall_lookup_iff (l : AList fun _ : κ => V) (P : κ → V → Prop) :
    (∀ x v, l.lookup x = some v → P x v) ↔ ∀ e ∈ l.entries, P e.1 e.2 := by
  constructor
  · intro h e he
    exact h e.1 e.2 (AList.mem_lookup_iff.mpr he)
  · intro h x v hx
    exact h ⟨x, v⟩ (AList.mem_lookup_iff.mp hx)

end Pinhead.FiniteTables
