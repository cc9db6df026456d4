import Mathlib.Tactic
import Mathlib.Order.Monotone.Basic

/-!
# Maps kept in the order of their keys

A finite map is the list of its entries by increasing key, so that each key stands there
once and equal maps are equal lists. Two maps may hold different kinds of values; they are
related when their keys agree and the values of each key are related, and every operation
keeps such a relation.
-/
namespace Pinhead.OrderedMaps

variable {κ ι α β : Type*} [LinearOrder κ] [LinearOrder ι]

/-- The entries with the given one, in place of an entry of the same key. -/
def insertEntry (key : κ) (value : α) : List (κ × α) → List (κ × α)
  | [] => [(key, value)]
  | (k, v) :: rest =>
      if key < k then (key, value) :: (k, v) :: rest
      else if key = k then (key, value) :: rest
      else (k, v) :: insertEntry key value rest

/-- The entries by increasing key; of those with the same key the last one stays. -/
def sortEntries (entries : List (κ × α)) : List (κ × α) :=
  entries.foldl (fun sorted e => insertEntry e.1 e.2 sorted) []

def Sorted (entries : List (κ × α)) : Prop := entries.Pairwise fun a b => a.1 < b.1

theorem mem_insertEntry {key : κ} {value : α} {e : κ × α} {entries : List (κ × α)}
    (h : e ∈ insertEntry key value entries) : e = (key, value) ∨ e ∈ entries := by
  induction entries with
  | nil => exact .inl (List.mem_singleton.mp h)
  | cons x rest ih =>
      rw [insertEntry] at h
      split_ifs at h with hlt heq
      · exact List.mem_cons.mp h
      · exact (List.mem_cons.mp h).imp id (List.mem_cons_of_mem _)
      · rcases List.mem_cons.mp h with rfl | h
        · exact .inr List.mem_cons_self
        · exact (ih h).imp id (List.mem_cons_of_mem _)

theorem sorted_insertEntry {entries : List (κ × α)} (h : Sorted entries) (key : κ) (value : α) :
    Sorted (insertEntry key value entries) := by
  induction entries with
  | nil => exact List.pairwise_singleton _ _
  | cons x rest ih =>
      have hx := List.pairwise_cons.mp h
      rw [insertEntry]
      split_ifs with hlt heq
      · exact h.cons fun e he => (List.mem_cons.mp he).elim
          (fun heq => heq ▸ hlt) (fun he => hlt.trans (hx.1 e he))
      · exact hx.2.cons fun e he => heq ▸ hx.1 e he
      · refine (ih hx.2).cons fun e he => ?_
        rcases mem_insertEntry he with rfl | he
        · exact lt_of_le_of_ne (not_lt.mp hlt) (Ne.symm heq)
        · exact hx.1 e he

theorem lookup_insertEntry (key k : κ) (value : α) (entries : List (κ × α)) :
    (insertEntry key value entries).lookup k =
      if k = key then some value else entries.lookup k := by
  induction entries with
  | nil => by_cases hk : k = key <;> simp [insertEntry, hk]
  | cons x rest ih =>
      rw [insertEntry]
      split_ifs with hlt heq hk
      all_goals grind

theorem perm_insertEntry {key : κ} {entries : List (κ × α)} (h : key ∉ entries.map Prod.fst)
    (value : α) : (insertEntry key value entries).Perm ((key, value) :: entries) := by
  induction entries with
  | nil => exact List.Perm.refl _
  | cons x rest ih =>
      rw [List.map_cons, List.mem_cons, not_or] at h
      rw [insertEntry]
      split_ifs with hlt heq
      · exact List.Perm.refl _
      · exact absurd heq h.1
      · exact ((ih h.2).cons x).trans (List.Perm.swap _ _ _)

/-- Keys and values may be translated before or after, as long as the order is kept. -/
theorem insertEntry_map {f : κ → ι} (hf : StrictMono f) (g : α → β) (key : κ) (value : α)
    (entries : List (κ × α)) :
    insertEntry (f key) (g value) (entries.map (Prod.map f g)) =
      (insertEntry key value entries).map (Prod.map f g) := by
  induction entries with
  | nil => rfl
  | cons x rest ih =>
      rw [List.map_cons, Prod.map_apply', insertEntry, insertEntry]
      simp only [hf.lt_iff_lt, hf.injective.eq_iff, ih]
      split_ifs <;> rfl

theorem foldl_insertEntry_map {f : κ → ι} (hf : StrictMono f) (g : α → β)
    (entries sorted : List (κ × α)) :
    (entries.map (Prod.map f g)).foldl (fun sorted e => insertEntry e.1 e.2 sorted)
        (sorted.map (Prod.map f g)) =
      (entries.foldl (fun sorted e => insertEntry e.1 e.2 sorted) sorted).map (Prod.map f g) := by
  induction entries generalizing sorted with
  | nil => rfl
  | cons x rest ih =>
      rw [List.map_cons, List.foldl_cons, List.foldl_cons, Prod.map_fst, Prod.map_snd,
        insertEntry_map hf, ih]

theorem sortEntries_map {f : κ → ι} (hf : StrictMono f) (g : α → β) (entries : List (κ × α)) :
    sortEntries (entries.map (Prod.map f g)) = (sortEntries entries).map (Prod.map f g) :=
  foldl_insertEntry_map hf g entries []

theorem sorted_sortEntries (entries : List (κ × α)) : Sorted (sortEntries entries) := by
  have hfold (sorted : List (κ × α)) (h : Sorted sorted) :
      Sorted (entries.foldl (fun sorted e => insertEntry e.1 e.2 sorted) sorted) := by
    induction entries generalizing sorted with
    | nil => exact h
    | cons x rest ih => exact ih _ (sorted_insertEntry h x.1 x.2)
  exact hfold [] List.Pairwise.nil

theorem perm_sortEntries {entries : List (κ × α)} (h : (entries.map Prod.fst).Nodup) :
    (sortEntries entries).Perm entries := by
  have hfold (sorted : List (κ × α)) (hnodup : ((sorted ++ entries).map Prod.fst).Nodup) :
      (entries.foldl (fun sorted e => insertEntry e.1 e.2 sorted) sorted).Perm
        (sorted ++ entries) := by
    induction entries generalizing sorted with
    | nil => rw [List.append_nil]; exact List.Perm.refl _
    | cons x rest ih =>
        have hmove : (sorted ++ x :: rest).Perm (x :: (sorted ++ rest)) := List.perm_middle
        have hcons := (hmove.map Prod.fst).nodup_iff.mp hnodup
        have hkey : x.1 ∉ sorted.map Prod.fst := fun hx =>
          (List.nodup_cons.mp hcons).1 (List.map_append ▸ List.mem_append_left _ hx)
        have hinsert := perm_insertEntry hkey x.2
        have hrest := hinsert.append_right rest
        have hnext := (hrest.map Prod.fst).nodup_iff.mpr hcons
        exact ((ih (List.nodup_cons.mp h).2 _ hnext).trans hrest).trans List.perm_middle.symm
  exact hfold [] h

/-- The order in which distinct keys come does not matter. -/
theorem sortEntries_perm {xs ys : List (κ × α)} (hxs : (xs.map Prod.fst).Nodup)
    (hperm : xs.Perm ys) : sortEntries xs = sortEntries ys := by
  have hys := (hperm.map Prod.fst).nodup_iff.mp hxs
  have hsorted := ((perm_sortEntries hxs).trans hperm).trans (perm_sortEntries hys).symm
  exact hsorted.eq_of_pairwise (fun a b _ _ hab hba => absurd hba hab.asymm)
    (sorted_sortEntries xs) (sorted_sortEntries ys)

theorem lookup_eq_some_iff_mem {entries : List (κ × α)} (h : (entries.map Prod.fst).Nodup)
    {key : κ} {value : α} : entries.lookup key = some value ↔ (key, value) ∈ entries := by
  induction entries with
  | nil => simp
  | cons x rest ih =>
      obtain ⟨hx, hrest⟩ := List.nodup_cons.mp h
      rw [List.lookup_cons, List.mem_cons]
      split
      · next heq =>
          obtain rfl := eq_of_beq heq
          constructor
          · exact fun hvalue => .inl (Prod.ext rfl (Option.some.inj hvalue).symm)
          · rintro (hvalue | hmem)
            · rw [← hvalue]
            · exact absurd (List.mem_map_of_mem (f := Prod.fst) hmem) hx
      · next hne =>
          rw [ih hrest]
          constructor
          · exact .inr
          · rintro (hvalue | hmem)
            · exact absurd (beq_iff_eq.mpr (congrArg Prod.fst hvalue)) (by simpa using hne)
            · exact hmem

/-- Sorting loses no entry. -/
theorem lookup_sortEntries {entries : List (κ × α)} (h : (entries.map Prod.fst).Nodup) (key : κ) :
    (sortEntries entries).lookup key = entries.lookup key := by
  have hperm := perm_sortEntries h
  have hsorted := (hperm.map Prod.fst).nodup_iff.mpr h
  ext value
  rw [lookup_eq_some_iff_mem hsorted, lookup_eq_some_iff_mem h, hperm.mem_iff]

theorem sortEntries_of_sorted {entries : List (κ × α)} (h : Sorted entries) :
    sortEntries entries = entries := by
  have hnodup : (entries.map Prod.fst).Nodup :=
    List.pairwise_map.mpr (h.imp fun hlt => hlt.ne)
  exact (perm_sortEntries hnodup).eq_of_pairwise (fun a b _ _ hab hba => absurd hba hab.asymm)
    (sorted_sortEntries entries) h

/-! ## Maps -/

/-- A finite map by its entries in key order. -/
structure OrderedMap (κ α : Type*) [LinearOrder κ] where
  entries : List (κ × α)
  sorted : Sorted entries

namespace OrderedMap

def empty : OrderedMap κ α := ⟨[], List.Pairwise.nil⟩

def find (m : OrderedMap κ α) (key : κ) : Option α := m.entries.lookup key

def insert (m : OrderedMap κ α) (key : κ) (value : α) : OrderedMap κ α :=
  ⟨insertEntry key value m.entries, sorted_insertEntry m.sorted key value⟩

def erase (m : OrderedMap κ α) (key : κ) : OrderedMap κ α :=
  ⟨m.entries.filter (·.1 ≠ key), m.sorted.filter _⟩

def size (m : OrderedMap κ α) : ℕ := m.entries.length

@[simp] theorem find_insert (m : OrderedMap κ α) (key k : κ) (value : α) :
    (m.insert key value).find k = if k = key then some value else m.find k :=
  lookup_insertEntry key k value m.entries

@[simp] theorem find_erase (m : OrderedMap κ α) (key k : κ) :
    (m.erase key).find k = if k = key then none else m.find k := by
  change (m.entries.filter (·.1 ≠ key)).lookup k = if k = key then none else m.entries.lookup k
  induction m.entries with
  | nil => simp
  | cons x rest ih =>
      rw [List.filter_cons]
      split <;> grind

variable {R : α → β → Prop} {m : OrderedMap κ α} {n : OrderedMap κ β}

/-- The same keys, with related values. -/
def Related (R : α → β → Prop) (m : OrderedMap κ α) (n : OrderedMap κ β) : Prop :=
  List.Forall₂ (fun x y => x.1 = y.1 ∧ R x.2 y.2) m.entries n.entries

theorem Related.size (h : Related R m n) : m.size = n.size := h.length_eq

theorem Related.insert (h : Related R m n) (key : κ) {a : α} {b : β} (hab : R a b) :
    Related R (m.insert key a) (n.insert key b) := by
  change List.Forall₂ _ (insertEntry key a m.entries) (insertEntry key b n.entries)
  unfold Related at h
  generalize m.entries = xs, n.entries = ys at h
  induction h with
  | nil => exact .cons ⟨rfl, hab⟩ .nil
  | cons hxy hrest ih =>
      rw [insertEntry, insertEntry, hxy.1]
      split_ifs
      · exact .cons ⟨rfl, hab⟩ (.cons ⟨rfl, hxy.2⟩ hrest)
      · exact .cons ⟨rfl, hab⟩ hrest
      · exact .cons ⟨rfl, hxy.2⟩ ih

theorem Related.erase (h : Related R m n) (key : κ) : Related R (m.erase key) (n.erase key) := by
  change List.Forall₂ _ (m.entries.filter (·.1 ≠ key)) (n.entries.filter (·.1 ≠ key))
  unfold Related at h
  generalize m.entries = xs, n.entries = ys at h
  induction h with
  | nil => exact .nil
  | cons hxy hrest ih =>
      rw [List.filter_cons, List.filter_cons, hxy.1]
      split
      · exact .cons hxy ih
      · exact ih

theorem Related.find (h : Related R m n) (key : κ) :
    Option.Rel R (m.find key) (n.find key) := by
  change Option.Rel R (m.entries.lookup key) (n.entries.lookup key)
  unfold Related at h
  generalize m.entries = xs, n.entries = ys at h
  induction h with
  | nil => exact .none
  | cons hxy hrest ih =>
      rw [List.lookup_cons, List.lookup_cons, hxy.1]
      split
      · exact .some hxy.2
      · exact ih

end OrderedMap

end Pinhead.OrderedMaps
