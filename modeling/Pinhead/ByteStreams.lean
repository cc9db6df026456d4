import Pinhead.ByteStrings

/-!
# Byte sources and framed reading

A source hands out bytes in order and never more than it was asked for. What
remains visible of its buffering is `unread`, the bytes still to come before the
end of the stream, and the two laws say that an exact read either takes a prefix
of it or finds too little left.

A framing reads a header of fixed length, takes the length of the body from it
and then the body. Its loop serves frames until a read falls short or the header
is refused. `loop_encoded` says what any source carrying encoded frames makes of
it, in any monad, so two sources with the same unread bytes cannot be told apart.
-/
namespace Pinhead.ByteStreams
open ByteStrings

structure Source (σ : Type) where
  readExact : σ → ℕ → Option (Bytes × σ)
  unread : σ → Bytes
  unread_some : ∀ {s : σ} {n : ℕ} {bs : Bytes} {s' : σ}, readExact s n = some (bs, s') →
    unread s = bs ++ unread s' ∧ bs.length = n
  unread_none : ∀ {s : σ} {n : ℕ}, readExact s n = none → (unread s).length < n

namespace Source
variable {σ : Type} (src : Source σ)

/-- One contiguous byte stream. -/
def contiguous : Source Bytes where
  readExact s n := if n ≤ s.length then some (s.take n, s.drop n) else none
  unread s := s
  unread_some := by
    intro s n bs s' h
    split at h
    · obtain ⟨rfl, rfl⟩ := Prod.mk.inj (Option.some.inj h)
      exact ⟨(List.take_append_drop n s).symm, by rw [List.length_take]; omega⟩
    · cases h
  unread_none := by
    intro s n h
    split at h
    · cases h
    · omega

theorem readExact_append {s : σ} {bs rest : Bytes} (h : src.unread s = bs ++ rest) :
    ∃ s', src.readExact s bs.length = some (bs, s') ∧ src.unread s' = rest := by
  cases hread : src.readExact s bs.length with
  | none =>
      have hshort := src.unread_none hread
      rw [h, List.length_append] at hshort
      omega
  | some out =>
      obtain ⟨cs, s'⟩ := out
      obtain ⟨happend, hlength⟩ := src.unread_some hread
      rw [h] at happend
      obtain ⟨rfl, hrest⟩ := List.append_inj happend hlength.symm
      exact ⟨s', rfl, hrest.symm⟩

theorem readExact_short {s : σ} {n : ℕ} (h : (src.unread s).length < n) :
    src.readExact s n = none := by
  cases hread : src.readExact s n with
  | none => rfl
  | some out =>
      obtain ⟨bs, s'⟩ := out
      obtain ⟨happend, hlength⟩ := src.unread_some hread
      rw [happend, List.length_append] at h
      omega

end Source

/-- A header of fixed length that gives the length of the body after it, or is
refused. -/
structure Framing (M : Type) where
  headerLength : ℕ
  header_pos : 0 < headerLength
  bodyLength : Bytes → Option ℕ
  frame : Bytes → Bytes → M

namespace Framing
variable {M σ τ : Type} (F : Framing M) (src : Source σ)

/-- An empty body is not read at all. -/
def next (s : σ) : Option (M × σ) := do
  let (header, s) ← src.readExact s F.headerLength
  let n ← F.bodyLength header
  if n = 0 then some (F.frame header [], s)
  else do
    let (body, s) ← src.readExact s n
    some (F.frame header body, s)

theorem next_unread {s s' : σ} {x : M} (h : F.next src s = some (x, s')) :
    (src.unread s').length < (src.unread s).length := by
  have hpos := F.header_pos
  simp only [next, Option.bind_eq_bind, Option.bind_eq_some_iff] at h
  obtain ⟨⟨header, s₁⟩, hheader, n, _, h⟩ := h
  obtain ⟨happend, hlength⟩ := src.unread_some hheader
  rw [happend, List.length_append]
  split at h
  · simp only [Option.some.injEq, Prod.mk.injEq] at h
    obtain ⟨_, rfl⟩ := h
    omega
  · simp only [Option.bind_eq_some_iff, Option.some.injEq, Prod.mk.injEq] at h
    obtain ⟨⟨body, s₂⟩, hbody, _, rfl⟩ := h
    obtain ⟨hrest, _⟩ := src.unread_some hbody
    dsimp only at hrest ⊢
    rw [hrest, List.length_append]
    omega

/-- Serve every frame that can still be read in full. -/
def loop {m : Type → Type} [Monad m] (act : M → m Unit) (s : σ) : m Unit :=
  match h : F.next src s with
  | none => pure ()
  | some (x, s') =>
      have := F.next_unread src h
      do
        act x
        loop act s'
termination_by (src.unread s).length

/-- The byte string is one complete frame for `x`. -/
def Spells (x : M) (bs : Bytes) : Prop :=
  ∃ header body, bs = header ++ body ∧ header.length = F.headerLength ∧
    F.bodyLength header = some body.length ∧ F.frame header body = x

section
variable {F src}

theorem Spells.next {x : M} {bs rest : Bytes} (h : F.Spells x bs) {s : σ}
    (hs : src.unread s = bs ++ rest) :
    ∃ s', F.next src s = some (x, s') ∧ src.unread s' = rest := by
  obtain ⟨header, body, rfl, hheader, hbody, rfl⟩ := h
  rw [List.append_assoc] at hs
  obtain ⟨s₁, hread, hs₁⟩ := src.readExact_append hs
  rw [hheader] at hread
  by_cases hempty : body = []
  · subst hempty
    exact ⟨s₁, by simp [Framing.next, hread, hbody], by simpa using hs₁⟩
  · obtain ⟨s₂, hread', hs₂⟩ := src.readExact_append hs₁
    have hlength : body.length ≠ 0 := by simpa using hempty
    exact ⟨s₂, by simp [Framing.next, hread, hbody, hlength, hread'], hs₂⟩

/-- A frame that is cut anywhere is not delivered. -/
theorem Spells.next_cut {x : M} {bs : Bytes} (h : F.Spells x bs) {k : ℕ} (hk : k < bs.length)
    {s : σ} (hs : src.unread s = bs.take k) : F.next src s = none := by
  obtain ⟨header, body, rfl, hheader, hbody, rfl⟩ := h
  by_cases hcut : k < header.length
  · have hshort : (src.unread s).length < F.headerLength := by
      rw [hs, List.length_take]
      omega
    simp [Framing.next, src.readExact_short hshort]
  · rw [List.take_append, List.take_of_length_le (by omega)] at hs
    obtain ⟨s₁, hread, hs₁⟩ := src.readExact_append hs
    rw [hheader] at hread
    rw [List.length_append] at hk
    have hlength : body.length ≠ 0 := by omega
    have hshort : (src.unread s₁).length < body.length := by
      rw [hs₁, List.length_take]
      omega
    simp [Framing.next, hread, hbody, hlength, src.readExact_short hshort]

/-- Nothing is delivered behind a refused header. -/
theorem next_refused {header rest : Bytes} (hlength : header.length = F.headerLength)
    (hnone : F.bodyLength header = none) {s : σ} (hs : src.unread s = header ++ rest) :
    F.next src s = none := by
  obtain ⟨s₁, hread, _⟩ := src.readExact_append hs
  rw [hlength] at hread
  simp [Framing.next, hread, hnone]

variable {m : Type → Type} [Monad m] (act : M → m Unit)

theorem loop_none {s : σ} (h : F.next src s = none) : F.loop src act s = pure () := by
  rw [loop]
  split
  · rfl
  · next hsome => rw [h] at hsome; cases hsome

theorem loop_some {s s' : σ} {x : M} (h : F.next src s = some (x, s')) :
    F.loop src act s = (do act x; F.loop src act s') := by
  rw [loop]
  split
  · next hnone => rw [h] at hnone; cases hnone
  · next x' s'' hsome =>
      rw [h] at hsome
      obtain ⟨rfl, rfl⟩ := Prod.mk.inj (Option.some.inj hsome)
      rfl

/-- Complete frames are served in order; the loop then goes on with the rest. -/
theorem loop_encoded {encode : M → Bytes} {xs : List M} (hxs : ∀ x ∈ xs, F.Spells x (encode x))
    {rest : Bytes} (hrest : ∀ s, src.unread s = rest → F.next src s = none) {s : σ}
    (hs : src.unread s = xs.flatMap encode ++ rest) :
    F.loop src act s = xs.forM act := by
  induction xs generalizing s with
  | nil => exact loop_none act (hrest s hs)
  | cons x xs ih =>
      rw [List.flatMap_cons, List.append_assoc] at hs
      obtain ⟨s', hnext, hs'⟩ := (hxs x List.mem_cons_self).next hs
      have htail := ih (fun y hy => hxs y (List.mem_cons_of_mem x hy)) hs'
      rw [loop_some act hnext, htail]
      rfl

/-- The same when the stream ends inside one more frame. -/
theorem loop_truncated {encode : M → Bytes} {xs : List M} {last : M}
    (hxs : ∀ x ∈ xs, F.Spells x (encode x)) (hlast : F.Spells last (encode last)) {k : ℕ}
    (hk : k < (encode last).length) {s : σ}
    (hs : src.unread s = xs.flatMap encode ++ (encode last).take k) :
    F.loop src act s = xs.forM act :=
  loop_encoded act hxs (fun _ h => hlast.next_cut hk h) hs

end

end Framing

/-- An action that only appends its argument to a list records the whole list. -/
theorem forM_recorded {M : Type} {act : M → StateM (List M) Unit}
    (hact : ∀ x acc, (act x).run acc = ((), acc ++ [x])) (xs acc : List M) :
    ((xs.forM act).run acc).2 = acc ++ xs := by
  induction xs generalizing acc with
  | nil => exact (List.append_nil acc).symm
  | cons x xs ih =>
      have hstep : ((x :: xs).forM act).run acc = (xs.forM act).run ((act x).run acc).2 := rfl
      rw [hstep, hact, ih, List.append_assoc]
      rfl

end Pinhead.ByteStreams
