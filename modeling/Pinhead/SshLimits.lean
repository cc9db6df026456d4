import Pinhead.SshAuth
import Pinhead.StateMachines

/-!
# The limit on SSH connections

The SSH library asks for a session whenever a client connects, and drops the session when
the client has gone. The answer cannot wait, so the server tries to take a permit, and
makes the session with the permit or without.
-/
namespace Pinhead.SshLimits
open SshAuth StateMachines

variable {D : Ed25519}

/-- A session that exists, and whether it holds a permit for its lifetime. -/
structure LiveSession (D : Ed25519) where
  session : SshSession D
  permit : Bool

/-- The server with the free permits of its semaphore, if it has one, and the sessions. -/
structure Listener (D : Ed25519) where
  server : SshServer D
  sem : Option ℕ
  sessions : List (LiveSession D)

def Listener.start (server : SshServer D) (maxConns : Option ℕ) : Listener D :=
  ⟨server, maxConns, []⟩

/-- Whether a permit was free, and what is left. -/
def tryAcquire : Option ℕ → Bool × Option ℕ
  | some (p + 1) => (true, some p)
  | sem => (false, sem)

def release (permit : Bool) (sem : Option ℕ) : Option ℕ := if permit then sem.map (· + 1) else sem

inductive Event where
  | connect
  | disconnect (i : ℕ)
  deriving DecidableEq

namespace Listener

def newClient (s : Listener D) : Listener D :=
  let (permit, sem) := tryAcquire s.sem
  { s with sem := sem, sessions := s.sessions ++ [⟨s.server.newClient, permit⟩] }

def step (s : Listener D) : Event → Option (Listener D)
  | .connect => some s.newClient
  | .disconnect i =>
      (s.sessions[i]?).map fun x =>
        { s with sem := release x.permit s.sem, sessions := s.sessions.eraseIdx i }

/-- The permits of `n` that are free, and the sessions that hold the others. -/
def Counted (n : ℕ) (s : Listener D) : Prop :=
  ∃ p, s.sem = some p ∧ p + s.sessions.countP LiveSession.permit = n

theorem counted_start (server : SshServer D) (n : ℕ) : (start server (some n)).Counted n :=
  ⟨n, rfl, rfl⟩

theorem Counted.step {n : ℕ} {s t : Listener D} (hs : s.Counted n) {e : Event}
    (h : s.step e = some t) : t.Counted n := by
  obtain ⟨p, hsem, hcount⟩ := hs
  cases e with
  | connect =>
      obtain rfl := Option.some.inj h
      cases p with
      | zero =>
          refine ⟨0, by rw [newClient, hsem]; rfl, ?_⟩
          rw [newClient, hsem, List.countP_append]
          exact hcount
      | succ p =>
          refine ⟨p, by rw [newClient, hsem]; rfl, ?_⟩
          rw [newClient, hsem, List.countP_append]
          change p + (s.sessions.countP LiveSession.permit + 1) = n
          omega
  | disconnect i =>
      obtain ⟨x, hx, rfl⟩ := Option.map_eq_some_iff.mp h
      obtain ⟨hi, hget⟩ := List.getElem?_eq_some_iff.mp hx
      have herase := (List.getElem_cons_eraseIdx_perm hi).countP_eq LiveSession.permit
      rw [hget, List.countP_cons] at herase
      cases hpermit : x.permit with
      | true =>
          refine ⟨p + 1, by rw [hsem]; rfl, ?_⟩
          rw [if_pos hpermit] at herase
          change p + 1 + (s.sessions.eraseIdx i).countP LiveSession.permit = n
          omega
      | false =>
          refine ⟨p, hsem, ?_⟩
          rw [hpermit] at herase
          simp only [Bool.false_eq_true, if_false, Nat.add_zero] at herase
          change p + (s.sessions.eraseIdx i).countP LiveSession.permit = n
          omega

/-- A session without a permit is only made when there is none. -/
def FindsPermit (s : Listener D) (e : Event) : Prop := e = .connect → s.sem ≠ some 0

/-- Every session holds a permit. -/
def Permitted (s : Listener D) : Prop := ∀ x ∈ s.sessions, x.permit = true

theorem Permitted.step {s t : Listener D} (hs : s.Permitted) {e : Event} (hfree : s.FindsPermit e)
    {p : ℕ} (hsem : s.sem = some p) (h : s.step e = some t) : t.Permitted := by
  cases e with
  | connect =>
      obtain rfl := Option.some.inj h
      cases p with
      | zero => exact absurd hsem (hfree rfl)
      | succ p =>
          intro x hx
          rw [newClient, hsem] at hx
          rcases List.mem_append.mp hx with hx | hx
          · exact hs x hx
          · rw [List.mem_singleton.mp hx]
            rfl
  | disconnect i =>
      obtain ⟨x, _, rfl⟩ := Option.map_eq_some_iff.mp h
      intro y hy
      exact hs y (List.mem_of_mem_eraseIdx hy)

/-- Sessions with permits are no more than there are permits. -/
theorem Counted.live {n : ℕ} {s : Listener D} (hs : s.Counted n) (hall : s.Permitted) :
    ∃ p, s.sem = some p ∧ p + s.sessions.length = n := by
  obtain ⟨p, hsem, hcount⟩ := hs
  rw [List.countP_eq_length.mpr hall] at hcount
  exact ⟨p, hsem, hcount⟩

/-- Every state that is reached by the events, or by the first of them, has at most `n`
sessions. -/
def Limited (n : ℕ) (s : Listener D) (es : List Event) : Prop :=
  ∀ started t, started <+: es → run step s started = some t → t.sessions.length ≤ n

theorem limited_cons {n : ℕ} {s : Listener D} {e : Event} {es : List Event} :
    Limited n s (e :: es) ↔
      s.sessions.length ≤ n ∧ ∀ t, s.step e = some t → Limited n t es := by
  constructor
  · intro h
    refine ⟨h [] s List.nil_prefix rfl, ?_⟩
    intro t ht started u hstarted hrun
    exact h (e :: started) u (List.cons_prefix_cons.mpr ⟨rfl, hstarted⟩)
      (Option.bind_eq_some_iff.mpr ⟨t, ht, hrun⟩)
  · intro h started u hstarted hrun
    cases started with
    | nil =>
        cases hrun
        exact h.1
    | cons e' started =>
        obtain ⟨rfl, hrest⟩ := List.cons_prefix_cons.mp hstarted
        obtain ⟨t, ht, hrun⟩ := run_cons hrun
        exact h.2 t ht started u hrest hrun

theorem limited_iff_of_permitted {n : ℕ} {s : Listener D} (hs : s.Counted n) (hall : s.Permitted)
    (es : List Event) : Limited n s es ↔ Guarded step FindsPermit s es := by
  induction es generalizing s with
  | nil =>
      obtain ⟨p, _, hlive⟩ := hs.live hall
      refine ⟨fun _ => trivial, fun _ started t hstarted hrun => ?_⟩
      rw [List.prefix_nil.mp hstarted] at hrun
      cases hrun
      omega
  | cons e es ih =>
      obtain ⟨p, hsem, hlive⟩ := hs.live hall
      have hlater (hfree : s.FindsPermit e) : (∀ t, s.step e = some t → Limited n t es) ↔
          ∀ t, s.step e = some t → Guarded step FindsPermit t es :=
        forall_congr' fun t => forall_congr' fun ht => ih (hs.step ht) (hall.step hfree hsem ht)
      rw [limited_cons]
      constructor
      · intro h
        have hfree : s.FindsPermit e := by
          intro hconnect hnone
          subst hconnect
          -- all permits are held, so that this session is one too many
          have hover := (h.2 s.newClient rfl) [] _ List.nil_prefix rfl
          rw [newClient, List.length_append, List.length_singleton] at hover
          obtain rfl := Option.some.inj (hsem.symm.trans hnone)
          omega
        exact ⟨hfree, (hlater hfree).mp h.2⟩
      · intro h
        exact ⟨by omega, (hlater h.1).mpr h.2⟩

end Listener

/-- The limit holds throughout a run exactly if every client that connects finds a free
permit. -/
theorem limit_holds_iff (server : SshServer D) (n : ℕ) (es : List Event) :
    Listener.Limited n (.start server (some n)) es ↔
      Guarded Listener.step Listener.FindsPermit (.start server (some n)) es :=
  Listener.limited_iff_of_permitted (Listener.counted_start server n) (fun _ h => by cases h) es

/-- Two clients of a server that is meant for one. -/
theorem limit_exceeded : ¬ ∀ (D : Ed25519) (server : SshServer D) (n : ℕ) (es : List Event),
    Listener.Limited n (.start server (some n)) es := by
  intro h
  let D : Ed25519 := ⟨Empty, fun _ => none, Empty.elim, fun h => by cases h⟩
  have hlive := h D ⟨none, [], []⟩ 1 [.connect, .connect] [.connect, .connect] _ (List.prefix_refl _) rfl
  revert hlive
  decide

end Pinhead.SshLimits
