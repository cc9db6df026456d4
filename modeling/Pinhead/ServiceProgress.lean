import Mathlib.Logic.Hydra
import Pinhead.ServedRequests

/-!
# Every request gets an answer

The service can only come to rest when it has nothing left to do. Between two arrivals and two
ticks of the cleanup timer it makes finitely many steps, whatever the workers are doing and in
whatever order, and when none is left the router has answered every request it was sent, in the
order in which they were sent. This needs handlers whose operations are all answered; a handler
that asks its own server has one that is not.

A step is counted by what is still to do: requests not taken, the router's wait for the last
one, the two queues, and the Lua code that each worker still has to run. The last part is no
number, since the next operation of a handler depends on answers of any kind.
-/
namespace Pinhead.ServiceProgress
open FsRequests Resumption Histories RouteResolution StateMachines WorkerPool
  HandlerSerialization PairedSlots
open ServedRequests hiding start

/-! ## Descent -/

section
variable {α β : Type} {r : α → α → Prop} {xs : List α} {i : ℕ} {x y : α}

/-- One slot is written with something smaller. -/
theorem cutExpand_set (h : xs[i]? = some x) (hr : r y x) :
    Relation.CutExpand r (xs.set i y : Multiset α) xs := by
  obtain ⟨hi, rfl⟩ := List.getElem?_eq_some_iff.mp h
  refine ⟨{y}, xs[i], by simpa using hr, ?_⟩
  have hxs : xs = xs.take i ++ xs[i] :: xs.drop (i + 1) := by simp
  have hset : xs.set i y = xs.take i ++ y :: xs.drop (i + 1) := List.set_eq_take_append_cons_drop ..
    |>.trans (if_pos hi)
  rw [hset]
  conv_rhs => rw [hxs]
  simp only [← Multiset.coe_add, ← Multiset.cons_coe, ← Multiset.singleton_add]
  abel

/-- A part that does not grow leaves the decision to the parts behind it. -/
theorem lex_of_le {s : β → β → Prop} {m n : ℕ} {b c : β} (h : m ≤ n) (hs : s b c) :
    Prod.Lex (· < ·) s (m, b) (n, c) := by
  rcases h.lt_or_eq with hlt | rfl
  · exact .left _ _ hlt
  · exact .right _ hs

end

/-! ## Steps -/

section
variable {S : Signature} {V σ : Type} (trie : Trie) (table : PatternMap) (cfg : WorkerConfig)
  (code : LuaCode S V)

/-- A step of the service whose events are among the allowed ones. -/
inductive Inner (allowed : SystemEvent → Prop) (sem : Semantics S σ) :
    Service S V σ → Service S V σ → Prop
  | system {s u : Service S V σ} {t : System} (e : SystemEvent) : allowed e →
      HandlerSerialization.step trie table cfg s.system e = some t →
      s.follow trie table cfg code t e = some u → Inner allowed sem s u
  | build {s : Service S V σ} {w : σ} (i : ℕ) (o : S.Op) (next : S.Ret o → Prog S (Option V))
      (r : S.Ret o) : s.tasks[i]? = some (.building (.call o next)) → sem o s.world r w →
      Inner allowed sem s { s with
        tasks := s.tasks.set i (.building (next r)), world := w,
        trace := s.trace ++ [⟨none, o, r⟩] }
  | call {s : Service S V σ} {w : σ} (i id : ℕ) (queue : List ℕ) (o : S.Op)
      (next : S.Ret o → Prog S (V × Reply)) (r : S.Ret o) :
      s.system.pool.workers[i]? = some (.running id queue) →
      s.tasks[i]? = some (.calling (.call o next)) → sem o s.world r w →
      Inner allowed sem s { s with
        tasks := s.tasks.set i (.calling (next r)), world := w,
        trace := s.trace ++ [⟨some id, o, r⟩] }

/-- Neither the arrival of a request nor a tick of the cleanup timer. -/
def Inside : SystemEvent → Prop
  | .frontend _ | .pool .tick => False
  | _ => True

/-- Nor the end of a worker that has been idle for its time to live. -/
def Working : SystemEvent → Prop
  | .frontend _ | .pool .tick | .pool (.expire _) | .pool (.finish _) => False
  | _ => True

end

section
variable {S : Signature} {V σ : Type} {trie : Trie} {table : PatternMap} {cfg : WorkerConfig}
  {code : LuaCode S V} {allowed : SystemEvent → Prop} {sem : Semantics S σ} {world : σ}
  {s u : Service S V σ} {t : System}

theorem Inner.step (h : Inner trie table cfg code allowed sem s u) :
    Step trie table cfg code sem s u := by
  cases h with
  | system e _ h hu => exact .system e h hu
  | build i o next r htask hsem => exact .build i o next r htask hsem
  | call i id queue o next r hworker htask hsem =>
      exact .call i id queue o next r hworker htask hsem

theorem reachable_inner (h : Reachable trie table cfg code sem world s)
    (hsu : Relation.ReflTransGen (Inner trie table cfg code allowed sem) s u) :
    Reachable trie table cfg code sem world u := by
  induction hsu with
  | refl => exact h
  | tail _ hstep ih => exact ih.step hstep.step

theorem follow_system {e : SystemEvent} (hu : s.follow trie table cfg code t e = some u) :
    u.system = t := by
  unfold Service.follow at hu
  split at hu
  case h_1 =>
    split at hu
    · cases hu
    · split at hu <;> cases hu <;> rfl
  case h_2 =>
    split at hu
    · obtain ⟨_, _, rfl⟩ := Option.map_eq_some_iff.mp hu
      rfl
    · cases hu
  case h_7 =>
    split at hu
    · obtain ⟨_, _, rfl⟩ := Option.map_eq_some_iff.mp hu
      rfl
    · cases hu
  all_goals first
    | (cases hu; rfl)
    | (split at hu <;> cases hu <;> rfl)

/-! ## What is left to do -/

/-- Of the steps that one request takes the router through. -/
def ahead : RouterState → ℕ
  | .idle => 0
  | .awaiting _ => 1
  | .sending _ => 2

/-- What a task becomes when its Lua code moves on, or when an idle worker ends. -/
inductive Nearer : Task S V → Task S V → Prop
  | build (o : S.Op) (next : S.Ret o → Prog S (Option V)) (r : S.Ret o) :
      Nearer (.building (next r)) (.building (.call o next))
  | built (vm : V) : Nearer (.ready vm) (.building (.done (some vm)))
  | buildFailed : Nearer .ended (.building (.done none))
  | call (o : S.Op) (next : S.Ret o → Prog S (V × Reply)) (r : S.Ret o) :
      Nearer (.calling (next r)) (.calling (.call o next))
  | complete (vm : V) (r : Reply) : Nearer (.ready vm) (.calling (.done (vm, r)))
  | expire (vm : V) : Nearer .ended (.ready vm)

theorem acc_ended : Acc (@Nearer S V) .ended :=
  .intro _ fun task h => by cases h

theorem acc_ready (vm : V) : Acc (@Nearer S V) (.ready vm) := by
  refine .intro _ fun task h => ?_
  cases h with
  | expire => exact acc_ended

theorem wellFounded_nearer : WellFounded (@Nearer S V) := by
  refine ⟨fun task => ?_⟩
  cases task with
  | building p =>
      induction p with
      | done vm =>
          refine .intro _ fun task h => ?_
          cases h with
          | built vm => exact acc_ready vm
          | buildFailed => exact acc_ended
      | call o next ih =>
          refine .intro _ fun task h => ?_
          cases h with
          | build _ _ r => exact ih r
  | ready vm => exact acc_ready vm
  | calling p =>
      induction p with
      | done a =>
          refine .intro _ fun task h => ?_
          cases h with
          | complete vm r => exact acc_ready vm
      | call o next ih =>
          refine .intro _ fun task h => ?_
          cases h with
          | call _ _ r => exact ih r
  | ended => exact acc_ended

def queued (p : Pool) : ℕ := (p.workers.map fun w => w.queued.length).sum

def exited (p : Pool) : ℕ := (p.workers.map fun w => if w = .exited then 1 else 0).sum

/-- Requests not taken, the router's wait, requests on the way to a worker, Lua code to run, and
workers whose end has not been noticed. -/
def left (s : Service S V σ) : ℕ × ℕ × ℕ × ℕ × Multiset (Task S V) × ℕ :=
  (s.system.requests.length, ahead s.system.router, s.system.pool.channel.length,
    queued s.system.pool, s.tasks, exited s.system.pool)

def Less : (x y : ℕ × ℕ × ℕ × ℕ × Multiset (Task S V) × ℕ) → Prop :=
  Prod.Lex (· < ·) <| Prod.Lex (· < ·) <| Prod.Lex (· < ·) <| Prod.Lex (· < ·) <|
    Prod.Lex (Relation.CutExpand Nearer) (· < ·)

theorem wellFounded_less : WellFounded (@Less S V) :=
  wellFounded_lt.prod_lex <| wellFounded_lt.prod_lex <| wellFounded_lt.prod_lex <|
    wellFounded_lt.prod_lex <| wellFounded_nearer.cutExpand.prod_lex wellFounded_lt

/-- One worker's code moves on, and no queue grows. -/
theorem less_task {m n k l : ℕ} {tasks : List (Task S V)} {i : ℕ} {task task' : Task S V}
    (htask : tasks[i]? = some task) (h : Nearer task' task) {l' e e' : ℕ} (hl : l' ≤ l) :
    Less (m, n, k, l', (tasks.set i task' : Multiset (Task S V)), e')
      (m, n, k, l, (tasks : Multiset (Task S V)), e) :=
  .right _ <| .right _ <| .right _ <| lex_of_le hl <| .left _ _ (cutExpand_set htask h)

/-! ## Every step leaves less -/

theorem queued_setWorker {p : Pool} {i : ℕ} {w w' : Worker} (h : p.workers[i]? = some w)
    (hle : w'.queued.length ≤ w.queued.length) : queued (p.setWorker i w') ≤ queued p := by
  have hsum := @sum_map_set _ (fun w : Worker => w.queued.length) _ _ _ h w'
  simp only [queued, Pool.setWorker]
  omega

theorem less_pool (hs : Sound trie table cfg code sem world s) {e : PoolEvent} (he : e ≠ .tick)
    (h : HandlerSerialization.step trie table cfg s.system (.pool e) = some t)
    (hu : s.follow trie table cfg code t (.pool e) = some u) : Less (left u) (left s) := by
  obtain ⟨harrive, q, hq, rfl⟩ := system_pool h
  cases Pool.step_moves hq with
  | arrive id _ _ => exact absurd rfl (harrive id)
  | dispatch q hdispatch =>
      cases hu
      obtain ⟨id, waiting, hchannel, hcases⟩ := Pool.dispatch_cases hdispatch
      have hshorter : q.channel.length < s.system.pool.channel.length := by
        rw [hchannel, List.length_cons]
        rcases hcases with ⟨_, rfl⟩ | ⟨i, w, _, _, ⟨w', _, rfl⟩ | ⟨_, rfl⟩⟩ <;>
          exact Nat.lt_succ_self _
      exact .right _ <| .right _ <| .left _ _ hshorter
  | tick => exact absurd rfl he
  | built i queue hw =>
      obtain ⟨task, htask, hfits⟩ := forall₂_getElem? hs.fits hw
      simp only [Service.follow, htask] at hu
      split at hu
      case h_2 => cases hu
      next vm hdone =>
      cases hu
      cases hdone
      exact less_task htask (.built vm) (queued_setWorker hw le_rfl)
  | buildFailed i queue hw =>
      obtain ⟨task, htask, hfits⟩ := forall₂_getElem? hs.fits hw
      simp only [Service.follow, htask] at hu
      split at hu
      case h_2 => cases hu
      next hdone =>
      cases hu
      cases hdone
      exact less_task htask .buildFailed (queued_setWorker hw (Nat.zero_le _))
  | take i id queue hw =>
      obtain ⟨task, htask, hfits⟩ := forall₂_getElem? hs.fits hw
      simp only [Service.follow, htask, hw] at hu
      split at hu
      case h_2 => cases hu
      obtain ⟨hreq, _, rfl⟩ := Option.map_eq_some_iff.mp hu
      have hsum := @sum_map_set _ (fun w : Worker => w.queued.length) _ _ _ hw (.running id queue)
      have hfewer : queued (s.system.pool.setWorker i (.running id queue)) <
          queued s.system.pool := by
        simp only [Worker.queued, List.length_cons] at hsum
        simp only [queued, Pool.setWorker]
        simp only [Worker.queued]
        omega
      exact .right _ <| .right _ <| .right _ <| .left _ _ hfewer
  | complete i id queue hw =>
      obtain ⟨task, htask, hfits⟩ := forall₂_getElem? hs.fits hw
      simp only [Service.follow, htask, hw] at hu
      split at hu
      case h_2 => cases hu
      next hdone _ =>
      cases hdone
      cases hu
      exact less_task htask (.complete _ _) (queued_setWorker hw le_rfl)
  | expire i queue hw =>
      cases hu
      obtain ⟨task, htask, hfits⟩ := forall₂_getElem? hs.fits hw
      cases hfits with
      | ready _ hgrown =>
          exact less_task htask (.expire _) (queued_setWorker hw (Nat.zero_le _))
  | finish i hw =>
      cases hu
      have hsum := @sum_map_set _ (fun w : Worker => if w = .exited then 1 else 0) _ _ _ hw
        .finished
      have hfewer : exited (s.system.pool.setWorker i .finished) < exited s.system.pool := by
        simp only [reduceCtorEq, if_true, if_false] at hsum
        simp only [exited, Pool.setWorker]
        omega
      exact .right _ <| .right _ <| .right _ <| lex_of_le (queued_setWorker hw (Nat.zero_le _)) <|
        .right _ hfewer

theorem Sound.less (hs : Sound trie table cfg code sem world s)
    (h : Inner trie table cfg code Inside sem s u) : Less (left u) (left s) := by
  cases h with
  | system e he h hu =>
      cases e with
      | frontend req => cases he
      | dequeue =>
          obtain rfl := follow_system hu
          simp only [HandlerSerialization.step] at h
          split at h
          case h_2 => cases h
          next req rest _ hrequests =>
          have hshorter : u.system.requests.length < s.system.requests.length := by
            rw [hrequests, List.length_cons]
            split at h
            · rw [← Option.some.inj h]
              exact Nat.lt_succ_self _
            · rw [← Option.some.inj h]
              exact Nat.lt_succ_self _
          exact .left _ _ hshorter
      | send =>
          cases hu
          simp only [HandlerSerialization.step] at h
          split at h
          case h_2 => cases h
          next id hsending =>
          obtain ⟨q, _, rfl⟩ := Option.map_eq_some_iff.mp h
          exact .right _ <| .left _ _ (hsending ▸ Nat.lt_succ_self 1)
      | resolve =>
          simp only [HandlerSerialization.step] at h
          split at h
          case h_2 => cases h
          next id hawaiting =>
          split at h
          case isFalse => cases h
          cases h
          simp only [Service.follow, hawaiting] at hu
          obtain ⟨req, _, rfl⟩ := Option.map_eq_some_iff.mp hu
          exact .right _ <| .left _ _ (hawaiting ▸ Nat.zero_lt_one)
      | pool e =>
          refine less_pool hs ?_ h hu
          rintro rfl
          cases he
  | build i o next r htask hsem => exact less_task htask (.build o next r) le_rfl
  | call i id queue o next r hworker htask hsem => exact less_task htask (.call o next r) le_rfl

theorem finite_inside (h : Reachable trie table cfg code sem world s) (f : ℕ → Service S V σ)
    (hf : f 0 = s) : ∃ n, ¬ Inner trie table cfg code Inside sem (f n) (f (n + 1)) := by
  by_contra hall
  push Not at hall
  have hreach : ∀ n, Reachable trie table cfg code sem world (f n) := by
    intro n
    induction n with
    | zero => rwa [hf]
    | succ n ih => exact ih.step (hall n).step
  have : IsWellFounded _ (@Less S V) := ⟨wellFounded_less⟩
  obtain ⟨n, hn⟩ := WellFounded.not_rel_apply_succ (r := @Less S V) fun n => left (f n)
  exact hn (Sound.less (sound_of_reachable (hreach n)) (hall n))

/-! ## Rest -/

/-- The router waits only for what it has sent. -/
def Underway (s : System) : Prop := ∀ id, s.router = .awaiting id → id ∈ s.pool.arrived

theorem underway_step {s : System} {e : SystemEvent} (hs : Underway s)
    (h : HandlerSerialization.step trie table cfg s e = some t) : Underway t := by
  cases e with
  | frontend req =>
      simp only [HandlerSerialization.step] at h
      split at h
      · cases h
        exact hs
      · cases h
  | dequeue =>
      simp only [HandlerSerialization.step] at h
      split at h
      case h_2 => cases h
      next req rest hidle _ =>
      split at h
      · cases h
        exact hs
      · cases h
        intro id hid
        cases hid
  | send =>
      simp only [HandlerSerialization.step] at h
      split at h
      case h_2 => cases h
      obtain ⟨q, hq, rfl⟩ := Option.map_eq_some_iff.mp h
      intro a ha
      cases ha
      cases Pool.step_moves hq with
      | arrive _ _ _ => exact List.mem_append_right _ (List.mem_singleton_self _)
  | resolve =>
      simp only [HandlerSerialization.step] at h
      split at h
      case h_2 => cases h
      split at h
      · cases h
        intro id hid
        cases hid
      · cases h
  | pool e =>
      obtain ⟨he, q, hq, rfl⟩ := system_pool h
      intro id hid
      rw [(history_grows hq he id).1]
      exact hs id hid

theorem underway_of_reachable (h : Reachable trie table cfg code sem world s) :
    Underway s.system := by
  induction h with
  | start =>
      intro id hid
      cases hid
  | step _ hstep ih =>
      cases hstep with
      | system e h hu =>
          rw [follow_system hu]
          exact underway_step ih h
      | build i o next r _ _ => exact ih
      | call i id queue o next r _ _ _ => exact ih

theorem dispatch_ready {p : Pool} {id : ℕ} {waiting : List ℕ} (h : p.channel = id :: waiting) :
    ∃ q, p.dispatch cfg = some q := by
  simp only [Pool.dispatch, h]
  split
  · exact ⟨_, rfl⟩
  · next hne =>
      have hlt := Nat.mod_lt p.next (List.length_pos_iff.mpr hne)
      split
      · next hnone => exact absurd (List.getElem?_eq_none_iff.mp hnone) (by omega)
      · split
        · exact ⟨_, rfl⟩
        · exact ⟨_, rfl⟩

/-- An event of the system that is possible is a step of the service. -/
theorem ready (e : SystemEvent) (he : allowed e)
    (h : (HandlerSerialization.step trie table cfg s.system e).isSome)
    (hu : ∀ t, (s.follow trie table cfg code t e).isSome) :
    ∃ u, Inner trie table cfg code allowed sem s u := by
  obtain ⟨t, ht⟩ := Option.isSome_iff_exists.mp h
  obtain ⟨u, hu⟩ := Option.isSome_iff_exists.mp (hu t)
  exact ⟨u, .system e he ht hu⟩

/-- A worker that holds the request that the router waits for can go on. -/
theorem worker_ready (hs : Sound trie table cfg code sem world s)
    (hsem : ∀ o w, ∃ r w', sem o w r w') {id : ℕ} {i : ℕ} {w : Worker}
    (hw : s.system.pool.workers[i]? = some w) (hid : id ∈ w.queued ∨ id ∈ w.executing) :
    ∃ u, Inner trie table cfg code Working sem s u := by
  obtain ⟨task, htask, hfits⟩ := forall₂_getElem? hs.fits hw
  cases hfits with
  | @building queue h p hp =>
      cases p with
      | call o next =>
          obtain ⟨r, w', hr⟩ := hsem o s.world
          exact ⟨_, .build i o next r htask hr⟩
      | done vm =>
          cases vm with
          | some vm =>
              refine ready (.pool (.built i)) trivial ?_ fun t => ?_
              · simp [HandlerSerialization.step, Pool.step, hw]
              · simp [Service.follow, htask]
          | none =>
              refine ready (.pool (.buildFailed i)) trivial ?_ fun t => ?_
              · simp [HandlerSerialization.step, Pool.step, hw]
              · simp [Service.follow, htask]
  | ready queue hvm =>
      cases queue with
      | nil => simp [Worker.queued, Worker.executing] at hid
      | cons a queue =>
          have hflight : a ∈ inFlight s.system.pool :=
            mem_inFlight_queued hw (by simp [Worker.queued])
          obtain ⟨_, hreq, hhanded⟩ := hs.current a (.inr (awaiting_of_inFlight hs.serial hflight))
          refine ready (.pool (.take i)) trivial ?_ fun t => ?_
          · simp [HandlerSerialization.step, Pool.step, hw]
          · simp [Service.follow, htask, hw, hhanded]
  | @calling a queue hreq vm p hhanded hvm hp =>
      cases p with
      | call o next =>
          obtain ⟨r, w', hr⟩ := hsem o s.world
          exact ⟨_, .call i a queue o next r hw htask hr⟩
      | done x =>
          refine ready (.pool (.complete i)) trivial ?_ fun t => ?_
          · simp [HandlerSerialization.step, Pool.step, hw]
          · simp [Service.follow, htask, hw]
  | exited => simp [Worker.queued, Worker.executing] at hid
  | finished => simp [Worker.queued, Worker.executing] at hid

theorem awaiting_ready (hs : Sound trie table cfg code sem world s) (hunder : Underway s.system)
    (hsem : ∀ o w, ∃ r w', sem o w r w') {id : ℕ} (hrouter : s.system.router = .awaiting id) :
    ∃ u, Inner trie table cfg code Working sem s u := by
  by_cases hresolved : id ∈ s.system.pool.replied ∨ id ∈ s.system.pool.failed
  · obtain ⟨_, hreq, hhanded⟩ := hs.current id (.inr hrouter)
    obtain ⟨req, htaken, _⟩ := Option.bind_eq_some_iff.mp hhanded
    refine ready .resolve trivial ?_ fun t => ?_
    · simp [HandlerSerialization.step, hrouter, hresolved]
    · simp [Service.follow, hrouter, htaken]
  · push Not at hresolved
    have hcount := count_inFlight hs.serial.conserved id
    have harrived := List.count_pos_iff.mpr (hunder id hrouter)
    rw [List.count_eq_zero.mpr hresolved.1, List.count_eq_zero.mpr hresolved.2] at hcount
    have hflight : id ∈ inFlight s.system.pool := List.count_pos_iff.mp (by omega)
    rcases List.mem_append.mp hflight with hflight | hexecuting
    · rcases List.mem_append.mp hflight with hchannel | hqueued
      · obtain ⟨a, waiting, hcons⟩ := List.exists_cons_of_ne_nil (List.ne_nil_of_mem hchannel)
        obtain ⟨q, hq⟩ := @dispatch_ready cfg _ _ _ hcons
        refine ready (.pool .dispatch) trivial ?_ fun t => rfl
        simp [HandlerSerialization.step, Pool.step, hq]
      · obtain ⟨w, hmem, hid⟩ := List.mem_flatMap.mp hqueued
        obtain ⟨i, hw⟩ := List.mem_iff_getElem?.mp hmem
        exact worker_ready hs hsem hw (.inl hid)
    · obtain ⟨w, hmem, hid⟩ := List.mem_flatMap.mp hexecuting
      obtain ⟨i, hw⟩ := List.mem_iff_getElem?.mp hmem
      exact worker_ready hs hsem hw (.inr hid)

/-- A router with a request to take, to send or to wait for can go on, or a worker can. -/
theorem busy_ready (hs : Sound trie table cfg code sem world s) (hunder : Underway s.system)
    (hsem : ∀ o w, ∃ r w', sem o w r w')
    (hbusy : s.system.router ≠ .idle ∨ s.system.requests ≠ []) :
    ∃ u, Inner trie table cfg code Working sem s u := by
  cases hrouter : s.system.router with
  | idle =>
      obtain ⟨req, rest, hrequests⟩ := List.exists_cons_of_ne_nil
        (hbusy.resolve_left (not_not_intro hrouter))
      refine ready .dequeue trivial ?_ fun t => ?_
      · simp only [HandlerSerialization.step, hrouter, hrequests]
        cases dispatch trie table req <;> rfl
      · simp only [Service.follow, hrequests]
        cases dispatch trie table req <;> rfl
  | sending id =>
      have hagrees := hs.serial.router
      rw [hrouter] at hagrees
      obtain ⟨hempty, _, hbefore⟩ := hagrees
      have hchannel : s.system.pool.channel = [] := by
        simp only [inFlight, List.append_eq_nil_iff] at hempty
        exact hempty.1.1
      have hnew : id ∉ s.system.pool.arrived := fun hid => lt_irrefl _ (hbefore id hid)
      refine ready .send trivial ?_ fun t => rfl
      simp [HandlerSerialization.step, hrouter, Pool.step, hchannel, hnew]
  | awaiting id => exact awaiting_ready hs hunder hsem hrouter

/-! ## The requests in hand -/

theorem follow_pool_taken {e : PoolEvent} (hu : s.follow trie table cfg code t (.pool e) = some u) :
    u.taken = s.taken := by
  unfold Service.follow at hu
  cases e with
  | take i =>
      simp only at hu
      split at hu
      · obtain ⟨_, _, rfl⟩ := Option.map_eq_some_iff.mp hu
        rfl
      · cases hu
  | built i =>
      simp only at hu
      split at hu <;> cases hu
      rfl
  | buildFailed i =>
      simp only at hu
      split at hu <;> cases hu
      rfl
  | complete i =>
      simp only at hu
      split at hu <;> cases hu
      rfl
  | _ =>
      cases hu
      rfl

theorem inner_requests (hin : ∀ req, ¬ allowed (.frontend req))
    (h : Inner trie table cfg code allowed sem s u) :
    u.taken ++ u.system.requests = s.taken ++ s.system.requests := by
  cases h with
  | build i o next r _ _ => rfl
  | call i id queue o next r _ _ _ => rfl
  | system e he h hu =>
      cases e with
      | frontend req => exact absurd he (hin req)
      | dequeue =>
          simp only [HandlerSerialization.step] at h
          split at h
          case h_2 => cases h
          next req rest _ hrequests =>
          simp only [Service.follow, hrequests] at hu
          rw [hrequests]
          split at hu
          · next herror =>
              simp only [herror] at h
              cases h
              cases hu
              simp
          · next hok =>
              simp only [hok] at h
              cases h
              cases hu
              simp
      | send =>
          cases hu
          simp only [HandlerSerialization.step] at h
          split at h
          case h_2 => cases h
          obtain ⟨q, _, rfl⟩ := Option.map_eq_some_iff.mp h
          rfl
      | resolve =>
          simp only [HandlerSerialization.step] at h
          split at h
          case h_2 => cases h
          next id hawaiting =>
          split at h
          case isFalse => cases h
          cases h
          simp only [Service.follow, hawaiting] at hu
          obtain ⟨req, _, rfl⟩ := Option.map_eq_some_iff.mp hu
          rfl
      | pool e =>
          obtain ⟨_, q, _, rfl⟩ := system_pool h
          rw [follow_system hu, follow_pool_taken hu]

theorem inner_run_requests (hin : ∀ req, ¬ allowed (.frontend req))
    (h : Relation.ReflTransGen (Inner trie table cfg code allowed sem) s u) :
    u.taken ++ u.system.requests = s.taken ++ s.system.requests := by
  induction h with
  | refl => rfl
  | tail _ hstep ih => exact (inner_requests hin hstep).trans ih

end

/-- A request that has just been sent. -/
theorem reachable_sent : ∃ s : Service counter Unit ℕ,
    Reachable staticTrie oneTable ⟨1, 4⟩ countingCode counting 5 s ∧
      s.system.requests = [oneRequest] ∧ s.taken = [] := by
  have h₀ : Reachable staticTrie oneTable ⟨1, 4⟩ countingCode counting 5
    (ServedRequests.start ⟨1, 4⟩ countingCode 5) := .start
  have h₁ := h₀.system (.frontend oneRequest) rfl rfl
  exact ⟨_, h₁, rfl, rfl⟩

end Pinhead.ServiceProgress
