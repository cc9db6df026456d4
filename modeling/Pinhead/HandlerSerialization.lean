import Pinhead.RouteResolution
import Pinhead.WorkerPool

/-!
# The router in front of the worker pool

All frontends share one channel to the router. The router takes one request at a
time: it answers it at once, or sends it to the pool and waits for the reply to be
resolved before it takes the next. A request is numbered by its place in the order
in which the router took requests, so the order of numbers is the order of the
router.

Everything the pool can do is allowed at any moment, including workers that stop
with a request in their queue.
-/
namespace Pinhead.HandlerSerialization
open FsRequests RouteResolution StateMachines WorkerPool

inductive RouterState where
  | idle
  | sending (id : ℕ)
  | awaiting (id : ℕ)

structure System where
  requests : List Request
  router : RouterState
  dequeued : ℕ
  pool : Pool

inductive SystemEvent where
  | frontend (req : Request)
  | dequeue
  | send
  | resolve
  | pool (e : PoolEvent)

section
variable (trie : Trie) (table : PatternMap) (cfg : WorkerConfig)

def start : System := ⟨[], .idle, 0, Pool.start cfg⟩

/-- The two channels hold 128 and 64 entries. A reply is resolved by the result of
the call and by the loss of the request alike. -/
def step (s : System) : SystemEvent → Option System
  | .frontend req =>
      if s.requests.length < 128 then some { s with requests := s.requests ++ [req] } else none
  | .dequeue =>
      match s.router, s.requests with
      | .idle, req :: rest =>
          match dispatch trie table req with
          | .error _ => some { s with requests := rest, dequeued := s.dequeued + 1 }
          | .ok _ => some { s with
              requests := rest, router := .sending s.dequeued, dequeued := s.dequeued + 1 }
      | _, _ => none
  | .send =>
      match s.router with
      | .sending id =>
          (s.pool.step cfg (.arrive id)).map fun pool =>
            { s with router := .awaiting id, pool := pool }
      | _ => none
  | .resolve =>
      match s.router with
      | .awaiting id =>
          if id ∈ s.pool.replied ∨ id ∈ s.pool.failed then some { s with router := .idle } else none
      | _ => none
  | .pool (.arrive _) => none
  | .pool e => (s.pool.step cfg e).map fun pool => { s with pool := pool }

end

/-- Sent to the pool and not answered yet. -/
def System.outstanding (s : System) : List ℕ :=
  s.pool.arrived.filter fun id => id ∉ s.pool.replied ∧ id ∉ s.pool.failed

/-- The places of the pool that are not history. -/
def inFlight (p : Pool) : List ℕ :=
  p.channel ++ p.workers.flatMap Worker.queued ++ p.workers.flatMap Worker.executing

/-- What the router knows about the requests of the pool in each of its states. -/
def RouterState.Agrees (dequeued : ℕ) (p : Pool) : RouterState → Prop
  | .idle => inFlight p = []
  | .sending id => inFlight p = [] ∧ id < dequeued ∧ ∀ a ∈ p.arrived, a < id
  | .awaiting id => (∀ a ∈ inFlight p, a = id) ∧ ∀ a ∈ p.arrived, a ≤ id

structure Serial (cfg : WorkerConfig) (s : System) : Prop where
  conserved : s.pool.Conserved
  ordered : s.pool.executed.Pairwise (· < ·)
  bound : ∀ id ∈ s.pool.arrived, id < s.dequeued
  router : s.router.Agrees s.dequeued s.pool
  size : s.pool.workers.length ≤ cfg.minWorkers

/-! ## What the pool does on its own -/

section
variable {cfg : WorkerConfig} {p q : Pool} {e : PoolEvent}

theorem count_inFlight (hp : p.Conserved) (id : ℕ) :
    (inFlight p).count id + p.replied.count id + p.failed.count id = p.arrived.count id := by
  have hplaced := hp.placed id
  simp only [Pool.places, inFlight, List.count_append] at hplaced ⊢
  omega

/-- Without an arrival the history only grows. -/
theorem history_grows (h : p.step cfg e = some q) (he : ∀ id, e ≠ .arrive id) (id : ℕ) :
    q.arrived = p.arrived ∧ p.replied.count id ≤ q.replied.count id ∧
      p.failed.count id ≤ q.failed.count id := by
  cases Pool.step_moves h with
  | arrive id => exact absurd rfl (he id)
  | dispatch q hq =>
      obtain ⟨a, waiting, _, ⟨_, rfl⟩ | ⟨i, w, _, _, ⟨w', _, rfl⟩ | ⟨_, rfl⟩⟩⟩ :=
        Pool.dispatch_cases hq
      · exact ⟨rfl, le_rfl, by simp⟩
      · exact ⟨rfl, le_rfl, le_rfl⟩
      · exact ⟨rfl, le_rfl, by simp⟩
  | buildFailed i queue hw => exact ⟨rfl, le_rfl, by simp [Pool.stop, Pool.fail, Pool.setWorker]⟩
  | expire i queue hw => exact ⟨rfl, le_rfl, by simp [Pool.stop, Pool.fail, Pool.setWorker]⟩
  | complete i a queue hw => exact ⟨rfl, by simp, le_rfl⟩
  | _ => exact ⟨rfl, le_rfl, le_rfl⟩

theorem inFlight_shrinks (hp : p.Conserved) (h : p.step cfg e = some q)
    (he : ∀ id, e ≠ .arrive id) {id : ℕ} (hid : id ∈ inFlight q) : id ∈ inFlight p := by
  obtain ⟨harrived, hreplied, hfailed⟩ := history_grows h he id
  have hbefore := count_inFlight hp id
  have hafter := count_inFlight (hp.step h) id
  have hpos := List.count_pos_iff.mpr hid
  rw [harrived] at hafter
  exact List.count_pos_iff.mp (by omega)

theorem length_replenish (cfg : WorkerConfig) (ws : List Worker) :
    (replenish cfg ws).length ≤ max ws.length cfg.minWorkers := by
  induction ws using replenish.induct cfg with
  | case1 ws h ih =>
      have hspawn : (spawnWorker ws).length = ws.length + 1 := by simp [spawnWorker]
      rw [replenish, if_pos h]
      rw [hspawn] at ih
      omega
  | case2 ws h =>
      rw [replenish, if_neg h]
      exact le_max_left _ _

theorem mem_inFlight_queued {i id : ℕ} {w : Worker} (hw : p.workers[i]? = some w)
    (hid : id ∈ w.queued) : id ∈ inFlight p := by
  have hmem : id ∈ p.workers.flatMap Worker.queued :=
    List.mem_flatMap.mpr ⟨w, List.mem_of_getElem? hw, hid⟩
  simp [inFlight, hmem]

/-- A request that was executed is no longer queued. -/
theorem executed_ne_queued (hp : p.Conserved) {i id a : ℕ} {w : Worker}
    (hw : p.workers[i]? = some w) (hid : id ∈ w.queued) (ha : a ∈ p.executed) :
    a ∈ p.arrived ∧ a ≠ id := by
  have hplaced := hp.placed a
  have hstarted := hp.started a
  have hle := List.nodup_iff_count_le_one.mp hp.nodup a
  have hpos := List.count_pos_iff.mpr ha
  simp only [Pool.places, List.count_append] at hplaced
  constructor
  · exact List.count_pos_iff.mp (by omega)
  · rintro rfl
    have hqueued : a ∈ p.workers.flatMap Worker.queued :=
      List.mem_flatMap.mpr ⟨w, List.mem_of_getElem? hw, hid⟩
    have hcount := List.count_pos_iff.mpr hqueued
    omega

/-- With a single request in flight nothing waits behind it. -/
theorem channel_single (hp : p.Conserved) {c : ℕ} (hone : ∀ a ∈ inFlight p, a = c) {id : ℕ}
    {waiting : List ℕ} (hchannel : p.channel = id :: waiting) : waiting = [] := by
  obtain ⟨_, hwaiting, _⟩ := hp.head hchannel
  have hid : id = c := hone id (by simp [inFlight, hchannel])
  apply List.eq_nil_iff_forall_not_mem.mpr
  intro a ha
  have hac : a = c := hone a (by simp [inFlight, hchannel, ha])
  rw [hac, ← hid] at ha
  exact hwaiting ha

/-- Events of the pool while the router waits for one request. -/
theorem pool_step (hp : p.Conserved) (h : p.step cfg e = some q) (he : ∀ id, e ≠ .arrive id)
    {c : ℕ} (hone : ∀ a ∈ inFlight p, a = c) (hlast : ∀ a ∈ p.arrived, a ≤ c)
    (hordered : p.executed.Pairwise (· < ·)) (hsize : p.workers.length ≤ cfg.minWorkers) :
    q.executed.Pairwise (· < ·) ∧ q.workers.length ≤ cfg.minWorkers := by
  cases Pool.step_moves h with
  | arrive id => exact absurd rfl (he id)
  | dispatch q hq =>
      obtain ⟨id, waiting, hchannel, hcases⟩ := Pool.dispatch_cases hq
      have hempty := channel_single hp hone hchannel
      have hinflate : inflate cfg waiting p.workers = p.workers := by
        rw [hempty, inflate, if_neg (by simp)]
      rw [hinflate] at hcases
      rcases hcases with ⟨_, rfl⟩ | ⟨i, w, _, _, ⟨w', _, rfl⟩ | ⟨_, rfl⟩⟩
      · exact ⟨hordered, Nat.zero_le _⟩
      · exact ⟨hordered, by rw [List.length_set]; exact hsize⟩
      · exact ⟨hordered, by rw [length_swapRemove]; omega⟩
  | tick =>
      have hretain : (p.workers.filter fun w => !w.isFinished).length ≤ p.workers.length :=
        List.length_filter_le _ _
      have hreplenish := length_replenish cfg (p.workers.filter fun w => !w.isFinished)
      exact ⟨hordered, by simp only [Pool.tick]; omega⟩
  | take i id queue hw =>
      have hid : id ∈ (Worker.idle (id :: queue)).queued := by simp [Worker.queued]
      have hc : id = c := hone id (mem_inFlight_queued hw hid)
      have hbefore : ∀ a ∈ p.executed, a < id := by
        intro a ha
        obtain ⟨harrived, hne⟩ := executed_ne_queued hp hw hid ha
        have hle := hlast a harrived
        omega
      refine ⟨?_, by simpa [Pool.setWorker] using hsize⟩
      exact List.pairwise_append.mpr ⟨hordered, List.pairwise_singleton _ _, by simpa using hbefore⟩
  | buildFailed i queue hw =>
      exact ⟨hordered, by simpa [Pool.stop, Pool.fail, Pool.setWorker] using hsize⟩
  | expire i queue hw =>
      exact ⟨hordered, by simpa [Pool.stop, Pool.fail, Pool.setWorker] using hsize⟩
  | _ => exact ⟨hordered, by simpa [Pool.setWorker] using hsize⟩

end

/-! ## The composed system -/

section
variable {trie : Trie} {table : PatternMap} {cfg : WorkerConfig} {s t : System}

/-- In every state of the router some number bounds what has arrived and is the only
one that can be in flight. -/
theorem Serial.single (hs : Serial cfg s) :
    ∃ c, (∀ a ∈ inFlight s.pool, a = c) ∧ ∀ a ∈ s.pool.arrived, a ≤ c := by
  have hrouter := hs.router
  cases h : s.router with
  | idle =>
      rw [h] at hrouter
      have hnone : inFlight s.pool = [] := hrouter
      exact ⟨s.dequeued, by simp [hnone], fun a ha => (hs.bound a ha).le⟩
  | sending id =>
      rw [h] at hrouter
      obtain ⟨hnone, _, hlt⟩ := hrouter
      exact ⟨id, by simp [hnone], fun a ha => (hlt a ha).le⟩
  | awaiting id =>
      rw [h] at hrouter
      exact ⟨id, hrouter⟩

theorem Serial.pool (hs : Serial cfg s) {e : PoolEvent} (he : ∀ id, e ≠ .arrive id) {q : Pool}
    (h : s.pool.step cfg e = some q) : Serial cfg { s with pool := q } := by
  obtain ⟨c, hone, hlast⟩ := hs.single
  obtain ⟨hordered, hsize⟩ := pool_step hs.conserved h he hone hlast hs.ordered hs.size
  have harrived : q.arrived = s.pool.arrived := (history_grows h he 0).1
  have hsub : ∀ a ∈ inFlight q, a ∈ inFlight s.pool := fun a ha =>
    inFlight_shrinks hs.conserved h he ha
  refine ⟨hs.conserved.step h, hordered, by rw [harrived]; exact hs.bound, ?_, hsize⟩
  have hempty : inFlight s.pool = [] → inFlight q = [] := by
    intro hnil
    apply List.eq_nil_iff_forall_not_mem.mpr
    intro a ha
    have hmem := hsub a ha
    rw [hnil] at hmem
    cases hmem
  have hrouter := hs.router
  cases hr : s.router with
  | idle =>
      rw [hr] at hrouter
      exact hempty hrouter
  | sending id =>
      rw [hr] at hrouter
      obtain ⟨hnone, hid, hlt⟩ := hrouter
      exact ⟨hempty hnone, hid, by rw [harrived]; exact hlt⟩
  | awaiting id =>
      rw [hr] at hrouter
      obtain ⟨hall, hle⟩ := hrouter
      exact ⟨fun a ha => hall a (hsub a ha), by rw [harrived]; exact hle⟩

theorem Serial.dequeue (hs : Serial cfg s) (h : step trie table cfg s .dequeue = some t) :
    Serial cfg t := by
  have hbound : ∀ a ∈ s.pool.arrived, a < s.dequeued + 1 := fun a ha =>
    Nat.lt_succ_of_lt (hs.bound a ha)
  have hrouter := hs.router
  simp only [step] at h
  split at h
  · next req rest hidle hrequests =>
      rw [hidle] at hrouter
      split at h
      · cases h
        refine ⟨hs.conserved, hs.ordered, hbound, ?_, hs.size⟩
        simp only [hidle]
        exact hrouter
      · cases h
        exact ⟨hs.conserved, hs.ordered, hbound, ⟨hrouter, Nat.lt_succ_self _, hs.bound⟩, hs.size⟩
  · cases h

/-- The request that the router sends is the only one in flight. -/
theorem Serial.send (hs : Serial cfg s) (h : step trie table cfg s .send = some t) :
    Serial cfg t := by
  have hrouter := hs.router
  simp only [step] at h
  split at h
  · next id hsending =>
      rw [hsending] at hrouter
      obtain ⟨hnone, hid, hlt⟩ := hrouter
      obtain ⟨q, hq, rfl⟩ := Option.map_eq_some_iff.mp h
      have hconserved := hs.conserved.step hq
      cases Pool.step_moves hq with
      | arrive _ _ _ =>
          have hchannel : s.pool.channel = [] := by
            simp only [inFlight, List.append_eq_nil_iff] at hnone
            exact hnone.1.1
          have hrest : s.pool.workers.flatMap Worker.queued = [] ∧
              s.pool.workers.flatMap Worker.executing = [] := by
            simp only [inFlight, List.append_eq_nil_iff] at hnone
            exact ⟨hnone.1.2, hnone.2⟩
          refine ⟨hconserved, hs.ordered, ?_, ⟨?_, ?_⟩, hs.size⟩
          · intro a ha
            rcases List.mem_append.mp ha with ha | ha
            · exact hs.bound a ha
            · rw [List.mem_singleton.mp ha]
              exact hid
          · intro a ha
            simpa [inFlight, hchannel, hrest.1, hrest.2] using ha
          · intro a ha
            rcases List.mem_append.mp ha with ha | ha
            · exact (hlt a ha).le
            · exact (List.mem_singleton.mp ha).le
  · cases h

theorem Serial.resolve (hs : Serial cfg s) (h : step trie table cfg s .resolve = some t) :
    Serial cfg t := by
  have hrouter := hs.router
  simp only [step] at h
  split at h
  · next id hawaiting =>
      rw [hawaiting] at hrouter
      obtain ⟨hone, _⟩ := hrouter
      split at h
      · next hresolved =>
          cases h
          refine ⟨hs.conserved, hs.ordered, hs.bound, ?_, hs.size⟩
          apply List.eq_nil_iff_forall_not_mem.mpr
          intro a ha
          have hmem : id ∈ inFlight s.pool := by
            rw [← hone a ha]
            exact ha
          have hcount := count_inFlight hs.conserved id
          have hle := List.nodup_iff_count_le_one.mp hs.conserved.nodup id
          have hflight := List.count_pos_iff.mpr hmem
          rcases hresolved with hreplied | hfailed
          · have hpos := List.count_pos_iff.mpr hreplied
            omega
          · have hpos := List.count_pos_iff.mpr hfailed
            omega
      · cases h
  · cases h

theorem Serial.step (hs : Serial cfg s) (e : SystemEvent)
    (h : step trie table cfg s e = some t) : Serial cfg t := by
  cases e with
  | frontend req =>
      simp only [HandlerSerialization.step] at h
      split at h
      · cases h
        exact ⟨hs.conserved, hs.ordered, hs.bound, hs.router, hs.size⟩
      · cases h
  | dequeue => exact hs.dequeue h
  | send => exact hs.send h
  | resolve => exact hs.resolve h
  | pool e =>
      cases e with
      | arrive id => cases h
      | _ =>
          simp only [HandlerSerialization.step] at h
          obtain ⟨q, hq, rfl⟩ := Option.map_eq_some_iff.mp h
          exact hs.pool (by simp) hq

theorem length_spawnInitial (n : ℕ) : (spawnInitial n).length = n := by
  induction n with
  | zero => rfl
  | succ n ih =>
      rw [spawnInitial, spawnWorker, List.length_append, ih]
      rfl

theorem serial_start (cfg : WorkerConfig) : Serial cfg (start cfg) := by
  have hidle : inFlight (Pool.start cfg) = [] := by
    simp [inFlight, Pool.start, unheld_queued.spawnInitial, unheld_executing.spawnInitial]
  have hbound : ∀ id ∈ (Pool.start cfg).arrived, id < 0 := by
    intro id hid
    cases hid
  exact ⟨Pool.conserved_start cfg, List.Pairwise.nil, hbound, hidle, (length_spawnInitial _).le⟩

end

theorem length_le_one_of_nodup {xs : List ℕ} (hnodup : xs.Nodup) {c : ℕ}
    (h : ∀ a ∈ xs, a = c) : xs.length ≤ 1 := by
  have hrep : xs = List.replicate xs.length c := List.eq_replicate_iff.mpr ⟨rfl, h⟩
  rw [hrep] at hnodup
  exact List.nodup_replicate.mp hnodup

/-- In every reachable state at most one request is outstanding, so handlers never
overlap and run in the order in which the router took the requests; the channel to
the pool never fills up and the pool never grows. -/
theorem handlers_serialized (trie : Trie) (table : PatternMap) (cfg : WorkerConfig)
    (es : List SystemEvent) (s : System)
    (hrun : run (step trie table cfg) (start cfg) es = some s) :
    s.outstanding.length ≤ 1 ∧
      (s.pool.workers.flatMap Worker.executing).length ≤ 1 ∧
      s.pool.executed.Pairwise (· < ·) ∧
      (∀ id waiting, s.pool.channel = id :: waiting → ¬ waiting.length > 5) ∧
      s.pool.workers.length ≤ cfg.minWorkers := by
  have hs : Serial cfg s := run_invariant (fun _ e _ hs _ h => hs.step e h)
    (serial_start cfg) (guarded_true _ _) hrun
  obtain ⟨c, hone, _⟩ := hs.single
  have hcount := fun id => List.nodup_iff_count_le_one.mp hs.conserved.nodup id
  have houtstanding : s.outstanding.length ≤ 1 := by
    apply length_le_one_of_nodup (hs.conserved.nodup.filter _)
    intro a ha
    obtain ⟨harrived, hopen⟩ := List.mem_filter.mp ha
    simp only [decide_eq_true_eq] at hopen
    apply hone a
    have hflight := count_inFlight hs.conserved a
    have hpos := List.count_pos_iff.mpr harrived
    rw [List.count_eq_zero.mpr hopen.1, List.count_eq_zero.mpr hopen.2] at hflight
    exact List.count_pos_iff.mp (by omega)
  have hexecuting : (s.pool.workers.flatMap Worker.executing).length ≤ 1 := by
    have hnodup : (s.pool.workers.flatMap Worker.executing).Nodup := by
      apply List.nodup_iff_count_le_one.mpr
      intro a
      have hflight := count_inFlight hs.conserved a
      have hle := hcount a
      simp only [inFlight, List.count_append] at hflight
      omega
    apply length_le_one_of_nodup hnodup
    intro a ha
    exact hone a (by simp only [inFlight]; exact List.mem_append_right _ ha)
  have hchannel : ∀ id waiting, s.pool.channel = id :: waiting → ¬ waiting.length > 5 := by
    intro id waiting h
    rw [channel_single hs.conserved hone h]
    simp
  exact ⟨houtstanding, hexecuting, hs.ordered, hchannel, hs.size⟩

/-- One request on its way through a pool of one worker. -/
theorem handlers_serialized_one :
    ∃ s, run (step staticTrie (mergeRoutes (compile (overlapping fun _ => ()))) ⟨1, 4⟩)
        (start ⟨1, 4⟩)
        [.frontend ⟨.read, "/a", []⟩, .dequeue, .send, .pool .dispatch, .pool (.built 0),
          .pool (.take 0)] = some s ∧
      s.pool.executed = [0] ∧ s.outstanding.length ≤ 1 := by
  refine ⟨_, rfl, rfl, ?_⟩
  exact (handlers_serialized staticTrie (mergeRoutes (compile (overlapping fun _ => ()))) ⟨1, 4⟩
    [.frontend ⟨.read, "/a", []⟩, .dequeue, .send, .pool .dispatch, .pool (.built 0),
      .pool (.take 0)] _ rfl).1

end Pinhead.HandlerSerialization
