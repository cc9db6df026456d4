import Pinhead.ServedRequests

/-!
# A handler that asks its own server

A Lua handler may open a client connection to any server, the one it runs in included. The
request that comes of it joins the queue of the router, and the router waits for the handler.
Nothing that the pool or the frontends can do gets such a handler on, because the one thing
that would, taking the next request, has to wait for the handler.
-/
namespace Pinhead.NestedRequests
open RouteResolution StateMachines WorkerPool HandlerSerialization
open ServedRequests hiding start

/-- The call for `id` waits for the answer to a request that reaches the router after it: its
handler does not return in a state in which no such request was taken. -/
def AsksAfter (id : ℕ) (s : System) : SystemEvent → Prop
  | .pool (.complete i) => ∀ queue, s.pool.workers[i]? = some (.running id queue) →
      id + 1 < s.dequeued
  | _ => True

/-- The router waits for the last request that it took. -/
def RouterState.Latest (dequeued : ℕ) : RouterState → Prop
  | .idle => True
  | .sending id | .awaiting id => id + 1 = dequeued

section
variable {trie : Trie} {table : PatternMap} {cfg : WorkerConfig} {s t : System}

theorem latest_step {e : SystemEvent} (hs : RouterState.Latest s.dequeued s.router)
    (h : step trie table cfg s e = some t) : RouterState.Latest t.dequeued t.router := by
  cases e with
  | frontend req =>
      simp only [step] at h
      split at h
      · cases h
        exact hs
      · cases h
  | dequeue =>
      simp only [step] at h
      split at h
      · next hidle _ =>
          split at h
          · cases h
            simp only [hidle]
            trivial
          · cases h
            rfl
      · cases h
  | send =>
      simp only [step] at h
      split at h
      · next id hsending =>
          obtain ⟨q, _, rfl⟩ := Option.map_eq_some_iff.mp h
          rw [hsending] at hs
          exact hs
      · cases h
  | resolve =>
      simp only [step] at h
      split at h
      · split at h
        · cases h
          trivial
        · cases h
      · cases h
  | pool e =>
      obtain ⟨_, q, _, rfl⟩ := system_pool h
      exact hs

structure Numbered (cfg : WorkerConfig) (s : System) : Prop where
  serial : Serial cfg s
  latest : RouterState.Latest s.dequeued s.router

theorem numbered_of_run {es : List SystemEvent}
    (h : run (step trie table cfg) (start cfg) es = some s) :
    Numbered cfg s :=
  run_invariant (fun _ e _ hs _ h => ⟨hs.serial.step e h, latest_step hs.latest h⟩)
    (⟨serial_start cfg, trivial⟩ : Numbered cfg (start cfg)) (guarded_true _ _) h

/-- A call goes on until it returns. -/
theorem executing_step {p q : Pool} {e : PoolEvent} (hp : p.Conserved) (h : p.step cfg e = some q)
    {id : ℕ} (hid : id ∈ p.workers.flatMap Worker.executing)
    (hreturn : ∀ i queue, e = .complete i → p.workers[i]? ≠ some (.running id queue)) :
    id ∈ q.workers.flatMap Worker.executing := by
  have hpos := List.count_pos_iff.mpr hid
  have hbefore := hp.started id
  have hafter := (hp.step h).started id
  have hle := List.nodup_iff_count_le_one.mp hp.nodup id
  have hplaced := hp.placed id
  simp only [Pool.places, List.count_append] at hplaced
  have hhistory : p.executed.count id ≤ q.executed.count id ∧
      q.replied.count id = p.replied.count id := by
    cases Pool.step_moves h with
    | dispatch q hq =>
        obtain ⟨hreplied, hexecuted⟩ := dispatch_history hq
        rw [hreplied, hexecuted]
        exact ⟨le_rfl, rfl⟩
    | take i a queue hw => exact ⟨by simp, rfl⟩
    | complete i a queue hw =>
        have hne : a ≠ id := by
          rintro rfl
          exact hreturn i queue rfl hw
        exact ⟨le_rfl, by simp [hne]⟩
    | _ => exact ⟨le_rfl, rfl⟩
  exact List.count_pos_iff.mp (by omega)

/-- The server at a call that waits for a later request. -/
structure Stuck (cfg : WorkerConfig) (id : ℕ) (s : System) : Prop where
  serial : Serial cfg s
  executing : id ∈ s.pool.workers.flatMap Worker.executing
  latest : s.dequeued = id + 1

theorem Stuck.awaiting {id : ℕ} (hs : Stuck cfg id s) : s.router = .awaiting id :=
  awaiting_of_inFlight hs.serial (List.mem_append_right _ hs.executing)

theorem Stuck.step {id : ℕ} (hs : Stuck cfg id s) {e : SystemEvent} (hask : AsksAfter id s e)
    (h : step trie table cfg s e = some t) : Stuck cfg id t := by
  have hserial := hs.serial.step e h
  have hawaiting := hs.awaiting
  cases e with
  | frontend req =>
      simp only [HandlerSerialization.step] at h
      split at h
      · cases h
        exact ⟨hserial, hs.executing, hs.latest⟩
      · cases h
  | dequeue => simp [HandlerSerialization.step, hawaiting] at h
  | send => simp [HandlerSerialization.step, hawaiting] at h
  | resolve =>
      simp only [HandlerSerialization.step, hawaiting] at h
      split at h
      · next hresolved =>
          have hpos := List.count_pos_iff.mpr hs.executing
          have hplaced := hs.serial.conserved.placed id
          have hle := List.nodup_iff_count_le_one.mp hs.serial.conserved.nodup id
          simp only [Pool.places, List.count_append] at hplaced
          rcases hresolved with hid | hid
          · have hcount := List.count_pos_iff.mpr hid
            omega
          · have hcount := List.count_pos_iff.mpr hid
            omega
      · cases h
  | pool e =>
      obtain ⟨_, q, hq, rfl⟩ := system_pool h
      refine ⟨hserial, executing_step hs.serial.conserved hq hs.executing ?_, hs.latest⟩
      rintro i queue rfl hw
      have hlater := hask queue hw
      have hlatest := hs.latest
      omega

/-- Once a call waits for a request that reaches the router after its own, the router stays
with it in every run: whatever the frontends send and the pool does, the call does not end,
its request is not answered, and no request of any frontend is taken any more. -/
theorem nested_request_unanswered (trie : Trie) (table : PatternMap) (cfg : WorkerConfig)
    (es : List SystemEvent) (s : System) (hs : run (step trie table cfg) (start cfg) es = some s)
    (id : ℕ) (hid : id ∈ s.pool.workers.flatMap Worker.executing) (later : List SystemEvent)
    (t : System) (hask : Guarded (step trie table cfg) (AsksAfter id) s later)
    (ht : run (step trie table cfg) s later = some t) :
    id ∈ t.pool.workers.flatMap Worker.executing ∧ t.router = .awaiting id ∧
      id ∉ t.pool.replied ∧ id ∉ t.pool.failed ∧ t.dequeued = s.dequeued ∧
      (∀ j ∈ t.pool.arrived, j ≤ id) := by
  have hnumbered := numbered_of_run hs
  have hawaiting : s.router = .awaiting id :=
    awaiting_of_inFlight hnumbered.serial (List.mem_append_right _ hid)
  have hlatest : s.dequeued = id + 1 := by
    have hnumber := hnumbered.latest
    rw [hawaiting] at hnumber
    exact hnumber.symm
  have hstuck : Stuck cfg id t := run_invariant (fun _ _ _ hs hask h => hs.step hask h)
    (⟨hnumbered.serial, hid, hlatest⟩ : Stuck cfg id s) hask ht
  have hpos := List.count_pos_iff.mpr hstuck.executing
  have hplaced := hstuck.serial.conserved.placed id
  have hle := List.nodup_iff_count_le_one.mp hstuck.serial.conserved.nodup id
  simp only [Pool.places, List.count_append] at hplaced
  refine ⟨hstuck.executing, hstuck.awaiting, List.count_eq_zero.mp (by omega),
    List.count_eq_zero.mp (by omega), hstuck.latest.trans hlatest.symm, ?_⟩
  intro j hj
  have hbound := hstuck.serial.bound j hj
  have hlast := hstuck.latest
  omega

end

/-- The second request waits behind the first one, whose handler made it. -/
theorem nested_request_unanswered_one : ∃ s t,
    run (step staticTrie oneTable ⟨1, 4⟩) (start ⟨1, 4⟩)
        [.frontend oneRequest, .dequeue, .send, .pool .dispatch, .pool (.built 0),
          .pool (.take 0)] = some s ∧
      run (step staticTrie oneTable ⟨1, 4⟩) s [.frontend oneRequest, .pool .tick] = some t ∧
      t.requests = [oneRequest] ∧ t.router = .awaiting 0 ∧ t.dequeued = s.dequeued := by
  refine ⟨_, _, rfl, rfl, rfl, ?_⟩
  have h := nested_request_unanswered staticTrie oneTable ⟨1, 4⟩
    [.frontend oneRequest, .dequeue, .send, .pool .dispatch, .pool (.built 0), .pool (.take 0)] _
    rfl 0 (by decide) [.frontend oneRequest, .pool .tick] _ ?_ rfl
  · exact ⟨h.2.1, h.2.2.2.2.1⟩
  · exact ⟨trivial, fun _ _ => ⟨trivial, fun _ _ => trivial⟩⟩

end Pinhead.NestedRequests
