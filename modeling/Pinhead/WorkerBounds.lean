import Pinhead.WorkerPool

/-!
# How many workers there are

The list of workers changes in five places. Startup makes as many workers as the lower
limit asks for, a burst of requests adds one, a failed send removes one, and a cleanup
removes the finished ones and makes new ones. All but the first look at the upper limit,
so the list stays within it exactly if the lower limit does.

The index of the next worker survives removals. It is reduced to the length of the list
before each use.
-/
namespace Pinhead.WorkerBounds
open StateMachines WorkerPool

section
variable (cfg : WorkerConfig) (workers : List Worker)

theorem length_spawnInitial (n : ℕ) : (spawnInitial n).length = n := by
  induction n with
  | zero => rfl
  | succ n ih => rw [spawnInitial, spawnWorker, List.length_append, ih, List.length_singleton]

theorem length_inflate_le (waiting : List ℕ) (h : workers.length ≤ cfg.maxWorkers) :
    (inflate cfg waiting workers).length ≤ cfg.maxWorkers := by
  unfold inflate
  split
  · next hroom =>
      rw [spawnWorker, List.length_append, List.length_singleton]
      exact hroom.2
  · exact h

/-- New workers are made up to the nearer one of the two limits. -/
theorem length_replenish : (replenish cfg workers).length =
    max workers.length (min cfg.minWorkers cfg.maxWorkers) := by
  induction workers using replenish.induct cfg with
  | case1 workers h ih =>
      rw [replenish, if_pos h, ih, spawnWorker, List.length_append, List.length_singleton]
      omega
  | case2 workers h =>
      rw [replenish, if_neg h]
      omega

end

section
variable {cfg : WorkerConfig} {p q : Pool}

theorem length_tick (cfg : WorkerConfig) (p : Pool) : (p.tick cfg).workers.length =
    max (p.workers.filter fun w => !w.isFinished).length (min cfg.minWorkers cfg.maxWorkers) :=
  length_replenish cfg _

theorem dispatch_le (hp : p.workers.length ≤ cfg.maxWorkers) (h : p.dispatch cfg = some q) :
    q.workers.length ≤ cfg.maxWorkers := by
  obtain ⟨id, waiting, -, hcases⟩ := Pool.dispatch_cases h
  have hinflate := length_inflate_le cfg p.workers waiting hp
  rcases hcases with ⟨-, rfl⟩ | ⟨i, w, -, -, ⟨w', -, rfl⟩ | ⟨-, rfl⟩⟩
  · exact Nat.zero_le _
  · simpa using hinflate
  · dsimp only
    rw [length_swapRemove]
    omega

/-- Each step leaves the list within the upper limit. -/
theorem step_le {e : PoolEvent} (hp : p.workers.length ≤ cfg.maxWorkers)
    (h : p.step cfg e = some q) : q.workers.length ≤ cfg.maxWorkers := by
  have hset (i : ℕ) (w : Worker) : (p.setWorker i w).workers.length ≤ cfg.maxWorkers := by
    rwa [Pool.setWorker, List.length_set]
  cases Pool.step_moves h with
  | arrive id _ _ => exact hp
  | dispatch q hq => exact dispatch_le hp hq
  | tick =>
      have hretain := List.length_filter_le (fun w => !w.isFinished) p.workers
      rw [length_tick]
      omega
  | built i queue _ => exact hset i _
  | buildFailed i queue _ => exact hset i _
  | take i id queue _ => exact hset i _
  | complete i id queue _ => exact hset i _
  | expire i queue _ => exact hset i _
  | finish i _ => exact hset i _

/-- The list of workers and the index for a request at the head of the channel. -/
def IndexInRange (cfg : WorkerConfig) (p : Pool) : Prop :=
  ∀ id waiting, p.channel = id :: waiting →
    (inflate cfg waiting p.workers ≠ [] →
      p.next % (inflate cfg waiting p.workers).length < (inflate cfg waiting p.workers).length) ∧
    ∃ q, p.dispatch cfg = some q

/-- A request that waits can be served in every state. -/
theorem indexInRange (cfg : WorkerConfig) (p : Pool) : IndexInRange cfg p := by
  intro id waiting hchannel
  have hrange (hne : inflate cfg waiting p.workers ≠ []) :
      p.next % (inflate cfg waiting p.workers).length < (inflate cfg waiting p.workers).length :=
    Nat.mod_lt _ (List.length_pos_of_ne_nil hne)
  refine ⟨hrange, ?_⟩
  rw [Pool.dispatch, hchannel]
  dsimp only
  split
  · exact ⟨_, rfl⟩
  · next hne =>
      rw [List.getElem?_eq_getElem (hrange hne)]
      dsimp only
      split
      · exact ⟨_, rfl⟩
      · exact ⟨_, rfl⟩

/-- What the two limits promise in one state. -/
structure Bounded (cfg : WorkerConfig) (p : Pool) : Prop where
  length_le : p.workers.length ≤ cfg.maxWorkers
  le_length : ∀ q, p.step cfg .tick = some q →
    min cfg.minWorkers cfg.maxWorkers ≤ q.workers.length
  indexInRange : IndexInRange cfg p

theorem bounded_of_le (hp : p.workers.length ≤ cfg.maxWorkers) : Bounded cfg p := by
  refine ⟨hp, ?_, indexInRange cfg p⟩
  rintro q ⟨rfl⟩
  rw [length_tick]
  exact le_max_right _ _

end

/-- The limits hold in every state of every run exactly if the lower one is within the
upper one. -/
theorem pool_bounded_iff (cfg : WorkerConfig) :
    (∀ es p, run (Pool.step cfg) (Pool.start cfg) es = some p → Bounded cfg p) ↔
      cfg.minWorkers ≤ cfg.maxWorkers := by
  have hstart : (Pool.start cfg).workers.length = cfg.minWorkers := length_spawnInitial _
  constructor
  · intro h
    rw [← hstart]
    exact (h [] _ rfl).length_le
  · intro hle es p hrun
    apply bounded_of_le
    exact @run_invariant _ _ (Pool.step cfg) (fun _ _ => True)
      (fun p => p.workers.length ≤ cfg.maxWorkers) (fun _ _ _ hp _ hstep => step_le hp hstep)
      _ _ _ (hstart.trans_le hle) (guarded_true _ es) hrun

/-- A lower limit above the default upper limit of four. -/
theorem startup_exceeds_max : ¬ ∀ (cfg : WorkerConfig) (es : List PoolEvent) (p : Pool),
    run (Pool.step cfg) (Pool.start cfg) es = some p → Bounded cfg p := by
  intro h
  have hle := (h ⟨8, 4⟩ [] _ rfl).length_le
  revert hle
  decide

end Pinhead.WorkerBounds
