import Pinhead.StateMachines

/-!
# The worker pool

The dispatcher takes requests off a bounded channel and hands each one to the
worker whose turn it is. A worker builds its runtime, then executes queued
requests one at a time until it has been idle for its time to live. When a worker
stops, the requests still in its queue are dropped, and the reply channel of a
dropped request closes: its sender sees an error although nothing was executed.

Requests are numbered. The lists `executed`, `replied` and `failed` are the
history of the pool: the handler calls in the order in which they started, the
requests answered with the result of their call, and the requests answered
without one. A stopped worker keeps its place until the dispatcher removes it, and
its task may be reported as finished only later.
-/
namespace Pinhead.WorkerPool
open StateMachines

/-! ## Workers -/

/-- A worker with the requests in its queue; one that has stopped has no queue. -/
inductive Worker where
  | building (queue : List ℕ)
  | idle (queue : List ℕ)
  | running (id : ℕ) (queue : List ℕ)
  | exited
  | finished
  deriving DecidableEq, Repr

namespace Worker

def queued : Worker → List ℕ
  | .building queue | .idle queue | .running _ queue => queue
  | .exited | .finished => []

def executing : Worker → List ℕ
  | .running id _ => [id]
  | _ => []

/-- It still receives from its queue. -/
def live : Worker → Bool
  | .building _ | .idle _ | .running _ _ => true
  | .exited | .finished => false

def isFinished : Worker → Bool
  | .finished => true
  | _ => false

/-- Sending fails once the receiving end is gone. -/
def send (id : ℕ) : Worker → Option Worker
  | .building queue => some (.building (queue ++ [id]))
  | .idle queue => some (.idle (queue ++ [id]))
  | .running r queue => some (.running r (queue ++ [id]))
  | .exited | .finished => none

end Worker

structure WorkerConfig where
  minWorkers : ℕ
  maxWorkers : ℕ

/-! ## The dispatcher -/

structure Pool where
  channel : List ℕ
  workers : List Worker
  next : ℕ
  arrived : List ℕ
  executed : List ℕ
  replied : List ℕ
  failed : List ℕ
  receivedLive : List ℕ
  failedLive : List ℕ
  deriving DecidableEq, Repr

inductive PoolEvent where
  | arrive (id : ℕ)
  | dispatch
  | tick
  | built (i : ℕ)
  | buildFailed (i : ℕ)
  | take (i : ℕ)
  | complete (i : ℕ)
  | expire (i : ℕ)
  | finish (i : ℕ)
  deriving DecidableEq, Repr

def spawnWorker (workers : List Worker) : List Worker := workers ++ [.building []]

/-- The workers before the first request; the upper limit is not looked at. -/
def spawnInitial : ℕ → List Worker
  | 0 => []
  | n + 1 => spawnWorker (spawnInitial n)

def Pool.start (cfg : WorkerConfig) : Pool where
  channel := []
  workers := spawnInitial cfg.minWorkers
  next := 0
  arrived := []
  executed := []
  replied := []
  failed := []
  receivedLive := []
  failedLive := []

/-- One more worker if more than five requests are still waiting. -/
def inflate (cfg : WorkerConfig) (waiting : List ℕ) (workers : List Worker) : List Worker :=
  if waiting.length > 5 ∧ workers.length < cfg.maxWorkers then spawnWorker workers else workers

def anyLive (workers : List Worker) : Bool := workers.any Worker.live

/-- New workers up to the lower limit, unless the upper limit is reached first. -/
def replenish (cfg : WorkerConfig) (workers : List Worker) : List Worker :=
  if workers.length < cfg.minWorkers ∧ workers.length < cfg.maxWorkers then
    replenish cfg (spawnWorker workers)
  else workers
termination_by cfg.minWorkers - workers.length
decreasing_by
  simp only [spawnWorker, List.length_append, List.length_singleton]
  omega

namespace Pool

/-- A request that is answered without having been executed. -/
def fail (p : Pool) (ids : List ℕ) (whileLive : Bool) : Pool :=
  { p with
    failed := p.failed ++ ids,
    failedLive := if whileLive then p.failedLive ++ ids else p.failedLive }

def setWorker (p : Pool) (i : ℕ) (w : Worker) : Pool := { p with workers := p.workers.set i w }

/-- The arm of the loop that serves one request. The request is lost when the
worker whose turn it is has stopped: that worker is removed and the loop goes on. -/
def dispatch (cfg : WorkerConfig) (p : Pool) : Option Pool :=
  match p.channel with
  | [] => none
  | id :: waiting =>
      let workers := inflate cfg waiting p.workers
      let p := { p with
        channel := waiting,
        workers := workers,
        receivedLive := if anyLive workers then p.receivedLive ++ [id] else p.receivedLive }
      if workers = [] then some (p.fail [id] false)
      else
        let i := p.next % workers.length
        match workers[i]? with
        | none => none
        | some w =>
            match w.send id with
            | some w => some { p.setWorker i w with next := i + 1 }
            | none =>
                some { p.fail [id] (anyLive workers) with
                  workers := swapRemove workers i, next := i }

/-- The arm of the loop that cleans up. -/
def tick (cfg : WorkerConfig) (p : Pool) : Pool :=
  { p with workers := replenish cfg (p.workers.filter fun w => !w.isFinished) }

/-- A worker stops and drops its queue. -/
def stop (p : Pool) (i : ℕ) (queue : List ℕ) : Pool := (p.setWorker i .exited).fail queue true

/-- A worker may stop for idleness even when a request has just reached its queue. -/
def step (cfg : WorkerConfig) (p : Pool) : PoolEvent → Option Pool
  | .arrive id =>
      if id ∈ p.arrived ∨ p.channel.length ≥ 64 then none
      else some { p with channel := p.channel ++ [id], arrived := p.arrived ++ [id] }
  | .dispatch => p.dispatch cfg
  | .tick => some (p.tick cfg)
  | .built i =>
      match p.workers[i]? with
      | some (.building queue) => some (p.setWorker i (.idle queue))
      | _ => none
  | .buildFailed i =>
      match p.workers[i]? with
      | some (.building queue) => some (p.stop i queue)
      | _ => none
  | .take i =>
      match p.workers[i]? with
      | some (.idle (id :: queue)) =>
          some { p.setWorker i (.running id queue) with executed := p.executed ++ [id] }
      | _ => none
  | .complete i =>
      match p.workers[i]? with
      | some (.running id queue) =>
          some { p.setWorker i (.idle queue) with replied := p.replied ++ [id] }
      | _ => none
  | .expire i =>
      match p.workers[i]? with
      | some (.idle queue) => some (p.stop i queue)
      | _ => none
  | .finish i =>
      match p.workers[i]? with
      | some .exited => some (p.setWorker i .finished)
      | _ => none

/-- Every place a request can be in. -/
def places (p : Pool) : List ℕ :=
  p.channel ++ p.workers.flatMap Worker.queued ++ p.workers.flatMap Worker.executing ++
    p.replied ++ p.failed

/-- Nothing is duplicated and nothing vanishes: each request that arrived is in
exactly one place, and has been executed once it is being executed or replied. -/
structure Conserved (p : Pool) : Prop where
  nodup : p.arrived.Nodup
  placed : ∀ id, p.places.count id = p.arrived.count id
  started : ∀ id, p.executed.count id =
    (p.workers.flatMap Worker.executing).count id + p.replied.count id

end Pool

/-! ## Bookkeeping of the dispatcher -/

/-- What new and finished workers do not hold. -/
structure Unheld (f : Worker → List ℕ) : Prop where
  building : f (.building []) = []
  finished : f .finished = []

theorem unheld_queued : Unheld Worker.queued := ⟨rfl, rfl⟩

theorem unheld_executing : Unheld Worker.executing := ⟨rfl, rfl⟩

section
variable {f : Worker → List ℕ}

theorem Unheld.spawn (hf : Unheld f) (ws : List Worker) :
    (spawnWorker ws).flatMap f = ws.flatMap f := by
  simp [spawnWorker, hf.building]

theorem Unheld.spawnInitial (hf : Unheld f) (n : ℕ) : (spawnInitial n).flatMap f = [] := by
  induction n with
  | zero => rfl
  | succ n ih => rw [WorkerPool.spawnInitial, hf.spawn, ih]

theorem Unheld.inflate (hf : Unheld f) (cfg : WorkerConfig) (waiting : List ℕ)
    (ws : List Worker) : (inflate cfg waiting ws).flatMap f = ws.flatMap f := by
  unfold WorkerPool.inflate
  split
  · exact hf.spawn ws
  · rfl

theorem Unheld.replenish (hf : Unheld f) (cfg : WorkerConfig) (ws : List Worker) :
    (replenish cfg ws).flatMap f = ws.flatMap f := by
  induction ws using replenish.induct cfg with
  | case1 ws h ih =>
      rw [WorkerPool.replenish, if_pos h, ih]
      exact hf.spawn ws
  | case2 ws h => rw [WorkerPool.replenish, if_neg h]

theorem Unheld.retain (hf : Unheld f) (ws : List Worker) :
    (ws.filter fun w => !w.isFinished).flatMap f = ws.flatMap f := by
  induction ws with
  | nil => rfl
  | cons w ws ih =>
      cases w with
      | finished =>
          rw [List.filter_cons_of_neg (by decide), ih, List.flatMap_cons, hf.finished]
          rfl
      | _ => rw [List.filter_cons_of_pos (by rfl), List.flatMap_cons, List.flatMap_cons, ih]

end

theorem send_spec {w w' : Worker} {id : ℕ} (h : w.send id = some w') :
    w.live = true ∧ w'.queued = w.queued ++ [id] ∧ w'.executing = w.executing := by
  cases w with
  | exited => cases h
  | finished => cases h
  | _ =>
      cases h
      exact ⟨rfl, rfl, rfl⟩

theorem send_none {w : Worker} {id : ℕ} (h : w.send id = none) :
    w.live = false ∧ w.queued = [] ∧ w.executing = [] := by
  cases w with
  | exited => exact ⟨rfl, rfl, rfl⟩
  | finished => exact ⟨rfl, rfl, rfl⟩
  | _ => cases h

namespace Pool
variable {cfg : WorkerConfig} {p q : Pool}

/-- All that serving one request can do. -/
theorem dispatch_cases (h : p.dispatch cfg = some q) :
    ∃ id waiting, p.channel = id :: waiting ∧
      ((inflate cfg waiting p.workers = [] ∧
          q = { p with
            channel := waiting, workers := [], failed := p.failed ++ [id] }) ∨
        ∃ i w, i = p.next % (inflate cfg waiting p.workers).length ∧
          (inflate cfg waiting p.workers)[i]? = some w ∧
          ((∃ w', w.send id = some w' ∧
              q = { p with
                channel := waiting,
                workers := (inflate cfg waiting p.workers).set i w',
                next := i + 1,
                receivedLive := p.receivedLive ++ [id] }) ∨
            (w.send id = none ∧
              q = { p with
                channel := waiting,
                workers := swapRemove (inflate cfg waiting p.workers) i,
                next := i,
                failed := p.failed ++ [id],
                receivedLive := if anyLive (inflate cfg waiting p.workers) then
                  p.receivedLive ++ [id] else p.receivedLive,
                failedLive := if anyLive (inflate cfg waiting p.workers) then
                  p.failedLive ++ [id] else p.failedLive }))) := by
  unfold dispatch at h
  cases hchannel : p.channel with
  | nil =>
      rw [hchannel] at h
      cases h
  | cons id waiting =>
      rw [hchannel] at h
      refine ⟨id, waiting, rfl, ?_⟩
      dsimp only at h
      split at h
      · next hempty =>
          cases h
          left
          exact ⟨hempty, by simp [fail, hempty, anyLive]⟩
      · right
        split at h
        · cases h
        · next w hw =>
            refine ⟨_, w, rfl, hw, ?_⟩
            split at h
            · next w' hsend =>
                cases h
                left
                have hlive : anyLive (inflate cfg waiting p.workers) = true :=
                  List.any_eq_true.mpr ⟨w, List.mem_of_getElem? hw, (send_spec hsend).1⟩
                exact ⟨w', hsend, by simp [setWorker, hlive]⟩
            · next hsend =>
                cases h
                right
                exact ⟨hsend, by simp [fail]⟩

theorem conserved_start (cfg : WorkerConfig) : (start cfg).Conserved := by
  constructor
  · exact List.nodup_nil
  · intro id
    simp [places, start, unheld_queued.spawnInitial, unheld_executing.spawnInitial]
  · intro id
    simp [start, unheld_executing.spawnInitial]

/-- One worker moves requests between its own two places and the history. -/
theorem Conserved.update (hp : p.Conserved) {i : ℕ} {w : Worker}
    (hi : p.workers[i]? = some w) (w' : Worker) (ex rep drop : List ℕ)
    (balance : ∀ id, w'.queued.count id + w'.executing.count id + rep.count id + drop.count id =
      w.queued.count id + w.executing.count id)
    (begun : ∀ id, ex.count id + w.executing.count id = w'.executing.count id + rep.count id)
    (hq : q.channel = p.channel ∧ q.workers = p.workers.set i w' ∧ q.arrived = p.arrived ∧
      q.executed = p.executed ++ ex ∧ q.replied = p.replied ++ rep ∧
      q.failed = p.failed ++ drop) : q.Conserved := by
  obtain ⟨hchannel, hworkers, harrived, hexecuted, hreplied, hfailed⟩ := hq
  constructor
  · rw [harrived]
    exact hp.nodup
  · intro id
    have hplaced := hp.placed id
    have hbalance := balance id
    have hqueued := count_flatMap_set Worker.queued hi w' id
    have hexecuting := count_flatMap_set Worker.executing hi w' id
    simp only [places, List.count_append] at hplaced ⊢
    rw [hchannel, hworkers, harrived, hreplied, hfailed, List.count_append, List.count_append]
    omega
  · intro id
    have hstarted := hp.started id
    have hbegun := begun id
    have hexecuting := count_flatMap_set Worker.executing hi w' id
    rw [hexecuted, hworkers, hreplied, List.count_append, List.count_append]
    omega

theorem Conserved.arrive (hp : p.Conserved) {id : ℕ} (hid : id ∉ p.arrived) :
    Conserved { p with channel := p.channel ++ [id], arrived := p.arrived ++ [id] } := by
  constructor
  · exact List.nodup_append_comm.mpr (by simpa using ⟨hid, hp.nodup⟩)
  · intro a
    have hplaced := hp.placed a
    simp only [places, List.count_append] at hplaced ⊢
    omega
  · exact hp.started

theorem Conserved.dispatch (hp : p.Conserved) (h : p.dispatch cfg = some q) : q.Conserved := by
  obtain ⟨id, waiting, hchannel, hcases⟩ := dispatch_cases h
  have hqueued := unheld_queued.inflate cfg waiting p.workers
  have hexecuting := unheld_executing.inflate cfg waiting p.workers
  have hplaced := hp.placed
  have hstarted := hp.started
  simp only [places, hchannel, ← hqueued, ← hexecuting] at hplaced hstarted
  rcases hcases with ⟨hempty, rfl⟩ | ⟨i, w, _, hw, ⟨w', hsend, rfl⟩ | ⟨hsend, rfl⟩⟩
  · constructor
    · exact hp.nodup
    · intro a
      have hplaced := hplaced a
      rw [hempty] at hplaced
      simp only [places, List.count_append, List.count_cons] at hplaced ⊢
      simp at hplaced ⊢
      omega
    · intro a
      have hstarted := hstarted a
      rw [hempty] at hstarted
      exact hstarted
  · obtain ⟨_, hq, he⟩ := send_spec hsend
    constructor
    · exact hp.nodup
    · intro a
      have hplaced := hplaced a
      have h₁ := count_flatMap_set Worker.queued hw w' a
      have h₂ := count_flatMap_set Worker.executing hw w' a
      rw [hq, List.count_append] at h₁
      rw [he] at h₂
      simp only [places, List.count_append, List.count_cons, List.count_nil] at hplaced h₁ h₂ ⊢
      omega
    · intro a
      have hstarted := hstarted a
      have h₂ := count_flatMap_set Worker.executing hw w' a
      rw [he] at h₂
      dsimp only
      omega
  · obtain ⟨_, hq, he⟩ := send_none hsend
    constructor
    · exact hp.nodup
    · intro a
      have hplaced := hplaced a
      have h₁ := count_flatMap_swapRemove Worker.queued hw a
      have h₂ := count_flatMap_swapRemove Worker.executing hw a
      rw [hq, List.count_nil] at h₁
      rw [he, List.count_nil] at h₂
      simp only [places, List.count_append, List.count_cons, List.count_nil] at hplaced h₁ h₂ ⊢
      omega
    · intro a
      have hstarted := hstarted a
      have h₂ := count_flatMap_swapRemove Worker.executing hw a
      rw [he, List.count_nil] at h₂
      dsimp only
      omega

theorem Conserved.tick (hp : p.Conserved) : (p.tick cfg).Conserved := by
  have hqueued := (unheld_queued.replenish cfg _).trans (unheld_queued.retain p.workers)
  have hexecuting := (unheld_executing.replenish cfg _).trans (unheld_executing.retain p.workers)
  constructor
  · exact hp.nodup
  · intro id
    simp only [places, Pool.tick, hqueued, hexecuting]
    exact hp.placed id
  · intro id
    simp only [Pool.tick, hexecuting]
    exact hp.started id

/-- All that an enabled event can do. -/
inductive Moves (cfg : WorkerConfig) (p : Pool) : PoolEvent → Pool → Prop
  | arrive (id : ℕ) : id ∉ p.arrived → p.channel.length < 64 →
      Moves cfg p (.arrive id)
        { p with channel := p.channel ++ [id], arrived := p.arrived ++ [id] }
  | dispatch (q : Pool) : p.dispatch cfg = some q → Moves cfg p .dispatch q
  | tick : Moves cfg p .tick (p.tick cfg)
  | built (i : ℕ) (queue : List ℕ) : p.workers[i]? = some (.building queue) →
      Moves cfg p (.built i) (p.setWorker i (.idle queue))
  | buildFailed (i : ℕ) (queue : List ℕ) : p.workers[i]? = some (.building queue) →
      Moves cfg p (.buildFailed i) (p.stop i queue)
  | take (i id : ℕ) (queue : List ℕ) : p.workers[i]? = some (.idle (id :: queue)) →
      Moves cfg p (.take i)
        { p.setWorker i (.running id queue) with executed := p.executed ++ [id] }
  | complete (i id : ℕ) (queue : List ℕ) : p.workers[i]? = some (.running id queue) →
      Moves cfg p (.complete i)
        { p.setWorker i (.idle queue) with replied := p.replied ++ [id] }
  | expire (i : ℕ) (queue : List ℕ) : p.workers[i]? = some (.idle queue) →
      Moves cfg p (.expire i) (p.stop i queue)
  | finish (i : ℕ) : p.workers[i]? = some .exited →
      Moves cfg p (.finish i) (p.setWorker i .finished)

theorem step_moves {e : PoolEvent} (h : p.step cfg e = some q) : Moves cfg p e q := by
  cases e with
  | arrive id =>
      simp only [step] at h
      split at h
      · cases h
      · next hok =>
          cases h
          exact .arrive id (fun hid => hok (.inl hid)) (by omega)
  | dispatch => exact .dispatch q h
  | tick =>
      cases h
      exact .tick
  | built i =>
      simp only [step] at h
      split at h
      · next queue hw =>
          cases h
          exact .built i queue hw
      · cases h
  | buildFailed i =>
      simp only [step] at h
      split at h
      · next queue hw =>
          cases h
          exact .buildFailed i queue hw
      · cases h
  | take i =>
      simp only [step] at h
      split at h
      · next id queue hw =>
          cases h
          exact .take i id queue hw
      · cases h
  | complete i =>
      simp only [step] at h
      split at h
      · next id queue hw =>
          cases h
          exact .complete i id queue hw
      · cases h
  | expire i =>
      simp only [step] at h
      split at h
      · next queue hw =>
          cases h
          exact .expire i queue hw
      · cases h
  | finish i =>
      simp only [step] at h
      split at h
      · next hw =>
          cases h
          exact .finish i hw
      · cases h

theorem Conserved.stop (hp : p.Conserved) {i : ℕ} {w : Worker} {queue : List ℕ}
    (hi : p.workers[i]? = some w) (hqueued : w.queued = queue) (hexecuting : w.executing = []) :
    (p.stop i queue).Conserved := by
  apply hp.update hi .exited [] [] queue
  · intro id
    rw [hqueued, hexecuting]
    simp [Worker.queued, Worker.executing]
  · intro id
    rw [hexecuting]
    simp [Worker.executing]
  · simp [Pool.stop, setWorker, fail]

theorem Conserved.step {e : PoolEvent} (hp : p.Conserved) (h : p.step cfg e = some q) :
    q.Conserved := by
  cases step_moves h with
  | arrive id hid _ => exact hp.arrive hid
  | dispatch q hq => exact hp.dispatch hq
  | tick => exact hp.tick
  | built i queue hw =>
      apply hp.update hw (.idle queue) [] [] []
      · simp [Worker.queued, Worker.executing]
      · simp [Worker.executing]
      · simp [setWorker]
  | buildFailed i queue hw => exact hp.stop hw rfl rfl
  | take i id queue hw =>
      apply hp.update hw (.running id queue) [id] [] []
      · intro a
        simp only [Worker.queued, Worker.executing, List.count_cons, List.count_nil]
        omega
      · simp [Worker.executing]
      · simp [setWorker]
  | complete i id queue hw =>
      apply hp.update hw (.idle queue) [] [id] []
      · intro a
        simp only [Worker.queued, Worker.executing, List.count_cons, List.count_nil]
        omega
      · simp [Worker.executing]
      · simp [setWorker]
  | expire i queue hw => exact hp.stop hw rfl rfl
  | finish i hw =>
      apply hp.update hw .finished [] [] []
      · simp [Worker.queued, Worker.executing]
      · simp [Worker.executing]
      · simp [setWorker]

/-! ## When no request is lost -/

/-- The worker whose turn it is can take the request if any worker can, and no
worker stops with a request in its queue. -/
def Kept (cfg : WorkerConfig) (p : Pool) : PoolEvent → Prop
  | .dispatch => ∀ id waiting, p.channel = id :: waiting →
      anyLive (inflate cfg waiting p.workers) = true →
      ∃ w, (inflate cfg waiting p.workers)[p.next %
        (inflate cfg waiting p.workers).length]? = some w ∧ w.live = true
  | .buildFailed i => ∀ queue, p.workers[i]? = some (.building queue) → queue = []
  | .expire i => ∀ queue, p.workers[i]? = some (.idle queue) → queue = []
  | _ => True

/-- What the steps keep: a request received while a worker lived has left the
channel and was not answered without execution. -/
structure Safe (p : Pool) : Prop where
  conserved : p.Conserved
  failedLive : p.failedLive = []
  receivedLive : ∀ id ∈ p.receivedLive, id ∈ p.arrived ∧ id ∉ p.channel ∧ id ∉ p.failed

theorem Conserved.head (hp : p.Conserved) {id : ℕ} {waiting : List ℕ}
    (h : p.channel = id :: waiting) : id ∈ p.arrived ∧ id ∉ waiting ∧ id ∉ p.failed := by
  have hplaced := hp.placed id
  have hle := List.nodup_iff_count_le_one.mp hp.nodup id
  simp only [places, h, List.count_append, List.count_cons_self] at hplaced
  refine ⟨List.count_pos_iff.mp (by omega), ?_, ?_⟩
  · exact List.count_eq_zero.mp (by omega)
  · exact List.count_eq_zero.mp (by omega)

theorem Safe.dispatch (hp : p.Safe) (hkept : Kept cfg p .dispatch)
    (h : p.dispatch cfg = some q) : q.Safe := by
  have hconserved := hp.conserved.dispatch h
  obtain ⟨id, waiting, hchannel, hcases⟩ := dispatch_cases h
  obtain ⟨harrived, hwaiting, hfailed⟩ := hp.conserved.head hchannel
  have hold : ∀ a ∈ p.receivedLive, a ∈ p.arrived ∧ a ∉ waiting ∧ a ∉ p.failed ++ [id] := by
    intro a ha
    obtain ⟨h₁, h₂, h₃⟩ := hp.receivedLive a ha
    rw [hchannel, List.mem_cons, not_or] at h₂
    exact ⟨h₁, h₂.2, by simp [h₃, h₂.1]⟩
  rcases hcases with ⟨_, rfl⟩ | ⟨i, w, hi, hw, ⟨w', hsend, rfl⟩ | ⟨hsend, rfl⟩⟩
  · exact ⟨hconserved, hp.failedLive, hold⟩
  · refine ⟨hconserved, hp.failedLive, ?_⟩
    intro a ha
    rcases List.mem_append.mp ha with ha | ha
    · obtain ⟨h₁, h₂, h₃⟩ := hold a ha
      exact ⟨h₁, h₂, fun hmem => h₃ (List.mem_append_left _ hmem)⟩
    · rw [List.mem_singleton.mp ha]
      exact ⟨harrived, hwaiting, hfailed⟩
  · have hdead : anyLive (inflate cfg waiting p.workers) = false := by
      by_contra hlive
      obtain ⟨w', hw', hlive'⟩ := hkept id waiting hchannel (by simpa using hlive)
      rw [← hi, hw] at hw'
      cases hw'
      rw [(send_none hsend).1] at hlive'
      cases hlive'
    simp only [hdead, Bool.false_eq_true, if_false] at hconserved ⊢
    exact ⟨hconserved, hp.failedLive, hold⟩

theorem Safe.stop (hp : p.Safe) {i : ℕ} (hconserved : (p.stop i []).Conserved) :
    (p.stop i []).Safe := by
  constructor
  · exact hconserved
  · simp [Pool.stop, fail, setWorker, hp.failedLive]
  · intro id hid
    have hold := hp.receivedLive id hid
    simpa [Pool.stop, fail, setWorker] using hold

theorem Safe.step {e : PoolEvent} (hp : p.Safe) (hkept : Kept cfg p e)
    (h : p.step cfg e = some q) : q.Safe := by
  have hconserved := hp.conserved.step h
  cases step_moves h with
  | arrive id hid _ =>
      refine ⟨hconserved, hp.failedLive, ?_⟩
      intro a ha
      obtain ⟨h₁, h₂, h₃⟩ := hp.receivedLive a ha
      have hne : a ≠ id := fun heq => hid (heq ▸ h₁)
      exact ⟨List.mem_append_left _ h₁, by simp [h₂, hne], h₃⟩
  | dispatch q hq => exact hp.dispatch hkept hq
  | buildFailed i queue hw =>
      rw [hkept queue hw] at hconserved ⊢
      exact hp.stop hconserved
  | expire i queue hw =>
      rw [hkept queue hw] at hconserved ⊢
      exact hp.stop hconserved
  | _ => exact ⟨hconserved, hp.failedLive, hp.receivedLive⟩

theorem safe_start (cfg : WorkerConfig) : (start cfg).Safe :=
  ⟨conserved_start cfg, rfl, fun id hid => by simp [start] at hid⟩

/-- A request received while a worker lived is queued at one worker or has been
executed, and not both. -/
theorem Safe.once (hp : p.Safe) {id : ℕ} (hid : id ∈ p.receivedLive) :
    (p.workers.flatMap Worker.queued).count id + p.executed.count id = 1 := by
  obtain ⟨harrived, hchannel, hfailed⟩ := hp.receivedLive id hid
  have hplaced := hp.conserved.placed id
  have hstarted := hp.conserved.started id
  have hone := List.count_eq_one_of_mem hp.conserved.nodup harrived
  simp only [places, List.count_append, List.count_eq_zero.mpr hchannel,
    List.count_eq_zero.mpr hfailed] at hplaced
  omega

/-! ## Queues can always be worked off -/

end Pool

/-- Steps that a worker needs for its queue. -/
def Worker.work : Worker → ℕ
  | .building queue => 2 * queue.length + 1
  | .idle queue => 2 * queue.length
  | .running _ queue => 2 * queue.length + 1
  | .exited | .finished => 0

namespace Pool
variable {cfg : WorkerConfig} {p q : Pool}

def work (p : Pool) : ℕ := (p.workers.map Worker.work).sum

/-- A worker with a request in its queue has a step to make. -/
theorem work_step (cfg : WorkerConfig) {w : Worker} {i : ℕ} (hw : p.workers[i]? = some w) (hqueue : w.queued ≠ []) :
    ∃ e q, p.step cfg e = some q ∧ Kept cfg p e ∧ q.work < p.work ∧
      q.receivedLive = p.receivedLive := by
  have hless : ∀ w', w'.work < w.work → (p.setWorker i w').work < p.work := by
    intro w' hlt
    have hsum := sum_map_set (g := Worker.work) hw w'
    simp only [work, setWorker]
    omega
  cases w with
  | building queue =>
      exact ⟨.built i, p.setWorker i (.idle queue), by simp [step, hw], trivial,
        hless _ (by simp [Worker.work]), rfl⟩
  | idle queue =>
      cases queue with
      | nil => exact absurd rfl hqueue
      | cons id queue =>
          exact ⟨.take i,
            { p.setWorker i (.running id queue) with executed := p.executed ++ [id] },
            by simp only [step, hw], trivial,
            hless (.running id queue) (by simp only [Worker.work, List.length_cons]; omega), rfl⟩
  | running id queue =>
      exact ⟨.complete i, { p.setWorker i (.idle queue) with replied := p.replied ++ [id] },
        by simp only [step, hw], trivial, hless (.idle queue) (by simp [Worker.work]), rfl⟩
  | exited => exact absurd rfl hqueue
  | finished => exact absurd rfl hqueue

theorem drain (cfg : WorkerConfig) (p : Pool) :
    ∃ es q, run (step cfg) p es = some q ∧ Guarded (step cfg) (Kept cfg) p es ∧
      (∀ w ∈ q.workers, w.queued = []) ∧ q.receivedLive = p.receivedLive := by
  induction hn : p.work using Nat.strong_induction_on generalizing p with
  | _ n ih =>
      by_cases hqueues : ∀ w ∈ p.workers, w.queued = []
      · exact ⟨[], p, rfl, trivial, hqueues, rfl⟩
      · push Not at hqueues
        obtain ⟨w, hmem, hqueue⟩ := hqueues
        obtain ⟨i, hw⟩ := List.mem_iff_getElem?.mp hmem
        obtain ⟨e, p', hstep, hkept, hless, hreceived⟩ := work_step cfg hw hqueue
        obtain ⟨es, q, hrun, hguarded, hempty, hsame⟩ := ih p'.work (hn ▸ hless) p' rfl
        exact ⟨e :: es, q, by rw [run, hstep]; exact hrun, guarded_cons hkept hstep hguarded,
          hempty, hsame.trans hreceived⟩

/-- In every run in which requests go to live workers and workers stop with empty
queues, each request received while a worker lived is held by exactly one worker or
was executed exactly once. It can still be executed wherever the run has got to, and
no request is answered without execution while a worker lives. -/
theorem no_request_lost (cfg : WorkerConfig) (es : List PoolEvent) (p : Pool)
    (hguarded : Guarded (step cfg) (Kept cfg) (start cfg) es)
    (hrun : run (step cfg) (start cfg) es = some p) :
    (∀ id ∈ p.receivedLive,
      (p.workers.flatMap Worker.queued).count id + p.executed.count id = 1 ∧ id ∉ p.failed) ∧
    p.failedLive = [] ∧
    ∃ es' q, run (step cfg) p es' = some q ∧ Guarded (step cfg) (Kept cfg) p es' ∧
      q.receivedLive = p.receivedLive ∧ ∀ id ∈ p.receivedLive, q.executed.count id = 1 := by
  have hsafe : p.Safe :=
    run_invariant (fun _ _ _ hs hkept hstep => hs.step hkept hstep) (safe_start cfg) hguarded hrun
  obtain ⟨es', q, hrun', hguarded', hempty, hsame⟩ := drain cfg p
  have hsafe' : q.Safe :=
    run_invariant (fun _ _ _ hs hkept hstep => hs.step hkept hstep) hsafe hguarded' hrun'
  have hexecuted : ∀ id ∈ p.receivedLive, q.executed.count id = 1 := by
    intro id hid
    have honce := hsafe'.once (hsame ▸ hid)
    rwa [List.flatMap_eq_nil_iff.mpr hempty, List.count_nil, Nat.zero_add] at honce
  exact ⟨fun id hid => ⟨hsafe.once hid, (hsafe.receivedLive id hid).2.2⟩, hsafe.failedLive,
    es', q, hrun', hguarded', hsame, hexecuted⟩

/-- One request through a pool of one worker. -/
theorem no_request_lost_one :
    ∃ p, run (step ⟨1, 4⟩) (start ⟨1, 4⟩) [.arrive 0, .dispatch, .built 0, .take 0] = some p ∧
      p.receivedLive = [0] ∧ p.executed = [0] ∧ p.failedLive = [] := by
  refine ⟨_, rfl, rfl, rfl, ?_⟩
  have hdispatch : Kept ⟨1, 4⟩ ⟨[0], [.building []], 0, [0], [], [], [], [], []⟩ .dispatch := by
    intro id waiting hchannel _
    cases hchannel
    exact ⟨_, rfl, rfl⟩
  have hguarded : Guarded (step ⟨1, 4⟩) (Kept ⟨1, 4⟩) (start ⟨1, 4⟩)
      [.arrive 0, .dispatch, .built 0, .take 0] := by
    apply guarded_cons trivial rfl
    apply guarded_cons hdispatch rfl
    apply guarded_cons trivial rfl
    apply guarded_cons trivial rfl
    trivial
  exact (no_request_lost ⟨1, 4⟩ _ _ hguarded rfl).2.1

/-- Two workers, the first of which has stopped: the request that comes next is
dropped although the second worker is idle. -/
theorem request_lost_beside_live_worker :
    ¬ ∀ (cfg : WorkerConfig) (es : List PoolEvent) (p : Pool),
      run (step cfg) (start cfg) es = some p →
      (∀ id ∈ p.receivedLive,
        (p.workers.flatMap Worker.queued).count id + p.executed.count id = 1 ∧ id ∉ p.failed) ∧
      p.failedLive = [] := by
  intro h
  have hlost := h ⟨2, 4⟩ [.built 0, .built 1, .expire 0, .arrive 0, .dispatch] _ rfl
  have hfailed : [0] = ([] : List ℕ) := hlost.2
  cases hfailed

end Pool

end Pinhead.WorkerPool
