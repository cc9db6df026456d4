import Pinhead.HandlerSerialization
import Pinhead.Histories
import Pinhead.PairedSlots

/-!
# Requests served by running workers

`HandlerSerialization` knows a request by its number and a worker by its queue. Here each
worker runs: a new one executes the script, an idle one keeps its Lua state, and a busy one is
in the middle of a call. What Lua code does outside its own state, to files, databases or the
network, is a sequence of operations on one world, and the operations of all workers are
interleaved one by one.

Seen from the frontends this is a server that takes one request at a time and finishes it
before it looks at the next. Only scripts that are executed by new workers run beside it.
-/
namespace Pinhead.ServedRequests
open ByteStrings FsRequests Resumption Histories RouteResolution StateMachines WorkerPool
  HandlerSerialization PairedSlots

abbrev Reply := Except String Bytes

/-- The code of a worker: building its runtime, which may fail, and one call. -/
structure LuaCode (S : Signature) (V : Type) where
  buildRuntime : Prog S (Option V)
  callLua : V → HandlerRequest → Prog S (V × Reply)

inductive Task (S : Signature) (V : Type) where
  | building (p : Prog S (Option V))
  | ready (vm : V)
  | calling (p : Prog S (V × Reply))
  | ended

/-- The operations in `trace` belong to a call, named by its request, or to a script that a
new worker executes. The requests in `taken` and their `answers` are in the order in which the
router took them. -/
structure Service (S : Signature) (V σ : Type) where
  system : System
  tasks : List (Task S V)
  world : σ
  trace : List (Event S (Option ℕ))
  taken : List Request
  results : List (ℕ × Reply)
  refused : List ℕ
  answers : List (Except String Response)

section
variable {S : Signature} {V σ : Type} (trie : Trie) (table : PatternMap) (cfg : WorkerConfig)
  (code : LuaCode S V)

def freshTasks (n : ℕ) : List (Task S V) := List.replicate n (.building code.buildRuntime)

def start (world : σ) : Service S V σ where
  system := HandlerSerialization.start cfg
  tasks := freshTasks code cfg.minWorkers
  world := world
  trace := []
  taken := []
  results := []
  refused := []
  answers := []

/-- The tasks behind the workers when the dispatcher serves a request. -/
def tasksAfterDispatch (p : Pool) (tasks : List (Task S V)) : List (Task S V) :=
  match p.channel with
  | [] => tasks
  | id :: waiting =>
      let workers := inflate cfg waiting p.workers
      let tasks := tasks ++ freshTasks code (workers.length - p.workers.length)
      let i := p.next % workers.length
      match workers[i]? with
      | none => tasks
      | some w =>
          match w.send id with
          | some _ => tasks
          | none => swapRemove tasks i

def tasksAfterTick (p : Pool) (tasks : List (Task S V)) : List (Task S V) :=
  let kept := p.workers.filter fun w => !w.isFinished
  keepBeside (fun w => !w.isFinished) p.workers tasks ++
    freshTasks code ((replenish cfg kept).length - kept.length)

/-- Refused at once because there is no worker. -/
def refusedBy (p : Pool) : List ℕ :=
  match p.channel with
  | [] => []
  | id :: waiting => if inflate cfg waiting p.workers = [] then [id] else []

/-- The handler request made of the request with a number. -/
def handed (taken : List Request) (id : ℕ) : Option HandlerRequest :=
  taken[id]?.bind fun req => (dispatch trie table req).toOption

namespace Service

/-- The result of the call, or the text in its place. -/
def outcome (s : Service S V σ) (id : ℕ) : Reply :=
  match s.results.lookup id with
  | some r => r
  | none =>
      if id ∈ s.refused then .error "no workers available" else .error "handler did not respond"

end Service

/-- The response carries what the router found out about the path. -/
def respond (req : Request) (r : Reply) : Except String Response :=
  match trie.matchAt table req.path with
  | .ok (routeMeta, _) => r.map fun data =>
      ⟨data, some routeMeta.pattern, hasChildren trie table routeMeta.pattern req.path⟩
  | .error _ => r.map fun data => ⟨data, none, false⟩

namespace Service

/-- What an event does to everything that the numbers of the requests stand for. -/
def follow (s : Service S V σ) (t : System) : SystemEvent → Option (Service S V σ)
  | .dequeue =>
      match s.system.requests with
      | [] => none
      | req :: _ =>
          match dispatch trie table req with
          | .error e => some { s with
              system := t, taken := s.taken ++ [req], answers := s.answers ++ [.error e] }
          | .ok _ => some { s with system := t, taken := s.taken ++ [req] }
  | .resolve =>
      match s.system.router with
      | .awaiting id =>
          s.taken[id]?.map fun req => { s with
            system := t, answers := s.answers ++ [respond trie table req (s.outcome id)] }
      | _ => none
  | .pool .dispatch => some { s with
      system := t,
      tasks := tasksAfterDispatch cfg code s.system.pool s.tasks,
      refused := s.refused ++ refusedBy cfg s.system.pool }
  | .pool .tick => some { s with
      system := t, tasks := tasksAfterTick cfg code s.system.pool s.tasks }
  | .pool (.built i) =>
      match s.tasks[i]? with
      | some (.building (.done (some vm))) =>
          some { s with system := t, tasks := s.tasks.set i (.ready vm) }
      | _ => none
  | .pool (.buildFailed i) =>
      match s.tasks[i]? with
      | some (.building (.done none)) => some { s with system := t, tasks := s.tasks.set i .ended }
      | _ => none
  | .pool (.take i) =>
      match s.tasks[i]?, s.system.pool.workers[i]? with
      | some (.ready vm), some (.idle (id :: _)) =>
          (handed trie table s.taken id).map fun hreq => { s with
            system := t, tasks := s.tasks.set i (.calling (code.callLua vm hreq)) }
      | _, _ => none
  | .pool (.complete i) =>
      match s.tasks[i]?, s.system.pool.workers[i]? with
      | some (.calling (.done (vm, r))), some (.running id _) => some { s with
          system := t, tasks := s.tasks.set i (.ready vm), results := s.results ++ [(id, r)] }
      | _, _ => none
  | .pool (.expire i) => some { s with system := t, tasks := s.tasks.set i .ended }
  | _ => some { s with system := t }

end Service

/-- One event of the system, or one operation of one worker on the world. -/
inductive Step (sem : Semantics S σ) : Service S V σ → Service S V σ → Prop
  | system {s u : Service S V σ} {t : System} (e : SystemEvent) :
      HandlerSerialization.step trie table cfg s.system e = some t →
      s.follow trie table cfg code t e = some u → Step sem s u
  | build {s : Service S V σ} {w : σ} (i : ℕ) (o : S.Op) (next : S.Ret o → Prog S (Option V))
      (r : S.Ret o) : s.tasks[i]? = some (.building (.call o next)) → sem o s.world r w →
      Step sem s { s with
        tasks := s.tasks.set i (.building (next r)), world := w,
        trace := s.trace ++ [⟨none, o, r⟩] }
  | call {s : Service S V σ} {w : σ} (i id : ℕ) (queue : List ℕ) (o : S.Op)
      (next : S.Ret o → Prog S (V × Reply)) (r : S.Ret o) :
      s.system.pool.workers[i]? = some (.running id queue) →
      s.tasks[i]? = some (.calling (.call o next)) → sem o s.world r w →
      Step sem s { s with
        tasks := s.tasks.set i (.calling (next r)), world := w,
        trace := s.trace ++ [⟨some id, o, r⟩] }

inductive Reachable (sem : Semantics S σ) (world : σ) : Service S V σ → Prop
  | start : Reachable sem world (start cfg code world)
  | step {s t : Service S V σ} : Reachable sem world s → Step trie table cfg code sem s t →
      Reachable sem world t

/-! ## A server without concurrency -/

/-- The Lua states that a worker can come to: built by the script, then left by one call
after another. -/
inductive Grown : V → Prop
  | built {h : List (Answered S)} {vm : V} : Passes code.buildRuntime h (.done (some vm)) → Grown vm
  | called {h : List (Answered S)} {vm vm' : V} {hreq : HandlerRequest} {r : Reply} : Grown vm →
      Passes (code.callLua vm hreq) h (.done (vm', r)) → Grown vm'

/-- What the scripts of new workers can do to the world. -/
def Beside (sem : Semantics S σ) : σ → σ → Prop :=
  Relation.ReflTransGen fun w w' => ∃ (o : S.Op) (next : S.Ret o → Prog S (Option V)) (r : S.Ret o)
    (h : List (Answered S)), Passes code.buildRuntime h (.call o next) ∧ sem o w r w'

/-- Requests with their answers, and the world after them. A request is answered by the
router, or lost before anything was executed for it, or a whole call is made for it. -/
inductive Serves (sem : Semantics S σ) (world : σ) :
    List (Request × Except String Response) → σ → Prop
  | start : Serves sem world [] world
  | beside {log : List (Request × Except String Response)} {w w' : σ} : Serves sem world log w →
      Beside code sem w w' → Serves sem world log w'
  | refused {log : List (Request × Except String Response)} {w : σ} {req : Request} {e : String} :
      Serves sem world log w → dispatch trie table req = .error e →
      Serves sem world (log ++ [(req, .error e)]) w
  | lost {log : List (Request × Except String Response)} {w : σ} {req : Request}
      {hreq : HandlerRequest} {e : String} : Serves sem world log w →
      dispatch trie table req = .ok hreq →
      e = "no workers available" ∨ e = "handler did not respond" →
      Serves sem world (log ++ [(req, .error e)]) w
  | called {log : List (Request × Except String Response)} {w w' : σ} {req : Request}
      {hreq : HandlerRequest} {vm vm' : V} {h : List (Answered S)} {r : Reply} :
      Serves sem world log w → dispatch trie table req = .ok hreq → Grown code vm →
      Passes (code.callLua vm hreq) h (.done (vm', r)) →
      Performs (amid (Beside code sem) sem) w h w' →
      Serves sem world (log ++ [(req, respond trie table req r)]) w'

end

/-! ## Workers and their tasks -/

section
variable {S : Signature} {V σ : Type} {trie : Trie} {table : PatternMap} {cfg : WorkerConfig}
  {code : LuaCode S V}

/-- What a task is to its worker. The history of a call is what the trace holds under its
number. -/
inductive Fits (trie : Trie) (table : PatternMap) (code : LuaCode S V) (taken : List Request)
    (trace : List (Event S (Option ℕ))) : Worker → Task S V → Prop
  | building (queue : List ℕ) {h : List (Answered S)} {p : Prog S (Option V)} :
      Passes code.buildRuntime h p →
      Fits trie table code taken trace (.building queue) (.building p)
  | ready (queue : List ℕ) {vm : V} : Grown code vm →
      Fits trie table code taken trace (.idle queue) (.ready vm)
  | calling (id : ℕ) (queue : List ℕ) {hreq : HandlerRequest} {vm : V} {p : Prog S (V × Reply)} :
      handed trie table taken id = some hreq → Grown code vm →
      Passes (code.callLua vm hreq) (own (some id) trace) p →
      Fits trie table code taken trace (.running id queue) (.calling p)
  | exited : Fits trie table code taken trace .exited .ended
  | finished : Fits trie table code taken trace .finished .ended

theorem handed_append {taken : List Request} {id : ℕ} {hreq : HandlerRequest}
    (h : handed trie table taken id = some hreq) (more : List Request) :
    handed trie table (taken ++ more) id = some hreq := by
  unfold handed at h ⊢
  obtain ⟨req, hreq', hok⟩ := Option.bind_eq_some_iff.mp h
  have hlt := (List.getElem?_eq_some_iff.mp hreq').1
  rw [List.getElem?_append_left hlt, hreq']
  exact hok

theorem Fits.mono {taken : List Request} {trace trace' : List (Event S (Option ℕ))}
    {w : Worker} {task : Task S V} (h : Fits trie table code taken trace w task)
    (more : List Request)
    (htrace : ∀ id queue, w = .running id queue → own (some id) trace' = own (some id) trace) :
    Fits trie table code (taken ++ more) trace' w task := by
  cases h with
  | building queue hp => exact .building queue hp
  | ready queue hvm => exact .ready queue hvm
  | calling id queue hhanded hvm hp =>
      refine .calling id queue (handed_append hhanded more) hvm ?_
      rw [htrace id queue rfl]
      exact hp
  | exited => exact .exited
  | finished => exact .finished

theorem Fits.send {taken : List Request} {trace : List (Event S (Option ℕ))} {w w' : Worker}
    {task : Task S V} {id : ℕ} (h : Fits trie table code taken trace w task)
    (hsend : w.send id = some w') : Fits trie table code taken trace w' task := by
  cases h with
  | building queue hp =>
      cases hsend
      exact .building _ hp
  | ready queue hvm =>
      cases hsend
      exact .ready _ hvm
  | calling a queue hhanded hvm hp =>
      cases hsend
      exact .calling a _ hhanded hvm hp
  | exited => cases hsend
  | finished => cases hsend

theorem fits_fresh (taken : List Request) (trace : List (Event S (Option ℕ))) (n : ℕ) :
    List.Forall₂ (Fits trie table code taken trace) (List.replicate n (.building []))
      (freshTasks code n) :=
  forall₂_replicate (.building [] (.refl _)) n

theorem spawnInitial_eq (n : ℕ) : spawnInitial n = List.replicate n (.building []) := by
  induction n with
  | zero => rfl
  | succ n ih => rw [spawnInitial, ih, spawnWorker, List.replicate_succ']

theorem inflate_eq (cfg : WorkerConfig) (waiting : List ℕ) (ws : List Worker) :
    inflate cfg waiting ws =
      ws ++ List.replicate ((inflate cfg waiting ws).length - ws.length) (.building []) := by
  unfold inflate
  split
  · simp [spawnWorker]
  · simp

theorem replenish_eq (cfg : WorkerConfig) (ws : List Worker) :
    replenish cfg ws =
      ws ++ List.replicate ((replenish cfg ws).length - ws.length) (.building []) := by
  induction ws using replenish.induct cfg with
  | case1 ws h ih =>
      have hspawn : (spawnWorker ws).length = ws.length + 1 := by simp [spawnWorker]
      rw [replenish, if_pos h]
      have hlength := congrArg List.length ih
      rw [List.length_append, hspawn, List.length_replicate] at hlength
      have hcount : (replenish cfg (spawnWorker ws)).length - ws.length =
          (replenish cfg (spawnWorker ws)).length - (spawnWorker ws).length + 1 := by omega
      rw [hcount, List.replicate_succ]
      conv_lhs => rw [ih]
      simp [spawnWorker]
  | case2 ws h =>
      rw [replenish, if_neg h]
      simp

variable {taken : List Request} {trace : List (Event S (Option ℕ))} {p q : Pool}
  {tasks : List (Task S V)}

theorem fits_dispatch (h : List.Forall₂ (Fits trie table code taken trace) p.workers tasks)
    (hq : p.dispatch cfg = some q) : List.Forall₂ (Fits trie table code taken trace) q.workers
      (tasksAfterDispatch cfg code p tasks) := by
  obtain ⟨id, waiting, hchannel, hcases⟩ := Pool.dispatch_cases hq
  have hinflated : List.Forall₂ (Fits trie table code taken trace) (inflate cfg waiting p.workers)
      (tasks ++ freshTasks code ((inflate cfg waiting p.workers).length - p.workers.length)) := by
    rw [inflate_eq, List.length_append, List.length_replicate, Nat.add_sub_cancel_left]
    exact List.rel_append h (fits_fresh taken trace _)
  simp only [tasksAfterDispatch, hchannel]
  rcases hcases with ⟨hnone, rfl⟩ | ⟨i, w, rfl, hw, ⟨w', hsend, rfl⟩ | ⟨hsend, rfl⟩⟩
  · rw [hnone] at hinflated ⊢
    simpa using hinflated
  · obtain ⟨task, htask, hfits⟩ := forall₂_getElem? hinflated hw
    simp only [hw, hsend]
    have hset := forall₂_set hinflated (p.next % (inflate cfg waiting p.workers).length)
      (hfits.send hsend)
    rwa [set_getElem?_self htask] at hset
  · simp only [hw, hsend]
    exact forall₂_swapRemove hinflated _

theorem fits_tick (h : List.Forall₂ (Fits trie table code taken trace) p.workers tasks) :
    List.Forall₂ (Fits trie table code taken trace) (p.tick cfg).workers
      (tasksAfterTick cfg code p tasks) := by
  simp only [Pool.tick, tasksAfterTick]
  rw [replenish_eq, List.length_append, List.length_replicate, Nat.add_sub_cancel_left]
  exact List.rel_append (forall₂_keepBeside h _) (fits_fresh taken trace _)

/-! ## The invariant -/

/-- The operations of the call that the router waits for. -/
def pending (s : Service S V σ) : List (Answered S) :=
  match s.system.router with
  | .awaiting id => own (some id) s.trace
  | _ => []

/-- Taken by the router and not answered yet. -/
def unanswered : RouterState → ℕ
  | .idle => 0
  | .sending _ | .awaiting _ => 1

/-- The answer to the request with a number, and where it comes from. -/
def Accounted (trie : Trie) (table : PatternMap) (s : Service S V σ) (k : ℕ)
    (a : Except String Response) : Prop :=
  ∃ req, s.taken[k]? = some req ∧
    ((∃ e, dispatch trie table req = .error e ∧ a = .error e ∧ own (some k) s.trace = []) ∨
    ∃ hreq, dispatch trie table req = .ok hreq ∧
      ((∃ r, (k, r) ∈ s.results ∧ a = respond trie table req r) ∨
        own (some k) s.trace = [] ∧
          (a = .error "no workers available" ∨ a = .error "handler did not respond")))

variable {sem : Semantics S σ} {world : σ} {s u : Service S V σ}

structure Sound (trie : Trie) (table : PatternMap) (cfg : WorkerConfig) (code : LuaCode S V)
    (sem : Semantics S σ) (world : σ) (s : Service S V σ) : Prop where
  serial : Serial cfg s.system
  fits : List.Forall₂ (Fits trie table code s.taken s.trace) s.system.pool.workers s.tasks
  taken : s.taken.length = s.system.dequeued
  answered : s.answers.length + unanswered s.system.router = s.taken.length
  current : ∀ id, s.system.router = .sending id ∨ s.system.router = .awaiting id →
    id + 1 = s.taken.length ∧ ∃ hreq, handed trie table s.taken id = some hreq
  results : s.results.map Prod.fst = s.system.pool.replied
  returned : ∀ id r, (id, r) ∈ s.results → ∃ hreq vm vm', handed trie table s.taken id = some hreq ∧
    Grown code vm ∧ Passes (code.callLua vm hreq) (own (some id) s.trace) (.done (vm', r))
  untouched : ∀ id, id ∉ s.system.pool.executed → own (some id) s.trace = []
  ordered : (s.trace.filterMap (·.task)).Pairwise (· ≤ ·)
  accounted : ∀ k a, s.answers[k]? = some a → Accounted trie table s k a
  atomic : ∃ w w', Serves trie table code sem world (s.taken.zip s.answers) w ∧
    Performs (amid (Beside code sem) sem) w (pending s) w' ∧ Beside code sem w' s.world

theorem sound_start (sem : Semantics S σ) (world : σ) :
    Sound trie table cfg code sem world (start cfg code world) where
  serial := serial_start cfg
  fits := by
    simp only [start, HandlerSerialization.start, Pool.start, spawnInitial_eq]
    exact fits_fresh [] [] _
  taken := rfl
  answered := rfl
  current := by
    intro id h
    rcases h with h | h <;> cases h
  results := rfl
  returned := by
    intro id r h
    cases h
  untouched := by
    intro id _
    rfl
  ordered := .nil
  accounted := by
    intro k a h
    simp [start] at h
  atomic := ⟨world, world, .start, .refl _, .refl⟩

/-! ## What the numbers of the requests say -/

theorem running_started (hp : p.Conserved) {i id : ℕ} {queue : List ℕ}
    (hw : p.workers[i]? = some (.running id queue)) : id ∈ p.executed ∧ id ∉ p.replied ∧
      id ∈ inFlight p ∧ id ∈ p.arrived ∧ (p.workers.flatMap Worker.executing).count id ≤ 1 := by
  have hmem : id ∈ p.workers.flatMap Worker.executing :=
    List.mem_flatMap.mpr ⟨_, List.mem_of_getElem? hw, by simp [Worker.executing]⟩
  have hpos := List.count_pos_iff.mpr hmem
  have hplaced := hp.placed id
  have hstarted := hp.started id
  have hle := List.nodup_iff_count_le_one.mp hp.nodup id
  simp only [Pool.places, List.count_append] at hplaced
  refine ⟨List.count_pos_iff.mp (by omega), ?_, by simp [inFlight, hmem],
    List.count_pos_iff.mp (by omega), by omega⟩
  intro hreplied
  have hcount := List.count_pos_iff.mpr hreplied
  omega

theorem failed_not_started (hp : p.Conserved) {id : ℕ} (h : id ∈ p.failed) :
    id ∉ p.executed ∧ id ∉ p.replied := by
  have hplaced := hp.placed id
  have hstarted := hp.started id
  have hle := List.nodup_iff_count_le_one.mp hp.nodup id
  have hpos := List.count_pos_iff.mpr h
  simp only [Pool.places, List.count_append] at hplaced
  exact ⟨List.count_eq_zero.mp (by omega), List.count_eq_zero.mp (by omega)⟩

theorem started_arrived (hp : p.Conserved) {id : ℕ} (h : id ∈ p.executed) : id ∈ p.arrived := by
  have hplaced := hp.placed id
  have hstarted := hp.started id
  have hpos := List.count_pos_iff.mpr h
  simp only [Pool.places, List.count_append] at hplaced
  exact List.count_pos_iff.mp (by omega)

/-- A request that is executed or queued is the one that the router waits for. -/
theorem awaiting_of_inFlight {s : System} (hs : Serial cfg s) {id : ℕ}
    (hid : id ∈ inFlight s.pool) : s.router = .awaiting id := by
  have hrouter := hs.router
  cases h : s.router with
  | idle =>
      rw [h] at hrouter
      have hnone : inFlight s.pool = [] := hrouter
      simp [hnone] at hid
  | sending a =>
      rw [h] at hrouter
      simp [hrouter.1] at hid
  | awaiting a =>
      rw [h] at hrouter
      rw [hrouter.1 id hid]

theorem mem_callers {id : ℕ} (h : id ∈ trace.filterMap (·.task)) : own (some id) trace ≠ [] := by
  obtain ⟨e, he, htask⟩ := List.mem_filterMap.mp h
  have hmem : (⟨e.op, e.answer⟩ : Answered S) ∈ own (some id) trace :=
    List.mem_filterMap.mpr ⟨e, he, by simp [htask]⟩
  exact List.ne_nil_of_mem hmem

/-! ## Operations on the world -/

theorem Sound.build (hs : Sound trie table cfg code sem world s) {i : ℕ} {o : S.Op}
    {next : S.Ret o → Prog S (Option V)} {r : S.Ret o} {w : σ}
    (htask : s.tasks[i]? = some (.building (.call o next))) (hsem : sem o s.world r w) :
    Sound trie table cfg code sem world { s with
      tasks := s.tasks.set i (.building (next r)), world := w,
      trace := s.trace ++ [⟨none, o, r⟩] } := by
  have hown : ∀ id, own (some id) (s.trace ++ [⟨none, o, r⟩]) = own (some id) s.trace := fun id =>
    own_concat_other (by simp) _
  obtain ⟨x, hx, hfits⟩ := forall₂_getElem? hs.fits.flip htask
  refine ⟨hs.serial, ?_, hs.taken, hs.answered, hs.current, hs.results, ?_, ?_, ?_, ?_, ?_⟩
  · have hnew : Fits trie table code s.taken (s.trace ++ [⟨none, o, r⟩]) x
        (.building (next r)) := by
      cases hfits with
      | building queue hp => exact .building queue (hp.concat r)
    rw [← set_getElem?_self hx]
    refine forall₂_update hs.fits i hnew ?_
    intro j a b _ _ _ hab
    simpa using hab.mono [] fun id _ _ => hown id
  · intro id a ha
    rw [hown]
    exact hs.returned id a ha
  · intro id hid
    rw [hown]
    exact hs.untouched id hid
  · simpa using hs.ordered
  · intro k a ha
    obtain ⟨req, hreq, hcase⟩ := hs.accounted k a ha
    exact ⟨req, hreq, by simpa only [hown] using hcase⟩
  · obtain ⟨v, v', hserves, hperforms, hbeside⟩ := hs.atomic
    have hpending : pending { s with
        tasks := s.tasks.set i (.building (next r)), world := w,
        trace := s.trace ++ [⟨none, o, r⟩] } = pending s := by
      simp only [pending]
      split
      · exact hown _
      · rfl
    refine ⟨v, v', hserves, by rw [hpending]; exact hperforms, ?_⟩
    cases hfits with
    | building queue hp => exact hbeside.tail ⟨o, next, r, _, hp, hsem⟩

theorem Sound.call (hs : Sound trie table cfg code sem world s) {i id : ℕ} {queue : List ℕ}
    {o : S.Op} {next : S.Ret o → Prog S (V × Reply)} {r : S.Ret o} {w : σ}
    (hworker : s.system.pool.workers[i]? = some (.running id queue))
    (htask : s.tasks[i]? = some (.calling (.call o next))) (hsem : sem o s.world r w) :
    Sound trie table cfg code sem world { s with
      tasks := s.tasks.set i (.calling (next r)), world := w,
      trace := s.trace ++ [⟨some id, o, r⟩] } := by
  obtain ⟨hexecuted, hreplied, hflight, _, hone⟩ := running_started hs.serial.conserved hworker
  have hrouter := awaiting_of_inFlight hs.serial hflight
  have hother : ∀ a, a ≠ id → own (some a) (s.trace ++ [⟨some id, o, r⟩]) = own (some a) s.trace :=
    fun a ha => own_concat_other (by simpa using Ne.symm ha) _
  have hself : own (some id) (s.trace ++ [⟨some id, o, r⟩]) = own (some id) s.trace ++ [⟨o, r⟩] :=
    own_concat_self _ _ _ _
  obtain ⟨task, htask', hfits⟩ := forall₂_getElem? hs.fits hworker
  obtain rfl := Option.some.inj (htask.symm.trans htask')
  refine ⟨hs.serial, ?_, hs.taken, hs.answered, hs.current, hs.results, ?_, ?_, ?_, ?_, ?_⟩
  · have hnew : Fits trie table code s.taken (s.trace ++ [⟨some id, o, r⟩]) (.running id queue)
        (.calling (next r)) := by
      cases hfits with
      | calling _ _ hhanded hvm hp =>
          refine .calling id queue hhanded hvm ?_
          rw [hself]
          exact hp.concat r
    rw [← set_getElem?_self hworker]
    refine forall₂_update hs.fits i hnew ?_
    intro j a b hj ha _ hab
    have hsame : ∀ a' queue', a = .running a' queue' →
        own (some a') (s.trace ++ [⟨some id, o, r⟩]) = own (some a') s.trace := by
      rintro a' queue' rfl
      refine hother a' ?_
      rintro rfl
      exact hj (slot_unique hone ha hworker (by simp [Worker.executing])
        (by simp [Worker.executing]))
    simpa using hab.mono [] hsame
  · intro a res ha
    have hne : a ≠ id := by
      rintro rfl
      apply hreplied
      rw [← hs.results]
      exact List.mem_map_of_mem ha
    rw [hother a hne]
    exact hs.returned a res ha
  · intro a ha
    rw [hother a fun h => ha (h ▸ hexecuted)]
    exact hs.untouched a ha
  · obtain ⟨c, hall, hle⟩ := hs.serial.single
    have hid : id = c := hall id hflight
    rw [List.filterMap_append]
    refine List.pairwise_append.mpr ⟨hs.ordered, List.pairwise_singleton _ _, ?_⟩
    intro a ha b hb
    obtain rfl : b = id := by simpa using hb
    rw [hid]
    refine hle a (started_arrived hs.serial.conserved ?_)
    by_contra hnone
    exact mem_callers ha (hs.untouched a hnone)
  · intro k a ha
    obtain ⟨hcurrent, _⟩ := hs.current id (.inr hrouter)
    have hanswered := hs.answered
    rw [hrouter, unanswered] at hanswered
    have hk : k < s.answers.length := (List.getElem?_eq_some_iff.mp ha).1
    obtain ⟨req, hreq, hcase⟩ := hs.accounted k a ha
    refine ⟨req, hreq, ?_⟩
    simp only [hother k (by omega)]
    exact hcase
  · obtain ⟨v, v', hserves, hperforms, hbeside⟩ := hs.atomic
    have hpending : pending s = own (some id) s.trace := by simp only [pending, hrouter]
    rw [hpending] at hperforms
    refine ⟨v, w, hserves, ?_, .refl⟩
    simp only [pending, hrouter, hself]
    exact hperforms.append (.answer o r ⟨s.world, hbeside, hsem⟩ (.refl _))

/-! ## Events of the router -/

variable {t : System}

theorem Sound.frontend (hs : Sound trie table cfg code sem world s) {req : Request}
    (h : HandlerSerialization.step trie table cfg s.system (.frontend req) = some t) :
    Sound trie table cfg code sem world { s with system := t } := by
  have hserial := hs.serial.step _ h
  simp only [HandlerSerialization.step] at h
  split at h
  · cases h
    exact ⟨hserial, hs.fits, hs.taken, hs.answered, hs.current, hs.results, hs.returned,
      hs.untouched, hs.ordered, hs.accounted, hs.atomic⟩
  · cases h

theorem Accounted.taken_append {k : ℕ} {a : Except String Response}
    (h : Accounted trie table s k a) {more : List Request} {t : System}
    {answers : List (Except String Response)} :
    Accounted trie table
      { s with system := t, taken := s.taken ++ more, answers := answers } k a := by
  obtain ⟨req, hreq, hcase⟩ := h
  have hlt := (List.getElem?_eq_some_iff.mp hreq).1
  exact ⟨req, (List.getElem?_append_left hlt).trans hreq, hcase⟩

theorem Sound.dequeue (hs : Sound trie table cfg code sem world s)
    (h : HandlerSerialization.step trie table cfg s.system .dequeue = some t)
    (hu : s.follow trie table cfg code t .dequeue = some u) :
    Sound trie table cfg code sem world u := by
  have hserial := hs.serial.step _ h
  simp only [HandlerSerialization.step] at h
  split at h
  case h_2 => cases h
  next req rest hidle hrequests =>
  have hnumber : s.taken.length = s.system.dequeued := hs.taken
  have hanswered := hs.answered
  rw [hidle, unanswered] at hanswered
  have hnew : own (some s.taken.length) s.trace = [] := by
    apply hs.untouched
    intro hexecuted
    have hlt := hs.serial.bound _ (started_arrived hs.serial.conserved hexecuted)
    omega
  have hfits : List.Forall₂ (Fits trie table code (s.taken ++ [req]) s.trace)
      s.system.pool.workers s.tasks := hs.fits.imp fun _ _ hab => hab.mono [req] fun _ _ _ => rfl
  have hreturned : ∀ id r, (id, r) ∈ s.results → ∃ hreq vm vm',
      handed trie table (s.taken ++ [req]) id = some hreq ∧ Grown code vm ∧
        Passes (code.callLua vm hreq) (own (some id) s.trace) (.done (vm', r)) := by
    intro id r hr
    obtain ⟨hreq, vm, vm', hhanded, hrest⟩ := hs.returned id r hr
    exact ⟨hreq, vm, vm', handed_append hhanded _, hrest⟩
  obtain ⟨w, w', hserves, hperforms, hbeside⟩ := hs.atomic
  have hnone : pending s = [] := by simp only [pending, hidle]
  rw [hnone] at hperforms
  cases hperforms
  simp only [Service.follow, hrequests] at hu
  cases hdispatch : dispatch trie table req with
  | error e =>
      simp only [hdispatch, Option.some.injEq] at h hu
      subst h hu
      refine ⟨hserial, hfits, by simp [hnumber], ?_, ?_, hs.results, hreturned, hs.untouched,
        hs.ordered, ?_, ?_⟩
      · simp only [List.length_append, List.length_singleton, hidle, unanswered]
        omega
      · intro id hid
        simp [hidle] at hid
      · intro k a ha
        rcases lt_or_ge k s.answers.length with hk | hk
        · rw [List.getElem?_append_left hk] at ha
          exact (hs.accounted k a ha).taken_append
        · rw [List.getElem?_append_right hk, List.getElem?_singleton] at ha
          split at ha
          · next hzero =>
              cases ha
              have hk' : k = s.taken.length := by omega
              refine ⟨req, by rw [hk', List.getElem?_concat_length], .inl ⟨e, hdispatch, rfl, ?_⟩⟩
              rw [hk']
              exact hnew
          · cases ha
      · refine ⟨w, w, ?_, by simp only [pending, hidle]; exact .refl _, hbeside⟩
        rw [List.zip_append (by omega)]
        exact hserves.refused hdispatch
  | ok hreq =>
      simp only [hdispatch, Option.some.injEq] at h hu
      subst h hu
      refine ⟨hserial, hfits, by simp [hnumber], ?_, ?_, hs.results, hreturned, hs.untouched,
        hs.ordered, fun k a ha => (hs.accounted k a ha).taken_append, ?_⟩
      · simp only [List.length_append, List.length_singleton, unanswered]
        omega
      · intro id hid
        obtain rfl : id = s.system.dequeued := by simpa [eq_comm] using hid
        refine ⟨by simp [hnumber], hreq, ?_⟩
        rw [← hnumber, handed, List.getElem?_concat_length, Option.bind_some, hdispatch]
        rfl
      · have hzip : (s.taken ++ [req]).zip s.answers = s.taken.zip s.answers := by
          simpa using @List.zip_append _ _ s.taken [req] s.answers [] (by omega)
        exact ⟨w, w, by rw [hzip]; exact hserves, .refl _, hbeside⟩

theorem Sound.send (hs : Sound trie table cfg code sem world s)
    (h : HandlerSerialization.step trie table cfg s.system .send = some t) :
    Sound trie table cfg code sem world { s with system := t } := by
  have hserial := hs.serial.step _ h
  simp only [HandlerSerialization.step] at h
  split at h
  case h_2 => cases h
  next id hsending =>
  obtain ⟨q, hq, rfl⟩ := Option.map_eq_some_iff.mp h
  have hrouter := hs.serial.router
  rw [hsending] at hrouter
  have hnew : own (some id) s.trace = [] := by
    apply hs.untouched
    intro hexecuted
    have hlt := hrouter.2.2 _ (started_arrived hs.serial.conserved hexecuted)
    omega
  have hanswered := hs.answered
  rw [hsending] at hanswered
  obtain ⟨w, w', hserves, hperforms, hbeside⟩ := hs.atomic
  have hnone : pending s = [] := by simp only [pending, hsending]
  rw [hnone] at hperforms
  cases Pool.step_moves hq with
  | arrive _ _ _ =>
      refine ⟨hserial, hs.fits, hs.taken, hanswered, ?_, hs.results, hs.returned, hs.untouched,
        hs.ordered, hs.accounted, ⟨w, w', hserves, ?_, hbeside⟩⟩
      · intro a ha
        obtain rfl : id = a := by simpa using ha
        exact hs.current id (.inl hsending)
      · simp only [pending, hnew]
        exact hperforms

theorem lookup_results {results : List (ℕ × Reply)} {id : ℕ} :
    (∃ r, results.lookup id = some r ∧ (id, r) ∈ results) ∨
      (results.lookup id = none ∧ id ∉ results.map Prod.fst) := by
  induction results with
  | nil => exact .inr ⟨rfl, by simp⟩
  | cons x results ih =>
      obtain ⟨a, r⟩ := x
      by_cases ha : id = a
      · subst ha
        exact .inl ⟨r, by simp [List.lookup], by simp⟩
      · have hskip : ((a, r) :: results).lookup id = results.lookup id := by
          simp [List.lookup, beq_eq_false_iff_ne.mpr ha]
        rw [hskip]
        rcases ih with ⟨r', hr', hmem⟩ | ⟨hr', hmem⟩
        · exact .inl ⟨r', hr', by simp [hmem]⟩
        · exact .inr ⟨hr', by simpa [ha] using hmem⟩

theorem respond_error (trie : Trie) (table : PatternMap) (req : Request) (e : String) :
    respond trie table req (.error e) = .error e := by
  unfold respond
  split <;> rfl

theorem Sound.resolve (hs : Sound trie table cfg code sem world s)
    (h : HandlerSerialization.step trie table cfg s.system .resolve = some t)
    (hu : s.follow trie table cfg code t .resolve = some u) :
    Sound trie table cfg code sem world u := by
  have hserial := hs.serial.step _ h
  simp only [HandlerSerialization.step] at h
  split at h
  case h_2 => cases h
  next id hawaiting =>
  split at h
  case isFalse => cases h
  next hresolved =>
  cases h
  simp only [Service.follow, hawaiting] at hu
  obtain ⟨req, hreq, rfl⟩ := Option.map_eq_some_iff.mp hu
  obtain ⟨hnumber, hreq', hhanded⟩ := hs.current id (.inr hawaiting)
  have hanswered := hs.answered
  rw [hawaiting, unanswered] at hanswered
  have hid : id = s.answers.length := by omega
  have hdispatch : dispatch trie table req = .ok hreq' := by
    rw [handed, hreq, Option.bind_some] at hhanded
    cases hcase : dispatch trie table req with
    | error e => rw [hcase] at hhanded; cases hhanded
    | ok a => rw [hcase] at hhanded; cases hhanded; rfl
  obtain ⟨w, w', hserves, hperforms, hbeside⟩ := hs.atomic
  have hpending : pending s = own (some id) s.trace := by simp only [pending, hawaiting]
  rw [hpending] at hperforms
  have hzip : s.taken.zip (s.answers ++ [respond trie table req (s.outcome id)]) =
      s.taken.zip s.answers ++ [(req, respond trie table req (s.outcome id))] := by
    obtain ⟨before, last, htaken⟩ : ∃ before last, s.taken = before ++ [last] := by
      refine ⟨s.taken.dropLast, s.taken.getLast ?_, (List.dropLast_append_getLast _).symm⟩
      rintro hnil
      simp [hnil] at hreq
    have hlength : before.length = s.answers.length := by
      have hcount := congrArg List.length htaken
      rw [List.length_append, List.length_singleton] at hcount
      omega
    have hlast : last = req := by
      rw [htaken, hid, ← hlength, List.getElem?_concat_length] at hreq
      exact Option.some.inj hreq
    have hshort := @List.zip_append _ _ before [last] s.answers [] hlength
    rw [htaken, List.zip_append hlength, hlast]
    rw [hlast] at hshort
    simpa using hshort.symm
  have hlength : (s.answers ++ [respond trie table req (s.outcome id)]).length + unanswered .idle =
      s.taken.length := by
    rw [List.length_append, List.length_singleton, unanswered]
    omega
  have hcurrent : ∀ a, RouterState.idle = .sending a ∨ RouterState.idle = .awaiting a →
      a + 1 = s.taken.length ∧ ∃ hreq, handed trie table s.taken a = some hreq := by
    rintro a (ha | ha) <;> cases ha
  have haccounted : Accounted trie table s id (respond trie table req (s.outcome id)) →
      ∀ k a, (s.answers ++ [respond trie table req (s.outcome id)])[k]? = some a →
        Accounted trie table s k a := by
    intro hlast k a ha
    rcases lt_or_ge k s.answers.length with hk | hk
    · rw [List.getElem?_append_left hk] at ha
      exact hs.accounted k a ha
    · rw [List.getElem?_append_right hk, List.getElem?_singleton] at ha
      split at ha
      · next hzero =>
          cases ha
          have hk' : k = id := by omega
          rw [hk']
          exact hlast
      · cases ha
  -- The reply is the result of the call, or nothing was executed for the request.
  rcases @lookup_results s.results id with ⟨r, hr, hmem⟩ | ⟨hr, hmem⟩
  · have houtcome : s.outcome id = r := by rw [Service.outcome, hr]
    refine ⟨hserial, hs.fits, hs.taken, hlength, hcurrent, hs.results, hs.returned,
      hs.untouched, hs.ordered, haccounted ?_, w', w', ?_, .refl _, hbeside⟩
    · exact ⟨req, hreq, .inr ⟨hreq', hdispatch, .inl ⟨r, hmem, by rw [houtcome]⟩⟩⟩
    · obtain ⟨hreq₂, vm, vm', hhanded₂, hvm, hpasses⟩ := hs.returned id r hmem
      obtain rfl := Option.some.inj (hhanded.symm.trans hhanded₂)
      rw [hzip, houtcome]
      exact hserves.called hdispatch hvm hpasses hperforms
  · rw [hs.results] at hmem
    obtain ⟨hnot, _⟩ := failed_not_started hs.serial.conserved (hresolved.resolve_left hmem)
    have hempty := hs.untouched id hnot
    rw [hempty] at hperforms
    cases hperforms
    have hlost : ∃ e, s.outcome id = .error e ∧
        (e = "no workers available" ∨ e = "handler did not respond") := by
      simp only [Service.outcome, hr]
      split
      · exact ⟨_, rfl, .inl rfl⟩
      · exact ⟨_, rfl, .inr rfl⟩
    obtain ⟨e, houtcome, he⟩ := hlost
    refine ⟨hserial, hs.fits, hs.taken, hlength, hcurrent, hs.results, hs.returned,
      hs.untouched, hs.ordered, haccounted ?_, w, w, ?_, .refl _, hbeside⟩
    · refine ⟨req, hreq, .inr ⟨hreq', hdispatch, .inr ⟨hempty, ?_⟩⟩⟩
      rw [houtcome, respond_error]
      exact he.imp (congrArg _) (congrArg _)
    · rw [hzip, houtcome, respond_error]
      exact hserves.lost hdispatch he

/-! ## Events of the pool -/

/-- What the events of the pool leave alone. -/
theorem Sound.pool (hs : Sound trie table cfg code sem world s) {e : PoolEvent} {q : Pool}
    (he : ∀ id, e ≠ .arrive id) (hq : s.system.pool.step cfg e = some q)
    {tasks : List (Task S V)} {results : List (ℕ × Reply)} {refused : List ℕ}
    (hfits : List.Forall₂ (Fits trie table code s.taken s.trace) q.workers tasks)
    (hmore : ∀ x ∈ s.results, x ∈ results)
    (hresults : results.map Prod.fst = q.replied)
    (hreturned : ∀ id r, (id, r) ∈ results → ∃ hreq vm vm',
      handed trie table s.taken id = some hreq ∧ Grown code vm ∧
        Passes (code.callLua vm hreq) (own (some id) s.trace) (.done (vm', r)))
    (hexecuted : ∀ id ∈ s.system.pool.executed, id ∈ q.executed) :
    Sound trie table cfg code sem world { s with
      system := { s.system with pool := q }, tasks := tasks, results := results,
      refused := refused } := by
  refine ⟨hs.serial.pool he hq, hfits, hs.taken, hs.answered, hs.current, hresults, hreturned,
    fun id hid => hs.untouched id fun h => hid (hexecuted id h), hs.ordered, ?_, hs.atomic⟩
  intro k a ha
  obtain ⟨req, hreq, hcase⟩ := hs.accounted k a ha
  refine ⟨req, hreq, hcase.imp_right ?_⟩
  rintro ⟨hreq', hdispatch, hrest⟩
  refine ⟨hreq', hdispatch, hrest.imp_left ?_⟩
  rintro ⟨r, hr, hanswer⟩
  exact ⟨r, hmore _ hr, hanswer⟩

theorem system_pool {s : System} {e : PoolEvent}
    (h : HandlerSerialization.step trie table cfg s (.pool e) = some t) :
    (∀ id, e ≠ .arrive id) ∧ ∃ q, s.pool.step cfg e = some q ∧ t = { s with pool := q } := by
  cases e with
  | arrive id => cases h
  | _ =>
      simp only [HandlerSerialization.step] at h
      obtain ⟨q, hq, rfl⟩ := Option.map_eq_some_iff.mp h
      exact ⟨by simp, q, hq, rfl⟩

theorem dispatch_history (h : p.dispatch cfg = some q) :
    q.replied = p.replied ∧ q.executed = p.executed := by
  obtain ⟨_, _, _, ⟨_, rfl⟩ | ⟨_, _, _, _, ⟨_, _, rfl⟩ | ⟨_, rfl⟩⟩⟩ := Pool.dispatch_cases h
  · exact ⟨rfl, rfl⟩
  · exact ⟨rfl, rfl⟩
  · exact ⟨rfl, rfl⟩

theorem Sound.poolEvent (hs : Sound trie table cfg code sem world s) {e : PoolEvent}
    (h : HandlerSerialization.step trie table cfg s.system (.pool e) = some t)
    (hu : s.follow trie table cfg code t (.pool e) = some u) :
    Sound trie table cfg code sem world u := by
  obtain ⟨he, q, hq, rfl⟩ := system_pool h
  have hmoves := Pool.step_moves hq
  cases hmoves with
  | arrive id _ _ => exact absurd rfl (he id)
  | dispatch q hdispatch =>
      cases hu
      obtain ⟨hreplied, hexecuted⟩ := dispatch_history hdispatch
      refine hs.pool he hq (fits_dispatch hs.fits hdispatch) (fun _ hx => hx) ?_ hs.returned ?_
      · rw [hreplied]
        exact hs.results
      · rw [hexecuted]
        exact fun _ hid => hid
  | tick =>
      cases hu
      exact hs.pool he hq (fits_tick hs.fits) (fun _ hx => hx) hs.results hs.returned
        fun _ hid => hid
  | built i queue hw =>
      obtain ⟨task, htask, hfits⟩ := forall₂_getElem? hs.fits hw
      simp only [Service.follow, htask] at hu
      split at hu
      case h_2 => cases hu
      next vm hdone =>
      cases hu
      cases hdone
      refine hs.pool he hq (forall₂_set hs.fits i ?_) (fun _ hx => hx) hs.results hs.returned
        fun _ hid => hid
      cases hfits with
      | building _ hp => exact .ready queue (.built hp)
  | buildFailed i queue hw =>
      obtain ⟨task, htask, hfits⟩ := forall₂_getElem? hs.fits hw
      simp only [Service.follow, htask] at hu
      split at hu
      case h_2 => cases hu
      cases hu
      exact hs.pool he hq (forall₂_set hs.fits i .exited) (fun _ hx => hx) hs.results hs.returned
        fun _ hid => hid
  | take i id queue hw =>
      obtain ⟨task, htask, hfits⟩ := forall₂_getElem? hs.fits hw
      simp only [Service.follow, htask, hw] at hu
      split at hu
      case h_2 => cases hu
      next vm hvm hidle =>
      cases hvm
      cases hidle
      obtain ⟨hreq, hhanded, rfl⟩ := Option.map_eq_some_iff.mp hu
      have hnew : own (some id) s.trace = [] := by
        apply hs.untouched
        intro hexecuted
        exact (executed_ne_queued hs.serial.conserved hw (by simp [Worker.queued]) hexecuted).2 rfl
      refine hs.pool he hq (forall₂_set hs.fits i ?_) (fun _ hx => hx) hs.results hs.returned
        fun _ hid => List.mem_append_left _ hid
      cases hfits with
      | ready _ hgrown =>
          refine .calling id queue hhanded hgrown ?_
          rw [hnew]
          exact .refl _
  | complete i id queue hw =>
      obtain ⟨task, htask, hfits⟩ := forall₂_getElem? hs.fits hw
      simp only [Service.follow, htask, hw] at hu
      split at hu
      case h_2 => cases hu
      next vm r hdone hrunning =>
      cases hdone
      cases hrunning
      cases hu
      cases hfits with
      | calling _ _ hhanded hgrown hp =>
          refine hs.pool he hq (forall₂_set hs.fits i (.ready queue (.called hgrown hp)))
            (fun _ hx => List.mem_append_left _ hx) ?_ ?_ fun _ hid => hid
          · simp [hs.results]
          · intro a res ha
            rcases List.mem_append.mp ha with ha | ha
            · exact hs.returned a res ha
            · obtain ⟨rfl, rfl⟩ := Prod.mk.inj (List.mem_singleton.mp ha)
              exact ⟨_, _, _, hhanded, hgrown, hp⟩
  | expire i queue hw =>
      cases hu
      exact hs.pool he hq (forall₂_set hs.fits i .exited) (fun _ hx => hx) hs.results hs.returned
        fun _ hid => hid
  | finish i hw =>
      cases hu
      obtain ⟨task, htask, hfits⟩ := forall₂_getElem? hs.fits hw
      have hfinished : Fits trie table code s.taken s.trace .finished task := by
        cases hfits with
        | exited => exact .finished
      have htasks := forall₂_set hs.fits i hfinished
      rw [set_getElem?_self htask] at htasks
      exact hs.pool he hq htasks (fun _ hx => hx) hs.results hs.returned fun _ hid => hid

theorem Sound.step (hs : Sound trie table cfg code sem world s)
    (h : Step trie table cfg code sem s u) : Sound trie table cfg code sem world u := by
  cases h with
  | system e h hu =>
      cases e with
      | frontend req =>
          cases hu
          exact hs.frontend h
      | dequeue => exact hs.dequeue h hu
      | send =>
          cases hu
          exact hs.send h
      | resolve => exact hs.resolve h hu
      | pool e => exact hs.poolEvent h hu
  | build i o next r htask hsem => exact hs.build htask hsem
  | call i id queue o next r hworker htask hsem => exact hs.call hworker htask hsem

theorem sound_of_reachable (h : Reachable trie table cfg code sem world s) :
    Sound trie table cfg code sem world s := by
  induction h with
  | start => exact sound_start sem world
  | step _ hstep ih => exact ih.step hstep

end

/-! ### One request -/

/-- A world with one counter, read and advanced by the only operation. -/
abbrev counter : Signature := ⟨Unit, fun _ => ℕ⟩

def counting : Semantics counter ℕ := fun _ n r n' => r = n ∧ n' = n + 1

/-- A handler that replies with one byte, the counter's. -/
def countingCode : LuaCode counter Unit where
  buildRuntime := .done (some ())
  callLua _ _ := .call () fun n => .done ((), .ok [UInt8.ofNat n])

def oneTable : PatternMap := mergeRoutes (compile (overlapping fun _ => ()))

def oneRequest : Request := ⟨.read, "/a", []⟩

theorem Reachable.system {S : Signature} {V σ : Type} {trie : Trie} {table : PatternMap}
    {cfg : WorkerConfig} {code : LuaCode S V} {sem : Semantics S σ} {world : σ}
    {s u : Service S V σ} {t : System} (hs : Reachable trie table cfg code sem world s)
    (e : SystemEvent) (h : HandlerSerialization.step trie table cfg s.system e = some t)
    (hu : s.follow trie table cfg code t e = some u) : Reachable trie table cfg code sem world u :=
  hs.step (.system e h hu)

/-- One request from the frontend to its answer. -/
theorem reachable_one : ∃ s : Service counter Unit ℕ,
    Reachable staticTrie oneTable ⟨1, 4⟩ countingCode counting 5 s ∧
      s.results = [(0, .ok [5])] ∧ s.world = 6 ∧ s.system.router = .idle ∧
      s.taken = [oneRequest] ∧ s.answers.length = 1 := by
  have h₀ : Reachable staticTrie oneTable ⟨1, 4⟩ countingCode counting 5
    (ServedRequests.start ⟨1, 4⟩ countingCode 5) := .start
  have h₁ := h₀.system (.frontend oneRequest) rfl rfl
  have h₂ := h₁.system .dequeue rfl rfl
  have h₃ := h₂.system .send rfl rfl
  have h₄ := h₃.system (.pool .dispatch) rfl rfl
  have h₅ := h₄.system (.pool (.built 0)) rfl rfl
  have h₆ := h₅.system (.pool (.take 0)) rfl rfl
  have h₇ := h₆.step (Step.call (S := counter) 0 0 [] ()
    (fun n => .done ((), .ok [UInt8.ofNat n])) (5 : ℕ) rfl rfl ⟨rfl, rfl⟩)
  have h₈ := h₇.system (.pool (.complete 0)) rfl rfl
  have h₉ := h₈.system .resolve rfl rfl
  exact ⟨_, h₉, rfl, rfl, rfl, rfl, rfl⟩

end Pinhead.ServedRequests
