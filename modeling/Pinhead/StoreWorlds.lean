import Pinhead.FrontendStack
import Pinhead.StoreSessions

/-!
# Handlers over the store

A handler's operations act on a world. Where one world stands for another, operation by
operation and with the same answers, the whole program over the one is the program over the
other: the frontends, the router and the workers see nothing but the answers.

The world here is what `doc.*` and `sql.*` act on. Every Lua state has a registry of its own,
and all of them work on the same files.
-/
namespace Pinhead.StoreWorlds
open FsRequests Resumption Histories RouteResolution WorkerPool HandlerSerialization
  ServedRequests AtomicCalls FrontendStack DocumentStore StoreSessions LuaJson

/-! ## One world for another -/

section
variable {T S : Signature} {ι τ V σ ρ : Type}

/-- The same service over another world. -/
def inWorld (s : Service S V σ) (v : ρ) : Service S V ρ where
  system := s.system
  tasks := s.tasks
  world := v
  trace := s.trace
  taken := s.taken
  results := s.results
  refused := s.refused
  answers := s.answers

def stackInWorld (s : Stack T ι τ S V σ) (v : ρ) : Stack T ι τ S V ρ where
  config := s.config
  owners := s.owners
  ticket := s.ticket
  trace := s.trace
  service := inWorld s.service v

variable {trie : Trie} {table : PatternMap} {cfg : WorkerConfig} {code : LuaCode S V}

theorem follow_inWorld (s : Service S V σ) (v : ρ) (t : System) (e : SystemEvent) :
    (inWorld s v).follow trie table cfg code t e =
      (s.follow trie table cfg code t e).map fun u => inWorld u v := by
  cases e with
  | frontend req => rfl
  | send => rfl
  | dequeue =>
      unfold Service.follow
      dsimp only [inWorld]
      split
      · rfl
      · split <;> rfl
  | resolve =>
      unfold Service.follow
      dsimp only [inWorld]
      split
      · rw [Option.map_map]
        rfl
      · rfl
  | pool e =>
      cases e with
      | dispatch => rfl
      | tick => rfl
      | expire i => rfl
      | built i =>
          unfold Service.follow
          dsimp only [inWorld]
          split <;> rfl
      | buildFailed i =>
          unfold Service.follow
          dsimp only [inWorld]
          split <;> rfl
      | take i =>
          unfold Service.follow
          dsimp only [inWorld]
          split
          · rw [Option.map_map]
            rfl
          · rfl
      | complete i =>
          unfold Service.follow
          dsimp only [inWorld]
          split <;> rfl
      | _ => rfl

/-- The events of the system leave the world alone. -/
theorem follow_world {s u : Service S V σ} {t : System} {e : SystemEvent}
    (h : s.follow trie table cfg code t e = some u) : u.world = s.world := by
  have hsame : s.follow trie table cfg code t e =
      (s.follow trie table cfg code t e).map fun u => inWorld u s.world :=
    follow_inWorld s s.world t e
  rw [h] at hsame
  rw [Option.some.inj hsame]
  rfl

variable {sem : Semantics S σ} {sem' : Semantics S ρ} {R : σ → ρ → Prop}

/-- Every operation on the one world is possible on the other, with the same answer. -/
def Stands (sem : Semantics S σ) (sem' : Semantics S ρ) (R : σ → ρ → Prop) : Prop :=
  ∀ o w r w' v, R w v → sem o w r w' → ∃ v', sem' o v r v' ∧ R w' v'

theorem step_inWorld (hR : Stands sem sem' R) {s u : Service S V σ} {v : ρ}
    (h : Step trie table cfg code sem s u) (hv : R s.world v) :
    ∃ v', Step trie table cfg code sem' (inWorld s v) (inWorld u v') ∧ R u.world v' := by
  cases h with
  | system e hstep hfollow =>
      refine ⟨v, .system e hstep ?_, ?_⟩
      · rw [follow_inWorld, hfollow]
        rfl
      · rw [follow_world hfollow]
        exact hv
  | build i o next r htask hsem =>
      obtain ⟨v', hsem', hv'⟩ := hR o _ r _ v hv hsem
      exact ⟨v', .build i o next r htask hsem', hv'⟩
  | call i id queue o next r hworker htask hsem =>
      obtain ⟨v', hsem', hv'⟩ := hR o _ r _ v hv hsem
      exact ⟨v', .call i id queue o next r hworker htask hsem', hv'⟩

variable [DecidableEq ι] {ask : Asking T Request (Except String Response)} {front : Semantics T τ}
  {c : Config T ι τ}

theorem stackStep_inWorld (hR : Stands sem sem' R) {s u : Stack T ι τ S V σ} {v : ρ}
    (h : StackStep ask front trie table cfg code sem s u) (hv : R s.service.world v) :
    ∃ v', StackStep ask front trie table cfg code sem' (stackInWorld s v) (stackInWorld u v') ∧
      R u.service.world v' := by
  cases h with
  | act i o next r x htask ho hfront => exact ⟨v, .act i o next r x htask ho hfront, hv⟩
  | send i o next req t htask hq hfree ht =>
      exact ⟨v, .send i o next req t htask hq hfree ht, hv⟩
  | sendElsewhere req t ht => exact ⟨v, .sendElsewhere req t ht, hv⟩
  | serve x hx hsent =>
      obtain ⟨v', hx', hv'⟩ := step_inWorld hR hx hv
      exact ⟨v', .serve (inWorld x v') hx' hsent, hv'⟩
  | receive i k o next req hq a htask hticket ha =>
      exact ⟨v, .receive i k o next req hq a htask hticket ha, hv⟩
  | giveUp i k o next req r htask hq hticket hle hr =>
      exact ⟨v, .giveUp i k o next req r htask hq hticket hle hr, hv⟩

/-- A run of the program over the one world is a run over the other. -/
theorem stack_inWorld (hR : Stands sem sem' R) {world : σ} {v₀ : ρ} (hstart : R world v₀)
    {s : Stack T ι τ S V σ}
    (h : StackReachable ask front trie table cfg code sem c world s) :
    ∃ v, StackReachable ask front trie table cfg code sem' c v₀ (stackInWorld s v) ∧
      R s.service.world v := by
  induction h with
  | start => exact ⟨v₀, .start, hstart⟩
  | step _ hstep ih =>
      obtain ⟨v, hreachable, hv⟩ := ih
      obtain ⟨v', hstep', hv'⟩ := stackStep_inWorld hR hstep hv
      exact ⟨v', hreachable.step hstep', hv'⟩

end

/-! ## Stores and tables of open files -/

/-- What handlers and scripts ask of the store: a registry for a new Lua state, or a call with
the registry of their own. -/
inductive StoreOp where
  | register
  | call (registry : ℕ) (c : ApiCall)

def StoreOp.Ret : StoreOp → Type
  | .register => ℕ
  | .call _ _ => Except String LuaValue

abbrev storeOps : Signature := ⟨StoreOp, StoreOp.Ret⟩

section
variable {sql : Sqlite} (lib : Libraries)

/-- The registries made so far, with the tasks behind them, and the files they share. -/
structure Stores (sql : Sqlite) where
  files : String → sql.Db
  made : ℕ
  registries : ℕ → Store sql

/-- A registry at work on the files as they are. -/
def Stores.at (w : Stores sql) (k : ℕ) : Store sql := { w.registries k with files := w.files }

/-- A registry has been at work. -/
def Stores.put (w : Stores sql) (k : ℕ) (s : Store sql) : Stores sql :=
  { w with files := s.files, registries := Function.update w.registries k s }

theorem Stores.at_put (w : Stores sql) (k j : ℕ) (s : Store sql) :
    (w.put k s).at j = if j = k then s else { w.at j with files := s.files } := by
  unfold Stores.at Stores.put
  dsimp only
  split
  · next hj => rw [hj, Function.update_self]
  · next hj => rw [Function.update_of_ne hj]

def Stores.new (files : String → sql.Db) : Stores sql :=
  ⟨files, 0, fun _ => ⟨files, ∅, 1, ∅, ∅⟩⟩

def storeSem : Semantics storeOps (Stores sql)
  | .register, w, r, w' => r = w.made ∧ w' = { w with made := w.made + 1 }
  | .call k c, w, r, w' =>
      r = (apiCall lib (w.at k) c).1 ∧ w' = w.put k (apiCall lib (w.at k) c).2

/-- The same files, and tables of those that are open. -/
structure Tables (sql : Sqlite) where
  files : String → sql.Db
  made : ℕ
  tables : ℕ → Sessions sql

def Tables.at (a : Tables sql) (k : ℕ) : Sessions sql := { a.tables k with files := a.files }

def Tables.put (a : Tables sql) (k : ℕ) (b : Sessions sql) : Tables sql :=
  { a with files := b.files, tables := Function.update a.tables k b }

theorem Tables.at_put (a : Tables sql) (k j : ℕ) (b : Sessions sql) :
    (a.put k b).at j = if j = k then b else { a.at j with files := b.files } := by
  unfold Tables.at Tables.put
  dsimp only
  split
  · next hj => rw [hj, Function.update_self]
  · next hj => rw [Function.update_of_ne hj]

def Tables.new (files : String → sql.Db) : Tables sql := ⟨files, 0, fun _ => ⟨files, ∅, 1⟩⟩

def tableSem : Semantics storeOps (Tables sql)
  | .register, a, r, a' => r = a.made ∧ a' = { a with made := a.made + 1 }
  | .call k c, a, r, a' =>
      r = ((a.at k).call lib c).1 ∧ a' = a.put k ((a.at k).call lib c).2

structure Kept (w : Stores sql) (a : Tables sql) : Prop where
  files : w.files = a.files
  made : w.made = a.made
  behind : ∀ k, Behind (a.at k) (w.at k)

variable {lib}

/-- Nothing of a registry depends on the contents of the files. -/
theorem behind_files {a : Sessions sql} {s : Store sql} (h : Behind a s) (files : String → sql.Db) :
    Behind { a with files := files } { s with files := files } :=
  ⟨rfl, h.nextId, h.handles, h.tasks, h.bound⟩

theorem kept_new (files : String → sql.Db) : Kept (Stores.new files) (Tables.new files) :=
  ⟨rfl, rfl, fun k => behind_start (s := (Stores.new files).at k) rfl⟩

/-- One operation of one Lua state. The registries of the others see it in the files only. -/
theorem stores_stand : Stands (storeSem lib) (tableSem lib) (@Kept sql) := by
  intro o w r w' a h hsem
  cases o with
  | register =>
      obtain ⟨rfl, rfl⟩ := hsem
      exact ⟨{ a with made := a.made + 1 }, ⟨h.made, rfl⟩, h.files, congrArg (· + 1) h.made,
        h.behind⟩
  | call k c =>
      obtain ⟨rfl, rfl⟩ := hsem
      obtain ⟨hresult, hbehind⟩ := (h.behind k).call lib c
      refine ⟨_, ⟨hresult, rfl⟩, hbehind.files, h.made, fun j => ?_⟩
      rw [Tables.at_put, Stores.at_put]
      split
      · exact hbehind
      · rw [hbehind.files]
        exact behind_files (h.behind j) _

end

def settingCode : LuaCode storeOps ℕ where
  buildRuntime := .call (S := storeOps) .register fun k : ℕ =>
    .call (S := storeOps) (.call k (.docOpen "data.db")) fun _ => .done (some k)
  callLua k _ := .call (S := storeOps) (.call k (.docSet 1 "k" (.integer 1))) fun _ =>
    .done (k, .ok [])

theorem stack_setting :
    ∃ s : Stack NinepShared.ninep Unit NinepShared.Shared storeOps ℕ (Stores documentsOnly),
      StackReachable ninepAsking (NinepShared.semantics NinepRuns.anyRouter) staticTrie oneTable
          ⟨1, 4⟩ settingCode (storeSem someLibraries) oneConnection (.new emptyStore.files) s ∧
        s.trace.length = 1 ∧ s.service.trace.length = 3 := by
  have h₀ : StackReachable ninepAsking (NinepShared.semantics NinepRuns.anyRouter) staticTrie
    oneTable ⟨1, 4⟩ settingCode (@storeSem documentsOnly someLibraries) oneConnection
    (.new emptyStore.files) (started ⟨1, 4⟩ settingCode oneConnection (.new emptyStore.files)) :=
      .start
  have h₁ := h₀.step (.send () _ _ oneRequest _ rfl rfl rfl rfl)
  have h₂ := h₁.serve .dequeue rfl rfl rfl
  have h₃ := h₂.serve .send rfl rfl rfl
  have h₄ := h₃.serve (.pool .dispatch) rfl rfl rfl
  have h₅ := h₄.step (.serve _ (Step.build 0 _ _ _ rfl ⟨rfl, rfl⟩) rfl)
  have h₆ := h₅.step (.serve _ (Step.build 0 _ _ _ rfl ⟨rfl, rfl⟩) rfl)
  have h₇ := h₆.serve (.pool (.built 0)) rfl rfl rfl
  have h₈ := h₇.serve (.pool (.take 0)) rfl rfl rfl
  have h₉ := h₈.step (.serve _ (Step.call 0 0 [] _ _ _ rfl rfl ⟨rfl, rfl⟩) rfl)
  have h₁₀ := h₉.serve (.pool (.complete 0)) rfl rfl rfl
  have h₁₁ := h₁₀.serve .resolve rfl rfl rfl
  have h₁₂ := h₁₁.step (.receive () 0 _ _ oneRequest rfl _ rfl rfl rfl)
  exact ⟨_, h₁₂, rfl, rfl⟩

end Pinhead.StoreWorlds
