import Mathlib
import Pinhead.FsRequests

/-!
# From a script's registrations to the function a worker calls

The script runs twice. `compile` keeps the list of registrations and forgets the
functions; each worker keeps the functions, under names made from the length of
its own list, and forgets the registrations. The main program merges the
registrations by pattern and operation, the router looks a request up in the
merged table and sends a name, and the worker looks the name up in its functions.

Functions are values of an arbitrary type, a different one for each of the two
runs. The path trie is a parameter of which only one thing is used: the value it
returns was inserted for some pattern.
-/
namespace Pinhead.RouteResolution
open ByteStrings FsRequests

/-! ## Registration calls -/

/-- Values of a table of operations; a string may fail to be UTF-8. -/
inductive OpValue where
  | string (s : Option String)
  | other

/-- The `ops` argument of `route.register`. -/
inductive OpsValue where
  | nil
  | boolean (b : Bool)
  | string (s : Option String)
  | table (values : List OpValue)
  | other

def tableOps : List OpValue → Except String (List String)
  | [] => .ok []
  | .string (some s) :: vs => (tableOps vs).map (s :: ·)
  | .string none :: _ => .error "invalid utf-8"
  | .other :: vs => tableOps vs

def parseOps : OpsValue → Except String (List String)
  | .nil | .boolean true => .ok []
  | .string (some s) => .ok [s]
  | .string none => .error "invalid utf-8"
  | .table values => tableOps values
  | _ => .error "ops must be a string, table, nil, or true"

inductive Bundle where
  | read | write | readdir | create | unlink | lookup | getattr | open | release | mkdir | all

/-- The convenience wrappers of the `route` table; no operations mean all. -/
def Bundle.ops : Bundle → List String
  | .read => ["lookup", "getattr", "open", "read", "release", "flush"]
  | .write => ["lookup", "getattr", "open", "read", "write", "release", "flush", "fsync", "create"]
  | .readdir => ["lookup", "getattr", "opendir", "readdir", "releasedir"]
  | .create => ["lookup", "getattr", "create", "open", "read", "write", "release", "flush"]
  | .unlink => ["unlink", "lookup", "getattr"]
  | .lookup => ["lookup"]
  | .getattr => ["getattr"]
  | .open => ["open"]
  | .release => ["release"]
  | .mkdir => ["mkdir", "lookup", "getattr", "opendir", "readdir", "releasedir"]
  | .all => []

/-- One call of the script into the `route` table. An `invalid` call has arguments
of the wrong types and raises an error before anything else. -/
inductive Call (F : Type) where
  | invalid
  | register (pattern : String) (ops : OpsValue) (func : F)
  | bundle (b : Bundle) (pattern : String) (func : F)
  | bundleDefault (b : Bundle) (func : F)
  | default (func : F)

structure RouteRegistration where
  pattern : String
  handlerName : String
  ops : List String
  deriving DecidableEq, Repr

/-- What both runs of the script keep while it executes. -/
structure Registrar (F : Type) where
  routes : List RouteRegistration
  funcs : AList fun _ : String => F
  defaultHandler : Option F

def routeName (n : ℕ) : String := "__route_" ++ toString n

namespace Registrar
variable {F : Type}

def new : Registrar F := ⟨[], ∅, none⟩

/-- The common end of every registering call. -/
def push (s : Registrar F) (pattern : String) (ops : List String) (func : F) : Registrar F :=
  let name := routeName s.routes.length
  { s with
    routes := s.routes ++ [⟨pattern, name, ops⟩],
    funcs := s.funcs.insert name func }

/-- A call that raises an error leaves everything as it was. -/
def call (s : Registrar F) : Call F → Registrar F
  | .invalid => s
  | .register pattern ops func =>
      match parseOps ops with
      | .ok ops => s.push pattern ops func
      | .error _ => s
  | .bundle b pattern func => s.push pattern b.ops func
  | .bundleDefault b func => s.push "/\x7b*path\x7d" b.ops func
  | .default func => { s with defaultHandler := some func }

def run (calls : List (Call F)) : Registrar F := calls.foldl call new

end Registrar

/-- The registrations that the compiled script hands to the main program. -/
def compile {F : Type} (calls : List (Call F)) : List RouteRegistration :=
  (Registrar.run calls).routes

structure HandlerRuntime (F : Type) where
  funcs : AList fun _ : String => F
  defaultHandler : Option F

def HandlerRuntime.fromBytecodes {F : Type} (calls : List (Call F)) : HandlerRuntime F :=
  ⟨(Registrar.run calls).funcs, (Registrar.run calls).defaultHandler⟩

/-! ## The merged table -/

structure RouteMeta where
  handlers : AList fun _ : String => String
  pattern : String

abbrev PatternMap := AList fun _ : String => RouteMeta

/-- A registration without operations goes under the wildcard. -/
def mergeHandlers (handlers : AList fun _ : String => String) (r : RouteRegistration) :
    AList fun _ : String => String :=
  if r.ops = [] then handlers.insert "*" r.handlerName
  else r.ops.foldl (fun h op => h.insert op r.handlerName) handlers

def mergeRoute (table : PatternMap) (r : RouteRegistration) : PatternMap :=
  let routeMeta := (table.lookup r.pattern).getD ⟨∅, r.pattern⟩
  table.insert r.pattern { routeMeta with handlers := mergeHandlers routeMeta.handlers r }

def mergeRoutes (routes : List RouteRegistration) : PatternMap := routes.foldl mergeRoute ∅

/-! ## Dispatch -/

abbrev Params := List (String × String)

/-- The path trie once every pattern of the table has been inserted. -/
structure Trie where
  matchAt : PatternMap → String → Except String (RouteMeta × Params)
  inserted : ∀ {table : PatternMap} {path : String} {routeMeta : RouteMeta} {params : Params},
    matchAt table path = .ok (routeMeta, params) → ∃ p, table.lookup p = some routeMeta

structure HandlerRequest where
  params : Params
  data : Bytes
  handlerName : String

/-- A path has children when a name below it is matched by another pattern that
is no catch-all. -/
def hasChildren (trie : Trie) (table : PatternMap) (matchedPattern path : String) : Bool :=
  match trie.matchAt table (path ++ "/x") with
  | .ok (m, _) => m.pattern ≠ matchedPattern && !m.pattern.toList.contains '*'
  | .error _ => false

def isFileOperation : FsOperation → Bool
  | .openFile | .read | .write | .release => true
  | _ => false

/-- The request sent to the worker pool, or the error replied at once. -/
def dispatch (trie : Trie) (table : PatternMap) (req : Request) : Except String HandlerRequest :=
  match trie.matchAt table req.path with
  | .error e => .error ("no route matches `" ++ req.path ++ "`: " ++ e)
  | .ok (routeMeta, params) =>
      let children := hasChildren trie table routeMeta.pattern req.path
      match (routeMeta.handlers.lookup req.op.asStr).or (routeMeta.handlers.lookup "*") with
      | none => .error ("route `" ++ req.path ++ "` exists but no handler for op `" ++
          req.op.asStr ++ "` and no wildcard")
      | some handlerName =>
          if children && isFileOperation req.op then
            .error ("is a directory: `" ++ req.path ++ "`")
          else .ok ⟨params, req.data, handlerName⟩

/-- The function a worker calls for a request, with its two arguments; empty data
is passed as nil. -/
def HandlerRuntime.callLua {F : Type} (rt : HandlerRuntime F) (req : HandlerRequest) :
    Except String (F × Params × Option Bytes) :=
  let data := if req.data = [] then none else some req.data
  match rt.funcs.lookup req.handlerName with
  | some func => .ok (func, req.params, data)
  | none =>
      match rt.defaultHandler with
      | some func => .ok (func, req.params, data)
      | none => .error ("no handler for `" ++ req.handlerName ++ "` and no default handler")

/-- A request from the router to the worker: the function called, or the error
with which the request is answered without calling one. -/
def resolve {F : Type} (trie : Trie) (table : PatternMap) (rt : HandlerRuntime F)
    (req : Request) : Except String (F × Params × Option Bytes) := do
  let hreq ← dispatch trie table req
  rt.callLua hreq

/-! ## The registrations of a script -/

structure Registration (F : Type) where
  pattern : String
  ops : List String
  func : F

section
variable {F : Type}

/-- What a call registers, if it is accepted and registers anything. -/
def Call.registration : Call F → Option (Registration F)
  | .invalid => none
  | .register pattern ops func =>
      match parseOps ops with
      | .ok ops => some ⟨pattern, ops, func⟩
      | .error _ => none
  | .bundle b pattern func => some ⟨pattern, b.ops, func⟩
  | .bundleDefault b func => some ⟨"/\x7b*path\x7d", b.ops, func⟩
  | .default _ => none

def registrations (calls : List (Call F)) : List (Registration F) :=
  calls.filterMap Call.registration

/-- The route kept for the registration with index `k`. -/
def Registration.route (k : ℕ) (r : Registration F) : RouteRegistration :=
  ⟨r.pattern, routeName k, r.ops⟩

theorem routeName_injective {m n : ℕ} (h : routeName m = routeName n) : m = n :=
  Nat.repr_injective ((String.append_right_inj _).mp h)

namespace Registrar

theorem run_concat (calls : List (Call F)) (c : Call F) :
    run (calls ++ [c]) = (run calls).call c := by
  rw [run, List.foldl_append]
  rfl

theorem call_of_registration {s : Registrar F} {c : Call F} {r : Registration F}
    (h : c.registration = some r) : s.call c = s.push r.pattern r.ops r.func := by
  cases c with
  | invalid => cases h
  | register pattern ops func =>
      simp only [Call.registration] at h
      simp only [call]
      cases hops : parseOps ops with
      | error e => simp [hops] at h
      | ok parsed =>
          simp only [hops, Option.some.injEq] at h
          rw [← h]
  | bundle b pattern func =>
      cases h
      rfl
  | bundleDefault b func =>
      cases h
      rfl
  | default func => cases h

theorem call_of_none {s : Registrar F} {c : Call F} (h : c.registration = none) :
    (s.call c).routes = s.routes ∧ (s.call c).funcs = s.funcs := by
  cases c with
  | invalid => exact ⟨rfl, rfl⟩
  | register pattern ops func =>
      simp only [Call.registration] at h
      simp only [call]
      cases hops : parseOps ops with
      | error e => exact ⟨rfl, rfl⟩
      | ok parsed => simp [hops] at h
  | bundle b pattern func => cases h
  | bundleDefault b func => cases h
  | default func => exact ⟨rfl, rfl⟩

/-- The invariant of a whole script: names are indices, in the list of routes and
in the table of functions. -/
theorem run_spec (calls : List (Call F)) :
    (run calls).routes = (registrations calls).mapIdx Registration.route ∧
      ∀ k r, (registrations calls)[k]? = some r →
        (run calls).funcs.lookup (routeName k) = some r.func := by
  induction calls using List.reverseRecOn with
  | nil => exact ⟨rfl, fun k r h => by simp [registrations] at h⟩
  | append_singleton calls c ih =>
      obtain ⟨hroutes, hfuncs⟩ := ih
      have hregs : registrations (calls ++ [c]) =
          registrations calls ++ c.registration.toList := by
        simp [registrations, List.filterMap_append, List.filterMap_cons]
        cases c.registration <;> rfl
      rw [run_concat, hregs]
      cases hc : c.registration with
      | none =>
          obtain ⟨hsame, hfuncs'⟩ := call_of_none (s := run calls) hc
          rw [hsame, hfuncs', Option.toList_none, List.append_nil]
          exact ⟨hroutes, hfuncs⟩
      | some r =>
          have hlength : (run calls).routes.length = (registrations calls).length := by
            rw [hroutes, List.length_mapIdx]
          rw [call_of_registration hc, Option.toList_some, List.mapIdx_concat]
          constructor
          · rw [push, hroutes]
            simp [Registration.route]
          · intro k r' hk
            rw [push, hlength]
            by_cases hlast : k = (registrations calls).length
            · subst hlast
              rw [List.getElem?_concat_length] at hk
              cases hk
              exact AList.lookup_insert _
            · have hlt : k < (registrations calls).length := by
                have hbound := (List.getElem?_eq_some_iff.mp hk).1
                rw [List.length_append, List.length_singleton] at hbound
                omega
              rw [List.getElem?_append_left hlt] at hk
              rw [AList.lookup_insert_ne fun h => hlast (routeName_injective h)]
              exact hfuncs k r' hk

end Registrar

end

/-! ## Which registration wins -/

/-- `k` is the largest index of an element with `P`. -/
def LastIndex {A : Type} (P : A → Prop) (xs : List A) (k : ℕ) : Prop :=
  (∃ x, xs[k]? = some x ∧ P x) ∧ ∀ j x, k < j → xs[j]? = some x → ¬ P x

theorem lastIndex_concat {A : Type} {P : A → Prop} {xs : List A} {x : A} {k : ℕ}
    (h : LastIndex P (xs ++ [x]) k) : P x ∧ k = xs.length ∨ ¬ P x ∧ LastIndex P xs k := by
  obtain ⟨⟨y, hy, hPy⟩, hlast⟩ := h
  have hbound := (List.getElem?_eq_some_iff.mp hy).1
  rw [List.length_append, List.length_singleton] at hbound
  by_cases hk : k = xs.length
  · subst hk
    rw [List.getElem?_concat_length] at hy
    cases hy
    exact .inl ⟨hPy, rfl⟩
  · have hlt : k < xs.length := by omega
    rw [List.getElem?_append_left hlt] at hy
    have hx : ¬ P x := hlast xs.length x hlt List.getElem?_concat_length
    have hlast' : ∀ j z, k < j → xs[j]? = some z → ¬ P z := by
      intro j z hj hz
      have hjlt := (List.getElem?_eq_some_iff.mp hz).1
      exact hlast j z hj (by rw [List.getElem?_append_left hjlt]; exact hz)
    exact .inr ⟨hx, ⟨y, hy, hPy⟩, hlast'⟩

theorem exists_lastIndex {A : Type} {P : A → Prop} {xs : List A} (h : ∃ x ∈ xs, P x) :
    ∃ k x, xs[k]? = some x ∧ LastIndex P xs k := by
  induction xs with
  | nil => simp at h
  | cons y ys ih =>
      by_cases htail : ∃ x ∈ ys, P x
      · obtain ⟨k, x, hk, ⟨⟨z, hz, hPz⟩, hlast⟩⟩ := ih htail
        have hlast' : ∀ j w, k + 1 < j → (y :: ys)[j]? = some w → ¬ P w := by
          intro j w hj hw
          cases j with
          | zero => omega
          | succ j => exact hlast j w (by omega) hw
        exact ⟨k + 1, x, hk, ⟨z, hz, hPz⟩, hlast'⟩
      · have hy : P y := by
          obtain ⟨x, hx, hPx⟩ := h
          rcases List.mem_cons.mp hx with rfl | hx
          · exact hPx
          · exact absurd ⟨x, hx, hPx⟩ htail
        have hlast : ∀ j w, 0 < j → (y :: ys)[j]? = some w → ¬ P w := by
          intro j w hj hw hPw
          cases j with
          | zero => omega
          | succ j => exact htail ⟨w, List.mem_of_getElem? hw, hPw⟩
        exact ⟨0, y, rfl, ⟨y, rfl, hy⟩, hlast⟩

/-- Elements rebuilt with their index keep their order. -/
theorem LastIndex.mapIdx {A B : Type} {P : A → Prop} {Q : B → Prop} {f : ℕ → A → B}
    (hf : ∀ k x, Q (f k x) ↔ P x) {xs : List A} {k : ℕ} (h : LastIndex P xs k) :
    LastIndex Q (xs.mapIdx f) k := by
  obtain ⟨⟨x, hx, hP⟩, hlast⟩ := h
  constructor
  · exact ⟨f k x, by rw [List.getElem?_mapIdx, hx]; rfl, (hf k x).mpr hP⟩
  · intro j y hj hy hQ
    rw [List.getElem?_mapIdx] at hy
    obtain ⟨z, hz, rfl⟩ := Option.map_eq_some_iff.mp hy
    exact hlast j z hj hz ((hf j z).mp hQ)

/-- The keys under which a registration is merged. -/
def keys (ops : List String) : List String := if ops = [] then ["*"] else ops

theorem lookup_foldl_insert (name key : String) (ops : List String)
    (h : AList fun _ : String => String) :
    (ops.foldl (fun h op => h.insert op name) h).lookup key =
      if key ∈ ops then some name else h.lookup key := by
  induction ops generalizing h with
  | nil => simp
  | cons op ops ih =>
      rw [List.foldl_cons, ih]
      by_cases hmem : key ∈ ops
      · simp [hmem]
      · by_cases hkey : key = op
        · subst hkey
          simp [hmem]
        · simp [hmem, hkey, AList.lookup_insert_ne hkey]

theorem lookup_mergeHandlers (handlers : AList fun _ : String => String)
    (r : RouteRegistration) (key : String) :
    (mergeHandlers handlers r).lookup key =
      if key ∈ keys r.ops then some r.handlerName else handlers.lookup key := by
  unfold mergeHandlers keys
  by_cases hops : r.ops = []
  · rw [if_pos hops, if_pos hops]
    exact lookup_foldl_insert r.handlerName key ["*"] handlers
  · rw [if_neg hops, if_neg hops]
    exact lookup_foldl_insert r.handlerName key r.ops handlers

/-- The handler name that a table gives to a pattern and a key. -/
def handlerFor (table : PatternMap) (p key : String) : Option String :=
  (table.lookup p).bind fun routeMeta => routeMeta.handlers.lookup key

theorem handlerFor_mergeRoute (table : PatternMap) (r : RouteRegistration) (p key : String) :
    handlerFor (mergeRoute table r) p key =
      if r.pattern = p ∧ key ∈ keys r.ops then some r.handlerName else handlerFor table p key := by
  unfold handlerFor mergeRoute
  by_cases hp : r.pattern = p
  · subst hp
    rw [AList.lookup_insert, Option.bind_some, lookup_mergeHandlers]
    simp only [true_and]
    cases table.lookup r.pattern with
    | none => rfl
    | some routeMeta => rfl
  · rw [AList.lookup_insert_ne (Ne.symm hp)]
    simp [hp]

/-- One registration after another: the last one with the pattern and key wins. -/
theorem handlerFor_mergeRoutes (routes : List RouteRegistration) (p key : String) :
    (∀ k r, routes[k]? = some r →
      LastIndex (fun r => r.pattern = p ∧ key ∈ keys r.ops) routes k →
        handlerFor (mergeRoutes routes) p key = some r.handlerName) ∧
    ((∀ r ∈ routes, ¬ (r.pattern = p ∧ key ∈ keys r.ops)) →
      handlerFor (mergeRoutes routes) p key = none) := by
  induction routes using List.reverseRecOn with
  | nil => exact ⟨fun k r h => by simp at h, fun _ => rfl⟩
  | append_singleton routes r ih =>
      have hstep : mergeRoutes (routes ++ [r]) = mergeRoute (mergeRoutes routes) r := by
        rw [mergeRoutes, List.foldl_append]
        rfl
      rw [hstep, handlerFor_mergeRoute]
      constructor
      · intro k r' hk hlast
        rcases lastIndex_concat hlast with ⟨hclaim, rfl⟩ | ⟨hnot, hlast'⟩
        · rw [List.getElem?_concat_length] at hk
          cases hk
          rw [if_pos hclaim]
        · have hlt : k < routes.length := by
            obtain ⟨⟨x, hx, _⟩, _⟩ := hlast'
            exact (List.getElem?_eq_some_iff.mp hx).1
          rw [List.getElem?_append_left hlt] at hk
          rw [if_neg hnot]
          exact ih.1 k r' hk hlast'
      · intro hnone
        rw [if_neg (hnone r (by simp))]
        exact ih.2 fun r' hr' => hnone r' (by simp [hr'])

theorem pattern_mergeRoutes (routes : List RouteRegistration) {p : String} {routeMeta : RouteMeta}
    (h : (mergeRoutes routes).lookup p = some routeMeta) : routeMeta.pattern = p := by
  induction routes using List.reverseRecOn generalizing routeMeta with
  | nil => simp [mergeRoutes] at h
  | append_singleton routes r ih =>
      rw [mergeRoutes, List.foldl_append, List.foldl_cons, List.foldl_nil, ← mergeRoutes,
        mergeRoute] at h
      by_cases hp : p = r.pattern
      · subst hp
        rw [AList.lookup_insert] at h
        cases hold : (mergeRoutes routes).lookup r.pattern with
        | none =>
            rw [hold] at h
            cases h
            rfl
        | some old =>
            have hpattern : old.pattern = r.pattern := ih hold
            rw [hold] at h
            cases h
            exact hpattern
      · rw [AList.lookup_insert_ne hp] at h
        exact ih h

/-- The patterns of the table are those that were registered. -/
theorem mem_mergeRoutes (routes : List RouteRegistration) (p : String) :
    p ∈ mergeRoutes routes ↔ ∃ r ∈ routes, r.pattern = p := by
  induction routes using List.reverseRecOn with
  | nil => simp [mergeRoutes]
  | append_singleton routes r ih =>
      rw [mergeRoutes, List.foldl_append, List.foldl_cons, List.foldl_nil, ← mergeRoutes,
        mergeRoute, AList.mem_insert, ih]
      simp only [List.mem_append, List.mem_singleton, or_and_right, exists_or, exists_eq_left]
      rw [or_comm, eq_comm]

/-! ## End to end -/

section
variable {F G : Type}

/-- The registration names the operation for the pattern. -/
def Claims (p op : String) (r : Registration F) : Prop := r.pattern = p ∧ op ∈ r.ops

/-- The registration covers all operations of the pattern. -/
def Wildcard (p : String) (r : Registration F) : Prop :=
  r.pattern = p ∧ (r.ops = [] ∨ "*" ∈ r.ops)

theorem asStr_ne_wildcard (op : FsOperation) : op.asStr ≠ "*" := by
  cases op <;> decide

theorem mem_keys_asStr (op : FsOperation) (ops : List String) :
    op.asStr ∈ keys ops ↔ op.asStr ∈ ops := by
  unfold keys
  split
  · next h => simp [h, asStr_ne_wildcard op]
  · rfl

theorem mem_keys_wildcard (ops : List String) : "*" ∈ keys ops ↔ ops = [] ∨ "*" ∈ ops := by
  unfold keys
  split
  · next h => simp [h]
  · next h => simp [h]

/-- The two runs of a script make the same calls with their own functions. -/
def Call.shape : Call F → Call Unit
  | .invalid => .invalid
  | .register pattern ops _ => .register pattern ops ()
  | .bundle b pattern _ => .bundle b pattern ()
  | .bundleDefault b _ => .bundleDefault b ()
  | .default _ => .default ()

def Registration.shape (r : Registration F) : Registration Unit := ⟨r.pattern, r.ops, ()⟩

theorem registration_shape (c : Call F) :
    c.shape.registration = c.registration.map Registration.shape := by
  cases c with
  | register pattern ops func =>
      simp only [Call.shape, Call.registration]
      cases parseOps ops <;> rfl
  | _ => rfl

theorem registrations_shape (calls : List (Call F)) :
    registrations (calls.map Call.shape) = (registrations calls).map Registration.shape := by
  rw [registrations, registrations, List.filterMap_map, List.map_filterMap]
  congr 1
  funext c
  exact registration_shape c

theorem route_mapIdx_shape (calls : List (Call F)) :
    (registrations calls).mapIdx Registration.route =
      (registrations (calls.map Call.shape)).mapIdx Registration.route := by
  rw [registrations_shape]
  apply List.ext_getElem?
  intro k
  simp only [List.getElem?_mapIdx, List.getElem?_map, Option.map_map]
  rfl

theorem compile_shape {calls : List (Call F)} {calls' : List (Call G)}
    (h : calls.map Call.shape = calls'.map Call.shape) : compile calls = compile calls' := by
  rw [compile, compile, (Registrar.run_spec calls).1, (Registrar.run_spec calls').1,
    route_mapIdx_shape calls, route_mapIdx_shape calls', h]

/-- The table entry of a pattern and key, in terms of the registrations. -/
theorem handlerFor_compile (calls : List (Call F)) (p key : String) :
    (∀ k r, (registrations calls)[k]? = some r →
      LastIndex (fun r : Registration F => r.pattern = p ∧ key ∈ keys r.ops)
        (registrations calls) k →
        handlerFor (mergeRoutes (compile calls)) p key = some (routeName k)) ∧
    ((∀ r ∈ registrations calls, ¬ (r.pattern = p ∧ key ∈ keys r.ops)) →
      handlerFor (mergeRoutes (compile calls)) p key = none) := by
  obtain ⟨hsome, hnone⟩ := handlerFor_mergeRoutes (compile calls) p key
  rw [compile, (Registrar.run_spec calls).1] at hsome hnone ⊢
  constructor
  · intro k r hk hlast
    apply hsome k (r.route k)
    · rw [List.getElem?_mapIdx, hk]
      rfl
    · apply hlast.mapIdx
      intro j x
      exact Iff.rfl
  · intro h
    apply hnone
    intro route hroute
    obtain ⟨k, hk, rfl⟩ := List.mem_mapIdx.mp hroute
    exact h _ (List.getElem_mem hk)

/-- Looking an operation up in the merged entry of a pattern. -/
theorem lookup_handlers {trie : Trie} {routes : List RouteRegistration} {path : String}
    {routeMeta : RouteMeta} {params : Params}
    (h : trie.matchAt (mergeRoutes routes) path = .ok (routeMeta, params)) (key : String) :
    routeMeta.handlers.lookup key = handlerFor (mergeRoutes routes) routeMeta.pattern key := by
  obtain ⟨p, hp⟩ := trie.inserted h
  have hpattern := pattern_mergeRoutes routes hp
  rw [handlerFor, hpattern, hp]
  rfl

theorem callLua_registered (calls : List (Call F)) {k : ℕ} {r : Registration F}
    (h : (registrations calls)[k]? = some r) (params : Params) (data : Bytes) :
    (HandlerRuntime.fromBytecodes calls).callLua ⟨params, data, routeName k⟩ =
      .ok (r.func, params, if data = [] then none else some data) := by
  have hlookup : (HandlerRuntime.fromBytecodes calls).funcs.lookup (routeName k) = some r.func :=
    (Registrar.run_spec calls).2 k r h
  unfold HandlerRuntime.callLua
  rw [hlookup]

/-- Every name in the merged table is the name of some registration. -/
theorem handlerFor_registered {calls : List (Call F)} {p key name : String}
    (h : handlerFor (mergeRoutes (compile calls)) p key = some name) :
    ∃ k r, (registrations calls)[k]? = some r ∧ name = routeName k := by
  obtain ⟨hsome, hnone⟩ := handlerFor_compile calls p key
  by_cases hclaim : ∃ r ∈ registrations calls, r.pattern = p ∧ key ∈ keys r.ops
  · obtain ⟨k, r, hk, hlast⟩ := exists_lastIndex hclaim
    have hname := hsome k r hk hlast
    rw [h] at hname
    exact ⟨k, r, hk, Option.some.inj hname⟩
  · rw [hnone fun r hr hr' => hclaim ⟨r, hr, hr'⟩] at h
    cases h

/-- The name that dispatch sends on comes from the merged table. -/
theorem dispatch_handlerFor {trie : Trie} {routes : List RouteRegistration} {req : Request}
    {hreq : HandlerRequest} (h : dispatch trie (mergeRoutes routes) req = .ok hreq) :
    ∃ p key, handlerFor (mergeRoutes routes) p key = some hreq.handlerName := by
  unfold dispatch at h
  cases hmatch : trie.matchAt (mergeRoutes routes) req.path with
  | error e =>
      rw [hmatch] at h
      cases h
  | ok m =>
      obtain ⟨routeMeta, params⟩ := m
      rw [hmatch] at h
      dsimp only at h
      rw [lookup_handlers hmatch, lookup_handlers hmatch] at h
      cases hname : (handlerFor (mergeRoutes routes) routeMeta.pattern req.op.asStr).or
          (handlerFor (mergeRoutes routes) routeMeta.pattern "*") with
      | none =>
          rw [hname] at h
          cases h
      | some name =>
          rw [hname] at h
          dsimp only at h
          split at h
          · cases h
          · cases h
            rcases Option.or_eq_some_iff.mp hname with hop | ⟨_, hwild⟩
            · exact ⟨_, _, hop⟩
            · exact ⟨_, _, hwild⟩

/-- A matched request that is not refused as a directory goes to the name found
under its operation, else to the one under the wildcard. -/
theorem dispatch_matched {trie : Trie} {routes : List RouteRegistration} {req : Request}
    {routeMeta : RouteMeta} {params : Params}
    (hmatch : trie.matchAt (mergeRoutes routes) req.path = .ok (routeMeta, params))
    (hdir : (hasChildren trie (mergeRoutes routes) routeMeta.pattern req.path &&
      isFileOperation req.op) = false) :
    dispatch trie (mergeRoutes routes) req =
      match (handlerFor (mergeRoutes routes) routeMeta.pattern req.op.asStr).or
        (handlerFor (mergeRoutes routes) routeMeta.pattern "*") with
      | some name => .ok ⟨params, req.data, name⟩
      | none => .error ("route `" ++ req.path ++ "` exists but no handler for op `" ++
          req.op.asStr ++ "` and no wildcard") := by
  unfold dispatch
  rw [hmatch]
  dsimp only
  rw [lookup_handlers hmatch, lookup_handlers hmatch]
  cases (handlerFor (mergeRoutes routes) routeMeta.pattern req.op.asStr).or
      (handlerFor (mergeRoutes routes) routeMeta.pattern "*") with
  | none => rfl
  | some name => simp [hdir]

/-- The function called for a matched request is that of the last registration of
its pattern with its operation, else of the last one for all operations; without
either the request is answered with an error. The default handler of the worker
is never reached. -/
theorem route_resolution (trie : Trie) (calls : List (Call F)) (calls' : List (Call G))
    (same : calls.map Call.shape = calls'.map Call.shape) (req : Request) (routeMeta : RouteMeta)
    (params : Params)
    (hmatch : trie.matchAt (mergeRoutes (compile calls)) req.path = .ok (routeMeta, params))
    (hdir : (hasChildren trie (mergeRoutes (compile calls)) routeMeta.pattern req.path &&
      isFileOperation req.op) = false) :
    (∀ k r, (registrations calls')[k]? = some r →
      LastIndex (Claims routeMeta.pattern req.op.asStr) (registrations calls') k →
        resolve trie (mergeRoutes (compile calls)) (.fromBytecodes calls') req =
          .ok (r.func, params, if req.data = [] then none else some req.data)) ∧
    ((∀ r ∈ registrations calls', ¬ Claims routeMeta.pattern req.op.asStr r) →
      (∀ k r, (registrations calls')[k]? = some r →
        LastIndex (Wildcard routeMeta.pattern) (registrations calls') k →
          resolve trie (mergeRoutes (compile calls)) (.fromBytecodes calls') req =
            .ok (r.func, params, if req.data = [] then none else some req.data)) ∧
      ((∀ r ∈ registrations calls', ¬ Wildcard routeMeta.pattern r) →
        ∃ msg, resolve trie (mergeRoutes (compile calls)) (.fromBytecodes calls') req =
          .error msg)) ∧
    ∀ req' hreq, dispatch trie (mergeRoutes (compile calls)) req' = .ok hreq →
      ∃ func, (HandlerRuntime.fromBytecodes calls').funcs.lookup hreq.handlerName =
        some func := by
  rw [compile_shape same] at hmatch hdir ⊢
  have hdispatch := dispatch_matched hmatch hdir
  obtain ⟨hopSome, hopNone⟩ := handlerFor_compile calls' routeMeta.pattern req.op.asStr
  obtain ⟨hwildSome, hwildNone⟩ := handlerFor_compile calls' routeMeta.pattern "*"
  simp only [mem_keys_asStr] at hopSome hopNone
  simp only [mem_keys_wildcard] at hwildSome hwildNone
  have hcall : ∀ k r, (registrations calls')[k]? = some r →
      (handlerFor (mergeRoutes (compile calls')) routeMeta.pattern req.op.asStr).or
        (handlerFor (mergeRoutes (compile calls')) routeMeta.pattern "*") = some (routeName k) →
      resolve trie (mergeRoutes (compile calls')) (.fromBytecodes calls') req =
        .ok (r.func, params, if req.data = [] then none else some req.data) := by
    intro k r hk hname
    rw [hname] at hdispatch
    rw [resolve, hdispatch]
    exact callLua_registered calls' hk params req.data
  refine ⟨?_, ?_, ?_⟩
  · intro k r hk hlast
    exact hcall k r hk (by rw [hopSome k r hk hlast]; rfl)
  · intro hnone
    constructor
    · intro k r hk hlast
      exact hcall k r hk (by rw [hopNone hnone, hwildSome k r hk hlast]; rfl)
    · intro hwild
      rw [hopNone hnone, hwildNone hwild] at hdispatch
      rw [resolve, hdispatch]
      exact ⟨_, rfl⟩
  · intro req' hreq hok
    obtain ⟨p, key, hname⟩ := dispatch_handlerFor hok
    obtain ⟨k, r, hk, hroute⟩ := handlerFor_registered hname
    rw [hroute]
    exact ⟨r.func, (Registrar.run_spec calls').2 k r hk⟩

/-- A trie of patterns without parameters. -/
def staticTrie : Trie where
  matchAt table path :=
    match table.lookup path with
    | some routeMeta => .ok (routeMeta, [])
    | none => .error "not found"
  inserted := by
    intro table path routeMeta params h
    split at h
    · next m hm =>
        cases h
        exact ⟨path, hm⟩
    · cases h

/-- Three registrations of one path, with a rejected one in between. -/
def overlapping (func : ℕ → F) : List (Call F) :=
  [.register "/a" (.string (some "read")) (func 1), .register "/a" .other (func 2),
    .bundle .read "/a" (func 3), .bundle .all "/a" (func 4)]

/-- A read goes to the second registration, which is the last to name it. -/
theorem route_resolution_overlapping :
    resolve staticTrie (mergeRoutes (compile (overlapping fun _ => ())))
      (.fromBytecodes (overlapping id)) ⟨.read, "/a", [7]⟩ = .ok (3, [], some [7]) := by
  have h := route_resolution staticTrie (overlapping fun _ => ()) (overlapping id) rfl
    ⟨.read, "/a", [7]⟩ _ [] rfl (by decide)
  have hlast : LastIndex (Claims "/a" "read") (registrations (overlapping id)) 1 := by
    refine ⟨⟨⟨"/a", Bundle.ops .read, 3⟩, rfl, rfl, by decide⟩, ?_⟩
    intro j r hj hr hclaim
    match j with
    | 2 =>
        cases hr
        exact absurd hclaim.2 (by decide)
    | j + 3 => cases hr
  exact h.1 1 ⟨"/a", Bundle.ops .read, 3⟩ rfl hlast

end

end Pinhead.RouteResolution
