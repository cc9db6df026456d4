import Pinhead.RouteResolution
import Pinhead.NinepShared

/-!
# The two executions of a script

The main program executes the script once, with tables of functions that set up the frontends
and the workers, and starts what the script asked for. Every worker executes it again, with
functions of the same names that do nothing. What a script does next may depend on everything
it was told before, so the two executions agree as long as they are told the same: a call into
the tables either returns nothing or raises an error, and only in the main program can a setup
call raise one.
-/
namespace Pinhead.ScriptRuns
open FsRequests Resumption RouteResolution NinepShared

/-! ## Setup calls -/

/-- An argument of the wrong type is none. -/
inductive SetupCall where
  | fuseMount (path : Option String)
  | fuseUnmount (path : Option String)
  | fuseUnmountall
  | ninepListen (addr : Option String)
  | ninepKill (addr : Option String)
  | ninepKillall
  | ninepTlsCert (path : Option String)
  | ninepTlsKey (path : Option String)
  | ninepConn (n : Option ℕ)
  | sshfsListen (addr : Option String)
  | sshfsKill (addr : Option String)
  | sshfsKillall
  | sshfsPassword (pw : Option String)
  | sshfsAuthorizedKeys (path : Option String)
  | sshfsUserpasswd (pair : Option (String × String))
  | sshfsConn (n : Option ℕ)
  | workerMin (n : Option ℕ)
  | workerMax (n : Option ℕ)
  | workerTtl (s : Option ℕ)
  deriving DecidableEq

structure Config where
  fuseMounts : List String
  ninepListeners : List String
  sshfsListeners : List String
  sshfsPassword : Option String
  sshfsAuthorizedKeysPath : Option String
  sshfsUserpasswds : List (String × String)
  tlsCertPath : Option String
  tlsKeyPath : Option String
  ninepMaxConns : Option ℕ
  sshfsMaxConns : Option ℕ
  deriving DecidableEq

structure WorkerConfig where
  minWorkers : ℕ
  maxWorkers : ℕ
  ttlSecs : ℕ
  deriving DecidableEq

structure Settings where
  config : Config
  workers : WorkerConfig
  deriving DecidableEq

def Config.default : Config := ⟨[], [], [], none, none, [], none, none, none, none⟩

def WorkerConfig.default : WorkerConfig := ⟨1, 4, 60⟩

def Settings.default : Settings := ⟨.default, .default⟩

/-- Remove every entry of the address. -/
def remove (addr : String) (book : List String) : List String := book.filter fun a => a ≠ addr

def Config.apply (c : Config) : SetupCall → Option Config
  | .fuseMount path => path.map fun p => { c with fuseMounts := c.fuseMounts ++ [p] }
  | .fuseUnmount path => path.map fun p => { c with fuseMounts := remove p c.fuseMounts }
  | .fuseUnmountall => some { c with fuseMounts := [] }
  | .ninepListen addr => addr.map fun a => { c with ninepListeners := c.ninepListeners ++ [a] }
  | .ninepKill addr => addr.map fun a => { c with ninepListeners := remove a c.ninepListeners }
  | .ninepKillall => some { c with ninepListeners := [] }
  | .ninepTlsCert path => path.map fun p => { c with tlsCertPath := some p }
  | .ninepTlsKey path => path.map fun p => { c with tlsKeyPath := some p }
  | .ninepConn n => n.map fun n => { c with ninepMaxConns := some n }
  | .sshfsListen addr => addr.map fun a => { c with sshfsListeners := c.sshfsListeners ++ [a] }
  | .sshfsKill addr => addr.map fun a => { c with sshfsListeners := remove a c.sshfsListeners }
  | .sshfsKillall => some { c with sshfsListeners := [] }
  | .sshfsPassword pw => pw.map fun p => { c with sshfsPassword := some p }
  | .sshfsAuthorizedKeys path => path.map fun p => { c with sshfsAuthorizedKeysPath := some p }
  | .sshfsUserpasswd pair =>
      pair.map fun p => { c with sshfsUserpasswds := c.sshfsUserpasswds ++ [p] }
  | .sshfsConn n => n.map fun n => { c with sshfsMaxConns := some n }
  | _ => some c

def WorkerConfig.apply (c : WorkerConfig) : SetupCall → Option WorkerConfig
  | .workerMin n => n.map fun n => { c with minWorkers := n }
  | .workerMax n => n.map fun n => { c with maxWorkers := n }
  | .workerTtl s => s.map fun s => { c with ttlSecs := s }
  | _ => some c

/-- No settings mean that the call raises an error. -/
def Settings.apply (s : Settings) (call : SetupCall) : Option Settings := do
  let config ← s.config.apply call
  let workers ← s.workers.apply call
  return ⟨config, workers⟩

/-! ## Execution -/

/-- What a script can call. The other functions are the same ones in both executions. -/
inductive ApiOp (F : Type) (E : Signature) where
  | route (c : Call F)
  | setup (c : SetupCall)
  | other (o : E.Op)

/-- Calls into the tables report whether they returned. -/
def ApiOp.Ret {F : Type} {E : Signature} : ApiOp F E → Type
  | .route _ => Bool
  | .setup _ => Bool
  | .other o => E.Ret o

abbrev api (F : Type) (E : Signature) : Signature := ⟨ApiOp F E, ApiOp.Ret⟩

/-- A script ends normally or with the text of an error. -/
abbrev Script (F : Type) (E : Signature) := Prog (api F E) (Except String Unit)

def returns {F : Type} : Call F → Bool
  | .invalid => false
  | .register _ ops _ =>
      match parseOps ops with
      | .ok _ => true
      | .error _ => false
  | _ => true

/-- The state of an execution. `made` and `refused` are the setup calls that have returned and
those that have raised an error. -/
structure Session (F σ : Type) where
  registrar : Registrar F
  settings : Settings
  made : List SetupCall
  refused : List SetupCall
  world : σ

def Session.new {F σ : Type} (world : σ) : Session F σ := ⟨.new, .default, [], [], world⟩

section
variable {F σ : Type} {E : Signature} (setup : Settings → SetupCall → Option Settings)
  (env : (o : E.Op) → σ → E.Ret o × σ)

def execute : Script F E → Session F σ → Except String Unit × Session F σ
  | .done result, s => (result, s)
  | .call (.route c) next, s =>
      execute (next (returns c)) { s with registrar := s.registrar.call c }
  | .call (.setup c) next, s =>
      match setup s.settings c with
      | some t => execute (next true) { s with settings := t, made := s.made ++ [c] }
      | none => execute (next false) { s with refused := s.refused ++ [c] }
  | .call (.other o) next, s =>
      execute (next (env o s.world).1) { s with world := (env o s.world).2 }

/-- What the main program keeps of its execution. -/
structure Compiled where
  config : Config
  routes : List RouteRegistration
  workers : WorkerConfig

def compile (script : Script F E) (world : σ) : Except String Compiled :=
  match execute Settings.apply env script (.new world) with
  | (.ok _, s) => .ok ⟨s.settings.config, s.registrar.routes, s.settings.workers⟩
  | (.error e, _) => .error ("Lua script error: " ++ e)

/-- The setup functions of a worker. -/
def stub (s : Settings) (_ : SetupCall) : Option Settings := some s

def fromBytecodes (script : Script F E) (world : σ) : Except String (HandlerRuntime F) :=
  match execute stub env script (.new world) with
  | (.ok _, s) => .ok ⟨s.registrar.funcs, s.registrar.defaultHandler⟩
  | (.error e, _) => .error ("Lua script error: " ++ e)

end

/-! ## What is started -/

inductive Frontend where
  | fuse (path : String)
  | ninepSocket (path : String)
  | ninepTcp (addr : String) (maxConns : Option ℕ)
  | ninepTls (addr cert key : String)
  | ninepUdp (addr : String)
  | sshfs (addr : String) (password authorizedKeysPath : Option String)
      (userpasswds : List (String × String)) (maxConns : Option ℕ)
  deriving DecidableEq

def ninepFrontend (c : Config) (listener : String) : Except String Frontend :=
  match stripStart "sock:" listener with
  | some path => .ok (.ninepSocket path)
  | none =>
  match stripStart "tcp:" listener with
  | some addr => .ok (.ninepTcp addr c.ninepMaxConns)
  | none =>
  match stripStart "tls:" listener with
  | some addr =>
      match c.tlsCertPath, c.tlsKeyPath with
      | some cert, some key => .ok (.ninepTls addr cert key)
      | _, _ => .error "[9p-tls] tls: address requires ninep.tls_cert() and ninep.tls_key()"
  | none =>
  match stripStart "udp:" listener with
  | some addr => .ok (.ninepUdp addr)
  | none => .error ("[main] unknown 9p listener prefix: " ++ listener)

def sshfsFrontend (c : Config) (listener : String) : Frontend :=
  .sshfs listener c.sshfsPassword c.sshfsAuthorizedKeysPath c.sshfsUserpasswds c.sshfsMaxConns

/-- The frontends that the main program starts, in order; the others are reported. -/
def frontends (c : Config) : List (Except String Frontend) :=
  let hasConfig := !c.fuseMounts.isEmpty || !c.ninepListeners.isEmpty || !c.sshfsListeners.isEmpty
  if hasConfig then
    c.fuseMounts.map (fun path => .ok (.fuse path)) ++ c.ninepListeners.map (ninepFrontend c) ++
      c.sshfsListeners.map fun listener => .ok (sshfsFrontend c listener)
  else []

/-! ## The two executions -/

section
variable {F σ : Type} {E : Signature} {env : (o : E.Op) → σ → E.Ret o × σ}

/-- Refused calls stay refused. -/
theorem refused_le (setup : Settings → SetupCall → Option Settings) (script : Script F E)
    (s : Session F σ) :
    s.refused.length ≤ (execute setup env script s).2.refused.length := by
  induction script generalizing s with
  | done result => exact le_rfl
  | call o next ih =>
      cases o with
      | route c => exact ih (returns c) { s with registrar := s.registrar.call c }
      | other o => exact ih (env o s.world).1 { s with world := (env o s.world).2 }
      | setup c =>
          unfold execute
          split
          · next t _ => exact ih true { s with settings := t, made := s.made ++ [c] }
          · have hle := ih false { s with refused := s.refused ++ [c] }
            rw [List.length_append, List.length_singleton] at hle
            omega

/-- As long as no setup call is refused, a worker's execution follows the main program's. -/
theorem execute_stub (script : Script F E) (s t : Session F σ)
    (hregistrar : t.registrar = s.registrar) (hworld : t.world = s.world)
    (hrefused : (execute Settings.apply env script s).2.refused = s.refused) :
    (execute stub env script t).1 = (execute Settings.apply env script s).1 ∧
      (execute stub env script t).2.registrar =
        (execute Settings.apply env script s).2.registrar := by
  induction script generalizing s t with
  | done result => exact ⟨rfl, hregistrar⟩
  | call o next ih =>
      cases o with
      | route c =>
          apply ih
          · simp only [hregistrar]
          · exact hworld
          · exact hrefused
      | other o =>
          unfold execute
          rw [hworld]
          apply ih
          · exact hregistrar
          · rfl
          · exact hrefused
      | setup c =>
          unfold execute at hrefused ⊢
          cases happly : s.settings.apply c with
          | some u =>
              rw [happly] at hrefused
              apply ih
              · exact hregistrar
              · exact hworld
              · exact hrefused
          | none =>
              rw [happly] at hrefused
              have hle := @refused_le _ _ _ env Settings.apply (next false)
                { s with refused := s.refused ++ [c] }
              rw [hrefused, List.length_append, List.length_singleton] at hle
              omega

/-- The registrar is left by the calls into the route table, in order. -/
theorem execute_registrar (setup : Settings → SetupCall → Option Settings) (script : Script F E)
    (s : Session F σ) : ∃ calls : List (Call F),
      (execute setup env script s).2.registrar = calls.foldl Registrar.call s.registrar := by
  induction script generalizing s with
  | done result => exact ⟨[], rfl⟩
  | call o next ih =>
      cases o with
      | route c =>
          obtain ⟨calls, hcalls⟩ := ih (returns c) { s with registrar := s.registrar.call c }
          exact ⟨c :: calls, hcalls⟩
      | other o => exact ih (env o s.world).1 { s with world := (env o s.world).2 }
      | setup c =>
          unfold execute
          split
          · next t _ => exact ih true { s with settings := t, made := s.made ++ [c] }
          · exact ih false { s with refused := s.refused ++ [c] }

theorem compile_ok {script : Script F E} {world : σ} {c : Compiled}
    (h : compile env script world = .ok c) :
    (execute Settings.apply env script (.new world)).1 = .ok () ∧
      c = ⟨(execute Settings.apply env script (.new world)).2.settings.config,
        (execute Settings.apply env script (.new world)).2.registrar.routes,
        (execute Settings.apply env script (.new world)).2.settings.workers⟩ := by
  unfold compile at h
  split at h
  · next u s hexecute =>
      rw [hexecute]
      exact ⟨rfl, (Except.ok.inj h).symm⟩
  · cases h

end

/-! ## The settings that a script leaves -/

/-- What happens to a list of addresses. -/
inductive BookCall where
  | add (addr : String)
  | drop (addr : String)
  | clear
  deriving DecidableEq

/-- The addresses that were added and that nothing later removes. -/
def survivors : List BookCall → List String
  | [] => []
  | .add addr :: later =>
      if .drop addr ∈ later ∨ .clear ∈ later then survivors later else addr :: survivors later
  | _ :: later => survivors later

theorem survivors_add (calls : List BookCall) (addr : String) :
    survivors (calls ++ [.add addr]) = survivors calls ++ [addr] := by
  induction calls with
  | nil => simp [survivors]
  | cons c calls ih =>
      cases c with
      | add a =>
          simp only [List.cons_append, survivors, ih, List.mem_append, List.mem_singleton,
            reduceCtorEq, or_false]
          split <;> rfl
      | _ => exact ih

theorem survivors_drop (calls : List BookCall) (addr : String) :
    survivors (calls ++ [.drop addr]) = remove addr (survivors calls) := by
  induction calls with
  | nil => simp [survivors, remove]
  | cons c calls ih =>
      cases c with
      | add a =>
          simp only [List.cons_append, survivors, ih, List.mem_append, List.mem_singleton,
            reduceCtorEq, or_false, BookCall.drop.injEq]
          by_cases ha : a = addr
          · simp only [ha, or_true, true_or, if_true]
            split
            · rfl
            · simp [remove]
          · simp only [ha, or_false]
            split
            · rfl
            · simp [remove, ha]
      | _ => exact ih

theorem survivors_clear (calls : List BookCall) : survivors (calls ++ [.clear]) = [] := by
  induction calls with
  | nil => rfl
  | cons c calls ih =>
      cases c with
      | add a => simp [survivors, ih]
      | _ => exact ih

def fuseBook : SetupCall → Option BookCall
  | .fuseMount path => path.map .add
  | .fuseUnmount path => path.map .drop
  | .fuseUnmountall => some .clear
  | _ => none

def ninepBook : SetupCall → Option BookCall
  | .ninepListen addr => addr.map .add
  | .ninepKill addr => addr.map .drop
  | .ninepKillall => some .clear
  | _ => none

def sshfsBook : SetupCall → Option BookCall
  | .sshfsListen addr => addr.map .add
  | .sshfsKill addr => addr.map .drop
  | .sshfsKillall => some .clear
  | _ => none

/-- The last value that a setting was given. -/
def lastOf {A : Type} (f : SetupCall → Option A) (calls : List SetupCall) : Option A :=
  (calls.filterMap f).getLast?

def tlsCert : SetupCall → Option String
  | .ninepTlsCert path => path
  | _ => none

def tlsKey : SetupCall → Option String
  | .ninepTlsKey path => path
  | _ => none

def ninepConn : SetupCall → Option ℕ
  | .ninepConn n => n
  | _ => none

def sshfsPassword : SetupCall → Option String
  | .sshfsPassword pw => pw
  | _ => none

def sshfsAuthorizedKeys : SetupCall → Option String
  | .sshfsAuthorizedKeys path => path
  | _ => none

def sshfsUserpasswd : SetupCall → Option (String × String)
  | .sshfsUserpasswd pair => pair
  | _ => none

def sshfsConn : SetupCall → Option ℕ
  | .sshfsConn n => n
  | _ => none

def workerMin : SetupCall → Option ℕ
  | .workerMin n => n
  | _ => none

def workerMax : SetupCall → Option ℕ
  | .workerMax n => n
  | _ => none

def workerTtl : SetupCall → Option ℕ
  | .workerTtl s => s
  | _ => none

/-- The settings read off the calls that made them. -/
def summary (made : List SetupCall) : Settings where
  config :=
    { fuseMounts := survivors (made.filterMap fuseBook)
      ninepListeners := survivors (made.filterMap ninepBook)
      sshfsListeners := survivors (made.filterMap sshfsBook)
      sshfsPassword := lastOf sshfsPassword made
      sshfsAuthorizedKeysPath := lastOf sshfsAuthorizedKeys made
      sshfsUserpasswds := made.filterMap sshfsUserpasswd
      tlsCertPath := lastOf tlsCert made
      tlsKeyPath := lastOf tlsKey made
      ninepMaxConns := lastOf ninepConn made
      sshfsMaxConns := lastOf sshfsConn made }
  workers :=
    { minWorkers := (lastOf workerMin made).getD 1
      maxWorkers := (lastOf workerMax made).getD 4
      ttlSecs := (lastOf workerTtl made).getD 60 }

theorem lastOf_concat {A : Type} (f : SetupCall → Option A) (calls : List SetupCall)
    (c : SetupCall) : lastOf f (calls ++ [c]) = (f c).or (lastOf f calls) := by
  unfold lastOf
  rw [List.filterMap_append]
  cases hc : f c with
  | none => simp [hc]
  | some a => simp [hc]

theorem filterMap_concat {A : Type} (f : SetupCall → Option A) (calls : List SetupCall)
    (c : SetupCall) : (calls ++ [c]).filterMap f = calls.filterMap f ++ (f c).toList := by
  rw [List.filterMap_append]
  cases hc : f c with
  | none => simp [hc]
  | some a => simp [hc]

/-- A call that returns does to the settings what it does to their summary. -/
theorem summary_concat {made : List SetupCall} {c : SetupCall} {t : Settings}
    (h : (summary made).apply c = some t) : t = summary (made ++ [c]) := by
  cases c with
  | fuseUnmountall | ninepKillall | sshfsKillall =>
      cases h
      simp only [summary, filterMap_concat, lastOf_concat, fuseBook, ninepBook, sshfsBook,
        sshfsUserpasswd, Option.toList_some, Option.toList_none, List.append_nil, survivors_clear]
      rfl
  | _ x =>
      cases x with
      | none => cases h
      | some a =>
          cases h
          simp only [summary, filterMap_concat, lastOf_concat, fuseBook, ninepBook, sshfsBook,
            sshfsUserpasswd, Option.map_some, Option.toList_some, Option.toList_none,
            List.append_nil, survivors_add, survivors_drop]
          rfl

theorem execute_summary {F σ : Type} {E : Signature} (env : (o : E.Op) → σ → E.Ret o × σ)
    (script : Script F E) (s : Session F σ) (hs : s.settings = summary s.made) :
    (execute Settings.apply env script s).2.settings =
      summary (execute Settings.apply env script s).2.made := by
  induction script generalizing s with
  | done result => exact hs
  | call o next ih =>
      cases o with
      | route c => exact ih (returns c) { s with registrar := s.registrar.call c } hs
      | other o => exact ih (env o s.world).1 { s with world := (env o s.world).2 } hs
      | setup c =>
          unfold execute
          split
          · next t happly =>
              rw [hs] at happly
              exact ih true { s with settings := t, made := s.made ++ [c] }
                (summary_concat happly)
          · exact ih false { s with refused := s.refused ++ [c] } hs

/-- Other functions that a script may call: one that answers nothing. -/
abbrev quiet : Signature := ⟨Unit, fun _ => Unit⟩

/-- Two listeners, one of which is given up, and a certificate after the listener that needs it. -/
def listening : Script ℕ quiet :=
  .call (.setup (.ninepListen (some "tls:a"))) fun _ =>
  .call (.setup (.ninepListen (some "tcp:b"))) fun _ =>
  .call (.setup (.ninepTlsCert (some "cert"))) fun _ =>
  .call (.setup (.ninepTlsKey (some "key"))) fun _ =>
  .call (.setup (.ninepKill (some "tcp:b"))) fun _ =>
  .call (.route (.bundle .read "/a" 7)) fun _ => .done (.ok ())

def still (o : quiet.Op) (world : Unit) : quiet.Ret o × Unit := ((), world)

/-- A script that registers its route where a setup call has raised an error. -/
def probing : Script ℕ quiet :=
  .call (.setup (.ninepConn none)) fun (returned : Bool) =>
    if returned then .done (.ok ())
    else .call (.route (.bundle .read "/a" 7)) fun _ => .done (.ok ())

example : (compile still probing ()).toOption.map (·.routes.length) = some 1 ∧
    (fromBytecodes still probing ()).toOption.map (·.funcs.keys.length) = some 0 := by decide

end Pinhead.ScriptRuns
