import Pinhead.NinepMux
import Pinhead.StateMachines

/-!
# The two accept loops

Both servers read the frames of a connection in a task of its own and put them on a
channel. The TLS server also empties the channel in a task of its own. The plain TCP
server empties it in the accept loop, so that the next connection is accepted when the
last one has ended.

Connections are numbered as they are opened. A connection that was not accepted, or has
no permit yet, keeps its frames in its socket. Handshakes succeed.
-/
namespace Pinhead.MuxServers
open NinepMux StateMachines

/-! ## Clients -/

/-- The complete frames that have arrived on a connection, and whether it was closed. -/
structure Client where
  arrived : List Frame
  ended : Bool
  deriving DecidableEq

inductive Input where
  | opening
  | frame (k : ℕ) (f : Frame)
  | disconnect (k : ℕ)
  deriving DecidableEq

/-- Frames arrive on open connections only. -/
def receive (cs : List Client) : Input → Option (List Client)
  | .opening => some (cs ++ [⟨[], false⟩])
  | .frame k f => do
      let c ← cs[k]?
      if c.ended then none else some (cs.set k { c with arrived := c.arrived ++ [f] })
  | .disconnect k => do
      let c ← cs[k]?
      if c.ended then none else some (cs.set k { c with ended := true })

/-! ## Connections -/

inductive Stage where
  | handshaking | reading | finished | released
  deriving DecidableEq

/-- An accepted connection: the number of frames read off its socket, those on the
channel to the dispatcher, and those that were handed to the handlers of its streams. -/
structure Conn where
  stage : Stage
  taken : ℕ
  chan : List Frame
  handed : List Frame
  deriving DecidableEq

def Conn.accepted (stage : Stage) : Conn := ⟨stage, 0, [], []⟩

/-- Each of these moves of a connection needs what its client has sent. -/
inductive Move where
  | handshake | read | finish | release | dispatch
  deriving DecidableEq

/-- The reader stops at the end of what arrived on a closed connection. -/
def Conn.move (c : Client) (x : Conn) : Move → Option Conn
  | .handshake => if x.stage = .handshaking then some { x with stage := .reading } else none
  | .read =>
      if x.stage = .reading then
        (c.arrived[x.taken]?).map fun f => { x with taken := x.taken + 1, chan := x.chan ++ [f] }
      else none
  | .finish =>
      if x.stage = .reading ∧ x.taken = c.arrived.length ∧ c.ended = true then
        some { x with stage := .finished }
      else none
  | .release => if x.stage = .finished then some { x with stage := .released } else none
  | .dispatch =>
      match x.chan with
      | f :: rest => some { x with chan := rest, handed := x.handed ++ [f] }
      | [] => none

/-- The clients, and the connections accepted so far. -/
structure Server where
  clients : List Client
  conns : List Conn
  deriving DecidableEq

namespace Server

def start : Server := ⟨[], []⟩

def moveAt (s : Server) (k : ℕ) (m : Move) : Option Server := do
  let c ← s.clients[k]?
  let x ← s.conns[k]?
  let y ← x.move c m
  some { s with conns := s.conns.set k y }

def accept (s : Server) (stage : Stage) : Option Server :=
  if s.conns.length < s.clients.length then some { s with conns := s.conns ++ [.accepted stage] }
  else none

def input (s : Server) (i : Input) : Option Server :=
  (receive s.clients i).map fun cs => { s with clients := cs }

/-- The frames of a connection that were handed to stream handlers, in order. -/
def handedOn (s : Server) (k : ℕ) : List Frame := ((s.conns[k]?).map Conn.handed).getD []

end Server

inductive Event (A : Type) where
  | input (i : Input)
  | internal (a : A)

def inputs {A : Type} (es : List (Event A)) : List Input :=
  es.filterMap fun e =>
    match e with
    | .input i => some i
    | .internal _ => none

/-! ## The TLS server -/

inductive TlsAction where
  | accept
  | task (k : ℕ) (m : Move)

/-- Whatever a connection does next, its tasks do it. There are no permits. -/
def serveTcpTls (s : Server) : Event TlsAction → Option Server
  | .input i => s.input i
  | .internal .accept => s.accept .handshaking
  | .internal (.task _ .release) => none
  | .internal (.task k m) => s.moveAt k m

/-! ## The plain server -/

/-- Where the accept loop is: at the accept, with a connection for which it waits for a
permit, or at the frames of a connection. -/
inductive Loop where
  | accepting
  | acquiring
  | dispatching (k : ℕ)
  deriving DecidableEq

structure TcpServer where
  server : Server
  loop : Loop
  permits : Option ℕ
  deriving DecidableEq

def TcpServer.start (maxConns : Option ℕ) : TcpServer := ⟨.start, .accepting, maxConns⟩

inductive TcpAction where
  | accept
  | acquire
  | read (k : ℕ)
  | finish (k : ℕ)
  | release (k : ℕ)
  | dispatch
  | next

/-- The permit goes back after the reader has ended. -/
def serveTcp (s : TcpServer) : Event TcpAction → Option TcpServer
  | .input i => (s.server.input i).map fun t => { s with server := t }
  | .internal .accept =>
      if s.loop = .accepting ∧ s.server.conns.length < s.server.clients.length then
        some { s with loop := .acquiring }
      else none
  | .internal .acquire =>
      if s.loop = .acquiring ∧ s.permits ≠ some 0 then
        (s.server.accept .reading).map fun t =>
          ⟨t, .dispatching s.server.conns.length, s.permits.map (· - 1)⟩
      else none
  | .internal (.read k) => (s.server.moveAt k .read).map fun t => { s with server := t }
  | .internal (.finish k) => (s.server.moveAt k .finish).map fun t => { s with server := t }
  | .internal (.release k) =>
      (s.server.moveAt k .release).map fun t =>
        { s with server := t, permits := s.permits.map (· + 1) }
  | .internal .dispatch =>
      match s.loop with
      | .dispatching k => (s.server.moveAt k .dispatch).map fun t => { s with server := t }
      | _ => none
  | .internal .next =>
      match s.loop with
      | .dispatching k =>
          match s.server.conns[k]? with
          | some x =>
              if x.chan = [] ∧ (x.stage = .finished ∨ x.stage = .released) then
                some { s with loop := .accepting }
              else none
          | none => none
      | _ => none

/-- No internal step is enabled. -/
def Quiescent {σ A : Type} (step : σ → Event A → Option σ) (s : σ) : Prop :=
  ∀ a, step s (.internal a) = none

/-! ## The same traffic -/

/-- The number of open connections besides the one with number `k`. -/
def openBesides (cs : List Client) (k : ℕ) : ℕ := ((cs.eraseIdx k).filter fun c => !c.ended).length

/-- As many other connections are open as the server may hold. -/
def AtLimit (maxConns : Option ℕ) (cs : List Client) (k : ℕ) : Prop :=
  match maxConns with
  | none => False
  | some n => n ≤ openBesides cs k

/-- The TLS server hands over every frame, and so does the plain one, except those of a
connection that the limit holds back. -/
def SameTraffic (maxConns : Option ℕ) (tcp tls : Server) : Prop :=
  ∀ k c, tls.clients[k]? = some c → tls.handedOn k = c.arrived ∧
    (tcp.handedOn k = c.arrived ∨ AtLimit maxConns tls.clients k)

/-- Wherever frames have arrived while a connection opened earlier is still open, the
limit holds the connection back. -/
def Unhindered (maxConns : Option ℕ) (cs : List Client) : Prop :=
  ∀ j k c d, j < k → cs[j]? = some c → cs[k]? = some d → c.ended = false → d.arrived ≠ [] →
    AtLimit maxConns cs k

/-! ## One connection -/

/-- Nothing that was read is lost, and a reader that has ended has read everything. -/
structure Conn.Sound (c : Client) (x : Conn) : Prop where
  frames : x.handed ++ x.chan = c.arrived.take x.taken
  taken : x.taken ≤ c.arrived.length
  drained : x.stage = .finished ∨ x.stage = .released → x.taken = c.arrived.length ∧ c.ended = true

section
variable {c : Client} {x y : Conn}

theorem Conn.Sound.move (h : x.Sound c) {m : Move} (hm : x.move c m = some y) : y.Sound c := by
  cases m with
  | handshake =>
      obtain ⟨hstage, hy⟩ := Option.ite_none_right_eq_some.mp hm
      cases hy
      exact ⟨h.frames, h.taken, fun hdone => by simp at hdone⟩
  | read =>
      obtain ⟨hstage, hy⟩ := Option.ite_none_right_eq_some.mp hm
      obtain ⟨f, hf, rfl⟩ := Option.map_eq_some_iff.mp hy
      have hlt := (List.getElem?_eq_some_iff.mp hf).1
      refine ⟨?_, hlt, fun hdone => by simp [hstage] at hdone⟩
      rw [← List.append_assoc, h.frames, List.take_add_one, hf]
      rfl
  | finish =>
      obtain ⟨⟨_, htaken, hended⟩, hy⟩ := Option.ite_none_right_eq_some.mp hm
      cases hy
      exact ⟨h.frames, h.taken, fun _ => ⟨htaken, hended⟩⟩
  | release =>
      obtain ⟨hstage, hy⟩ := Option.ite_none_right_eq_some.mp hm
      cases hy
      exact ⟨h.frames, h.taken, fun _ => h.drained (Or.inl hstage)⟩
  | dispatch =>
      have hframes := h.frames
      rw [Conn.move] at hm
      split at hm
      · next f rest hchan =>
          cases hm
          rw [hchan] at hframes
          exact ⟨by rw [← hframes, List.append_assoc, List.singleton_append], h.taken, h.drained⟩
      · cases hm

theorem Conn.Sound.arrival (h : x.Sound c) (hopen : c.ended = false) (f : Frame) :
    x.Sound { c with arrived := c.arrived ++ [f] } := by
  constructor
  · rw [List.take_append_of_le_length h.taken]
    exact h.frames
  · rw [List.length_append]
    exact h.taken.trans (Nat.le_add_right _ _)
  · intro hdone
    have hended := (h.drained hdone).2
    rw [hopen] at hended
    cases hended

theorem Conn.Sound.closed (h : x.Sound c) : x.Sound { c with ended := true } :=
  ⟨h.frames, h.taken, fun hdone => ⟨(h.drained hdone).1, rfl⟩⟩

/-- A connection at rest has handed over what has arrived. -/
theorem Conn.Sound.settled (h : x.Sound c) (hchan : x.chan = [])
    (htaken : x.taken = c.arrived.length) : x.handed = c.arrived := by
  have hframes := h.frames
  rw [hchan, List.append_nil, htaken, List.take_length] at hframes
  exact hframes

theorem chan_of_move (h : x.move c .dispatch = none) : x.chan = [] := by
  cases hchan : x.chan with
  | nil => rfl
  | cons f rest => simp [Conn.move, hchan] at h

theorem taken_of_move (hsound : x.Sound c) (hstage : x.stage = .reading)
    (h : x.move c .read = none) : x.taken = c.arrived.length := by
  rw [Conn.move, if_pos hstage, Option.map_eq_none_iff, List.getElem?_eq_none_iff] at h
  exact Nat.le_antisymm hsound.taken h

end

/-! ## All connections -/

theorem getElem?_of_set {α : Type} {xs : List α} {i j : ℕ} {y z : α} (h : (xs.set i y)[j]? = some z) :
    j = i ∧ z = y ∨ xs[j]? = some z := by
  by_cases hij : i = j
  · subst hij
    have hlt := (List.getElem?_eq_some_iff.mp h).1
    rw [List.length_set] at hlt
    rw [List.getElem?_set_self hlt] at h
    exact Or.inl ⟨rfl, (Option.some.inj h).symm⟩
  · rw [List.getElem?_set_ne hij] at h
    exact Or.inr h

theorem getElem?_of_concat {α : Type} {xs : List α} {j : ℕ} {y z : α}
    (h : (xs ++ [y])[j]? = some z) : j = xs.length ∧ z = y ∨ xs[j]? = some z := by
  rcases lt_trichotomy j xs.length with hj | hj | hj
  · rw [List.getElem?_append_left hj] at h
    exact Or.inr h
  · subst hj
    rw [List.getElem?_concat_length] at h
    exact Or.inl ⟨rfl, (Option.some.inj h).symm⟩
  · rw [List.getElem?_eq_none (by rw [List.length_append, List.length_singleton]; omega)] at h
    cases h

/-- An input opens a connection, or something arrives on one that is open. -/
theorem receive_cases {cs ds : List Client} {i : Input} (h : receive cs i = some ds) :
    ds = cs ++ [⟨[], false⟩] ∨ ∃ k c d, cs[k]? = some c ∧ c.ended = false ∧ ds = cs.set k d ∧
      ((∃ f, d = { c with arrived := c.arrived ++ [f] }) ∨ d = { c with ended := true }) := by
  cases i with
  | opening => exact Or.inl (Option.some.inj h).symm
  | frame k f =>
      obtain ⟨c, hc, h⟩ := Option.bind_eq_some_iff.mp h
      obtain ⟨hopen, h⟩ := Option.ite_none_left_eq_some.mp h
      exact Or.inr ⟨k, c, _, hc, by simpa using hopen, (Option.some.inj h).symm, Or.inl ⟨f, rfl⟩⟩
  | disconnect k =>
      obtain ⟨c, hc, h⟩ := Option.bind_eq_some_iff.mp h
      obtain ⟨hopen, h⟩ := Option.ite_none_left_eq_some.mp h
      exact Or.inr ⟨k, c, _, hc, by simpa using hopen, (Option.some.inj h).symm, Or.inr rfl⟩

theorem length_receive {cs ds : List Client} {i : Input} (h : receive cs i = some ds) :
    cs.length ≤ ds.length := by
  obtain rfl | ⟨k, c, d, _, _, rfl, _⟩ := receive_cases h
  · rw [List.length_append]
    exact Nat.le_add_right _ _
  · rw [List.length_set]

structure Server.Sound (s : Server) : Prop where
  length : s.conns.length ≤ s.clients.length
  conn : ∀ {k : ℕ} {c : Client} {x : Conn}, s.clients[k]? = some c → s.conns[k]? = some x → x.Sound c

namespace Server
variable {s t : Server} {k : ℕ} {m : Move}

theorem sound_start : start.Sound := ⟨le_rfl, fun h => by cases h⟩

theorem moveAt_some (h : s.moveAt k m = some t) : ∃ c x y, s.clients[k]? = some c ∧
    s.conns[k]? = some x ∧ x.move c m = some y ∧ t = { s with conns := s.conns.set k y } := by
  obtain ⟨c, hc, h⟩ := Option.bind_eq_some_iff.mp h
  obtain ⟨x, hx, h⟩ := Option.bind_eq_some_iff.mp h
  obtain ⟨y, hy, h⟩ := Option.bind_eq_some_iff.mp h
  exact ⟨c, x, y, hc, hx, hy, (Option.some.inj h).symm⟩

theorem move_none {c : Client} {x : Conn} (hc : s.clients[k]? = some c) (hx : s.conns[k]? = some x)
    (h : s.moveAt k m = none) : x.move c m = none := by
  cases hy : x.move c m with
  | none => rfl
  | some y => simp [moveAt, hc, hx, hy] at h

theorem Sound.moveAt (hs : s.Sound) (h : s.moveAt k m = some t) : t.Sound := by
  obtain ⟨c, x, y, hc, hx, hy, rfl⟩ := moveAt_some h
  constructor
  · rw [List.length_set]
    exact hs.length
  · intro j d z hd hz
    rcases getElem?_of_set hz with hz | hz
    · obtain ⟨rfl, rfl⟩ := hz
      obtain rfl := Option.some.inj (hc.symm.trans hd)
      exact (hs.conn hc hx).move hy
    · exact hs.conn hd hz

theorem accept_some {stage : Stage} (h : s.accept stage = some t) :
    s.conns.length < s.clients.length ∧ t = { s with conns := s.conns ++ [.accepted stage] } := by
  obtain ⟨hlt, ht⟩ := Option.ite_none_right_eq_some.mp h
  exact ⟨hlt, (Option.some.inj ht).symm⟩

/-- A connection is accepted before its reader could end. -/
theorem Sound.accept (hs : s.Sound) {stage : Stage}
    (hstage : stage = .handshaking ∨ stage = .reading) (h : s.accept stage = some t) : t.Sound := by
  obtain ⟨hlt, rfl⟩ := accept_some h
  constructor
  · rw [List.length_append, List.length_singleton]
    exact hlt
  · intro k c x hc hx
    rcases getElem?_of_concat hx with hx | hx
    · obtain ⟨rfl, rfl⟩ := hx
      refine ⟨rfl, Nat.zero_le _, fun hdone => ?_⟩
      rcases hstage with rfl | rfl <;> simp [Conn.accepted] at hdone
    · exact hs.conn hc hx

theorem Sound.input (hs : s.Sound) {i : Input} (h : s.input i = some t) : t.Sound := by
  obtain ⟨cs, hcs, rfl⟩ := Option.map_eq_some_iff.mp h
  have hlength := hs.length.trans (length_receive hcs)
  obtain rfl | ⟨k, c, d, hc, hopen, rfl, hd⟩ := receive_cases hcs
  · refine ⟨hlength, fun {k c x} hc hx => ?_⟩
    have hk := (List.getElem?_eq_some_iff.mp hx).1
    rw [List.getElem?_append_left (hk.trans_le hs.length)] at hc
    exact hs.conn hc hx
  · refine ⟨hlength, fun {j e x} he hx => ?_⟩
    rcases getElem?_of_set he with he | he
    · obtain ⟨rfl, rfl⟩ := he
      rcases hd with ⟨f, rfl⟩ | rfl
      · exact (hs.conn hc hx).arrival hopen f
      · exact (hs.conn hc hx).closed
    · exact hs.conn he hx

end Server

/-- The clients of a server are what the inputs of its run make of them. -/
theorem clients_of_run {σ A : Type} {step : σ → Event A → Option σ} (clients : σ → List Client)
    (hinput : ∀ s i t, step s (.input i) = some t → receive (clients s) i = some (clients t))
    (hinternal : ∀ s a t, step s (.internal a) = some t → clients t = clients s)
    {s t : σ} {es : List (Event A)} (hrun : run step s es = some t) :
    run receive (clients s) (inputs es) = some (clients t) := by
  induction es generalizing s with
  | nil => exact congrArg (Option.map clients) hrun
  | cons e es ih =>
      obtain ⟨u, hu, hrest⟩ := run_cons hrun
      cases e with
      | input i => exact Option.bind_eq_some_iff.mpr ⟨_, hinput s i u hu, ih hrest⟩
      | internal a =>
          rw [← hinternal s a u hu]
          exact ih hrest

theorem Server.clients_input {s t : Server} {i : Input} (h : s.input i = some t) :
    receive s.clients i = some t.clients := by
  obtain ⟨cs, hcs, rfl⟩ := Option.map_eq_some_iff.mp h
  exact hcs

theorem Server.clients_moveAt {s t : Server} {k : ℕ} {m : Move} (h : s.moveAt k m = some t) :
    t.clients = s.clients := by
  obtain ⟨c, x, y, _, _, _, rfl⟩ := moveAt_some h
  rfl

theorem Server.clients_accept {s t : Server} {stage : Stage} (h : s.accept stage = some t) :
    t.clients = s.clients := by
  obtain ⟨_, rfl⟩ := accept_some h
  rfl

/-! ## Runs of the TLS server -/

section
variable {s t : Server}

theorem tls_task {k : ℕ} {m : Move} (h : serveTcpTls s (.internal (.task k m)) = some t) :
    s.moveAt k m = some t := by
  cases m with
  | release => cases h
  | _ => exact h

theorem tls_sound {es : List (Event TlsAction)} (hrun : run serveTcpTls .start es = some t) :
    t.Sound := by
  apply run_invariant (P := fun _ _ => True) ?_ Server.sound_start (guarded_true _ es) hrun
  intro s e t hs _ h
  cases e with
  | input i => exact hs.input h
  | internal a =>
      cases a with
      | accept => exact hs.accept (Or.inl rfl) h
      | task k m => exact hs.moveAt (tls_task h)

theorem tls_clients {es : List (Event TlsAction)} (hrun : run serveTcpTls .start es = some t) :
    run receive [] (inputs es) = some t.clients := by
  apply clients_of_run Server.clients ?_ ?_ hrun
  · intro s i t h
    exact Server.clients_input h
  · intro s a t h
    cases a with
    | accept => exact Server.clients_accept h
    | task k m => exact Server.clients_moveAt (tls_task h)

/-- At rest the TLS server has handed over everything that arrived. -/
theorem tls_quiescent (hs : s.Sound) (hquiet : Quiescent serveTcpTls s) {k : ℕ} {c : Client}
    (hc : s.clients[k]? = some c) : s.handedOn k = c.arrived := by
  have hall : s.clients.length ≤ s.conns.length := by
    have haccept := hquiet .accept
    rw [serveTcpTls, Server.accept] at haccept
    by_contra hlt
    rw [if_pos (by omega)] at haccept
    cases haccept
  have hk := (List.getElem?_eq_some_iff.mp hc).1
  obtain ⟨x, hx⟩ : ∃ x, s.conns[k]? = some x :=
    ⟨_, List.getElem?_eq_getElem (hk.trans_le hall)⟩
  have hsound := hs.conn hc hx
  have hchan : x.chan = [] := chan_of_move (Server.move_none hc hx (hquiet (.task k .dispatch)))
  have htaken : x.taken = c.arrived.length := by
    cases hstage : x.stage with
    | handshaking =>
        have hmove := Server.move_none hc hx (hquiet (.task k .handshake))
        rw [Conn.move, if_pos hstage] at hmove
        cases hmove
    | reading => exact taken_of_move hsound hstage (Server.move_none hc hx (hquiet (.task k .read)))
    | finished => exact (hsound.drained (Or.inl hstage)).1
    | released => exact (hsound.drained (Or.inr hstage)).1
  rw [Server.handedOn, hx]
  exact hsound.settled hchan htaken

end

/-! ## Runs of the plain server -/

/-- The permits that a connection holds. -/
def Conn.permit (x : Conn) : ℕ := if x.stage = .released then 0 else 1

/-- The dispatcher has left the connection for good. -/
def Conn.Left (x : Conn) : Prop := (x.stage = .finished ∨ x.stage = .released) ∧ x.chan = []

/-- All connections but the one that the accept loop is at have been left, that one is
the last, and the permits are those that the connections do not hold. -/
structure TcpServer.Inv (maxConns : Option ℕ) (s : TcpServer) : Prop where
  sound : s.server.Sound
  stage : ∀ {k : ℕ} {x : Conn}, s.server.conns[k]? = some x → x.stage ≠ .handshaking
  left : ∀ {k : ℕ} {x : Conn}, s.server.conns[k]? = some x → s.loop ≠ .dispatching k → x.Left
  last : ∀ {k : ℕ}, s.loop = .dispatching k → s.server.conns.length = k + 1
  waiting : s.loop = .acquiring → s.server.conns.length < s.server.clients.length
  permits : s.permits.map (· + (s.server.conns.map Conn.permit).sum) = maxConns

section
variable {c : Client} {x y : Conn} {m : Move}

theorem stage_of_move (h : x.move c m = some y) (hx : x.stage ≠ .handshaking) :
    y.stage ≠ .handshaking := by
  cases m with
  | handshake =>
      obtain ⟨hstage, _⟩ := Option.ite_none_right_eq_some.mp h
      exact absurd hstage hx
  | read =>
      obtain ⟨_, hy⟩ := Option.ite_none_right_eq_some.mp h
      obtain ⟨f, _, rfl⟩ := Option.map_eq_some_iff.mp hy
      exact hx
  | finish =>
      obtain ⟨_, hy⟩ := Option.ite_none_right_eq_some.mp h
      cases hy
      simp
  | release =>
      obtain ⟨_, hy⟩ := Option.ite_none_right_eq_some.mp h
      cases hy
      simp
  | dispatch =>
      rw [Conn.move] at h
      split at h
      · cases h
        exact hx
      · cases h

/-- The permits that a move gives back. -/
def returned (m : Move) : ℕ := if m = .release then 1 else 0

theorem permit_of_move (h : x.move c m = some y) (hx : x.stage ≠ .handshaking) :
    y.permit + returned m = x.permit := by
  cases m with
  | handshake =>
      obtain ⟨hstage, _⟩ := Option.ite_none_right_eq_some.mp h
      exact absurd hstage hx
  | read =>
      obtain ⟨_, hy⟩ := Option.ite_none_right_eq_some.mp h
      obtain ⟨f, _, rfl⟩ := Option.map_eq_some_iff.mp hy
      rfl
  | finish =>
      obtain ⟨hstage, hy⟩ := Option.ite_none_right_eq_some.mp h
      cases hy
      rw [Conn.permit, Conn.permit, hstage.1]
      rfl
  | release =>
      obtain ⟨hstage, hy⟩ := Option.ite_none_right_eq_some.mp h
      cases hy
      rw [Conn.permit, Conn.permit, hstage]
      rfl
  | dispatch =>
      rw [Conn.move] at h
      split at h
      · cases h
        rfl
      · cases h

/-- Only the dispatcher itself could take up a connection again that it has left. -/
theorem Conn.Left.move (hleft : x.Left) (h : x.move c m = some y) (hm : m ≠ .dispatch) : y.Left := by
  have hreading : x.stage ≠ .reading := by
    intro hstage
    rcases hleft.1 with hdone | hdone <;> rw [hstage] at hdone <;> cases hdone
  cases m with
  | handshake =>
      obtain ⟨hstage, _⟩ := Option.ite_none_right_eq_some.mp h
      rcases hleft.1 with hdone | hdone <;> rw [hstage] at hdone <;> cases hdone
  | read =>
      obtain ⟨hstage, _⟩ := Option.ite_none_right_eq_some.mp h
      exact absurd hstage hreading
  | finish =>
      obtain ⟨hstage, _⟩ := Option.ite_none_right_eq_some.mp h
      exact absurd hstage.1 hreading
  | release =>
      obtain ⟨_, hy⟩ := Option.ite_none_right_eq_some.mp h
      cases hy
      exact ⟨Or.inr rfl, hleft.2⟩
  | dispatch => exact absurd rfl hm

end

namespace TcpServer
variable {maxConns : Option ℕ} {s : TcpServer} {t : Server}

theorem inv_start (maxConns : Option ℕ) : (start maxConns).Inv maxConns where
  sound := Server.sound_start
  stage h := by cases h
  left h := by cases h
  last h := by cases h
  waiting h := by cases h
  permits := by cases maxConns <;> rfl

theorem Inv.moveAt (hs : s.Inv maxConns) {k : ℕ} {m : Move} (h : s.server.moveAt k m = some t)
    (hm : m = .dispatch → s.loop = .dispatching k) :
    Inv maxConns ⟨t, s.loop, s.permits.map (· + returned m)⟩ := by
  have hsound := hs.sound.moveAt h
  obtain ⟨c, x, y, hc, hx, hy, rfl⟩ := Server.moveAt_some h
  constructor
  · exact hsound
  · intro j z hz
    rcases getElem?_of_set hz with hz | hz
    · obtain ⟨rfl, rfl⟩ := hz
      exact stage_of_move hy (hs.stage hx)
    · exact hs.stage hz
  · intro j z hz hloop
    rcases getElem?_of_set hz with hz | hz
    · obtain ⟨rfl, rfl⟩ := hz
      exact (hs.left hx hloop).move hy fun hdispatch => hloop (hm hdispatch)
    · exact hs.left hz hloop
  · intro j hloop
    rw [List.length_set]
    exact hs.last hloop
  · intro hloop
    rw [List.length_set]
    exact hs.waiting hloop
  · have hsum := sum_map_set (g := Conn.permit) hx y
    have hpermit := permit_of_move hy (hs.stage hx)
    rw [← hs.permits, Option.map_map]
    apply Option.map_congr
    intro p _
    change p + returned m + ((s.server.conns.set k y).map Conn.permit).sum = _
    omega

theorem Inv.input (hs : s.Inv maxConns) {i : Input} (h : s.server.input i = some t) :
    Inv maxConns { s with server := t } := by
  have hsound := hs.sound.input h
  have hlength := length_receive (Server.clients_input h)
  obtain ⟨cs, hcs, rfl⟩ := Option.map_eq_some_iff.mp h
  exact ⟨hsound, hs.stage, hs.left, hs.last, fun hloop => (hs.waiting hloop).trans_le hlength,
    hs.permits⟩

/-- A connection comes with a permit that was free. -/
theorem Inv.acquire (hs : s.Inv maxConns) (hloop : s.loop = .acquiring) (hfree : s.permits ≠ some 0)
    (h : s.server.accept .reading = some t) :
    Inv maxConns ⟨t, .dispatching s.server.conns.length, s.permits.map (· - 1)⟩ := by
  have hsound := hs.sound.accept (Or.inr rfl) h
  obtain ⟨_, rfl⟩ := Server.accept_some h
  constructor
  · exact hsound
  · intro k x hx
    rcases getElem?_of_concat hx with hx | hx
    · rw [hx.2]
      simp [Conn.accepted]
    · exact hs.stage hx
  · intro k x hx hother
    rcases getElem?_of_concat hx with hx | hx
    · exact absurd (by rw [hx.1]) hother
    · exact hs.left hx (by rw [hloop]; simp)
  · intro k hk
    cases hk
    exact List.length_append
  · intro hacquiring
    cases hacquiring
  · rw [← hs.permits, Option.map_map]
    apply Option.map_congr
    intro p hp
    have hpos : p ≠ 0 := fun hzero => hfree (by rw [← hzero]; exact hp)
    change p - 1 + ((s.server.conns ++ [Conn.accepted .reading]).map Conn.permit).sum = _
    rw [List.map_append, List.sum_append]
    change p - 1 + ((s.server.conns.map Conn.permit).sum + 1) = _
    omega

/-- The accept loop leaves a connection when its channel is closed and empty. -/
theorem Inv.next (hs : s.Inv maxConns) {k : ℕ} {x : Conn} (hloop : s.loop = .dispatching k)
    (hx : s.server.conns[k]? = some x) (hleft : x.Left) :
    Inv maxConns { s with loop := .accepting } := by
  refine ⟨hs.sound, hs.stage, ?_, (fun h => by cases h), (fun h => by cases h), hs.permits⟩
  intro j y hy _
  by_cases hj : j = k
  · subst hj
    obtain rfl := Option.some.inj (hx.symm.trans hy)
    exact hleft
  · refine hs.left hy fun hloop' => hj ?_
    rw [hloop] at hloop'
    exact (Loop.dispatching.inj hloop').symm

/-- What the plain server can do of its own: come to an accept, take a permit for the next
connection, move a connection, or leave one. -/
theorem serveTcp_cases {a : TcpAction} {u : TcpServer} (h : serveTcp s (.internal a) = some u) :
    (s.loop = .accepting ∧ s.server.conns.length < s.server.clients.length ∧
      u = { s with loop := .acquiring }) ∨
    (s.loop = .acquiring ∧ s.permits ≠ some 0 ∧ ∃ t, s.server.accept .reading = some t ∧
      u = ⟨t, .dispatching s.server.conns.length, s.permits.map (· - 1)⟩) ∨
    (∃ k m t, s.server.moveAt k m = some t ∧ (m = .dispatch → s.loop = .dispatching k) ∧
      u = ⟨t, s.loop, s.permits.map (· + returned m)⟩) ∨
    ∃ k x, s.loop = .dispatching k ∧ s.server.conns[k]? = some x ∧ x.Left ∧
      u = { s with loop := .accepting } := by
  have hmoved : ∀ {m : Move} {t : Server}, returned m = 0 →
      { s with server := t } = (⟨t, s.loop, s.permits.map (· + returned m)⟩ : TcpServer) := by
    intro m t hm
    simp [hm]
  cases a with
  | accept =>
      obtain ⟨⟨hloop, hlt⟩, hu⟩ := Option.ite_none_right_eq_some.mp h
      exact Or.inl ⟨hloop, hlt, (Option.some.inj hu).symm⟩
  | acquire =>
      obtain ⟨⟨hloop, hfree⟩, hu⟩ := Option.ite_none_right_eq_some.mp h
      obtain ⟨t, ht, rfl⟩ := Option.map_eq_some_iff.mp hu
      exact Or.inr (Or.inl ⟨hloop, hfree, t, ht, rfl⟩)
  | read k =>
      obtain ⟨t, ht, rfl⟩ := Option.map_eq_some_iff.mp h
      exact Or.inr (Or.inr (Or.inl ⟨k, .read, t, ht, (fun hm => by cases hm), hmoved rfl⟩))
  | finish k =>
      obtain ⟨t, ht, rfl⟩ := Option.map_eq_some_iff.mp h
      exact Or.inr (Or.inr (Or.inl ⟨k, .finish, t, ht, (fun hm => by cases hm), hmoved rfl⟩))
  | release k =>
      obtain ⟨t, ht, rfl⟩ := Option.map_eq_some_iff.mp h
      exact Or.inr (Or.inr (Or.inl ⟨k, .release, t, ht, (fun hm => by cases hm), rfl⟩))
  | dispatch =>
      rw [serveTcp] at h
      split at h
      · next k hloop =>
          obtain ⟨t, ht, rfl⟩ := Option.map_eq_some_iff.mp h
          exact Or.inr (Or.inr (Or.inl ⟨k, .dispatch, t, ht, fun _ => hloop, hmoved rfl⟩))
      · cases h
  | next =>
      rw [serveTcp] at h
      split at h
      · next k hloop =>
          split at h
          · next x hx =>
              obtain ⟨⟨hchan, hstage⟩, hu⟩ := Option.ite_none_right_eq_some.mp h
              exact Or.inr (Or.inr (Or.inr
                ⟨k, x, hloop, hx, ⟨hstage, hchan⟩, (Option.some.inj hu).symm⟩))
          · cases h
      · cases h

theorem Inv.step (hs : s.Inv maxConns) {e : Event TcpAction} {u : TcpServer}
    (h : serveTcp s e = some u) : u.Inv maxConns := by
  cases e with
  | input i =>
      obtain ⟨t, ht, rfl⟩ := Option.map_eq_some_iff.mp h
      exact hs.input ht
  | internal a =>
      rcases serveTcp_cases h with ⟨hloop, hlt, rfl⟩ | ⟨hloop, hfree, t, ht, rfl⟩ |
        ⟨k, m, t, ht, hm, rfl⟩ | ⟨k, x, hloop, hx, hleft, rfl⟩
      · exact ⟨hs.sound, hs.stage, fun hx _ => hs.left hx (by rw [hloop]; simp),
          (fun h => by cases h), fun _ => hlt, hs.permits⟩
      · exact hs.acquire hloop hfree ht
      · exact hs.moveAt ht hm
      · exact hs.next hloop hx hleft

theorem inv_of_run {es : List (Event TcpAction)} {u : TcpServer}
    (hrun : run serveTcp (start maxConns) es = some u) : u.Inv maxConns := by
  apply run_invariant (P := fun _ _ => True) ?_ (inv_start maxConns) (guarded_true _ es) hrun
  intro s e t hs _ h
  exact hs.step h

theorem clients_of_run {es : List (Event TcpAction)} {u : TcpServer}
    (hrun : run serveTcp (start maxConns) es = some u) :
    run receive [] (inputs es) = some u.server.clients := by
  apply MuxServers.clients_of_run (fun s : TcpServer => s.server.clients) ?_ ?_ hrun
  · intro s i u h
    obtain ⟨t, ht, rfl⟩ := Option.map_eq_some_iff.mp h
    exact Server.clients_input ht
  · intro s a u h
    rcases serveTcp_cases h with ⟨_, _, rfl⟩ | ⟨_, _, t, ht, rfl⟩ | ⟨k, m, t, ht, _, rfl⟩ |
      ⟨_, _, _, _, _, rfl⟩
    · rfl
    · exact Server.clients_accept ht
    · exact Server.clients_moveAt ht
    · rfl

/-! ### At rest -/

/-- An accepted connection has handed over what arrived on it. It has ended, or the
accept loop is waiting for it to end. -/
theorem Inv.conn_quiescent (hs : s.Inv maxConns) (hquiet : Quiescent serveTcp s) {k : ℕ} {c : Client}
    {x : Conn} (hc : s.server.clients[k]? = some c) (hx : s.server.conns[k]? = some x) :
    x.handed = c.arrived ∧ (s.loop = .dispatching k → c.ended = false) ∧
      (s.loop ≠ .dispatching k → x.stage = .released ∧ c.ended = true) := by
  have hsound := hs.sound.conn hc hx
  have hmove : ∀ {a : TcpAction} {m : Move} {f : Server → TcpServer},
      serveTcp s (.internal a) = (s.server.moveAt k m).map f → x.move c m = none := by
    intro a m f ha
    exact Server.move_none hc hx (Option.map_eq_none_iff.mp (ha.symm.trans (hquiet a)))
  by_cases hloop : s.loop = .dispatching k
  · have hchan : x.chan = [] := by
      apply chan_of_move
      apply hmove (a := .dispatch) (f := fun t => { s with server := t })
      rw [serveTcp, hloop]
    have hnext := hquiet .next
    rw [serveTcp, hloop] at hnext
    dsimp only at hnext
    rw [hx] at hnext
    dsimp only at hnext
    have hdone : ¬ (x.stage = .finished ∨ x.stage = .released) := by
      intro hdone
      rw [if_pos ⟨hchan, hdone⟩] at hnext
      cases hnext
    have hstage : x.stage = .reading := by
      have hnot := hs.stage hx
      cases hstage : x.stage <;> simp_all
    have htaken := taken_of_move hsound hstage
      (hmove (a := .read k) (f := fun t => { s with server := t }) rfl)
    have hfinish := hmove (a := .finish k) (m := .finish) (f := fun t => { s with server := t }) rfl
    refine ⟨hsound.settled hchan htaken, fun _ => ?_, fun hother => absurd hloop hother⟩
    by_contra hended
    rw [Conn.move, if_pos ⟨hstage, htaken, by simpa using hended⟩] at hfinish
    cases hfinish
  · obtain ⟨hdone, hchan⟩ := hs.left hx hloop
    obtain ⟨htaken, hended⟩ := hsound.drained hdone
    have hrelease := hmove (a := .release k) (m := .release)
      (f := fun t => { s with server := t, permits := s.permits.map (· + 1) }) rfl
    have hreleased : x.stage = .released := by
      refine hdone.resolve_left fun hfinished => ?_
      rw [Conn.move, if_pos hfinished] at hrelease
      cases hrelease
    exact ⟨hsound.settled hchan htaken, fun hat => absurd hat hloop, fun _ => ⟨hreleased, hended⟩⟩

/-- Connections that are not accepted wait for one that is open, unless there are no
permits at all. -/
theorem Inv.loop_quiescent (hs : s.Inv maxConns) (hquiet : Quiescent serveTcp s) :
    s.server.clients.length ≤ s.server.conns.length ∨ maxConns = some 0 ∨
      ∃ k, s.loop = .dispatching k := by
  cases hloop : s.loop with
  | accepting =>
      left
      have haccept := hquiet .accept
      by_contra hlt
      rw [serveTcp, if_pos ⟨hloop, by omega⟩] at haccept
      cases haccept
  | acquiring =>
      right
      left
      have hacquire := hquiet .acquire
      have hnone : s.permits = some 0 := by
        by_contra hfree
        rw [serveTcp, if_pos ⟨hloop, hfree⟩, Server.accept, if_pos (hs.waiting hloop)] at hacquire
        cases hacquire
      have hreleased : ∀ n ∈ s.server.conns.map Conn.permit, n = 0 := by
        intro n hn
        obtain ⟨x, hmem, rfl⟩ := List.mem_map.mp hn
        obtain ⟨k, hk⟩ := List.mem_iff_getElem?.mp hmem
        have hlt := (List.getElem?_eq_some_iff.mp hk).1.trans_le hs.sound.length
        have hrest := (hs.conn_quiescent hquiet (List.getElem?_eq_getElem hlt) hk).2.2
        rw [Conn.permit, if_pos (hrest (by rw [hloop]; simp)).1]
      have hpermits := hs.permits
      rw [hnone, Option.map_some, List.sum_eq_zero hreleased] at hpermits
      exact hpermits.symm
  | dispatching k => exact Or.inr (Or.inr ⟨k, rfl⟩)

/-- Only the connection accepted last may still be open. -/
theorem Inv.earlier_ended (hs : s.Inv maxConns) (hquiet : Quiescent serveTcp s) {j k : ℕ} {c : Client}
    (hjk : j < k) (hk : k < s.server.conns.length) (hc : s.server.clients[j]? = some c) :
    c.ended = true := by
  have hj := List.getElem?_eq_getElem (hjk.trans hk)
  refine ((hs.conn_quiescent hquiet hc hj).2.2 fun hloop => ?_).2
  have hlast := hs.last hloop
  omega

/-- Before a connection that is not accepted, one is open. -/
theorem Inv.earlier_open (hs : s.Inv maxConns) (hquiet : Quiescent serveTcp s)
    (hpermits : maxConns ≠ some 0) {k : ℕ} (hk : k < s.server.clients.length)
    (hnew : s.server.conns.length ≤ k) :
    ∃ j c, j < k ∧ s.server.clients[j]? = some c ∧ c.ended = false := by
  rcases hs.loop_quiescent hquiet with hall | hzero | ⟨j, hloop⟩
  · omega
  · exact absurd hzero hpermits
  · have hlast := hs.last hloop
    have hx := List.getElem?_eq_getElem (show j < s.server.conns.length by omega)
    have hc := List.getElem?_eq_getElem (show j < s.server.clients.length by omega)
    exact ⟨j, _, by omega, hc, (hs.conn_quiescent hquiet hc hx).2.1 hloop⟩

end TcpServer

/-- The accepted connections that have not given their permit back. -/
def TcpServer.live (s : TcpServer) : ℕ := s.server.conns.countP fun x => x.stage ≠ .released

theorem sum_permit (xs : List Conn) :
    (xs.map Conn.permit).sum = xs.countP fun x => x.stage ≠ .released := by
  induction xs with
  | nil => rfl
  | cons x xs ih =>
      rw [List.map_cons, List.sum_cons, List.countP_cons, ih, Conn.permit]
      by_cases hx : x.stage = .released
      · simp [hx]
      · simp [hx, Nat.add_comm]

/-- At rest the connections that were left are released, and the accept loop is at the last. -/
theorem TcpServer.Inv.live_quiescent {maxConns : Option ℕ} {s : TcpServer} (hs : s.Inv maxConns)
    (hquiet : Quiescent serveTcp s) : s.live ≤ 1 := by
  have hreleased : ∀ (k : ℕ) (x : Conn), s.server.conns[k]? = some x → s.loop ≠ .dispatching k →
      x.stage = .released := by
    intro k x hx hloop
    have hlt := (List.getElem?_eq_some_iff.mp hx).1.trans_le hs.sound.length
    exact ((hs.conn_quiescent hquiet (List.getElem?_eq_getElem hlt) hx).2.2 hloop).1
  unfold TcpServer.live
  rcases List.eq_nil_or_concat s.server.conns with hnil | ⟨xs, y, hconcat⟩
  · rw [hnil]
    exact Nat.zero_le 1
  · have hinit : xs.countP (fun x => decide (x.stage ≠ .released)) = 0 := by
      rw [List.countP_eq_zero]
      intro x hx
      obtain ⟨k, hk⟩ := List.mem_iff_getElem?.mp hx
      have hlt := (List.getElem?_eq_some_iff.mp hk).1
      have hget : s.server.conns[k]? = some x := by
        rw [hconcat, List.concat_eq_append, List.getElem?_append_left hlt]
        exact hk
      have hstage := hreleased k x hget fun hloop => by
        have hlast := hs.last hloop
        rw [hconcat, List.length_concat] at hlast
        omega
      simp [hstage]
    rw [hconcat, List.concat_eq_append, List.countP_append, hinit, Nat.zero_add]
    exact List.countP_le_length

/-- In every run no more than `n` connections are live, and every permit that is not free is
held by one of them. At rest the connections whose clients have gone have given theirs back, and
no more than one is live, whatever the limit. -/
theorem connections_limited (n : ℕ) (es : List (Event TcpAction)) (s : TcpServer)
    (hs : run serveTcp (.start (some n)) es = some s) :
    s.live ≤ n ∧ s.permits = some (n - s.live) ∧
      (Quiescent serveTcp s → s.live ≤ 1 ∧ ∀ (k : ℕ) (c : Client) (x : Conn),
        s.server.clients[k]? = some c → s.server.conns[k]? = some x →
          (x.stage = .released ↔ c.ended = true)) := by
  have hinv := TcpServer.inv_of_run hs
  have hpermits := hinv.permits
  rw [sum_permit] at hpermits
  obtain ⟨p, hp, hsum⟩ := Option.map_eq_some_iff.mp hpermits
  change p + s.live = n at hsum
  refine ⟨by omega, ?_, ?_⟩
  · rw [hp]
    exact congrArg some (by omega)
  · intro hquiet
    refine ⟨hinv.live_quiescent hquiet, ?_⟩
    intro k c x hc hx
    obtain ⟨_, hopen, hleft⟩ := hinv.conn_quiescent hquiet hc hx
    constructor
    · intro hreleased
      exact ((hinv.sound.conn hc hx).drained (Or.inr hreleased)).2
    · intro hended
      by_cases hloop : s.loop = .dispatching k
      · rw [hopen hloop] at hended
        cases hended
      · exact (hleft hloop).1

/-! ## Two clients at a time -/

theorem Server.moveAt_beyond {s : Server} {k : ℕ} (h : s.conns.length ≤ k) (m : Move) :
    s.moveAt k m = none := by
  rw [moveAt, List.getElem?_eq_none h]
  cases s.clients[k]? <;> rfl

/-- Two clients connect, and each sends a frame. -/
def twoClients {A : Type} : List (Event A) :=
  [.input .opening, .input .opening, .input (.frame 0 ⟨1, [7]⟩), .input (.frame 1 ⟨1, [7]⟩)]

def twoClientsTcp : List (Event TcpAction) :=
  twoClients ++ [.internal .accept, .internal .acquire, .internal (.read 0), .internal .dispatch]

def twoClientsTls : List (Event TlsAction) :=
  twoClients ++ [0, 1].flatMap fun k => [.internal .accept, .internal (.task k .handshake),
    .internal (.task k .read), .internal (.task k .dispatch)]

def twoServed : List Client := [⟨[⟨1, [7]⟩], false⟩, ⟨[⟨1, [7]⟩], false⟩]

/-- The plain server waits for the end of the first connection. -/
def tcpAtRest : TcpServer :=
  ⟨⟨twoServed, [⟨.reading, 1, [], [⟨1, [7]⟩]⟩]⟩, .dispatching 0, none⟩

def tlsAtRest : Server :=
  ⟨twoServed, [⟨.reading, 1, [], [⟨1, [7]⟩]⟩, ⟨.reading, 1, [], [⟨1, [7]⟩]⟩]⟩

theorem connections_limited_two :
    ∃ s : TcpServer, run serveTcp (.start (some 2)) twoClientsTcp = some s ∧ s.live ≤ 2 ∧
      s.permits = some (2 - s.live) ∧ s.live = 1 := by
  have hrun : run serveTcp (.start (some 2)) twoClientsTcp =
      some { tcpAtRest with permits := some 1 } := by decide
  have h := connections_limited 2 twoClientsTcp _ hrun
  exact ⟨_, hrun, h.1, h.2.1, by decide⟩

theorem tcpAtRest_quiescent : Quiescent serveTcp tcpAtRest := by
  have hbeyond : ∀ k m, tcpAtRest.server.moveAt (k + 1) m = none :=
    fun k m => Server.moveAt_beyond (Nat.le_add_left 1 k) m
  intro a
  cases a with
  | accept | acquire | dispatch | next => rfl
  | read k | finish k | release k =>
      cases k with
      | zero => rfl
      | succ k =>
          rw [serveTcp, hbeyond]
          rfl

theorem tlsAtRest_quiescent : Quiescent serveTcpTls tlsAtRest := by
  intro a
  cases a with
  | accept => rfl
  | task k m =>
      have hmove : tlsAtRest.moveAt k m = none := by
        match k with
        | 0 | 1 => cases m <;> rfl
        | k + 2 => exact Server.moveAt_beyond (Nat.le_add_left 2 k) m
      cases m with
      | release => rfl
      | _ => exact hmove

end Pinhead.MuxServers
