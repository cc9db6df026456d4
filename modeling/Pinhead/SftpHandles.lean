import Pinhead.SftpReplies

/-!
# The handles of one session

Each file or directory that a session opens gets a handle, a counter in hexadecimal digits.
The counter only grows, so a handle is never given out twice. Opening adds the entry of the
new handle to the table and closing takes out that of the closed one; nothing else changes
the table. A handle therefore stands for the path it was opened with until it is closed,
and the requests on it are sent to that path.
-/
namespace Pinhead.SftpHandles
open ByteStrings FsRequests Resumption Histories SftpSessions

/-! ## The text of a handle -/

/-- A lower-case hexadecimal digit. -/
def digitValue (c : Char) : ℕ := if c.isDigit then c.toNat - 48 else c.toNat - 87

def hexValue (init : ℕ) (cs : List Char) : ℕ := cs.foldl (fun n c => 16 * n + digitValue c) init

theorem digitValue_digitChar {n : ℕ} (h : n < 16) : digitValue n.digitChar = n := by
  have hall : ∀ k < 16, digitValue (Nat.digitChar k) = k := by decide
  exact hall n h

theorem hexValue_append (init : ℕ) (cs ds : List Char) :
    hexValue init (cs ++ ds) = hexValue (hexValue init cs) ds := List.foldl_append

theorem hexValue_zeros (n : ℕ) : hexValue 0 (List.replicate n '0') = 0 := by
  induction n with
  | zero => rfl
  | succ n ih => exact ih

theorem hexValue_toDigits (n : ℕ) : hexValue 0 (Nat.toDigits 16 n) = n := by
  induction n using Nat.strong_induction_on with
  | _ n ih =>
      by_cases h : n < 16
      · rw [Nat.toDigits_of_lt_base h, hexValue, List.foldl_cons, List.foldl_nil,
          digitValue_digitChar h]
        omega
      · rw [Nat.toDigits_of_base_le (by decide) (by omega), hexValue_append, ih (n / 16) (by omega),
          hexValue, List.foldl_cons, List.foldl_nil, digitValue_digitChar (by omega)]
        omega

/-- Different counters have different handles, whether they are padded or not. -/
theorem handleId_injective : Function.Injective handleId := by
  have hvalue (n : ℕ) : hexValue 0 (handleId n).toList = n := by
    rw [handleId, String.toList_ofList, hexValue_append, hexValue_zeros, hexValue_toDigits]
  intro m n h
  rw [← hvalue m, h, hvalue n]

/-! ## Packets and handles -/

/-- What a packet opens. -/
def opens : Packet → Option (String × Bool)
  | .open _ filename _ => some (filename, false)
  | .openDir _ path => some (path, true)
  | _ => none

def closes : Packet → Option String
  | .close _ handle => some handle
  | _ => none

/-- The handle that a request is on. -/
def operand : Packet → Option String
  | .close _ handle | .read _ handle _ _ | .write _ handle _ _ | .readDir _ handle
  | .fstat _ handle | .fSetStat _ handle _ => some handle
  | _ => none

def returned : Option Reply → Option String
  | some (.handle _ handle) => some handle
  | _ => none

/-- All that a packet can do to the table. -/
inductive Effect (s : HandleState) (p : Packet) : Option Reply → HandleState → Prop
  | kept {reply : Option Reply} : returned reply = none → closes p = none → Effect s p reply s
  | opened {id : ℕ} {path : String} {isDir : Bool} : opens p = some (path, isDir) →
      Effect s p (some (.handle id (s.alloc path isDir).1)) (s.alloc path isDir).2
  | closed {reply : Option Reply} {handle : String} : returned reply = none →
      closes p = some handle → Effect s p reply (s.free handle)

/-- What a method may leave; one that fails changes nothing. -/
def Leaves (s : HandleState) (p : Packet) (r : Result) : Prop :=
  match r.1 with
  | .ok reply => Effect s p (some reply) r.2
  | .error _ => r.2 = s ∧ closes p = none

def Affects (s : HandleState) (p : Packet) (x : Prog sftp Result) : Prop :=
  Confined (fun _ => True) (Leaves s p) x

section
variable {s : HandleState} {p : Packet}

theorem affects_kept {reply : Reply} (hreply : returned (some reply) = none)
    (hclose : closes p = none) : Affects s p (pure (.ok reply, s)) := Effect.kept hreply hclose

theorem affects_error (hclose : closes p = none) (code : StatusCode) :
    Affects s p (pure (.error code, s)) := And.intro rfl hclose

theorem affects_route {op : FsOperation} {path : String} {data : Bytes}
    {f : Except String Bytes → Prog sftp Result} (hok : ∀ bs, Affects s p (f (.ok bs)))
    (herr : ∀ e, Affects s p (f (.error e))) : Affects s p (route op path data >>= f) :=
  confined_route trivial hok herr

theorem affects_acknowledge (hclose : closes p = none) (op : FsOperation) (id : ℕ)
    (path : String) (data : Bytes) : Affects s p (acknowledge s op id path data) :=
  confined_acknowledge trivial (affects_kept rfl hclose) (affects_error hclose _)

theorem affects_withHandle (hclose : closes p = none) {handle : String}
    {f : HandleEntry → Prog sftp Result} (hf : ∀ entry, Affects s p (f entry)) :
    Affects s p (withHandle s handle f) :=
  confined_withHandle (affects_error hclose _) fun entry _ => hf entry

theorem affects_statImpl (hclose : closes p = none) (id : ℕ) (path : String) :
    Affects s p (statImpl s id path) :=
  confined_statImpl trivial (fun _ _ => affects_kept rfl hclose) (affects_error hclose _)

theorem replyTo_effect {id : ℕ} {x : Prog sftp Result} (hx : Affects s p x)
    {h : List (Answered sftp)} {reply : Option Reply} {s' : HandleState}
    (hp : Passes (replyTo id x) h (.done (reply, s'))) : Effect s p reply s' := by
  have heffect : Confined (fun _ => True)
      (fun r : Option Reply × HandleState => Effect s p r.1 r.2) (replyTo id x) := by
    refine confined_replyTo hx (fun _ _ hleaves => hleaves) fun code s' hleaves => ?_
    obtain ⟨hsame, hclose⟩ := hleaves
    obtain rfl : s' = s := hsame
    exact .kept rfl hclose
  exact heffect.result hp

end

theorem dispatch_effect {s s' : HandleState} {p : Packet} {h : List (Answered sftp)}
    {reply : Option Reply} (hp : Passes (dispatch s p) h (.done (reply, s'))) :
    Effect s p reply s' := by
  cases p with
  | «open» id filename pflags =>
      refine replyTo_effect (affects_route (fun _ => ?_) fun _ => affects_error rfl _) hp
      exact Effect.opened rfl
  | openDir id path =>
      refine replyTo_effect (affects_route (fun _ => ?_) fun _ => affects_error rfl _) hp
      exact Effect.opened rfl
  | close id handle =>
      refine replyTo_effect (confined_close (fun _ _ => trivial) ?_) hp
      exact Effect.closed rfl rfl
  | read id handle offset len =>
      exact replyTo_effect (confined_read (fun _ _ => trivial) (fun _ => affects_kept rfl rfl)
        (affects_error rfl)) hp
  | write id handle offset data =>
      exact replyTo_effect (affects_withHandle rfl fun entry => affects_acknowledge rfl _ _ _ _) hp
  | readDir id handle =>
      exact replyTo_effect (confined_readdir (fun _ _ => trivial) (fun _ => affects_kept rfl rfl)
        (affects_error rfl)) hp
  | remove id path | mkDir id path | rmDir id path | setStat id path _ | fSetStat id handle _ =>
      exact replyTo_effect (affects_acknowledge rfl _ _ _ _) hp
  | realPath id path => exact replyTo_effect (affects_kept rfl rfl) hp
  | stat id path | lstat id path => exact replyTo_effect (affects_statImpl rfl _ _) hp
  | fstat id handle =>
      exact replyTo_effect (affects_withHandle rfl fun entry => affects_statImpl rfl _ _) hp
  | rename id oldpath newpath =>
      exact replyTo_effect (affects_route (fun _ => affects_kept rfl rfl) fun _ =>
        affects_kept rfl rfl) hp
  | readLink id | symlink id =>
      cases hp
      exact .kept rfl rfl
  | extended id | other =>
      cases hp
      exact .kept rfl rfl

/-! ## Requests on a handle -/

/-- One request, for the path, whatever it is answered with. -/
def Asks {A : Type} (path : String) : Prog sftp A → Prop
  | .done _ => False
  | .call req next => req.path = path ∧ ∀ a, ∃ r, next a = .done r

theorem asks_route {A : Type} (op : FsOperation) (path : String) (data : Bytes)
    {f : Except String Bytes → Prog sftp A} (hf : ∀ x, ∃ r, f x = .done r) :
    Asks (normalized path) (route op path data >>= f) := ⟨rfl, fun a => hf (outcome a)⟩

theorem asks_acknowledge (s : HandleState) (op : FsOperation) (id : ℕ) (path : String)
    (data : Bytes) : Asks (normalized path) (acknowledge s op id path data) := by
  refine asks_route op path data fun x => ?_
  cases x with
  | ok _ => exact ⟨_, rfl⟩
  | error _ => exact ⟨_, rfl⟩

theorem asks_statImpl (s : HandleState) (id : ℕ) (path : String) :
    Asks (normalized path) (statImpl s id path) := by
  refine asks_route .getAttr path [] fun x => ?_
  cases x with
  | ok _ => exact ⟨_, rfl⟩
  | error _ => exact ⟨_, rfl⟩

theorem asks_replyTo {path : String} {x : Prog sftp Result} (hx : Asks path x) (id : ℕ) :
    Asks path (replyTo id x) := by
  cases x with
  | done r => exact hx.elim
  | call req next =>
      refine ⟨hx.1, fun a => ?_⟩
      obtain ⟨⟨res, s⟩, hr⟩ := hx.2 a
      dsimp only
      rw [hr]
      cases res with
      | ok reply => exact ⟨_, rfl⟩
      | error code => exact ⟨_, rfl⟩

theorem asks_passes {A : Type} {path : String} {x : Prog sftp A} (hx : Asks path x)
    {h : List (Answered sftp)} {r : A} (hp : Passes x h (.done r)) :
    ∃ req a, h = [⟨req, a⟩] ∧ req.path = path := by
  cases hp with
  | refl => exact hx.elim
  | answer req next a hrest =>
      obtain ⟨r', hr⟩ := hx.2 a
      rw [hr] at hrest
      obtain ⟨rfl, -⟩ := passes_done hrest
      exact ⟨req, a, rfl, hx.1⟩

/-- The requests on an open handle go to its path. Only a file is not listed: that fails
without a request. -/
def Routed (entry : HandleEntry) : Packet → List (Answered sftp) → Option Reply → Prop
  | .readDir id _, h, reply =>
      if entry.isDir then ∃ req a, h = [⟨req, a⟩] ∧ req.path = normalized entry.path
      else h = [] ∧ reply = some (makeStatus id .failure)
  | _, h, _ => ∃ req a, h = [⟨req, a⟩] ∧ req.path = normalized entry.path

theorem dispatch_routed {s s' : HandleState} {p : Packet} {h : List (Answered sftp)}
    {reply : Option Reply} {handle : String} {entry : HandleEntry}
    (hget : s.get handle = some entry) (hoperand : operand p = some handle)
    (hp : Passes (dispatch s p) h (.done (reply, s'))) : Routed entry p h reply := by
  have hwith (f : HandleEntry → Prog sftp Result) : withHandle s handle f = f entry := by
    rw [withHandle, hget]
  cases p with
  | close id handle' =>
      obtain rfl := Option.some.inj hoperand
      refine asks_passes (asks_replyTo ?_ id) hp
      rw [close, hget]
      exact asks_route .release entry.path [] fun _ => ⟨_, rfl⟩
  | read id handle' offset len =>
      obtain rfl := Option.some.inj hoperand
      refine asks_passes (asks_replyTo ?_ id) hp
      rw [SftpSessions.read, hwith]
      refine asks_route .read entry.path [] fun x => ?_
      cases x with
      | ok resp =>
          dsimp only
          split
          · exact ⟨_, rfl⟩
          · exact ⟨_, rfl⟩
      | error _ => exact ⟨_, rfl⟩
  | write id handle' offset data =>
      obtain rfl := Option.some.inj hoperand
      refine asks_passes (asks_replyTo ?_ id) hp
      rw [write, hwith]
      exact asks_acknowledge s .write id entry.path data
  | readDir id handle' =>
      obtain rfl := Option.some.inj hoperand
      rw [dispatch, readdir, hwith] at hp
      rw [Routed]
      split at hp
      · next hdir =>
          rw [if_pos hdir]
          refine asks_passes (asks_replyTo ?_ id) hp
          refine asks_route .readDir entry.path [] fun x => ?_
          cases x with
          | ok _ => exact ⟨_, rfl⟩
          | error _ => exact ⟨_, rfl⟩
      · next hdir =>
          rw [if_neg hdir]
          obtain ⟨rfl, hdone⟩ := passes_done hp
          cases hdone
          exact ⟨rfl, rfl⟩
  | fstat id handle' =>
      obtain rfl := Option.some.inj hoperand
      refine asks_passes (asks_replyTo ?_ id) hp
      rw [fstat, hwith]
      exact asks_statImpl s id entry.path
  | fSetStat id handle' attrs =>
      obtain rfl := Option.some.inj hoperand
      refine asks_passes (asks_replyTo ?_ id) hp
      rw [fSetStat, hget]
      exact asks_acknowledge s .setAttr id entry.path []
  | _ => cases hoperand

/-! ## Sessions -/

/-- One packet with everything that happened during it. -/
structure Turn where
  before : HandleState
  packet : Packet
  history : List (Answered sftp)
  reply : Option Reply
  after : HandleState

inductive Turns : HandleState → List Turn → HandleState → Prop
  | nil (s : HandleState) : Turns s [] s
  | cons (t : Turn) {ts : List Turn} {s : HandleState} :
      Passes (dispatch t.before t.packet) t.history (.done (t.reply, t.after)) →
      Turns t.after ts s → Turns t.before (t :: ts) s

/-- However the router answers, a session is made of turns. -/
theorem turns_of_passes {s s' : HandleState} {ps : List Packet} {h : List (Answered sftp)}
    {replies : List Reply} (hp : Passes (sftpLoop s ps) h (.done (replies, s'))) :
    ∃ ts, Turns s ts s' ∧ ts.map Turn.packet = ps ∧ ts.filterMap Turn.reply = replies ∧
      ts.flatMap Turn.history = h := by
  induction ps generalizing s h replies with
  | nil =>
      obtain ⟨rfl, hdone⟩ := passes_done hp
      cases hdone
      exact ⟨[], .nil _, rfl, rfl, rfl⟩
  | cons p ps ih =>
      obtain ⟨⟨reply, s₁⟩, h₁, h₂, rfl, hfirst, hrest⟩ := passes_bind_done hp
      obtain ⟨⟨rest, s₂⟩, h₃, h₄, rfl, hloop, hdone⟩ := passes_bind_done hrest
      obtain ⟨rfl, hdone⟩ := passes_done hdone
      cases hdone
      obtain ⟨ts, hts, rfl, rfl, rfl⟩ := ih hloop
      refine ⟨⟨s, p, h₁, reply, s₁⟩ :: ts, .cons ⟨s, p, h₁, reply, s₁⟩ hfirst hts, rfl, ?_, ?_⟩
      · cases reply with
        | none => rfl
        | some r => rfl
      · rw [List.flatMap_cons, List.append_nil]

theorem turns_append {s s' : HandleState} {ts us : List Turn} (h : Turns s (ts ++ us) s') :
    ∃ m, Turns s ts m ∧ Turns m us s' := by
  induction ts generalizing s with
  | nil => exact ⟨s, .nil s, h⟩
  | cons t ts ih =>
      cases h with
      | cons _ hp hrest =>
          obtain ⟨m, hts, hus⟩ := ih hrest
          exact ⟨m, .cons t hp hts, hus⟩

/-- The handle stands for the entry and was given out before. -/
structure Holds (handle : String) (entry : HandleEntry) (s : HandleState) : Prop where
  get : s.get handle = some entry
  given : ∃ n < s.nextId, handle = handleId n

/-- Only closing a handle itself takes its entry away. -/
theorem Holds.effect {handle : String} {entry : HandleEntry} {s s' : HandleState} {p : Packet}
    {reply : Option Reply} (hs : Holds handle entry s) (he : Effect s p reply s')
    (hopen : closes p ≠ some handle) : Holds handle entry s' := by
  cases he with
  | kept _ _ => exact hs
  | @opened _ path isDir _ =>
      obtain ⟨n, hn, rfl⟩ := hs.given
      have hne : handleId n ≠ handleId s.nextId := fun heq => hn.ne (handleId_injective heq)
      exact ⟨(AList.lookup_insert_ne hne).trans hs.get, n, Nat.lt_succ_of_lt hn, rfl⟩
  | @closed _ handle' _ hclose =>
      have hne : handle ≠ handle' := by
        rintro rfl
        exact hopen hclose
      exact ⟨(AList.lookup_erase_ne hne).trans hs.get, hs.given⟩

/-- The reply returns the handle of a new entry. -/
theorem Effect.holds {s s' : HandleState} {p : Packet} {reply : Option Reply} {handle path : String}
    {isDir : Bool} (he : Effect s p reply s') (hreturned : returned reply = some handle)
    (hopens : opens p = some (path, isDir)) : Holds handle ⟨path, isDir⟩ s' := by
  cases he with
  | kept hreply _ =>
      rw [hreply] at hreturned
      cases hreturned
  | opened hopens' =>
      rw [hopens'] at hopens
      cases hopens
      cases hreturned
      exact ⟨AList.lookup_insert _, s.nextId, Nat.lt_succ_self _, rfl⟩
  | closed hreply _ =>
      rw [hreply] at hreturned
      cases hreturned

theorem Holds.turns {handle : String} {entry : HandleEntry} {s s' : HandleState} {ts : List Turn}
    (hs : Holds handle entry s) (hts : Turns s ts s')
    (hopen : ∀ t ∈ ts, closes t.packet ≠ some handle) : Holds handle entry s' := by
  induction hts with
  | nil s => exact hs
  | cons t hp _ ih =>
      obtain ⟨ht, hrest⟩ := List.forall_mem_cons.mp hopen
      exact ih (hs.effect (dispatch_effect hp) ht) hrest

/-- The counter grows by one for each handle that is returned. -/
theorem Effect.counts {s s' : HandleState} {p : Packet} {reply : Option Reply}
    (he : Effect s p reply s') :
    returned reply = none ∧ s'.nextId = s.nextId ∨
      returned reply = some (handleId s.nextId) ∧ s'.nextId = s.nextId + 1 := by
  cases he with
  | kept hreply _ => exact .inl ⟨hreply, rfl⟩
  | opened _ => exact .inr ⟨rfl, rfl⟩
  | closed hreply _ => exact .inl ⟨hreply, rfl⟩

def Turn.returned (t : Turn) : Option String := SftpHandles.returned t.reply

/-- The handles of a session are those of the numbers that the counter goes through. -/
theorem returned_turns {s s' : HandleState} {ts : List Turn} (hts : Turns s ts s') :
    ∃ k ≤ ts.length, s'.nextId = s.nextId + k ∧
      ts.filterMap Turn.returned = (List.range' s.nextId k).map handleId := by
  induction hts with
  | nil s => exact ⟨0, Nat.zero_le _, rfl, rfl⟩
  | cons t hp _ ih =>
      obtain ⟨k, hk, hnext, hhandles⟩ := ih
      rcases (dispatch_effect hp).counts with ⟨hnone, hsame⟩ | ⟨hsome, hsucc⟩
      · rw [hsame] at hnext hhandles
        refine ⟨k, hk.trans (Nat.le_succ _), hnext, ?_⟩
        rw [List.filterMap_cons_none (f := Turn.returned) hnone, hhandles]
      · rw [hsucc] at hnext hhandles
        refine ⟨k + 1, Nat.succ_le_succ hk, by omega, ?_⟩
        rw [List.filterMap_cons_some (f := Turn.returned) hsome, hhandles, List.range'_succ]
        rfl

/-- Handles are never confused. In a session no handle is returned twice and the counter
stays within 64 bits. From the reply that returns it to the packet that closes it, each
request on a handle finds the path and the flag it was opened with and goes to that path. -/
theorem handles_not_confused {s' : HandleState} {ts : List Turn} (hts : Turns .new ts s')
    (hlength : ts.length < 2 ^ 64 - 1) :
    (ts.filterMap Turn.returned).Nodup ∧ s'.nextId < 2 ^ 64 ∧
    ∀ ts₁ t ts₂ u ts₃ handle path isDir, ts = ts₁ ++ t :: ts₂ ++ u :: ts₃ →
      t.returned = some handle → opens t.packet = some (path, isDir) →
      (∀ x ∈ ts₂, closes x.packet ≠ some handle) → operand u.packet = some handle →
      u.before.get handle = some ⟨path, isDir⟩ ∧
        Routed ⟨path, isDir⟩ u.packet u.history u.reply := by
  obtain ⟨k, hk, hnext, hhandles⟩ := returned_turns hts
  refine ⟨?_, ?_, ?_⟩
  · rw [hhandles]
    exact List.Nodup.map handleId_injective List.nodup_range'
  · change s'.nextId = 1 + k at hnext
    omega
  · rintro ts₁ t ts₂ u ts₃ handle path isDir rfl hreturned hopens hopen hoperand
    obtain ⟨s₂, hleft, hright⟩ := turns_append hts
    obtain ⟨s₁, _, hmiddle⟩ := turns_append hleft
    cases hmiddle with
    | cons _ hp hrest =>
        cases hright with
        | cons _ hu _ =>
            have hheld := ((dispatch_effect hp).holds hreturned hopens).turns hrest hopen
            exact ⟨hheld.get, dispatch_routed hheld.get hoperand hu⟩

/-- A file opened and read. -/
theorem handles_not_confused_file :
    (HandleState.new.alloc "f" false).2.get (handleId 1) = some ⟨"f", false⟩ ∧
    [handleId 1].Nodup := by
  let s := (HandleState.new.alloc "f" false).2
  let answer : Option Answer := some (.reply (.ok ⟨[], none, false⟩))
  let opening : Turn := ⟨.new, .open 1 "f" 0, [⟨⟨.openFile, "/f", []⟩, answer⟩],
    some (.handle 1 (handleId 1)), s⟩
  let reading : Turn := ⟨s, .read 2 (handleId 1) 0 4, [⟨⟨.read, "/f", []⟩, answer⟩],
    some (makeStatus 2 .eof), s⟩
  have hopening : Passes (dispatch .new opening.packet) opening.history
      (.done (opening.reply, s)) := .answer _ _ _ (.refl _)
  have hget : s.get (handleId 1) = some ⟨"f", false⟩ := AList.lookup_insert _
  have hreading : Passes (dispatch s reading.packet) reading.history
      (.done (reading.reply, s)) := by
    rw [show dispatch s reading.packet = replyTo 2 (SftpSessions.read s 2 (handleId 1) 0 4) from rfl,
      SftpSessions.read, withHandle, hget]
    exact .answer _ _ _ (.refl _)
  have hts : Turns .new [opening, reading] s :=
    .cons opening hopening (.cons reading hreading (.nil s))
  obtain ⟨hnodup, -, hopen⟩ := handles_not_confused hts (by decide)
  exact ⟨(hopen [] opening [] reading [] _ "f" false rfl rfl rfl (by simp) rfl).1, hnodup⟩

end Pinhead.SftpHandles
