import Pinhead.SftpSessions

/-!
# What a session replies to its packets

A client waits for the reply to each of its requests, which carries the id of the request.
The loop writes one for every request that it has a method for, in order, and for links it
says that it does not support them. Extended requests fall under the packets that it skips.

A directory is read until the reply is that there is nothing more. The handle of a
directory has no position, so that each request is replied with the whole listing again.
-/
namespace Pinhead.SftpReplies
open ByteStrings FsRequests Resumption Histories SftpSessions

/-! ## Transcripts -/

/-- The packets of a session with what was replied to each of them. -/
inductive Transcript : HandleState → List (Packet × Option Reply) → HandleState → Prop
  | nil (s : HandleState) : Transcript s [] s
  | cons {s s₁ s₂ : HandleState} {p : Packet} {reply : Option Reply} {h : List (Answered sftp)}
      {xs : List (Packet × Option Reply)} : Passes (dispatch s p) h (.done (reply, s₁)) →
      Transcript s₁ xs s₂ → Transcript s ((p, reply) :: xs) s₂

/-- However the router answers, a session goes through its packets one after the other. -/
theorem transcript_of_passes {s s' : HandleState} {ps : List Packet} {h : List (Answered sftp)}
    {replies : List Reply} (hp : Passes (sftpLoop s ps) h (.done (replies, s'))) :
    ∃ xs, Transcript s xs s' ∧ xs.map Prod.fst = ps ∧ xs.filterMap Prod.snd = replies := by
  induction ps generalizing s h replies with
  | nil =>
      obtain ⟨_, hdone⟩ := passes_done hp
      cases hdone
      exact ⟨[], .nil _, rfl, rfl⟩
  | cons p ps ih =>
      obtain ⟨⟨reply, s₁⟩, h₁, h₂, rfl, hfirst, hrest⟩ := passes_bind_done hp
      obtain ⟨⟨rest, s₂⟩, h₃, h₄, rfl, hloop, hdone⟩ := passes_bind_done hrest
      cases hdone
      obtain ⟨xs, hxs, hpackets, hreplies⟩ := ih hloop
      refine ⟨(p, reply) :: xs, .cons hfirst hxs, ?_, ?_⟩
      · rw [List.map_cons, hpackets]
      · cases reply with
        | none => exact hreplies
        | some r =>
            change r :: xs.filterMap Prod.snd = r :: rest
            rw [hreplies]

/-- What holds of every dispatch holds of every entry of a transcript. -/
theorem Transcript.forall {P : Packet → Option Reply → Prop}
    (hP : ∀ s p h reply s', Passes (dispatch s p) h (.done (reply, s')) → P p reply)
    {s s' : HandleState} {xs : List (Packet × Option Reply)} (hxs : Transcript s xs s') :
    ∀ x ∈ xs, P x.1 x.2 := by
  induction hxs with
  | nil s => exact fun x hx => absurd hx List.not_mem_nil
  | cons hp _ ih => exact List.forall_mem_cons.mpr ⟨hP _ _ _ _ _ hp, ih⟩

/-! ## Every request -/

/-- The id of a request; other packets have none. -/
def requestId : Packet → Option ℕ
  | .open id _ _ | .close id _ | .read id _ _ _ | .write id _ _ _ | .openDir id _
  | .readDir id _ | .remove id _ | .mkDir id _ | .rmDir id _ | .realPath id _ | .stat id _
  | .lstat id _ | .fstat id _ | .rename id _ _ | .setStat id _ _ | .fSetStat id _ _
  | .readLink id | .symlink id | .extended id => some id
  | .other => none

def unsupported : Packet → Bool
  | .readLink _ | .symlink _ | .extended _ => true
  | _ => false

def replyId : Reply → ℕ
  | .handle id _ | .status id _ _ _ | .data id _ | .name id _ | .attrs id _ _ => id

/-- The reply is one to the request. -/
def Answers (p : Packet) (reply : Reply) : Prop :=
  requestId p = some (replyId reply) ∧
    (unsupported p = true → reply = makeStatus (replyId reply) .opUnsupported)

def IsExtended : Packet → Prop
  | .extended _ => True
  | _ => False

/-- Whatever the answers, a reply of the method has the id. -/
def Tagged (id : ℕ) (x : Prog sftp Result) : Prop :=
  Confined (fun _ => True) (fun r => ∀ reply, r.1 = .ok reply → replyId reply = id) x

section
variable {s : HandleState} {id : ℕ}

theorem tagged_ok {reply : Reply} (h : replyId reply = id) :
    Tagged id (pure (.ok reply, s)) := by
  rintro _ ⟨⟩
  exact h

theorem tagged_error (code : StatusCode) : Tagged id (pure (.error code, s)) := nofun

theorem tagged_route {op : FsOperation} {path : String} {data : Bytes}
    {f : Except String Bytes → Prog sftp Result} (hok : ∀ bs, Tagged id (f (.ok bs)))
    (herr : ∀ e, Tagged id (f (.error e))) : Tagged id (route op path data >>= f) :=
  confined_route trivial hok herr

theorem tagged_acknowledge (op : FsOperation) (path : String) (data : Bytes) :
    Tagged id (acknowledge s op id path data) :=
  confined_acknowledge trivial (tagged_ok rfl) (tagged_error _)

theorem tagged_withHandle {handle : String} {f : HandleEntry → Prog sftp Result}
    (hf : ∀ entry, Tagged id (f entry)) : Tagged id (withHandle s handle f) :=
  confined_withHandle (tagged_error _) fun entry _ => hf entry

theorem tagged_statImpl (path : String) : Tagged id (statImpl s id path) :=
  confined_statImpl trivial (fun _ _ => tagged_ok rfl) (tagged_error _)

/-- The loop turns what a method returns into one reply with the id. -/
theorem replyTo_tagged {x : Prog sftp Result} (hx : Tagged id x) {h : List (Answered sftp)}
    {reply : Option Reply} {s' : HandleState} (hp : Passes (replyTo id x) h (.done (reply, s'))) :
    ∃ r, reply = some r ∧ replyId r = id := by
  have hreply : Confined (fun _ => True)
      (fun r : Option Reply × HandleState => ∃ reply, r.1 = some reply ∧ replyId reply = id)
      (replyTo id x) :=
    confined_replyTo hx (fun r _ htagged => ⟨r, rfl, htagged r rfl⟩) fun _ _ _ => ⟨_, rfl, rfl⟩
  exact hreply.result hp

end

/-- Every request but an extended one is replied to. -/
theorem dispatch_answers {s s' : HandleState} {p : Packet} {h : List (Answered sftp)}
    {reply : Option Reply} (hp : Passes (dispatch s p) h (.done (reply, s')))
    (hrequest : p ≠ .other) (hextended : ¬ IsExtended p) : ∃ r, reply = some r ∧ Answers p r := by
  have htagged : ∀ {id : ℕ} {x : Prog sftp Result}, requestId p = some id → unsupported p = false →
      dispatch s p = replyTo id x → Tagged id x → ∃ r, reply = some r ∧ Answers p r := by
    intro id x hid hsupported heq hx
    rw [heq] at hp
    obtain ⟨r, hr, hreply⟩ := replyTo_tagged hx hp
    refine ⟨r, hr, ?_, fun h => ?_⟩
    · rw [hid, hreply]
    · rw [hsupported] at h
      cases h
  cases p with
  | «open» id filename pflags =>
      exact htagged rfl rfl rfl (tagged_route (fun _ => tagged_ok rfl) fun _ => tagged_error _)
  | close id handle =>
      exact htagged rfl rfl rfl (confined_close (fun _ _ => trivial) (tagged_ok rfl))
  | read id handle offset len =>
      exact htagged rfl rfl rfl (confined_read (fun _ _ => trivial) (fun _ => tagged_ok rfl)
        tagged_error)
  | write id handle offset data =>
      exact htagged rfl rfl rfl (tagged_withHandle fun entry => tagged_acknowledge _ _ _)
  | openDir id path =>
      exact htagged rfl rfl rfl (tagged_route (fun _ => tagged_ok rfl) fun _ => tagged_error _)
  | readDir id handle =>
      exact htagged rfl rfl rfl (confined_readdir (fun _ _ => trivial) (fun _ => tagged_ok rfl)
        tagged_error)
  | remove id path | mkDir id path | rmDir id path | setStat id path _ | fSetStat id handle _ =>
      exact htagged rfl rfl rfl (tagged_acknowledge _ _ _)
  | realPath id path => exact htagged rfl rfl rfl (tagged_ok rfl)
  | stat id path | lstat id path => exact htagged rfl rfl rfl (tagged_statImpl _)
  | fstat id handle =>
      exact htagged rfl rfl rfl (tagged_withHandle fun entry => tagged_statImpl _)
  | rename id oldpath newpath =>
      exact htagged rfl rfl rfl (tagged_route (fun _ => tagged_ok rfl) fun _ => tagged_ok rfl)
  | readLink id | symlink id =>
      cases hp
      exact ⟨_, rfl, rfl, fun _ => rfl⟩
  | extended id => exact absurd trivial hextended
  | other => exact absurd rfl hrequest

theorem dispatch_extended {s s' : HandleState} {p : Packet} {h : List (Answered sftp)}
    {reply : Option Reply} (hp : Passes (dispatch s p) h (.done (reply, s')))
    (hextended : IsExtended p) : reply = none := by
  cases p with
  | extended id =>
      obtain ⟨_, hdone⟩ := passes_done hp
      cases hdone
      rfl
  | _ => exact hextended.elim

theorem Transcript.answers_iff {s s' : HandleState} {xs : List (Packet × Option Reply)}
    (hxs : Transcript s xs s') (hrequests : ∀ x ∈ xs, x.1 ≠ .other) :
    List.Forall₂ Answers (xs.map Prod.fst) (xs.filterMap Prod.snd) ↔
      ∀ p ∈ xs.map Prod.fst, ¬ IsExtended p := by
  have hreply := hxs.forall (P := fun p reply => (IsExtended p → reply = none) ∧
      (p ≠ .other → ¬ IsExtended p → ∃ r, reply = some r ∧ Answers p r))
    fun s p h reply s' hp => ⟨dispatch_extended hp, dispatch_answers hp⟩
  constructor
  · intro hall p hp hextended
    -- as many replies as packets leave none without a reply
    have hlength := hall.length_eq
    rw [List.length_map] at hlength
    obtain ⟨x, hx, rfl⟩ := List.mem_map.mp hp
    have hsome := List.filterMap_length_eq_length.mp hlength.symm x hx
    rw [(hreply x hx).1 hextended] at hsome
    cases hsome
  · intro hnone
    clear hxs
    induction xs with
    | nil => exact .nil
    | cons x xs ih =>
        obtain ⟨p, reply⟩ := x
        obtain ⟨hhead, htail⟩ := List.forall_mem_cons.mp hreply
        obtain ⟨hrequest, hrest⟩ := List.forall_mem_cons.mp hrequests
        rw [List.map_cons] at hnone
        obtain ⟨hplain, hnext⟩ := List.forall_mem_cons.mp hnone
        obtain ⟨r, hr, hanswers⟩ := hhead.2 hrequest hplain
        obtain rfl : reply = some r := hr
        exact .cons hanswers (ih hrest htail hnext)

/-- An extended request takes a reply from those behind it, and in the end one is missing. -/
def askExtension : List Packet := [.extended 1, .stat 2 "/"]

theorem askExtension_passes : Passes (sftpLoop .new askExtension)
    [⟨⟨.getAttr, "/", []⟩, some (.reply (.ok ⟨[], none, false⟩))⟩]
    (.done ([.attrs 2 none 0o100644], .new)) :=
  .answer _ _ _ (.refl _)

/-- The entries in the answer of a handler, behind the two that every directory has. -/
def entriesOf (listing : Bytes) : List String :=
  "." :: ".." :: splitWhitespace (fromUtf8Lossy listing)

def repliesTo (handle : String) (xs : List (Packet × Option Reply)) : List Reply :=
  xs.filterMap fun x =>
    match x.1 with
    | .readDir _ handle' => if handle' = handle then x.2 else none
    | _ => none

/-- Pages with every entry once among them, and then the end. -/
def Enumerated (entries : List String) (replies : List Reply) : Prop :=
  ∃ (pages : List (ℕ × List String)) (id : ℕ),
    replies = pages.map (fun page => .name page.1 page.2) ++ [makeStatus id .eof] ∧
    (pages.flatMap Prod.snd).Perm entries

theorem replyTo_readdir {s : HandleState} {handle : String} {entry : HandleEntry}
    (hentry : s.get handle = some entry) (hdir : entry.isDir = true) (id : ℕ) :
    dispatch s (.readDir id handle) = .call ⟨.readDir, normalized entry.path, []⟩ fun a =>
      .done (match outcome a with
        | .ok listing => (some (.name id (entriesOf listing)), s)
        | .error _ => (some (makeStatus id .failure), s)) := by
  rw [dispatch, readdir, withHandle, hentry]
  dsimp only
  rw [if_pos hdir]
  change Prog.call _ _ = _
  congr 1
  funext a
  change (match outcome a with
    | .ok _ => _
    | .error _ => _ : Prog sftp Result) >>= _ = _
  cases outcome a <;> rfl

/-- There is no end among the replies to requests for entries. -/
theorem readDir_not_eof {s s' : HandleState} {id id' : ℕ} {handle : String}
    {h : List (Answered sftp)} {reply : Option Reply}
    (hp : Passes (dispatch s (.readDir id handle)) h (.done (reply, s'))) :
    reply ≠ some (makeStatus id' .eof) := by
  rintro rfl
  cases hentry : s.get handle with
  | none =>
      rw [dispatch, readdir, withHandle, hentry] at hp
      obtain ⟨_, hdone⟩ := passes_done hp
      cases hdone
  | some entry =>
      by_cases hdir : entry.isDir = true
      · rw [replyTo_readdir hentry hdir] at hp
        cases hp with
        | answer o next a hrest =>
            obtain ⟨_, hdone⟩ := passes_done hrest
            cases ha : outcome a <;> rw [ha] at hdone <;> cases hdone
      · rw [dispatch, readdir, withHandle, hentry] at hp
        dsimp only at hp
        rw [if_neg hdir] at hp
        obtain ⟨_, hdone⟩ := passes_done hp
        cases hdone

theorem Transcript.not_enumerated {s s' : HandleState} {xs : List (Packet × Option Reply)}
    (hxs : Transcript s xs s') (handle : String) (entries : List String) :
    ¬ Enumerated entries (repliesTo handle xs) := by
  rintro ⟨pages, id, hreplies, _⟩
  have hend : makeStatus id .eof ∈ repliesTo handle xs := by
    rw [hreplies]
    exact List.mem_append_right _ (List.mem_singleton_self _)
  obtain ⟨x, hx, hsome⟩ := List.mem_filterMap.mp hend
  have hnone := hxs.forall (P := fun p reply => ∀ id handle id', p = .readDir id handle →
      reply ≠ some (makeStatus id' .eof)) (by
    rintro s _ h reply s' hp id handle id' rfl
    exact readDir_not_eof hp) x hx
  split at hsome
  · next id' handle' hp =>
      split at hsome
      · exact hnone id' handle' id hp hsome
      · cases hsome
  · cases hsome

theorem listing_repeated {s : HandleState} {handle : String} {entry : HandleEntry}
    (hentry : s.get handle = some entry) (hdir : entry.isDir = true)
    {f : Request → Option Answer} {resp : Response}
    (hresp : f ⟨.readDir, normalized entry.path, []⟩ = some (.reply (.ok resp))) (ids : List ℕ) :
    (answered f (sftpLoop s (ids.map fun id => .readDir id handle))).2 =
      (ids.map fun id => .name id (entriesOf resp.data), s) := by
  induction ids with
  | nil => rfl
  | cons id ids ih =>
      have hfirst : (answered f (dispatch s (.readDir id handle))).2 =
          (some (.name id (entriesOf resp.data)), s) := by
        rw [replyTo_readdir hentry hdir, answered, hresp]
        rfl
      rw [List.map_cons, sftpLoop, answered_bind, hfirst]
      dsimp only
      rw [answered_bind, ih]
      rfl

/-- Whatever else happens in the session, the handle of a directory is never read to an end:
as often as it is asked, it replies with the whole listing. -/
theorem enumeration_never_ends (s : HandleState) (handle : String) (entry : HandleEntry)
    (hentry : s.get handle = some entry) (hdir : entry.isDir = true)
    (f : Request → Option Answer) (resp : Response)
    (hresp : f ⟨.readDir, normalized entry.path, []⟩ = some (.reply (.ok resp))) :
    (∀ ids : List ℕ, (answered f (sftpLoop s (ids.map fun id => .readDir id handle))).2 =
      (ids.map fun id => .name id (entriesOf resp.data), s)) ∧
    ∀ xs s', Transcript s xs s' → ¬ Enumerated (entriesOf resp.data) (repliesTo handle xs) :=
  ⟨listing_repeated hentry hdir hresp, fun _ _ hxs => hxs.not_enumerated handle _⟩

/-- An empty directory, opened as the first thing in a session. -/
def opened : HandleState := (HandleState.new.alloc "/" true).2

def silentRouter : Request → Option Answer := fun _ => some (.reply (.ok ⟨[], none, false⟩))

theorem enumeration_never_ends_opened :
    (answered silentRouter (sftpLoop opened ([7, 8].map fun id =>
      .readDir id "0000000000000001"))).2 =
      ([.name 7 (entriesOf []), .name 8 (entriesOf [])], opened) ∧
    ¬ ∃ xs s', Transcript opened xs s' ∧
      Enumerated (entriesOf []) (repliesTo "0000000000000001" xs) := by
  obtain ⟨hids, hnever⟩ := enumeration_never_ends opened "0000000000000001" ⟨"/", true⟩ (by decide)
    rfl silentRouter ⟨[], none, false⟩ rfl
  refine ⟨hids [7, 8], ?_⟩
  rintro ⟨xs, s', hxs, henumerated⟩
  exact hnever xs s' hxs henumerated

/-- The client asks again and again. -/
theorem listing_not_ended : ¬ ∀ (s : HandleState) (handle : String) (entry : HandleEntry)
    (f : Request → Option Answer) (resp : Response), s.get handle = some entry →
    entry.isDir = true → f ⟨.readDir, normalized entry.path, []⟩ = some (.reply (.ok resp)) →
      ∃ ids : List ℕ, Enumerated (entriesOf resp.data)
        (answered f (sftpLoop s (ids.map fun id => .readDir id handle))).2.1 := by
  intro h
  obtain ⟨ids, pages, id, hreplies, _⟩ := h opened "0000000000000001" ⟨"/", true⟩ silentRouter
    ⟨[], none, false⟩ (by decide) rfl rfl
  have hopened : opened.get "0000000000000001" = some ⟨"/", true⟩ := by decide
  have hsilent : silentRouter ⟨.readDir, normalized "/", []⟩ =
      some (.reply (.ok ⟨[], none, false⟩)) := rfl
  rw [listing_repeated hopened rfl hsilent] at hreplies
  dsimp only at hreplies
  have hend : makeStatus id .eof ∈ ids.map fun id => Reply.name id (entriesOf []) := by
    rw [hreplies]
    exact List.mem_append_right _ (List.mem_singleton_self _)
  obtain ⟨_, _, hname⟩ := List.mem_map.mp hend
  cases hname

end Pinhead.SftpReplies
