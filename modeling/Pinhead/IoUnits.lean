import Pinhead.MessageSizes

/-!
# The I/O unit of an Ropen

Ropen announces as its I/O unit the whole message size that is stored for the listener at
that moment. A Twrite has 23 bytes in front of its data. The size is stored once for all
connections, so that another connection may have lowered it since this one negotiated.
-/
namespace Pinhead.IoUnits
open ByteStrings ByteStreams FsRequests Resumption Histories NinepShared NinepHandlers NinepRuns
open NinepTotality NinepDatagrams NinepConnections NinepScripts NinepCalls NinepLockstep
open MessageSizes

/-! ## Writes of up to a unit -/

/-- A Twrite with these data is sent under any tag. -/
def writing (tag : UInt16) (fid : UInt32) (offset : UInt64) (data : Bytes) : Message :=
  ⟨TWRITE, tag, (Call.write fid offset data).body⟩

/-- Every Twrite of up to `unit` bytes of data is a message of at most `n` bytes, and the
connection loop hands it to its handler. -/
def Usable (unit n : ℕ) : Prop :=
  ∀ tag fid offset (data : Bytes), data.length ≤ unit →
    (encodeMessage (writing tag fid offset data)).length ≤ n ∧
    ∀ (outcome : List Message → Except String Unit) (σ : Type) (src : Source σ) (stream : σ),
      src.unread stream = encodeMessage (writing tag fid offset data) →
      calls outcome src stream = [writing tag fid offset data]

theorem writing_length (tag : UInt16) (fid : UInt32) (offset : UInt64) (data : Bytes) :
    (encodeMessage (writing tag fid offset data)).length = data.length + 23 := by
  have hmessage : (encodeMessage (writing tag fid offset data)).length =
      7 + (Call.write fid offset data).body.length := message_length ..
  rw [hmessage, Call.body]
  simp only [List.length_append, leBytes_length]
  omega

theorem usable_iff {unit n : ℕ} (hn : n ≤ 65536) : Usable unit n ↔ unit + 23 ≤ n := by
  constructor
  · intro h
    have hlong := (h 0 0 0 (List.replicate unit 0) (by rw [List.length_replicate])).1
    rwa [writing_length, List.length_replicate] at hlong
  · intro h tag fid offset data hdata
    have hlength := writing_length tag fid offset data
    refine ⟨by omega, fun outcome σ src stream hstream => ?_⟩
    have hmessage : (encodeMessage (writing tag fid offset data)).length =
        7 + (writing tag fid offset data).body.length := message_length ..
    have hfits : (writing tag fid offset data).body.length ≤ 65536 := by omega
    have hbytes : src.unread stream = [writing tag fid offset data].flatMap encodeMessage ++
        (encodeMessage (writing tag fid offset data)).take 0 := by
      rw [hstream]
      simp
    refine calls_encoded outcome ?_ hfits (by omega) hbytes
    rw [List.forall_mem_singleton]
    exact hfits

/-! ## The unit announced -/

def iounit (msg : Bytes) : Option ℕ :=
  if messageType msg = ROPEN then some (uintAt 4 (msg.drop 7) 13) else none

theorem iounit_message (ty : UInt8) (tag : UInt16) (body : Bytes) :
    iounit (message ty tag body) = if ty = ROPEN then some (uintAt 4 body 13) else none := by
  rw [iounit, messageType_message, message_drop]

/-- A unit is announced after the stored size was read. -/
def Announced (t : List (Answered ninep)) (o : Op) : Prop :=
  ∀ msg u, o = .send msg → iounit msg = some u →
    ∃ v : ℕ, (⟨.locked .readMsize, v⟩ : Answered ninep) ∈ t ∧ u = v % 2 ^ 32

abbrev announcing : Spec ninep (List (Answered ninep)) :=
  observed (fun t e => t ++ [e]) (fun _ _ => True) Announced

theorem announced_error {t : List (Answered ninep)} (tag : UInt16) (body : Bytes) :
    Announced t (.send (message RERROR tag body)) := by
  rintro _ u ⟨⟩ hu
  rw [iounit_message, if_neg (by decide)] at hu
  cases hu

theorem announcing_handleOpen (tag : UInt16) (body : Bytes) (t : List (Answered ninep)) :
    wp announcing (handleOpen tag body).run (fun _ _ => True) t := by
  rw [handleOpen_eq]
  split
  · trivial
  refine ⟨nofun, fun r _ => ?_⟩
  match r with
  | none => trivial
  | some entry =>
      refine ⟨nofun, fun a _ => ?_⟩
      match a with
      | .routerGone => trivial
      | .handlerGone => trivial
      | .reply (.error e) => trivial
      | .reply (.ok r) =>
          refine ⟨nofun, fun _ _ => ⟨nofun, fun v _ => ⟨?_, fun _ _ => trivial⟩⟩⟩
          rintro _ u ⟨⟩ hu
          rw [iounit_message, if_pos rfl] at hu
          have hqid : (encodeQid ⟨0, 0, 0⟩).length = 13 := encodeQid_length _
          refine ⟨v, List.mem_append_right _ (List.mem_singleton_self _), ?_⟩
          rw [← Option.some.inj hu, ← Nat.add_zero 13, uintAt_behind hqid, uintAt, List.drop_zero,
            List.take_of_length_le (leBytes_length 4 v).le]
          exact leValue_leBytes 4 v

/-- Only a Topen is answered with a unit, and its history has the size it was taken from. -/
theorem announced_of_turn {x : Turn} {q : Prog ninep Unit}
    (hp : Passes (serveMessage x.message) x.history q) {msg : Bytes} (hmsg : msg ∈ x.replies) {u : ℕ}
    (hu : iounit msg = some u) :
    ∃ v : ℕ, (⟨.locked .readMsize, v⟩ : Answered ninep) ∈ x.history ∧ u = v % 2 ^ 32 := by
  obtain ⟨e, he, hop⟩ := mem_replies.mp hmsg
  have hopen : x.message.ty = TOPEN := by
    obtain ⟨_, ty, tag, body, rfl, hty, _⟩ := (turn_sized hp none nofun nofun e he).reply msg hop
    rw [iounit_message] at hu
    split at hu
    · next hropen =>
        rcases hty with rfl | hty
        · cases hropen
        · have hsucc : x.message.ty + 1 = TOPEN + 1 := by
            rw [← hty, hropen]
            rfl
          exact (UInt8.add_left_inj 1).mp hsucc
    · cases hu
  have hserve : wp announcing (serveMessage x.message) (fun _ _ => True) [] := by
    have hhandle : handleMessage x.message = handleOpen x.message.tag x.message.body := by
      rw [handleMessage, hopen]
      rfl
    rw [serveMessage, hhandle, wp_bind]
    refine wp_mono (observed_monotone _ _ _) _ ?_ _ (announcing_handleOpen _ _ _)
    intro r t _
    cases r with
    | ok _ => trivial
    | error e => exact ⟨announced_error _ _, fun _ _ => trivial⟩
  obtain ⟨before, after, hsplit⟩ := List.append_of_mem he
  rw [hsplit] at hp
  have hannounced := hp.guaranteed (fun _ _ => trivial) hserve
  rw [foldl_append_singleton, List.nil_append] at hannounced
  obtain ⟨v, hv, huv⟩ := hannounced msg u hop hu
  exact ⟨v, by rw [hsplit]; exact List.mem_append_left _ hv, huv⟩

/-! ## The size stored -/

section
variable {ι : Type} [DecidableEq ι]

/-- The message size that an operation stores. -/
def storing (e : Event ninep ι) : Option ℕ :=
  match e.op with
  | .locked (.writeMsize n) => some n
  | _ => none

/-- The message size that a listener has stored after a trace. -/
def stored (t : List (Event ninep ι)) : ℕ := ((t.filterMap storing).getLast?).getD 8192

theorem exec_msize (c : Critical) (s : Shared) : (c.exec s).2.msize =
    (match c with | .writeMsize n => n | _ => s.msize) := by
  cases c <;> rfl

theorem msize_of_run {c d : Config ninep ι Shared} {t : List (Event ninep ι)}
    (run : Run (semantics anyRouter) c t d) :
    d.state.msize = ((t.filterMap storing).getLast?).getD c.state.msize := by
  induction run with
  | refl c => rfl
  | @step c d e ev t hs _ ih =>
      obtain ⟨i, o, next, r, s, _, hsem⟩ := hs
      rw [ih]
      cases o with
      | locked k =>
          obtain ⟨s', hs', hexec⟩ := hsem
          have hmsize := exec_msize k s'
          rw [hexec, ← hs'.msize] at hmsize
          dsimp only at hmsize ⊢
          rw [hmsize]
          cases k with
          | writeMsize n =>
              change _ = ((n :: t.filterMap storing).getLast?).getD _
              rw [List.getLast?_cons]
              rfl
          | _ => rfl
      | route req =>
          rw [hsem.2]
          rfl
      | now =>
          rw [show s = c.state from hsem]
          rfl
      | send msg =>
          rw [show s = c.state from hsem]
          rfl
      | crash => exact hsem.elim

theorem readMsize_stored {msgs : ι → List Message} {before after : List (Event ninep ι)} {i : ι}
    {v : ℕ} {c : Config ninep ι Shared} (run : Run (semantics anyRouter) (listener msgs)
      (before ++ ⟨i, .locked .readMsize, v⟩ :: after) c) : v = stored before := by
  obtain ⟨d, hbefore, hrest⟩ := run.of_append
  have hmsize : d.state.msize = stored before := msize_of_run hbefore
  cases hrest with
  | step hs _ =>
      generalize hev : (⟨i, .locked .readMsize, v⟩ : Event ninep ι) = ev at hs
      obtain ⟨j, o, next, r, s, _, hsem⟩ := hs
      cases hev
      obtain ⟨s', hs', hexec⟩ := hsem
      have hv : s'.msize = v := congrArg Prod.fst hexec
      rw [← hv, ← hs'.msize, hmsize]

/-- Where an operation stands in the trace that it is a part of. -/
theorem own_split {i : ι} {t : List (Event ninep ι)} {a : Answered ninep}
    {h k : List (Answered ninep)} (hown : own i t = h ++ a :: k) :
    ∃ before after, t = before ++ ⟨i, a.op, a.answer⟩ :: after ∧ own i before = h := by
  induction t generalizing h with
  | nil => exact absurd hown.symm (by simp [own])
  | cons e t ih =>
      obtain ⟨j, o, r⟩ := e
      by_cases hj : j = i
      · subst hj
        rw [own_cons_self] at hown
        cases h with
        | nil =>
            obtain ⟨rfl, _⟩ := List.cons.inj hown
            exact ⟨[], t, rfl, rfl⟩
        | cons b h =>
            obtain ⟨rfl, hrest⟩ := List.cons.inj hown
            obtain ⟨before, after, rfl, rfl⟩ := ih hrest
            exact ⟨⟨j, o, r⟩ :: before, after, rfl, own_cons_self j o r before⟩
      · rw [own_cons_other hj] at hown
        obtain ⟨before, after, rfl, rfl⟩ := ih hown
        exact ⟨⟨j, o, r⟩ :: before, after, rfl, own_cons_other hj o r before⟩

theorem turns_history {ms : List Message} {h : List (Answered ninep)} {xs : List Turn}
    (hxs : Turns ms h xs) : h = xs.flatMap Turn.history := by
  induction hxs with
  | idle ms => rfl
  | serving hp => simp
  | served hp _ ih => rw [List.flatMap_cons, ← ih]

theorem stored_le {msgs : ι → List Message} {t : List (Event ninep ι)}
    {c : Config ninep ι Shared} (run : Run (semantics anyRouter) (listener msgs) t c)
    {before after : List (Event ninep ι)} (ht : t = before ++ after) : stored before ≤ 65536 := by
  have hall : ∀ n ∈ before.filterMap storing, n ≤ 65536 := by
    intro n hn
    obtain ⟨⟨i, o, r⟩, he, hwrite⟩ := List.mem_filterMap.mp hn
    have ho : o = .locked (.writeMsize n) := by
      unfold storing at hwrite
      split at hwrite
      · next hop =>
          rw [← Option.some.inj hwrite]
          exact hop
      · cases hwrite
    obtain ⟨xs, hxs⟩ := turns_of_passes (run_passes run i)
    have hown : (⟨o, r⟩ : Answered ninep) ∈ own i t := by
      rw [ht]
      exact List.mem_filterMap.mpr ⟨⟨i, o, r⟩, List.mem_append_left _ he, if_pos rfl⟩
    rw [turns_history hxs] at hown
    obtain ⟨x, hx, hmem⟩ := List.mem_flatMap.mp hown
    obtain ⟨q, hp⟩ := hxs.passes x hx
    exact ((turn_sized hp none nofun nofun _ hmem).stored n ho).2
  unfold stored
  cases hlast : (before.filterMap storing).getLast? with
  | none => decide
  | some n => exact hall n (List.mem_of_getLast? hlast)

/-- In every run, the unit in an Ropen is the size stored when the Topen was handled. All
writes of up to a unit are usable exactly if that size is at least 23 bytes below the one
negotiated on the connection. -/
theorem iounit_usable_iff (msgs : ι → List Message) (t : List (Event ninep ι))
    (c : Config ninep ι Shared) (run : Run (semantics anyRouter) (listener msgs) t c) (i : ι)
    (xs : List Turn) (hxs : Turns (msgs i) (own i t) xs) (ys : List Turn) (x : Turn)
    (zs : List Turn) (hsplit : xs = ys ++ x :: zs) (msg : Bytes) (hmsg : msg ∈ x.replies) (u : ℕ)
    (hu : iounit msg = some u) : ∃ before after h k,
      t = before ++ ⟨i, .locked .readMsize, u⟩ :: after ∧ own i before = ys.flatMap Turn.history ++ h ∧
      x.history = h ++ ⟨.locked .readMsize, u⟩ :: k ∧ u = stored before ∧
      ∀ n, negotiated ys = some n → (Usable u n ↔ stored before + 23 ≤ n) := by
  have hx : x ∈ xs := by rw [hsplit]; simp
  obtain ⟨q, hp⟩ := hxs.passes x hx
  obtain ⟨v, hv, rfl⟩ := announced_of_turn hp hmsg hu
  obtain ⟨h, k, hhistory⟩ := List.append_of_mem hv
  have hown : own i t = (ys.flatMap Turn.history ++ h) ++
      ⟨.locked .readMsize, v⟩ :: (k ++ zs.flatMap Turn.history) := by
    rw [turns_history hxs, hsplit, List.flatMap_append, List.flatMap_cons, hhistory]
    simp only [List.append_assoc, List.cons_append]
  obtain ⟨before, after, ht, hbefore⟩ := own_split hown
  have hstored : v = stored before := by
    rw [ht] at run
    exact readMsize_stored run
  have hle : stored before ≤ 65536 := stored_le run ht
  have hunit : v % 2 ^ 32 = v := Nat.mod_eq_of_lt (by omega)
  rw [hunit]
  refine ⟨before, after, h, k, ht, hbefore, hhistory, hstored, fun n hn => ?_⟩
  have hbounds := negotiated_bounds hxs (fun y hy => by rw [hsplit]; exact List.mem_append_left _ hy) hn
  rw [← hstored]
  exact usable_iff hbounds.2

end

/-! ## A client that opens the root -/

/-- Version, attach and open, in messages of the client. -/
def openingRoot : List Message :=
  [(Call.version 8192).message, (Call.attach 1 NOFID).message, (Call.openFid 1 0).message]

def rootOpened : List (Answered ninep) :=
  [⟨.locked (.getFid 1), some (⟨0, "/", false, true⟩ : FidEntry)⟩,
    ⟨.route ⟨.openDir, "/", []⟩, .reply (.ok ⟨[], none, false⟩)⟩, ⟨.locked (.markOpen 1), ()⟩,
    ⟨.locked .readMsize, (8192 : ℕ)⟩]

def openTurns : List Turn :=
  [⟨(Call.version 8192).message, versioning 8192⟩, attachTurn,
    ⟨(Call.openFid 1 0).message, rootOpened ++ [⟨.send (message ROPEN 0 openReply), ()⟩]⟩]

theorem passes_rootOpened : Passes ((Call.openFid 1 0).served 0).run
    (rootOpened ++ [⟨.send (message ROPEN 0 openReply), ()⟩]) (.done (.ok ())) :=
  .answer _ _ _ (.answer _ _ _ (.answer _ _ _ (.answer _ _ _ (.answer _ _ _ (.refl _)))))

theorem passes_proposing : Passes ((Call.version 8192).served 0).run (versioning 8192)
    (.done (.ok ())) := .answer _ _ _ (.answer _ _ _ (.refl _))

theorem turns_open : Turns openingRoot (openTurns.flatMap Turn.history) openTurns :=
  .served (passes_served (by decide) passes_proposing)
    (.served (passes_served (by decide) passes_attaching)
      (.served (passes_served (by decide) passes_rootOpened) (.idle [])))

theorem run_open : ∃ t c, Run (semantics anyRouter) (listener fun _ : Unit => openingRoot) t c ∧
    own () t = openTurns.flatMap Turn.history := by
  have hp : Passes (serveAll openingRoot) (openTurns.flatMap Turn.history) (.done ()) :=
    passes_next (passes_served (by decide) passes_proposing)
      (passes_next (passes_served (by decide) passes_attaching)
        (passes_next (passes_served (by decide) passes_rootOpened) (.refl _)))
  have hs : ∃ s, Performs (semantics anyRouter) Shared.new (openTurns.flatMap Turn.history) s :=
    ⟨_, .answer _ _ (semantics_exec _ _) (.answer _ _ rfl
      (.answer _ _ (semantics_exec _ _) (.answer _ _ rfl
      (.answer _ _ (semantics_exec _ _) (.answer _ _ ⟨trivial, rfl⟩
      (.answer _ _ (semantics_exec _ _) (.answer _ _ (semantics_exec _ _) (.answer _ _ rfl
      (.refl _)))))))))⟩
  obtain ⟨s, hs⟩ := hs
  exact ⟨_, _, hp.run () hs rfl, own_alone () _⟩

/-- The connection negotiates 8192 bytes and is told to write as many at a time. -/
theorem iounit_usable_iff_root : ∃ n u, negotiated (openTurns.take 2) = some n ∧
    iounit (message ROPEN 0 openReply) = some u ∧ ∃ before : List (Event ninep Unit),
      u = stored before ∧ (Usable u n ↔ stored before + 23 ≤ n) := by
  obtain ⟨t, c, run, hown⟩ := run_open
  have hturns := turns_open
  rw [← hown] at hturns
  have hmsg : message ROPEN 0 openReply ∈
      (Turn.mk (Call.openFid 1 0).message (rootOpened ++
        [⟨.send (message ROPEN 0 openReply), ()⟩])).replies :=
    mem_replies.mpr ⟨_, List.mem_append_right _ (List.mem_singleton_self _), rfl⟩
  obtain ⟨before, _, _, _, _, _, _, hstored, hiff⟩ := iounit_usable_iff _ t c run () openTurns hturns
    [_, _] _ [] rfl _ hmsg 8192 rfl
  exact ⟨8192, 8192, rfl, rfl, before, hstored, hiff 8192 rfl⟩

/-- A write of a whole unit does not fit into the message size it was taken from. -/
theorem unit_not_usable : ¬ ∀ (msgs : Unit → List Message) (t : List (Event ninep Unit))
    (c : Config ninep Unit Shared), Run (semantics anyRouter) (listener msgs) t c →
    ∀ xs, Turns (msgs ()) (own () t) xs → ∀ ys x zs, xs = ys ++ x :: zs → ∀ msg ∈ x.replies,
      ∀ u, iounit msg = some u → ∀ n, negotiated ys = some n → Usable u n := by
  intro h
  obtain ⟨t, c, run, hown⟩ := run_open
  have hturns := turns_open
  rw [← hown] at hturns
  have husable := h _ t c run openTurns hturns [_, _] _ [] rfl (message ROPEN 0 openReply)
    (mem_replies.mpr ⟨_, List.mem_append_right _ (List.mem_singleton_self _), rfl⟩) 8192 rfl 8192 rfl
  exact absurd ((usable_iff (by decide)).mp husable) (by decide)

/-- With messages of 65536 bytes such a write ends the connection. -/
theorem largest_write_refused (tag : UInt16) (fid : UInt32) (offset : UInt64) {data : Bytes}
    (hdata : data.length = 65536) (outcome : List Message → Except String Unit) :
    calls outcome Source.contiguous (encodeMessage (writing tag fid offset data)) = [] := by
  have hbody : (writing tag fid offset data).body.length = 16 + data.length := by
    change (Call.write fid offset data).body.length = _
    simp only [Call.body, List.length_append, leBytes_length]
    omega
  rw [calls, runConnection_refused _ _ (by omega) (by omega)
    (by rw [List.append_nil]; rfl : _ = encodeMessage (writing tag fid offset data) ++ [])]
  rfl

end Pinhead.IoUnits
