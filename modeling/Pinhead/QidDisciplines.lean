import Pinhead.NinepRuns

/-!
# Invariants of the shared tables that every handler keeps

A handler takes a qid out of one critical section and brings it back to a later
one, with other connections in between. An invariant of the tables is therefore
kept by whole handlers only together with a claim about the qids that handlers
hold, and that claim has to survive the steps of the others.

A discipline is such an invariant: what holds of the tables, how they may move,
what is known of a qid held for a path, and that each critical section keeps this.
All twelve handlers then keep it, and with them every interleaving.
-/
namespace Pinhead.QidDisciplines
open ByteStrings FsRequests Resumption NinepShared NinepHandlers NinepRuns

/-- A critical section keeps the invariant and moves the tables along `Ext`. -/
def Preserves (Inv : Shared → Prop) (Ext : Shared → Shared → Prop) (c : Critical) (s : Shared) :
    Prop := Inv (c.exec s).2 ∧ Ext s (c.exec s).2

structure Discipline where
  router : Request → Answer → Prop
  Inv : Shared → Prop
  Ext : Shared → Shared → Prop
  Held : ℕ → String → Shared → Prop
  refl : ∀ s, Ext s s
  trans : ∀ a b c, Ext a b → Ext b c → Ext a c
  stable : ∀ q p, Stable Ext (Held q p)
  reordered : ∀ s t, s.Reordered t → Inv s → Inv t ∧ Ext s t
  root : ∀ s, Inv s → Held 0 "/" s
  lookup : ∀ s fid e, Inv s → s.state.fids.lookup fid = some e → Held e.qid e.path s
  allocQid : ∀ s path isDir, Inv s → Preserves Inv Ext (.allocQid path isDir) s ∧
    Held ((Critical.allocQid path isDir).exec s).1 path ((Critical.allocQid path isDir).exec s).2
  setFid : ∀ s fid qid path isDir, Inv s → Held qid path s →
    Preserves Inv Ext (.setFid fid qid path isDir) s
  markOpen : ∀ s fid, Inv s → Preserves Inv Ext (.markOpen fid) s
  removeFid : ∀ s fid, Inv s → Preserves Inv Ext (.removeFid fid) s
  renameFid : ∀ s fid qid path newPath r,
    router ⟨.rename, path, asBytes newPath⟩ (.reply (.ok r)) → Inv s → Held qid path s →
    Preserves Inv Ext (.renameFid fid qid newPath) s
  writeMsize : ∀ s msize, Inv s → Preserves Inv Ext (.writeMsize msize) s

abbrev Discipline.Keeps (D : Discipline) {A : Type} (Pre : Shared → Prop) (x : Handler A)
    (Post : A → Shared → Prop) : Prop :=
  Triple (semantics D.router) D.Inv D.Ext Pre x Post

abbrev Discipline.Idle (D : Discipline) {A : Type} (x : Handler A) : Prop :=
  Inert (semantics D.router) D.Inv D.Ext x

variable {D : Discipline}

theorem stable_true : Stable D.Ext fun _ => True := fun _ _ _ _ => trivial

/-! ## Critical sections as triples -/

/-- A critical section may be checked in the state it starts from. -/
theorem keeps_locked {F : Shared → Prop} (hF : Stable D.Ext F) (c : Critical)
    {Post : c.Ret → Shared → Prop}
    (h : ∀ s, D.Inv s → F s → Preserves D.Inv D.Ext c s ∧ Post (c.exec s).1 (c.exec s).2) :
    D.Keeps F (locked c) Post := by
  intro s hs s₁ hext hinv r s₂ hsem
  obtain ⟨u, hre, hexec⟩ := hsem
  obtain ⟨hu, hmove⟩ := D.reordered s₁ u hre hinv
  obtain ⟨hkeep, hpost⟩ := h u hu (hF s u (D.trans _ _ _ hext hmove) hs)
  rw [Preserves, hexec] at hkeep
  rw [hexec] at hpost
  exact ⟨hkeep.1, D.trans _ _ _ hmove hkeep.2, hpost⟩

theorem idle_locked (c : Critical) (h : ∀ s, D.Inv s → Preserves D.Inv D.Ext c s) :
    D.Idle (locked c) := by
  intro F hF
  apply keeps_locked hF
  intro s hs hFs
  exact ⟨h s hs, hF _ _ (h s hs).2 hFs⟩

/-- A critical section that only reads. -/
theorem idle_reading (c : Critical) (h : ∀ s, (c.exec s).2 = s) : D.Idle (locked c) := by
  apply idle_locked
  intro s hs
  rw [Preserves, h s]
  exact ⟨hs, D.refl s⟩

theorem idle_attach (fid : UInt32) : D.Idle (locked (.attach fid)) :=
  idle_locked _ fun s hs => D.setFid s fid 0 "/" true hs (D.root s hs)

theorem idle_markOpen (fid : UInt32) : D.Idle (locked (.markOpen fid)) :=
  idle_locked _ fun s hs => D.markOpen s fid hs

theorem idle_removeFid (fid : UInt32) : D.Idle (locked (.removeFid fid)) :=
  idle_locked _ fun s hs => D.removeFid s fid hs

theorem idle_listDir (dir : String) : D.Idle (locked (.listDir dir)) :=
  idle_reading _ fun _ => rfl

theorem idle_readMsize : D.Idle (locked .readMsize) := idle_reading _ fun _ => rfl

theorem idle_writeMsize (msize : ℕ) : D.Idle (locked (.writeMsize msize)) :=
  idle_locked _ fun s hs => D.writeMsize s msize hs

theorem idle_lookupFid (fid : UInt32) : D.Idle (locked (.getFid fid)) :=
  idle_reading _ fun _ => rfl

theorem keeps_allocQid (path : String) (isDir : Bool) :
    D.Keeps (fun _ => True) (locked (.allocQid path isDir)) fun q => D.Held q path := by
  apply keeps_locked stable_true
  intro s hs _
  exact D.allocQid s path isDir hs

theorem keeps_setFid (fid : UInt32) (qid : ℕ) (path : String) (isDir : Bool) :
    D.Keeps (D.Held qid path) (locked (.setFid fid qid path isDir)) fun _ _ => True := by
  apply keeps_locked (D.stable qid path)
  intro s hs h
  exact ⟨D.setFid s fid qid path isDir hs h, trivial⟩

/-- An allocation, a binding and an opening in one critical section. -/
theorem idle_createFid (fid : UInt32) (path : String) (isDir : Bool) :
    D.Idle (locked (.createFid fid path isDir)) := by
  apply idle_locked
  intro s hs
  obtain ⟨⟨hinv₁, hext₁⟩, hheld⟩ := D.allocQid s path isDir hs
  obtain ⟨hinv₂, hext₂⟩ := D.setFid _ fid _ path isDir hinv₁ hheld
  obtain ⟨hinv₃, hext₃⟩ := D.markOpen _ fid hinv₂
  exact ⟨hinv₃, D.trans _ _ _ hext₁ (D.trans _ _ _ hext₂ hext₃)⟩

/-! ## Steps outside the lock -/

theorem idle_failIf (p : Prop) [Decidable p] (e : String) : D.Idle (failIf p e) := by
  unfold failIf
  split
  · exact inert_throw e
  · exact inert_pure ()

theorem idle_crash {A : Type} : D.Idle (crash : Handler A) := fun _ _ _ _ _ _ _ r => Empty.elim r

theorem idle_range (body : Bytes) (i j : ℕ) : D.Idle (range body i j) := by
  unfold range
  split
  · exact inert_pure _
  · exact idle_crash

theorem idle_readUint (width : ℕ) (body : Bytes) (i : ℕ) : D.Idle (readUint width body i) :=
  (idle_range _ _ _).bind fun _ => inert_pure _

theorem idle_readFid (body : Bytes) (i : ℕ) : D.Idle (readFid body i) :=
  (idle_readUint _ _ _).bind fun _ => inert_pure _

/-- An operation that leaves the shared state alone. -/
theorem idle_external {o : Op} (h : ∀ s r s', semantics D.router o s r s' → s' = s) :
    D.Idle (liftM (Prog.perform (S := ninep) o) : Handler (Op.Ret o)) := by
  intro F hF s hs s₁ hext hinv r s₂ hsem
  have hsame := h s₁ r s₂ hsem
  subst s₂
  exact ⟨hinv, D.refl _, hF _ _ hext hs⟩

theorem idle_route (req : Request) :
    D.Idle (liftM (Prog.perform (S := ninep) (.route req)) : Handler Answer) :=
  idle_external (o := .route req) fun _ _ _ h => h.2

theorem idle_send (ty : UInt8) (tag : UInt16) (body : Bytes) : D.Idle (sendReply ty tag body) :=
  idle_external (o := .send (message ty tag body)) fun _ _ _ h => h

theorem idle_encodeStat (name : String) (qid : Qid) (length : ℕ) (isDir : Bool) :
    D.Idle (encodeStat name qid length isDir) :=
  Inert.bind (idle_external (o := .now) fun _ _ _ h => h) fun _ => inert_pure _

theorem idle_request (what : String) (op : FsOperation) (path : String) (data : Bytes) :
    D.Idle (request what op path data) := by
  refine (idle_route _).bind fun r => ?_
  match r with
  | .routerGone => exact inert_throw _
  | .handlerGone => exact inert_throw _
  | .reply (.error e) => exact inert_throw _
  | .reply (.ok r) => exact inert_pure r

/-- What is held survives a request; an accepted rename is one the router gives. -/
theorem keeps_rename {F : Shared → Prop} (hF : Stable D.Ext F) (what path : String)
    (data : Bytes) : D.Keeps F (request what .rename path data) fun r s =>
      F s ∧ D.router ⟨.rename, path, data⟩ (.reply (.ok r)) := by
  have hroute : D.Keeps F (liftM (Prog.perform (S := ninep) (.route ⟨.rename, path, data⟩)) :
      Handler Answer) fun a s => F s ∧ D.router ⟨.rename, path, data⟩ a := by
    intro s hs s₁ hext hinv a s₂ hsem
    obtain ⟨ha, hsame⟩ := hsem
    subst s₂
    exact ⟨hinv, D.refl _, hF _ _ hext hs, ha⟩
  refine hroute.bind fun a => ?_
  match a with
  | .routerGone => exact Triple.throw _
  | .handlerGone => exact Triple.throw _
  | .reply (.error e) => exact Triple.throw _
  | .reply (.ok r) => exact Triple.pure fun _ h => h

theorem keeps_getFid (fid : UInt32) :
    D.Keeps (fun _ => True) (getFid fid) fun e => D.Held e.qid e.path := by
  have hlock : D.Keeps (fun _ => True) (locked (.getFid fid)) fun r s =>
      ∀ e, r = some e → D.Held e.qid e.path s := by
    apply keeps_locked stable_true
    intro s hs _
    exact ⟨⟨hs, D.refl s⟩, fun e he => D.lookup s fid e hs he⟩
  refine hlock.bind fun r => ?_
  cases r with
  | none => exact Triple.throw _
  | some e => exact Triple.pure fun s h => h e rfl

/-! ## Handlers -/

theorem idle_parseVersion (body : Bytes) : D.Idle (parseVersion body) := by
  unfold parseVersion
  split
  · refine (idle_readUint _ _ _).bind fun vlen => ?_
    split
    · exact (idle_range _ _ _).bind fun _ => inert_pure _
    · exact inert_pure _
  · exact inert_pure _

theorem idle_handleVersion (tag : UInt16) (body : Bytes) : D.Idle (handleVersion tag body) := by
  refine (idle_failIf _ _).bind fun _ => ?_
  refine (idle_readUint _ _ _).bind fun proposed => ?_
  refine (idle_parseVersion _).bind fun _ => ?_
  exact (idle_writeMsize _).bind fun _ => idle_send _ _ _

theorem idle_handleAttach (tag : UInt16) (body : Bytes) : D.Idle (handleAttach tag body) := by
  refine (idle_failIf _ _).bind fun _ => ?_
  refine (idle_readFid _ _).bind fun fid => ?_
  refine (idle_readFid _ _).bind fun _ => ?_
  exact (idle_attach fid).bind fun _ => idle_send _ _ _

theorem idle_lookupLast (isLast : Bool) (path : String) : D.Idle (lookupLast isLast path) := by
  unfold lookupLast
  split
  · exact (idle_request _ _ _ _).bind fun _ => inert_pure _
  · exact inert_pure _

/-- After each name the walk holds a pair that the table records. -/
theorem keeps_walkNames (body : Bytes) (left : ℕ) (w : Walk) :
    D.Keeps (D.Held w.curQid w.curPath) (walkNames body left w)
      fun w' => D.Held w'.curQid w'.curPath := by
  induction left generalizing w with
  | zero => exact Triple.pure fun _ h => h
  | succ left ih =>
      have hF := D.stable w.curQid w.curPath
      refine (idle_failIf _ _).then hF fun _ => ?_
      refine (idle_readUint _ _ _).then hF fun nlen => ?_
      refine (idle_failIf _ _).then hF fun _ => ?_
      refine (idle_range _ _ _).then hF fun raw => ?_
      refine (idle_lookupLast _ _).then hF fun _ => ?_
      exact ((keeps_allocQid _ _).weaken (fun _ _ => trivial) fun _ _ h => h).bind
        fun qid => ih ⟨_, _, qid, _, _⟩

theorem keeps_handleWalk (tag : UInt16) (body : Bytes) :
    D.Keeps (fun _ => True) (handleWalk tag body) fun _ _ => True := by
  refine (idle_failIf _ _).then stable_true fun _ => ?_
  refine (idle_readFid _ _).then stable_true fun fid => ?_
  refine (idle_readFid _ _).then stable_true fun newFid => ?_
  refine (idle_readUint _ _ _).then stable_true fun nwname => ?_
  refine (keeps_getFid fid).bind fun parent => ?_
  refine (keeps_walkNames body nwname ⟨10, parent.path, parent.qid, [], parent.isDir⟩).bind
    fun w => ?_
  exact (keeps_setFid _ _ _ _).bind fun _ => idle_send _ _ _ _ stable_true

theorem idle_getFid (fid : UInt32) : D.Idle (getFid fid) := by
  refine (idle_lookupFid fid).bind fun r => ?_
  cases r with
  | none => exact inert_throw _
  | some e => exact inert_pure e

theorem idle_handleOpen (tag : UInt16) (body : Bytes) : D.Idle (handleOpen tag body) := by
  refine (idle_failIf _ _).bind fun _ => ?_
  refine (idle_readFid _ _).bind fun fid => ?_
  refine (idle_range _ _ _).bind fun _ => ?_
  refine (idle_getFid fid).bind fun entry => ?_
  refine (idle_request _ _ _ _).bind fun _ => ?_
  refine (idle_markOpen fid).bind fun _ => ?_
  exact idle_readMsize.bind fun msize => idle_send _ _ _

theorem idle_handleCreate (tag : UInt16) (body : Bytes) : D.Idle (handleCreate tag body) := by
  refine (idle_failIf _ _).bind fun _ => ?_
  refine (idle_readFid _ _).bind fun fid => ?_
  refine (idle_readUint _ _ _).bind fun nameLen => ?_
  refine (idle_failIf _ _).bind fun _ => ?_
  refine (idle_range _ _ _).bind fun raw => ?_
  refine (idle_readUint _ _ _).bind fun perm => ?_
  refine (idle_range _ _ _).bind fun _ => ?_
  refine (idle_getFid fid).bind fun parent => ?_
  refine (idle_request _ _ _ _).bind fun _ => ?_
  exact (idle_createFid fid _ _).bind fun qid => idle_send _ _ _

theorem idle_encodeEntries (es : List DirEntry) : D.Idle (encodeEntries es) := by
  induction es with
  | nil => exact inert_pure _
  | cons e es ih =>
      refine (idle_encodeStat _ _ _ _).bind fun stat => ?_
      exact ih.bind fun _ => inert_pure _

theorem idle_withDot (offset : ℕ) (data : Bytes) : D.Idle (withDot offset data) := by
  unfold withDot
  split
  · exact (idle_encodeStat _ _ _ _).bind fun _ => inert_pure _
  · exact inert_pure _

theorem idle_handleRead (tag : UInt16) (body : Bytes) : D.Idle (handleRead tag body) := by
  refine (idle_failIf _ _).bind fun _ => ?_
  refine (idle_readFid _ _).bind fun fid => ?_
  refine (idle_readUint _ _ _).bind fun offset => ?_
  refine (idle_readUint _ _ _).bind fun _ => ?_
  refine (idle_getFid fid).bind fun entry => ?_
  split
  · refine (idle_request _ _ _ _).bind fun _ => ?_
    refine (idle_listDir _).bind fun entries => ?_
    refine (idle_encodeEntries _).bind fun listing => ?_
    exact (idle_withDot _ _).bind fun data => idle_send _ _ _
  · exact (idle_request _ _ _ _).bind fun resp => idle_send _ _ _

theorem idle_handleWrite (tag : UInt16) (body : Bytes) : D.Idle (handleWrite tag body) := by
  refine (idle_failIf _ _).bind fun _ => ?_
  refine (idle_readFid _ _).bind fun fid => ?_
  refine (idle_readUint _ _ _).bind fun _ => ?_
  refine (idle_readUint _ _ _).bind fun count => ?_
  refine (idle_getFid fid).bind fun entry => ?_
  refine (idle_range _ _ _).bind fun data => ?_
  exact (idle_request _ _ _ _).bind fun _ => idle_send _ _ _

theorem idle_handleClunk (tag : UInt16) (body : Bytes) : D.Idle (handleClunk tag body) := by
  refine (idle_failIf _ _).bind fun _ => ?_
  refine (idle_readFid _ _).bind fun fid => ?_
  refine (idle_lookupFid fid).bind fun entry => ?_
  have hrelease : D.Idle (releaseFid entry) := by
    cases entry with
    | none => exact inert_pure _
    | some e => exact (idle_route _).bind fun _ => inert_pure _
  refine hrelease.bind fun _ => ?_
  exact (idle_removeFid fid).bind fun _ => idle_send _ _ _

theorem idle_handleRemove (tag : UInt16) (body : Bytes) : D.Idle (handleRemove tag body) := by
  refine (idle_failIf _ _).bind fun _ => ?_
  refine (idle_readFid _ _).bind fun fid => ?_
  refine (idle_getFid fid).bind fun entry => ?_
  exact (idle_request _ _ _ _).bind fun _ => idle_send _ _ _

theorem idle_handleStat (tag : UInt16) (body : Bytes) : D.Idle (handleStat tag body) := by
  refine (idle_failIf _ _).bind fun _ => ?_
  refine (idle_readFid _ _).bind fun fid => ?_
  refine (idle_getFid fid).bind fun entry => ?_
  refine (idle_request _ _ _ _).bind fun resp => ?_
  exact (idle_encodeStat _ _ _ _).bind fun stat => idle_send _ _ _

theorem idle_newName (path : String) (stat : Bytes) (off : ℕ) : D.Idle (newName path stat off) := by
  unfold newName
  split
  · refine (idle_readUint _ _ _).bind fun nameLen => ?_
    split
    · exact (idle_range _ _ _).bind fun _ => inert_pure _
    · exact inert_pure _
  · exact inert_pure _

theorem keeps_applyStat (fid : UInt32) (entry : FidEntry) (stat : Bytes) :
    D.Keeps (D.Held entry.qid entry.path) (applyStat fid entry stat) fun _ _ => True := by
  have hF := D.stable entry.qid entry.path
  refine (idle_newName _ _ _).then hF fun name => ?_
  cases name with
  | some name =>
      refine (keeps_rename hF _ _ _).bind fun r => ?_
      apply keeps_locked (hF.and_const _)
      intro s hs h
      exact ⟨D.renameFid s fid entry.qid entry.path _ r h.2 hs h.1, trivial⟩
  | none =>
      dsimp only
      split
      · exact (idle_request _ _ _ _).then hF fun _ => Triple.pure fun _ _ => trivial
      · exact Triple.pure fun _ _ => trivial

theorem keeps_handleWstat (tag : UInt16) (body : Bytes) :
    D.Keeps (fun _ => True) (handleWstat tag body) fun _ _ => True := by
  refine (idle_failIf _ _).then stable_true fun _ => ?_
  refine (idle_readFid _ _).then stable_true fun fid => ?_
  refine (keeps_getFid fid).bind fun entry => ?_
  have hF := D.stable entry.qid entry.path
  refine (idle_range _ _ _).then hF fun data => ?_
  refine (idle_failIf _ _).then hF fun _ => ?_
  refine (idle_readUint _ _ _).then hF fun statLen => ?_
  refine (idle_range _ _ _).then hF fun stat => ?_
  split
  · exact (idle_send _ _ _ _ hF).weaken (fun _ h => h) fun _ _ _ => trivial
  · exact (keeps_applyStat _ _ _).bind fun _ => idle_send _ _ _ _ stable_true

theorem keeps_handleMessage (m : Message) :
    D.Keeps (fun _ => True) (handleMessage m) fun _ _ => True := by
  unfold handleMessage
  split
  · exact idle_handleVersion _ _ _ stable_true
  · exact idle_handleAttach _ _ _ stable_true
  · exact keeps_handleWalk _ _
  · exact idle_handleOpen _ _ _ stable_true
  · exact idle_handleRead _ _ _ stable_true
  · exact idle_handleWrite _ _ _ stable_true
  · exact idle_handleClunk _ _ _ stable_true
  · exact idle_handleCreate _ _ _ stable_true
  · exact idle_handleRemove _ _ _ stable_true
  · exact idle_handleStat _ _ _ stable_true
  · exact keeps_handleWstat _ _
  · exact idle_send _ _ _ _ stable_true
  · exact Triple.throw _

/-! ## Whole runs -/

theorem serveMessage_guarantees (m : Message) (s : Shared) :
    wp (guaranteed (semantics D.router) D.Inv D.Ext) (serveMessage m) (fun _ _ => True) s := by
  unfold serveMessage
  rw [wp_bind]
  refine wp_mono (guaranteed_monotone _ _ _) _ ?_ s (keeps_handleMessage m s trivial)
  intro r s' _
  cases r with
  | ok _ => trivial
  | error e =>
      intro s₁ _ hinv _ s₂ hsem
      have hsame : s₂ = s₁ := hsem
      subst s₂
      exact ⟨hinv, D.refl _, trivial⟩

theorem serveAll_guarantees (ms : List Message) (s : Shared) :
    wp (guaranteed (semantics D.router) D.Inv D.Ext) (serveAll ms) (fun _ _ => True) s := by
  induction ms generalizing s with
  | nil => trivial
  | cons m ms ih =>
      simp only [serveAll]
      rw [wp_bind]
      exact wp_mono (guaranteed_monotone _ _ _) _ (fun _ s' _ => ih s') s
        (serveMessage_guarantees m s)

section
variable {ι : Type} [DecidableEq ι]

/-- The invariant in a reached state, and how the tables move from there on. -/
theorem Discipline.run (D : Discipline) (hnew : D.Inv Shared.new) {msgs : ι → List Message}
    {t : List (Event ninep ι)} {c : Config ninep ι Shared}
    (run : Run (semantics D.router) (listener msgs) t c) :
    D.Inv c.state ∧ ∀ u d, Run (semantics D.router) c u d →
      D.Inv d.state ∧ D.Ext c.state d.state := by
  have hstart : D.Inv (listener msgs).state := hnew
  obtain ⟨hinv, _, htasks⟩ := run.invariant D.refl D.trans hstart
    fun i => serveAll_guarantees (msgs i) _
  refine ⟨hinv, ?_⟩
  intro u d hrun
  obtain ⟨h₁, h₂, _⟩ := hrun.invariant D.refl D.trans hinv htasks
  exact ⟨h₁, h₂⟩

/-- The invariant may be used at every step of a watched run. -/
theorem Discipline.watched (D : Discipline) (hnew : D.Inv Shared.new) {G : Type}
    {P : G → Shared → Event ninep ι → G → Prop} {g g' : G} {msgs : ι → List Message}
    {t : List (Event ninep ι)} {c : Config ninep ι Shared}
    (h : Watched (semantics D.router) P g (listener msgs) t c g') :
    Watched (semantics D.router) (fun g s e g' => D.Inv s ∧ P g s e g') g (listener msgs) t c g' :=
  h.guaranteed D.refl D.trans hnew fun i => serveAll_guarantees (msgs i) _

end

end Pinhead.QidDisciplines
