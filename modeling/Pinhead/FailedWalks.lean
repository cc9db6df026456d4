import Pinhead.NinepScripts

/-!
# What a failed walk leaves behind

A walk records every path it passes before it knows whether the walk succeeds: the last
name alone is looked up, and the names behind the current one are not read yet. When the
walk then fails, the paths stay in the table, and a directory read lists them.

A path that the table has already is not recorded again. The walks that leave no trace
are therefore those that pass nothing new.
-/
namespace Pinhead.FailedWalks
open FiniteTables ByteStrings FsRequests Resumption Histories NinepShared NinepHandlers
open NinepRuns NinepTotality NinepDatagrams NinepScripts

/-! ## Messages handled alone -/

/-- No other connection moves while the message is handled. -/
abbrev alone : Spec ninep Shared := moved (semantics anyRouter)

theorem alone_locked {c : Critical} {Q : Except String c.Ret → Shared → Prop} {s : Shared}
    (h : ∀ t, s.Reordered t → Q (.ok (c.exec t).1) (c.exec t).2) : wp alone (locked c).run Q s := by
  rintro r s' ⟨t, ht, hexec⟩
  have hQ := h t ht
  rw [hexec] at hQ
  exact hQ

theorem alone_getFid {fid : UInt32} {Q : Except String FidEntry → Shared → Prop} {s : Shared}
    (hok : ∀ e t, s.state.fids.lookup fid = some e → s.Reordered t → Q (.ok e) t)
    (herr : ∀ t, s.state.fids.lookup fid = none → s.Reordered t → Q (.error "unknown fid") t) :
    wp alone (NinepHandlers.getFid fid).run Q s := by
  unfold NinepHandlers.getFid
  rw [wp_run_bind]
  apply alone_locked
  intro t ht
  have hlookup : ((Critical.getFid fid).exec t).1 = s.state.fids.lookup fid := ht.lookup_fids fid
  rw [hlookup]
  cases h : s.state.fids.lookup fid with
  | none => exact herr t h ht
  | some e => exact hok e t h ht

theorem alone_request {what : String} {op : FsOperation} {path : String} {data : Bytes}
    {Q : Except String Response → Shared → Prop} {s : Shared} (hok : ∀ r, Q (.ok r) s)
    (herr : ∀ e, Q (.error e) s) : wp alone (request what op path data).run Q s := by
  rintro a s' ⟨_, rfl⟩
  match a with
  | .routerGone => exact herr _
  | .handlerGone => exact herr _
  | .reply (.error e) => exact herr _
  | .reply (.ok r) => exact hok r

theorem alone_lookupLast {isLast : Bool} {path : String} {Q : Except String Unit → Shared → Prop}
    {s : Shared} (hok : Q (.ok ()) s) (herr : isLast = true → ∀ e, Q (.error e) s) :
    wp alone (lookupLast isLast path).run Q s := by
  cases isLast with
  | false => exact hok
  | true =>
      change wp alone (request "lookup" .lookup path [] >>= fun _ => pure ()).run Q s
      rw [wp_run_bind]
      exact alone_request (fun _ => hok) (herr rfl)

/-! ## Recorded paths -/

def Recorded (s : Shared) (path : String) : Prop :=
  ∃ q e, s.state.paths.lookup q = some e ∧ e.path = path

theorem recorded_iff {s t : Shared} (h : s.Reordered t) (path : String) :
    Recorded t path ↔ Recorded s path := by
  unfold Recorded
  simp only [h.lookup_paths]

/-- The path is recorded already, or the counter moves on. -/
theorem exec_allocQid (s : Shared) (path : String) (isDir : Bool) :
    (Recorded s path ∧ ((Critical.allocQid path isDir).exec s).2 = s) ∨
    (¬ Recorded s path ∧
      ((Critical.allocQid path isDir).exec s).2.state.fids = s.state.fids ∧
      ((Critical.allocQid path isDir).exec s).2.state.nextQid = s.state.nextQid + 1) := by
  rcases allocQid_cases s.state path isDir with ⟨q, e, hq, hp, halloc⟩ | ⟨hnew, halloc⟩
  · refine Or.inl ⟨⟨q, e, hq, hp⟩, ?_⟩
    rw [Critical.exec]
    dsimp only
    rw [halloc]
  · refine Or.inr ⟨?_, ?_⟩
    · rintro ⟨q, e, hq, hp⟩
      exact hnew q e hq hp
    · rw [Critical.exec]
      dsimp only
      rw [halloc]
      exact ⟨rfl, rfl⟩

/-! ## One walk -/

/-- The paths that a walk of `n` names passes before the last one, as far as it can read
the names. -/
def passedPaths (body : Bytes) : ℕ → ℕ → String → List String
  | 0, _, _ => []
  | n + 1, off, path =>
      if n = 0 ∨ off + 2 > body.length ∨ off + 2 + uintAt 2 body off > body.length then []
      else joinPath path (nameAt body off) ::
        passedPaths body n (off + 2 + uintAt 2 body off) (joinPath path (nameAt body off))

/-- The paths that the walk in `body` passes from the fid it starts at. -/
def walkPasses (s : Shared) (body : Bytes) : List String :=
  match s.state.fids.lookup (fidAt body 0) with
  | some e => if body.length < 10 then [] else passedPaths body (uintAt 2 body 8) 10 e.path
  | none => []

/-- The fids are the same; the counter stands still as long as all the paths are recorded,
and moves if one is not. -/
structure Left (passed : List String) (s s' : Shared) : Prop where
  fids : s.state.fids.entries.Perm s'.state.fids.entries
  counter : s.state.nextQid ≤ s'.state.nextQid
  kept : (∀ p ∈ passed, Recorded s p) → s.Reordered s'
  moved : (∃ p ∈ passed, ¬ Recorded s p) → s.state.nextQid < s'.state.nextQid

theorem left_nil {s s' : Shared} (h : s.Reordered s') : Left [] s s' :=
  ⟨h.fids, h.nextQid.le, fun _ => h, nofun⟩

theorem Left.reordered {passed : List String} {s t s' : Shared} (h : s.Reordered t)
    (k : Left passed t s') : Left passed s s' where
  fids := h.fids.trans k.fids
  counter := h.nextQid.le.trans k.counter
  kept hall := h.trans (k.kept fun p hp => (recorded_iff h p).mpr (hall p hp))
  moved := by
    rintro ⟨p, hp, hnew⟩
    exact h.nextQid.trans_lt (k.moved ⟨p, hp, fun hrec => hnew ((recorded_iff h p).mp hrec)⟩)

/-- One more path in front: it is recorded, or its allocation moves the counter. -/
theorem Left.cons {path : String} {isDir : Bool} {passed : List String} {t s' : Shared}
    (k : Left passed ((Critical.allocQid path isDir).exec t).2 s') :
    Left (path :: passed) t s' := by
  rcases exec_allocQid t path isDir with ⟨hrec, hsame⟩ | ⟨hnew, hfids, hnext⟩
  · rw [hsame] at k
    refine ⟨k.fids, k.counter, fun hall => k.kept fun p hp => hall p (List.mem_cons_of_mem _ hp), ?_⟩
    rintro ⟨p, hp, hnew⟩
    rcases List.mem_cons.mp hp with rfl | hp
    · exact absurd hrec hnew
    · exact k.moved ⟨p, hp, hnew⟩
  · have hcounter := k.counter
    rw [hnext] at hcounter
    refine ⟨hfids ▸ k.fids, by omega, fun hall => ?_, fun _ => by omega⟩
    exact absurd (hall path (List.mem_cons_self ..)) hnew

/-- What is left where the names stop being readable, or where the last one is refused. -/
def WalkPost (passed : List String) (s : Shared) {A : Type} : Except String A → Shared → Prop
  | .ok _, _ => True
  | .error _, s' => Left passed s s'

theorem walkNames_left (body : Bytes) (n : ℕ) (w : Walk) (s : Shared) :
    wp alone (walkNames body n w).run (WalkPost (passedPaths body n w.offset w.curPath) s) s := by
  induction n generalizing w s with
  | zero => trivial
  | succ n ih =>
      rw [walkNames_succ]
      by_cases hlen : w.offset + 2 > body.length
      · rw [if_pos hlen, passedPaths, if_pos (Or.inr (Or.inl hlen))]
        exact left_nil (.refl s)
      rw [if_neg hlen]
      by_cases hname : w.offset + 2 + uintAt 2 body w.offset > body.length
      · rw [if_pos hname, passedPaths, if_pos (Or.inr (Or.inr hname))]
        exact left_nil (.refl s)
      rw [if_neg hname, wp_run_bind]
      apply alone_lookupLast
      · change wp alone (_ >>= _ : Handler Walk).run _ s
        rw [wp_run_bind]
        apply alone_locked
        intro t ht
        cases n with
        | zero => trivial
        | succ n =>
            rw [passedPaths, if_neg (by omega)]
            refine wp_mono (moved_monotone _) _ ?_ _ (ih _ _)
            intro r s' hpost
            cases r with
            | ok w' => trivial
            | error e => exact (Left.cons hpost).reordered ht
      · -- only the lookup of the last name can fail, and the walk passes nothing behind it
        intro hlast e
        have hzero : n = 0 := by simpa using hlast
        rw [passedPaths, if_pos (Or.inl hzero)]
        exact left_nil (.refl s)

theorem handleWalk_left (tag : UInt16) (body : Bytes) (s : Shared) :
    wp alone (handleWalk tag body).run (WalkPost (walkPasses s body) s) s := by
  rw [handleWalk_eq]
  split
  · next hshort =>
      have hnone : walkPasses s body = [] := by
        unfold walkPasses
        split
        · exact if_pos (by omega)
        · rfl
      rw [hnone]
      exact left_nil (.refl s)
  split
  · exact fun r => Empty.elim r
  · next hnine hten =>
      rw [wp_run_bind]
      apply alone_getFid
      · intro e t he ht
        have hpasses : walkPasses s body = passedPaths body (uintAt 2 body 8) 10 e.path := by
          rw [walkPasses, he]
          exact if_neg (by omega)
        rw [hpasses]
        change wp alone (_ >>= _ : Handler Unit).run _ t
        rw [wp_run_bind]
        refine wp_mono (moved_monotone _) _ ?_ _ (walkNames_left body _ _ t)
        intro r s' hpost
        cases r with
        | ok w => exact fun _ _ _ _ _ _ => trivial
        | error e => exact hpost.reordered ht
      · intro t hnone ht
        have hpasses : walkPasses s body = [] := by
          rw [walkPasses, hnone]
        rw [hpasses]
        exact left_nil ht

/-! ## Whole runs -/

/-- What a critical section may put into the path table. -/
def Records (path : String) : Op → Prop
  | .locked (.allocQid p _) | .locked (.createFid _ p _) | .locked (.renameFid _ _ p) => p = path
  | _ => False

/-- Only these three change the path table. -/
theorem recorded_exec (c : Critical) (s : Shared) {path : String}
    (h : Recorded (c.exec s).2 path) : Recorded s path ∨ Records path (.locked c) := by
  have halloc : ∀ p d, Recorded ⟨(s.state.allocQid p d).2, s.msize⟩ path →
      Recorded s path ∨ p = path := by
    rintro p d ⟨q, e, hq, hp⟩
    rcases allocQid_cases s.state p d with ⟨_, _, _, _, hsame⟩ | ⟨_, hnew⟩
    · rw [hsame] at hq
      exact Or.inl ⟨q, e, hq, hp⟩
    · rw [hnew] at hq
      rcases (lookup_insert_iff _ _ _ _ _).mp hq with ⟨_, rfl⟩ | ⟨_, hold⟩
      · exact Or.inr hp
      · exact Or.inl ⟨q, e, hold, hp⟩
  have hmodify : ∀ (u : NinepState) fid f, Recorded ⟨u.modifyFid fid f, s.msize⟩ path →
      Recorded ⟨u, s.msize⟩ path := by
    rintro u fid f ⟨q, e, hq, hp⟩
    rw [modifyFid_paths] at hq
    exact ⟨q, e, hq, hp⟩
  cases c with
  | allocQid p d => exact halloc p d h
  | createFid fid p d =>
      exact halloc p d (hmodify ((s.state.allocQid p d).2.setFid fid (s.state.allocQid p d).1 p d) _ _ h)
  | renameFid fid qid p =>
      obtain ⟨q, e, hq, hp⟩ := h
      rcases (lookup_insert_iff _ _ _ _ _).mp hq with ⟨_, rfl⟩ | ⟨_, hold⟩
      · exact Or.inr hp
      · rw [modifyFid_paths] at hold
        exact Or.inl ⟨q, e, hold, hp⟩
  | markOpen fid => exact Or.inl (hmodify _ _ _ h)
  | _ => exact Or.inl h

theorem recorded_step {o : Op} {r : Op.Ret o} {s s' : Shared}
    (hsem : semantics anyRouter o s r s') {path : String} (h : Recorded s' path) :
    Recorded s path ∨ Records path o := by
  cases o with
  | locked c =>
      obtain ⟨t, ht, hexec⟩ := hsem
      have hs : (c.exec t).2 = s' := congrArg Prod.snd hexec
      rw [← hs] at h
      rw [← recorded_iff ht]
      exact recorded_exec c t h
  | route req =>
      rw [hsem.2] at h
      exact Or.inl h
  | now =>
      rw [show s' = s from hsem] at h
      exact Or.inl h
  | send msg =>
      rw [show s' = s from hsem] at h
      exact Or.inl h
  | crash => exact hsem.elim

section
variable {ι : Type} [DecidableEq ι]

def IsWalking : Op → Prop
  | .locked (.allocQid _ _) => True
  | _ => False

/-- The next reply on the connection is an error. -/
def FailsAfter (i : ι) (t : List (Event ninep ι)) : Prop :=
  ∃ tag e, (sent i t).head? = some (message RERROR tag (errorBody e))

/-- A create or a rename of the run recorded the path, or a walk that did not fail. -/
def Produced (t : List (Event ninep ι)) (path : String) : Prop :=
  ∃ before ev after, t = before ++ ev :: after ∧ Records path ev.op ∧
    (IsWalking ev.op → ¬ FailsAfter ev.task after)

/-- A run in which the walks that fail pass nothing but recorded paths. -/
inductive Traceless : Config ninep ι Shared → List (Event ninep ι) → Config ninep ι Shared → Prop
  | refl (c : Config ninep ι Shared) : Traceless c [] c
  | step {c d e : Config ninep ι Shared} {ev : Event ninep ι} {t : List (Event ninep ι)} :
      Step (semantics anyRouter) c ev d →
      (IsWalking ev.op → FailsAfter ev.task t → ∀ path, Records path ev.op → Recorded c.state path) →
      Traceless d t e → Traceless c (ev :: t) e

theorem Produced.cons {t : List (Event ninep ι)} {path : String} (h : Produced t path)
    (ev : Event ninep ι) : Produced (ev :: t) path := by
  obtain ⟨before, e, after, rfl, hrec, hwalk⟩ := h
  exact ⟨ev :: before, e, after, rfl, hrec, hwalk⟩

theorem Traceless.produced {c d : Config ninep ι Shared} {t : List (Event ninep ι)}
    (h : Traceless c t d) {path : String} (hrec : Recorded d.state path) :
    Recorded c.state path ∨ Produced t path := by
  induction h with
  | refl c => exact Or.inl hrec
  | @step c d e ev t hs hclean _ ih =>
      rcases ih hrec with hrec | hproduced
      · obtain ⟨i, o, next, r, s, _, hsem⟩ := hs
        rcases recorded_step hsem hrec with hbefore | hrecords
        · exact Or.inl hbefore
        · by_cases hfails : IsWalking o ∧ FailsAfter i t
          · exact Or.inl (hclean hfails.1 hfails.2 path hrecords)
          · exact Or.inr ⟨[], _, t, rfl, hrecords, fun hwalk hfail => hfails ⟨hwalk, hfail⟩⟩
      · exact Or.inr (hproduced.cons ev)

theorem recorded_new {path : String} (h : Recorded Shared.new path) : path = "/" := by
  obtain ⟨q, e, hq, rfl⟩ := h
  have hmem := AList.mem_lookup_iff.mp hq
  have hone : (⟨q, e⟩ : Σ _ : ℕ, PathEntry) = ⟨0, ⟨"/", true⟩⟩ := List.mem_singleton.mp hmem
  obtain ⟨rfl, he⟩ := Sigma.mk.inj hone
  rw [eq_of_heq he]

/-- Every name in a listing is that of a recorded path. -/
theorem listDir_recorded {s : Shared} {dir : String} {x : DirEntry}
    (h : x ∈ s.state.listDir dir) : ∃ path, Recorded s path ∧ childName dir path = some x.name := by
  obtain ⟨⟨q, e⟩, hmem, hx⟩ := List.mem_filterMap.mp h
  obtain ⟨name, hname, rfl⟩ := Option.map_eq_some_iff.mp hx
  exact ⟨e.path, ⟨q, e, AList.mem_lookup_iff.mpr hmem, rfl⟩, hname⟩

/-- A failed walk never touches the fids, and leaves the tables as they were exactly when
all the paths it passes are recorded. Where the failed walks of a run pass nothing new,
every name that is listed belongs to the root or to what a successful walk, a create or a
rename recorded. -/
theorem failed_walk_leaves_no_trace_iff (ι : Type) [DecidableEq ι] (msgs : ι → List Message) :
    (∀ (s s' : Shared) (tag : UInt16) (body : Bytes) (h : List (Answered ninep)) (e : String),
      Passes (handleMessage ⟨TWALK, tag, body⟩).run h (.done (.error e)) →
      Performs (semantics anyRouter) s h s' →
      s.state.fids.entries.Perm s'.state.fids.entries ∧
      (s.Reordered s' ↔ ∀ path ∈ walkPasses s body, Recorded s path)) ∧
    ∀ (t : List (Event ninep ι)) (c : Config ninep ι Shared), Traceless (listener msgs) t c →
      ∀ dir, ∀ x ∈ c.state.state.listDir dir, ∃ path, childName dir path = some x.name ∧
        (path = "/" ∨ Produced t path) := by
  constructor
  · intro s s' tag body h e hp hs
    have hleft : Left (walkPasses s body) s s' := hp.moved hs (handleWalk_left tag body s)
    refine ⟨hleft.fids, ?_, hleft.kept⟩
    intro hsame
    by_contra hnew
    push Not at hnew
    exact absurd hsame.nextQid (hleft.moved hnew).ne
  · intro t c ht dir x hx
    obtain ⟨path, hrec, hname⟩ := listDir_recorded hx
    refine ⟨path, hname, ?_⟩
    exact (ht.produced hrec).imp_left recorded_new

end

/-! ## A walk along two names -/

/-- From fid 1 along `a` and `b` to fid 2. -/
def twoNames : Bytes := [1, 0, 0, 0, 2, 0, 0, 0, 2, 0, 1, 0, 97, 1, 0, 98]

/-- The last name is refused. -/
def refused : List (Answered ninep) :=
  [⟨.locked (.getFid 1), some (⟨0, "/", false, true⟩ : FidEntry)⟩,
    ⟨.locked (.allocQid "/a" false), (1 : ℕ)⟩,
    ⟨.route ⟨.lookup, "/a/b", []⟩, Answer.reply (.error "not found")⟩]

theorem passes_refused : Passes (handleMessage ⟨TWALK, 0, twoNames⟩).run refused
    (.done (.error "lookup failed: not found")) :=
  .answer _ _ _ (.answer _ _ _ (.answer _ _ _ (.refl _)))

def attached : Shared := ⟨NinepState.new.setFid 1 0 "/" true, 8192⟩

/-- The walk has been refused once. -/
def traced : Shared := ((Critical.allocQid "/a" false).exec attached).2

theorem performs_refused : Performs (semantics anyRouter) attached refused traced :=
  .answer _ _ (semantics_exec _ _) (.answer _ _ (semantics_exec _ _)
    (.answer _ _ ⟨trivial, rfl⟩ (.refl _)))

theorem performs_refused_again : Performs (semantics anyRouter) traced refused traced :=
  .answer _ _ (semantics_exec _ _) (.answer _ _ (semantics_exec _ _)
    (.answer _ _ ⟨trivial, rfl⟩ (.refl _)))

theorem failed_walk_leaves_no_trace_iff_again :
    traced.Reordered traced ∧ (∀ path ∈ walkPasses traced twoNames, Recorded traced path) ∧
    ∀ x ∈ Shared.new.state.listDir "/", ∃ path, childName "/" path = some x.name ∧
      (path = "/" ∨ Produced ([] : List (Event ninep Unit)) path) := by
  obtain ⟨hone, hruns⟩ := failed_walk_leaves_no_trace_iff Unit fun _ => []
  obtain ⟨_, hwalk⟩ := hone _ _ _ _ _ _ passes_refused performs_refused_again
  exact ⟨.refl _, hwalk.mp (.refl _), hruns [] _ (.refl _) "/"⟩

theorem reachable_attached : Reachable attached := by
  have hp : Passes (serveAll [⟨TATTACH, 0, [1, 0, 0, 0, 255, 255, 255, 255]⟩])
      [⟨.locked (.attach 1), ()⟩] _ := .answer _ _ _ (.refl _)
  have hs : Performs (semantics anyRouter) Shared.new [⟨.locked (.attach 1), ()⟩] attached :=
    .answer _ _ (semantics_exec _ _) (.refl _)
  exact ⟨Unit, inferInstance, fun _ => _, _, _, hp.run () hs rfl, rfl⟩

/-- The refused walk to `/a/b` records `/a`. -/
theorem refused_walk_recorded : ¬ ∀ (s s' : Shared) (tag : UInt16) (body : Bytes)
    (h : List (Answered ninep)) (e : String), Reachable s →
    Passes (handleMessage ⟨TWALK, tag, body⟩).run h (.done (.error e)) →
    Performs (semantics anyRouter) s h s' → s.Reordered s' := by
  intro h
  have hsame := h _ _ _ _ _ _ reachable_attached passes_refused performs_refused
  exact absurd hsame.nextQid (by decide)

end Pinhead.FailedWalks
