import Pinhead.NinepContracts
import Pinhead.QidTable

/-!
# Renames and the two tables

A wstat that renames tells the router the old and the new path and then updates
the entry of its fid and the entry of its qid. Other fids of the same object, the
objects below a renamed directory and an object that already has the new path are
left as they are.

`relocate` says where a rename of `p` to `q` takes each path, and `Renamed` what
both tables should look like afterwards. The main result compares it with the
update in every run, up to which every rename has met the condition `Undisturbed`
and every walk has bound a pair that the table still records.
-/
namespace Pinhead.QidRenames
open FiniteTables ByteStrings FsRequests Resumption Histories NinepShared NinepHandlers
open NinepRuns NinepContracts QidTable

/-! ## Where a rename takes a path -/

/-- What every path below `p` starts with. -/
def dirPrefix (p : String) : String := if endsWithSlash p then p else p ++ "/"

/-- `p` moves to `q`, what lies below `p` moves along, everything else stays. -/
def relocate (p q x : String) : String :=
  if x = p then q
  else
    match stripStart (dirPrefix p) x with
    | some rest => dirPrefix q ++ rest
    | none => x

example : relocate "/a" "/b" "/a/x" = "/b/x" ∧ relocate "/a" "/b" "/ax" = "/ax" := by decide

/-- Both tables after a rename of `p` to `q`, from the tables before it. -/
structure Renamed (p q : String) (s s' : NinepState) : Prop where
  fids : ∀ f, s'.fids.lookup f =
    (s.fids.lookup f).map fun e => { e with path := relocate p q e.path }
  paths : ∀ x, s'.paths.lookup x =
    (s.paths.lookup x).map fun e => { e with path := relocate p q e.path }
  distinct : ∀ x y e e', s'.paths.lookup x = some e → s'.paths.lookup y = some e' →
    e.path = e'.path → x = y
  agree : ∀ f e, s'.fids.lookup f = some e →
    ∃ n, s'.paths.lookup e.qid = some n ∧ n.path = e.path

/-- The renamed qid is recorded as a file and goes to `q`, its fid still has that
qid, and the rename concerns no other fid and no other entry of the table. -/
structure Undisturbed (fid : UInt32) (qid : ℕ) (p q : String) (s : NinepState) : Prop where
  file : ∃ path, s.paths.lookup qid = some ⟨path, false⟩ ∧ relocate p q path = q
  bound : ∀ e, s.fids.lookup fid = some e → e.qid = qid
  fids : ∀ f e, f ≠ fid → s.fids.lookup f = some e → relocate p q e.path = e.path
  paths : ∀ x e, x ≠ qid → s.paths.lookup x = some e → relocate p q e.path = e.path ∧ e.path ≠ q

instance (fid : UInt32) (qid : ℕ) (p q : String) (s : NinepState) :
    Decidable (Undisturbed fid qid p q s) :=
  decidable_of_iff
    ((∃ e ∈ s.paths.lookup qid, e.isDir = false ∧ relocate p q e.path = q) ∧
      (∀ e ∈ s.fids.lookup fid, e.qid = qid) ∧
      (∀ x ∈ s.fids.entries, x.1 ≠ fid → relocate p q x.2.path = x.2.path) ∧
      ∀ x ∈ s.paths.entries, x.1 ≠ qid → relocate p q x.2.path = x.2.path ∧ x.2.path ≠ q) (by
    have hfids := forall_lookup_iff s.fids fun f e => f ≠ fid → relocate p q e.path = e.path
    have hpaths := forall_lookup_iff s.paths fun x e =>
      x ≠ qid → relocate p q e.path = e.path ∧ e.path ≠ q
    constructor
    · rintro ⟨⟨⟨path, isDir⟩, he, hdir, hpath⟩, hbound, hf, hx⟩
      dsimp only at hdir hpath
      subst hdir
      exact ⟨⟨path, he, hpath⟩, hbound, fun f e hne he => hfids.mpr hf f e he hne,
        fun x e hne he => hpaths.mpr hx x e he hne⟩
    · rintro ⟨⟨path, hlook, hpath⟩, hbound, hf, hx⟩
      exact ⟨⟨_, hlook, rfl, hpath⟩, hbound, hfids.mp fun f e he hne => hf f e hne he,
        hpaths.mp fun x e he hne => hx x e hne he⟩)

/-! ## One update -/

/-- The tables after the update of a rename. -/
def renamed (fid : UInt32) (qid : ℕ) (q : String) (s : NinepState) : NinepState :=
  { s.modifyFid fid fun e => { e with path := q } with
    paths := (s.modifyFid fid fun e => { e with path := q }).paths.insert qid ⟨q, false⟩ }

variable {fid : UInt32} {qid : ℕ} {p q : String} {s : NinepState}

theorem renamed_fids (f : UInt32) : (renamed fid qid q s).fids.lookup f =
    if f = fid then (s.fids.lookup f).map fun e => { e with path := q } else s.fids.lookup f :=
  lookup_modifyFid s fid f _

theorem renamed_paths_self : (renamed fid qid q s).paths.lookup qid = some ⟨q, false⟩ :=
  AList.lookup_insert _

theorem renamed_paths_other {x : ℕ} (h : x ≠ qid) :
    (renamed fid qid q s).paths.lookup x = s.paths.lookup x := by
  unfold renamed
  rw [AList.lookup_insert_ne h, modifyFid_paths]

/-- An entry that an update leaves alone is right exactly when the rename leaves it alone. -/
theorem eq_map_iff {V : Type} {f : V → V} {o : Option V} :
    o = o.map f ↔ ∀ v, o = some v → f v = v := by
  cases o with
  | none => simp
  | some v => simp [eq_comm]

theorem Renamed.undisturbed (h : Renamed p q s (renamed fid qid q s)) :
    Undisturbed fid qid p q s := by
  have hself := h.paths qid
  rw [renamed_paths_self] at hself
  obtain ⟨⟨path, isDir⟩, hlook, hentry⟩ := Option.map_eq_some_iff.mp hself.symm
  obtain ⟨hpath, hflag⟩ := PathEntry.mk.inj hentry
  subst hflag
  refine ⟨⟨path, hlook, hpath⟩, ?_, ?_, ?_⟩
  · intro e he
    have hfid : (renamed fid qid q s).fids.lookup fid = some { e with path := q } := by
      rw [renamed_fids, if_pos rfl, he]
      rfl
    obtain ⟨n, hn, hnpath⟩ := h.agree fid _ hfid
    exact h.distinct _ _ n _ hn renamed_paths_self hnpath
  · intro f e hf he
    have hmap := h.fids f
    rw [renamed_fids, if_neg hf] at hmap
    exact congrArg FidEntry.path (eq_map_iff.mp hmap e he)
  · intro x e hx he
    have hmap := h.paths x
    rw [renamed_paths_other hx] at hmap
    refine ⟨congrArg PathEntry.path (eq_map_iff.mp hmap e he), ?_⟩
    intro hq
    have hkept : (renamed fid qid q s).paths.lookup x = some e := by rw [renamed_paths_other hx, he]
    exact hx (h.distinct _ _ e _ hkept renamed_paths_self hq)

/-- Every fid of the renamed qid is at a path that goes to the new one. -/
theorem Undisturbed.relocates (hs : Consistent s) (h : Undisturbed fid qid p q s) {f : UInt32}
    {e : FidEntry} (hf : s.fids.lookup f = some e) (hq : e.qid = qid) :
    relocate p q e.path = q := by
  obtain ⟨path, hlook, hpath⟩ := h.file
  obtain ⟨n, hn, hnpath⟩ := hs.fids f e hf
  rw [hq, hlook] at hn
  rw [← hnpath, ← Option.some.inj hn]
  exact hpath

theorem Undisturbed.moves_fids (hs : Consistent s) (h : Undisturbed fid qid p q s) (f : UInt32) :
    (renamed fid qid q s).fids.lookup f =
      (s.fids.lookup f).map fun e => { e with path := relocate p q e.path } := by
  rw [renamed_fids]
  by_cases hf : f = fid
  · subst f
    rw [if_pos rfl]
    cases he : s.fids.lookup fid with
    | none => rfl
    | some e => rw [Option.map_some, Option.map_some, h.relocates hs he (h.bound e he)]
  · rw [if_neg hf]
    apply eq_map_iff.mpr
    intro e he
    rw [h.fids f e hf he]

theorem Undisturbed.moves_paths (h : Undisturbed fid qid p q s) (x : ℕ) :
    (renamed fid qid q s).paths.lookup x =
      (s.paths.lookup x).map fun e => { e with path := relocate p q e.path } := by
  by_cases hx : x = qid
  · subst x
    obtain ⟨path, hlook, hpath⟩ := h.file
    rw [renamed_paths_self, hlook, Option.map_some, hpath]
  · rw [renamed_paths_other hx]
    apply eq_map_iff.mpr
    intro e he
    rw [(h.paths x e hx he).1]

theorem Undisturbed.distinct (hs : Consistent s) (h : Undisturbed fid qid p q s) (x y : ℕ)
    (e e' : PathEntry) (hx : (renamed fid qid q s).paths.lookup x = some e)
    (hy : (renamed fid qid q s).paths.lookup y = some e') (hsame : e.path = e'.path) :
    x = y := by
  by_cases hxq : x = qid
  · subst x
    rw [renamed_paths_self] at hx
    obtain rfl := Option.some.inj hx
    by_contra hyq
    rw [renamed_paths_other (Ne.symm hyq)] at hy
    exact (h.paths y e' (Ne.symm hyq) hy).2 hsame.symm
  · rw [renamed_paths_other hxq] at hx
    by_cases hyq : y = qid
    · subst y
      rw [renamed_paths_self] at hy
      obtain rfl := Option.some.inj hy
      exact absurd hsame (h.paths x e hxq hx).2
    · rw [renamed_paths_other hyq] at hy
      exact hs.distinct x y e e' hx hy hsame

theorem Undisturbed.agree (hs : Consistent s) (h : Undisturbed fid qid p q s) (f : UInt32)
    (e : FidEntry) (hf : (renamed fid qid q s).fids.lookup f = some e) :
    ∃ n, (renamed fid qid q s).paths.lookup e.qid = some n ∧ n.path = e.path := by
  rw [renamed_fids] at hf
  by_cases hfid : f = fid
  · rw [if_pos hfid] at hf
    obtain ⟨e₀, he₀, rfl⟩ := Option.map_eq_some_iff.mp hf
    rw [hfid] at he₀
    exact ⟨⟨q, false⟩, by rw [h.bound e₀ he₀, renamed_paths_self], rfl⟩
  · rw [if_neg hfid] at hf
    by_cases hq : e.qid = qid
    · -- A second fid of the qid stays where it is, which must then be the new path.
      have hstay := h.fids f e hfid hf
      rw [h.relocates hs hf hq] at hstay
      exact ⟨⟨q, false⟩, by rw [hq, renamed_paths_self], hstay⟩
    · obtain ⟨n, hn, hnpath⟩ := hs.fids f e hf
      exact ⟨n, by rw [renamed_paths_other hq, hn], hnpath⟩

theorem Undisturbed.renamed (hs : Consistent s) (h : Undisturbed fid qid p q s) :
    Renamed p q s (renamed fid qid q s) where
  fids := h.moves_fids hs
  paths := h.moves_paths
  distinct := h.distinct hs
  agree := h.agree hs

theorem renamed_iff (hs : Consistent s) :
    Renamed p q s (renamed fid qid q s) ↔ Undisturbed fid qid p q s :=
  ⟨Renamed.undisturbed, Undisturbed.renamed hs⟩

/-! ## What every step keeps -/

/-- The tables are consistent and the root is still recorded as a directory. -/
structure Rooted (s : Shared) : Prop where
  consistent : Consistent s.state
  root : s.state.paths.lookup 0 = some ⟨"/", true⟩

theorem rooted_new : Rooted Shared.new := ⟨consistent_new, rfl⟩

theorem Rooted.reordered {s t : Shared} (hs : Rooted s) (h : s.Reordered t) : Rooted t :=
  ⟨Reordered.inv h hs.consistent, by rw [h.lookup_paths]; exact hs.root⟩

theorem Rooted.renamed {s : Shared} (hs : Rooted s)
    (h : Undisturbed fid qid p q s.state) :
    Rooted { s with state := renamed fid qid q s.state } := by
  obtain ⟨path, hlook, _⟩ := h.file
  have hroot : (0 : ℕ) ≠ qid := by
    intro hz
    rw [← hz, hs.root] at hlook
    cases hlook
  have hren := h.renamed hs.consistent
  have hzero : (QidRenames.renamed fid qid q s.state).paths.lookup 0 = some ⟨"/", true⟩ := by
    rw [renamed_paths_other hroot]
    exact hs.root
  refine ⟨⟨⟨_, hzero, rfl⟩, ?_, hren.distinct, hren.agree⟩, hzero⟩
  intro x e hx
  have hnext : (QidRenames.renamed fid qid q s.state).nextQid = s.state.nextQid :=
    modifyFid_nextQid _ _ _
  change x < (QidRenames.renamed fid qid q s.state).nextQid
  rw [hnext]
  by_cases hxq : x = qid
  · subst x
    exact hs.consistent.below _ _ hlook
  · rw [renamed_paths_other hxq] at hx
    exact hs.consistent.below x e hx

/-- What a critical section needs of the state before it; `pending` is the last
rename that the router accepted from the connection. -/
def SectionMeets (pending : Option Request) (s : Shared) : Critical → Prop
  | .renameFid fid qid q => ∃ req, pending = some req ∧ Undisturbed fid qid req.path q s.state
  | .setFid _ qid path _ => Recorded qid path s
  | _ => True

theorem Rooted.allocQid {s : Shared} (hs : Rooted s) (path : String) (isDir : Bool) :
    Rooted { s with state := (s.state.allocQid path isDir).2 } ∧
      Recorded (s.state.allocQid path isDir).1 path
        { s with state := (s.state.allocQid path isDir).2 } := by
  obtain ⟨hinv, hgrow, hrecorded⟩ := allocQid_spec s hs.consistent path isDir
  exact ⟨⟨hinv, hgrow _ _ hs.root⟩, hrecorded⟩

theorem Rooted.markOpen {s : Shared} (hs : Rooted s) (fid : UInt32) :
    Rooted { s with state := s.state.modifyFid fid fun e => { e with isOpen := true } } := by
  refine ⟨inv_modifyFid hs.consistent fid _ fun _ => ⟨rfl, rfl⟩, ?_⟩
  dsimp only
  rw [modifyFid_paths]
  exact hs.root

theorem Rooted.exec {s : Shared} (hs : Rooted s) (pending : Option Request) (c : Critical)
    (h : SectionMeets pending s c) : Rooted (c.exec s).2 := by
  cases c with
  | getFid fid => exact hs
  | attach fid =>
      exact ⟨inv_setFid hs.consistent fid true ⟨_, hs.root, rfl⟩, hs.root⟩
  | allocQid path isDir => exact (hs.allocQid path isDir).1
  | setFid fid qid path isDir => exact ⟨inv_setFid hs.consistent fid isDir h, hs.root⟩
  | markOpen fid => exact hs.markOpen fid
  | createFid fid path isDir =>
      obtain ⟨halloc, hrecorded⟩ := hs.allocQid path isDir
      have hbound : Rooted { s with state :=
          (s.state.allocQid path isDir).2.setFid fid (s.state.allocQid path isDir).1 path isDir } :=
        ⟨inv_setFid halloc.consistent fid isDir hrecorded, halloc.root⟩
      exact hbound.markOpen fid
  | listDir dir => exact hs
  | removeFid fid => exact ⟨inv_removeFid hs.consistent fid, hs.root⟩
  | renameFid fid qid q =>
      obtain ⟨p, _, hund⟩ := h
      exact hs.renamed hund
  | readMsize => exact hs
  | writeMsize msize => exact ⟨hs.consistent, hs.root⟩

/-! ## Whole runs -/

section
variable {ι : Type} [DecidableEq ι]

/-- Every section meets its condition in the state before it, and each connection
remembers its last accepted rename. -/
def StepMeets (pending : ι → Option Request) (s : Shared) (e : Event ninep ι)
    (pending' : ι → Option Request) : Prop :=
  pending' = Function.update pending e.task (noteAccepted (pending e.task) ⟨e.op, e.answer⟩) ∧
    ∀ c, e.op = .locked c → SectionMeets (pending e.task) s c

theorem Undisturbed.reordered {s t : Shared} (h : s.Reordered t)
    (hs : Undisturbed fid qid p q s.state) : Undisturbed fid qid p q t.state where
  file := by
    rw [h.lookup_paths]
    exact hs.file
  bound := by
    rw [h.lookup_fids]
    exact hs.bound
  fids f := by
    rw [h.lookup_fids]
    exact hs.fids f
  paths x := by
    rw [h.lookup_paths]
    exact hs.paths x

theorem SectionMeets.reordered {pending : Option Request} {s t : Shared} (h : s.Reordered t)
    {c : Critical} (hc : SectionMeets pending s c) : SectionMeets pending t c := by
  cases c with
  | setFid fid qid path isDir =>
      obtain ⟨e, he, hp⟩ := hc
      exact ⟨e, by rw [h.lookup_paths]; exact he, hp⟩
  | renameFid fid qid q =>
      obtain ⟨req, hreq, hund⟩ := hc
      exact ⟨req, hreq, hund.reordered h⟩
  | _ => trivial

theorem Rooted.step {router : Request → Answer → Prop} {pending : ι → Option Request}
    {c d : Config ninep ι Shared} {e : Event ninep ι} (hs : Step (semantics router) c e d)
    (hrooted : Rooted c.state)
    (hmeets : ∀ k, e.op = .locked k → SectionMeets (pending e.task) c.state k) :
    Rooted d.state := by
  obtain ⟨i, o, next, r, s, _, hsem⟩ := hs
  cases o with
  | locked k =>
      obtain ⟨u, hre, hexec⟩ := hsem
      have hkept := (hrooted.reordered hre).exec (pending i) k ((hmeets k rfl).reordered hre)
      rw [hexec] at hkept
      exact hkept
  | route req => exact hsem.2 ▸ hrooted
  | now => exact (show s = c.state from hsem) ▸ hrooted
  | send msg => exact (show s = c.state from hsem) ▸ hrooted
  | crash => exact Empty.elim r

theorem Rooted.watched {pending pending' : ι → Option Request} {c d : Config ninep ι Shared}
    {t : List (Event ninep ι)}
    (run : Watched (semantics anyRouter) StepMeets pending c t d pending') (h : Rooted c.state) :
    Rooted d.state := by
  induction run with
  | refl => exact h
  | step hs hP _ ih => exact ih (h.step hs hP.2)

theorem pending_eq {pending pending' : ι → Option Request} {c d : Config ninep ι Shared}
    {t : List (Event ninep ι)}
    (run : Watched (semantics anyRouter) StepMeets pending c t d pending') (i : ι) :
    pending' i = (own i t).foldl noteAccepted (pending i) := by
  induction run with
  | refl => rfl
  | @step _ _ _ _ _ _ ev _ _ hP _ ih =>
      obtain ⟨j, o, r⟩ := ev
      rw [ih, hP.1]
      by_cases hij : j = i
      · subst j
        rw [own_cons_self, Function.update_self, List.foldl_cons]
      · rw [own_cons_other hij, Function.update_of_ne (Ne.symm hij)]

/-- No assumption and no promise, except that renames follow their requests. -/
def unconstrained : Contract where
  Held _ _ _ := True
  Path _ := True
  Child _ := True
  Accepts _ _ := True
  path _ := trivial
  join _ _ := trivial
  sibling _ _ := trivial

theorem unconstrained_rely (o : Op) (r : Op.Ret o) : unconstrained.rely o r := by
  cases o with
  | locked c => cases c <;> simp [Contract.rely, unconstrained]
  | _ => trivial

/-- The update of a rename follows the accepted request for it. -/
theorem rename_requested {msgs : ι → List Message} {t : List (Event ninep ι)}
    {c d : Config ninep ι Shared} (run : Run (semantics anyRouter) (listener msgs) t c) {i : ι}
    {fid : UInt32} {qid : ℕ} {q : String}
    (hstep : Step (semantics anyRouter) c ⟨i, .locked (.renameFid fid qid q), ()⟩ d) :
    ∃ req, (own i t).foldl noteAccepted none = some req ∧ req.op = .rename ∧
      req.data = asBytes q := by
  have hpasses := run_passes run i
  have hsound := hpasses.observed (fun e _ => unconstrained_rely e.op e.answer)
    (serveAll_sound (C := unconstrained) (msgs i) (fun _ _ _ _ => trivial) none)
  generalize hev : (⟨i, .locked (.renameFid fid qid q), ()⟩ : Event ninep ι) = ev at hstep
  obtain ⟨j, o, next, r, s, htask, _⟩ := hstep
  cases hev
  rw [htask] at hsound
  obtain ⟨_, req, hreq, hop, hdata, _⟩ := hsound.1
  exact ⟨req, hreq, hop, hdata⟩

/-- A step of a renaming wstat, after a run in which every rename and every
binding of a walk met its condition. It belongs to an accepted request to rename
`req.path` to `q`, and it leaves the tables as that rename should exactly when it
meets the condition as well. -/
theorem rename_coherent_iff (msgs : ι → List Message) (t : List (Event ninep ι))
    (c d : Config ninep ι Shared) (pending : ι → Option Request)
    (run : Watched (semantics anyRouter) StepMeets (fun _ => none) (listener msgs) t c pending)
    (i : ι) (fid : UInt32) (qid : ℕ) (q : String)
    (hstep : Step (semantics anyRouter) c ⟨i, .locked (.renameFid fid qid q), ()⟩ d) :
    ∃ req, pending i = some req ∧ req.op = .rename ∧ req.data = asBytes q ∧
      (Renamed req.path q c.state.state d.state.state ↔
        Undisturbed fid qid req.path q c.state.state) := by
  have hrooted : Rooted c.state := Rooted.watched run rooted_new
  obtain ⟨req, hreq, hop, hdata⟩ := rename_requested run.run hstep
  refine ⟨req, by rw [pending_eq run i, hreq], hop, hdata, ?_⟩
  obtain ⟨u, hre, hexec⟩ : ∃ u, c.state.Reordered u ∧
      (Critical.renameFid fid qid q).exec u = ((), d.state) := by
    generalize hev : (⟨i, .locked (.renameFid fid qid q), ()⟩ : Event ninep ι) = ev at hstep
    obtain ⟨j, o, next, r, s, _, hsem⟩ := hstep
    cases hev
    exact hsem
  have hafter : d.state.state = renamed fid qid q u.state := by
    rw [← (Prod.mk.inj hexec).2]
    rfl
  have hsame : Renamed req.path q c.state.state d.state.state ↔
      Renamed req.path q u.state (renamed fid qid q u.state) := by
    rw [hafter]
    constructor
    · intro h
      exact ⟨fun f => by rw [hre.lookup_fids]; exact h.fids f,
        fun x => by rw [hre.lookup_paths]; exact h.paths x, h.distinct, h.agree⟩
    · intro h
      exact ⟨fun f => by rw [← hre.lookup_fids]; exact h.fids f,
        fun x => by rw [← hre.lookup_paths]; exact h.paths x, h.distinct, h.agree⟩
  rw [hsame, renamed_iff (hrooted.reordered hre).consistent]
  exact ⟨Undisturbed.reordered hre.symm, Undisturbed.reordered hre⟩

end

/-- Attach fid 0, create `a` with it and rename it to `b`. -/
def makeThenRename (perm : UInt8) : List Message :=
  [⟨TATTACH, 1, [0, 0, 0, 0, 255, 255, 255, 255]⟩,
    ⟨TCREATE, 2, [0, 0, 0, 0, 1, 0, 97, 0, 0, 0, perm, 0]⟩,
    ⟨TWSTAT, 3, [0, 0, 0, 0, 22, 0] ++ List.replicate 19 0 ++ [1, 0, 98]⟩]

/-- The state before the update of that rename. -/
def made (isDir : Bool) : Shared :=
  ((Critical.createFid 0 "/a" isDir).exec ((Critical.attach 0).exec Shared.new).2).2

def accept : Answer := .reply (.ok ⟨[], none, false⟩)

/-- The run up to that update. Nothing in it binds a fid after a walk. -/
theorem watched_made (isDir : Bool) : ∃ t c pending next,
    Watched (semantics anyRouter) StepMeets (fun _ => none)
      (listener fun _ : Unit => makeThenRename (if isDir then 0x80 else 0)) t c pending ∧
    pending () = some ⟨.rename, "/a", asBytes "/b"⟩ ∧ c.state = made isDir ∧
    c.tasks () = .call (.locked (.renameFid 0 1 "/b")) next := by
  have hmeets : ∀ (g : Unit → Option Request) s (o : Op) (r : Op.Ret o),
      (∀ k, o = .locked k → SectionMeets (g ()) s k) →
      StepMeets g s ⟨(), o, r⟩ (Function.update g () (noteAccepted (g ()) ⟨o, r⟩)) :=
    fun g s o r h => ⟨rfl, h⟩
  cases isDir
  all_goals
    refine ⟨_, _, _, _,
      .step (Step.answer (S := ninep) () (Op.locked (.attach 0)) _ _ _ rfl
        (semantics_exec _ _)) (hmeets _ _ _ _ ?_)
      (.step (Step.answer (S := ninep) () (Op.send _) _ () _ rfl rfl) (hmeets _ _ _ _ ?_)
      (.step (Step.answer (S := ninep) () (Op.locked (.getFid 0)) _ _ _ rfl
        (semantics_exec _ _)) (hmeets _ _ _ _ ?_)
      (.step (Step.answer (S := ninep) () (Op.route _) _ accept _ rfl ⟨trivial, rfl⟩)
        (hmeets _ _ _ _ ?_)
      (.step (Step.answer (S := ninep) () (Op.locked (.createFid 0 "/a" _)) _ _ _ rfl
        (semantics_exec _ _)) (hmeets _ _ _ _ ?_)
      (.step (Step.answer (S := ninep) () (Op.send _) _ () _ rfl rfl) (hmeets _ _ _ _ ?_)
      (.step (Step.answer (S := ninep) () (Op.locked (.getFid 0)) _ _ _ rfl
        (semantics_exec _ _)) (hmeets _ _ _ _ ?_)
      (.step (Step.answer (S := ninep) () (Op.route _) _ accept _ rfl ⟨trivial, rfl⟩)
        (hmeets _ _ _ _ ?_) (.refl _ _)))))))), rfl, rfl, rfl⟩
    all_goals
      intro k hk
      cases hk
      try trivial

/-- A file that one fid names and nothing else is renamed as it should be. -/
theorem rename_coherent_file : ∃ t c d pending,
    Watched (semantics anyRouter) StepMeets (fun _ => none)
      (listener fun _ : Unit => makeThenRename 0) t c pending ∧
    Step (semantics anyRouter) c ⟨(), .locked (.renameFid 0 1 "/b"), ()⟩ d ∧
    Renamed "/a" "/b" c.state.state d.state.state := by
  obtain ⟨t, c, pending, next, run, hpending, hstate, htask⟩ := watched_made false
  have hstep : Step (semantics anyRouter) c ⟨(), .locked (.renameFid 0 1 "/b"), ()⟩ _ :=
    .answer () _ next () _ htask (semantics_exec _ _)
  obtain ⟨req, hreq, _, _, hiff⟩ := rename_coherent_iff _ _ _ _ _ run () 0 1 "/b" hstep
  rw [hpending] at hreq
  obtain rfl := Option.some.inj hreq
  refine ⟨t, c, _, pending, run, hstep, hiff.mpr ?_⟩
  rw [hstate]
  decide

/-- A directory made with Tcreate is recorded as a file once it is renamed. -/
theorem renamed_directory_becomes_a_file :
    ¬ ∀ (msgs : Unit → List Message) (t : List (Event ninep Unit)) (c d : Config ninep Unit Shared)
      (fid : UInt32) (qid : ℕ) (p q : String),
      Run (semantics anyRouter) (listener msgs) t c →
      (own () t).foldl noteAccepted none = some ⟨.rename, p, asBytes q⟩ →
      Step (semantics anyRouter) c ⟨(), .locked (.renameFid fid qid q), ()⟩ d →
      Renamed p q c.state.state d.state.state := by
  intro h
  obtain ⟨t, c, pending, next, run, hpending, hstate, htask⟩ := watched_made true
  rw [pending_eq run ()] at hpending
  have hren := h _ t c _ 0 1 "/a" "/b" run.run hpending
    (.answer () _ next () _ htask (semantics_exec _ _))
  have hflag : ((made true).state.paths.lookup 1).map PathEntry.isDir = some true := by decide
  have hpaths := hren.paths 1
  rw [hstate] at hpaths
  change some (⟨"/b", false⟩ : PathEntry) = _ at hpaths
  obtain ⟨e, he, hmap⟩ := Option.map_eq_some_iff.mp hpaths.symm
  rw [he] at hflag
  have hdir : e.isDir = true := Option.some.inj hflag
  have hfalse : e.isDir = false := congrArg PathEntry.isDir hmap
  rw [hdir] at hfalse
  cases hfalse

end Pinhead.QidRenames
