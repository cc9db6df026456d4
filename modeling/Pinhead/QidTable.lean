import Pinhead.QidDisciplines

/-!
# The qid table of a listener that accepts no rename

Qids are handed out by a linear search through the path table, or fresh from a
counter. As long as no rename is accepted the table only grows, and a task that
holds a qid and a path between two critical sections can rely on the table
still pairing them when it binds a fid later.
-/
namespace Pinhead.QidTable
open FiniteTables ByteStrings FsRequests Resumption NinepShared NinepHandlers NinepRuns
open QidDisciplines

structure Consistent (s : NinepState) : Prop where
  root : ∃ e, s.paths.lookup 0 = some e ∧ e.path = "/"
  below : ∀ q e, s.paths.lookup q = some e → q < s.nextQid
  distinct : ∀ q q' e e', s.paths.lookup q = some e → s.paths.lookup q' = some e' →
    e.path = e'.path → q = q'
  fids : ∀ f e, s.fids.lookup f = some e → ∃ p, s.paths.lookup e.qid = some p ∧ p.path = e.path

/-- Entries of the path table are never removed or changed. -/
def Grows (s s' : Shared) : Prop :=
  ∀ q e, s.state.paths.lookup q = some e → s'.state.paths.lookup q = some e

def Inv (s : Shared) : Prop := Consistent s.state

/-- The path table pairs this qid with this path. -/
def Recorded (q : ℕ) (p : String) (s : Shared) : Prop :=
  ∃ e, s.state.paths.lookup q = some e ∧ e.path = p

theorem Grows.refl (s : Shared) : Grows s s := fun _ _ h => h

theorem Grows.trans (a b c : Shared) (h : Grows a b) (k : Grows b c) : Grows a c :=
  fun q e hq => k q e (h q e hq)

theorem stable_recorded (q : ℕ) (p : String) : Stable Grows (Recorded q p) := by
  intro s s' hg h
  obtain ⟨e, he, hp⟩ := h
  exact ⟨e, hg q e he, hp⟩

/-! ## Table operations -/

theorem consistent_new : Consistent NinepState.new where
  root := ⟨⟨"/", true⟩, rfl, rfl⟩
  below := by
    intro q e h
    have hq := AList.lookup_isSome.mp (Option.isSome_of_eq_some h)
    have hz : q = 0 := by simpa [NinepState.new, AList.mem_keys] using hq
    subst q
    exact Nat.one_pos
  distinct := by
    intro q q' e e' h h' _
    have hq := AList.lookup_isSome.mp (Option.isSome_of_eq_some h)
    have hq' := AList.lookup_isSome.mp (Option.isSome_of_eq_some h')
    have hz : q = 0 := by simpa [NinepState.new, AList.mem_keys] using hq
    have hz' : q' = 0 := by simpa [NinepState.new, AList.mem_keys] using hq'
    rw [hz, hz']
  fids := by
    intro f e h
    simp [NinepState.new] at h

theorem Reordered.grows {s t : Shared} (h : s.Reordered t) : Grows s t := by
  intro q e hq
  rw [h.lookup_paths]
  exact hq

theorem Reordered.inv {s t : Shared} (h : s.Reordered t) (hs : Inv s) : Inv t where
  root := by
    rw [h.lookup_paths]
    exact hs.root
  below := by
    intro q e hq
    rw [h.lookup_paths] at hq
    rw [← h.nextQid]
    exact hs.below q e hq
  distinct := by
    intro q q' e e' hq hq'
    rw [h.lookup_paths] at hq hq'
    exact hs.distinct q q' e e' hq hq'
  fids := by
    intro f e hf
    rw [h.lookup_fids] at hf
    rw [h.lookup_paths]
    exact hs.fids f e hf

theorem Consistent.insert_fresh {s : NinepState} (h : Consistent s) {path : String} (isDir : Bool)
    (hnew : ∀ q e, s.paths.lookup q = some e → e.path ≠ path) :
    Consistent { s with paths := s.paths.insert s.nextQid ⟨path, isDir⟩, nextQid := s.nextQid + 1 } := by
  have hold : ∀ q e, s.paths.lookup q = some e →
      (s.paths.insert s.nextQid ⟨path, isDir⟩).lookup q = some e := by
    intro q e hq
    exact (lookup_insert_iff ..).mpr (Or.inr ⟨(h.below q e hq).ne, hq⟩)
  refine ⟨?_, ?_, ?_, ?_⟩
  · obtain ⟨e, he, hp⟩ := h.root
    exact ⟨e, hold _ _ he, hp⟩
  · intro q e hq
    rcases (lookup_insert_iff ..).mp hq with ⟨rfl, _⟩ | ⟨_, hq⟩
    · exact Nat.lt_succ_self _
    · exact Nat.lt_succ_of_lt (h.below q e hq)
  · intro q q' e e' hq hq' hp
    rcases (lookup_insert_iff ..).mp hq with ⟨rfl, rfl⟩ | ⟨_, hq⟩
    · rcases (lookup_insert_iff ..).mp hq' with ⟨rfl, rfl⟩ | ⟨_, hq'⟩
      · rfl
      · exact absurd hp.symm (hnew q' e' hq')
    · rcases (lookup_insert_iff ..).mp hq' with ⟨rfl, rfl⟩ | ⟨_, hq'⟩
      · exact absurd hp (hnew q e hq)
      · exact h.distinct q q' e e' hq hq' hp
  · intro f e hf
    obtain ⟨p, hp, hpath⟩ := h.fids f e hf
    exact ⟨p, hold _ _ hp, hpath⟩

theorem allocQid_spec (s : Shared) (hs : Inv s) (path : String) (isDir : Bool) :
    let a := s.state.allocQid path isDir
    let s' : Shared := { s with state := a.2 }
    Inv s' ∧ Grows s s' ∧ Recorded a.1 path s' := by
  intro a s'
  rcases allocQid_cases s.state path isDir with ⟨q, e, hlook, hp, halloc⟩ | ⟨hnew, halloc⟩
  · simp only [a, s', halloc]
    exact ⟨hs, Grows.refl s, e, hlook, hp⟩
  · simp only [a, s', halloc]
    refine ⟨Consistent.insert_fresh hs isDir hnew, ?_, ?_⟩
    · intro q e hq
      exact (lookup_insert_iff ..).mpr (Or.inr ⟨(Consistent.below hs q e hq).ne, hq⟩)
    · exact ⟨⟨path, isDir⟩, AList.lookup_insert _, rfl⟩

theorem inv_setFid {s : Shared} (hs : Inv s) (fid : UInt32) {qid : ℕ} {path : String}
    (isDir : Bool) (h : Recorded qid path s) :
    Inv { s with state := s.state.setFid fid qid path isDir } where
  root := hs.root
  below := hs.below
  distinct := hs.distinct
  fids := by
    intro f e hf
    rcases (lookup_insert_iff ..).mp hf with ⟨_, rfl⟩ | ⟨_, hold⟩
    · exact h
    · exact hs.fids f e hold

/-- Changing a fid's entry without touching its qid and path. -/
theorem inv_modifyFid {s : Shared} (hs : Inv s) (fid : UInt32) (g : FidEntry → FidEntry)
    (hg : ∀ e, (g e).qid = e.qid ∧ (g e).path = e.path) :
    Inv { s with state := s.state.modifyFid fid g } := by
  constructor
  · rw [modifyFid_paths]
    exact hs.root
  · rw [modifyFid_paths, modifyFid_nextQid]
    exact hs.below
  · rw [modifyFid_paths]
    exact hs.distinct
  · intro f e hf
    rw [lookup_modifyFid] at hf
    rw [modifyFid_paths]
    by_cases hne : f = fid
    · rw [if_pos hne] at hf
      obtain ⟨e₀, he₀, rfl⟩ := Option.map_eq_some_iff.mp hf
      rw [(hg e₀).1, (hg e₀).2]
      exact hs.fids f e₀ he₀
    · rw [if_neg hne] at hf
      exact hs.fids f e hf

theorem inv_removeFid {s : Shared} (hs : Inv s) (fid : UInt32) :
    Inv { s with state := { s.state with fids := s.state.fids.erase fid } } where
  root := hs.root
  below := hs.below
  distinct := hs.distinct
  fids := by
    intro f e hf
    exact hs.fids f e ((lookup_erase_iff _ _ _ _).mp hf).2

/-! ## The discipline -/

/-- Requests for a rename are refused; anything else may happen. -/
def noRename (req : Request) (a : Answer) : Prop := req.op = .rename → a.accepted = false

def consistency : Discipline where
  router := noRename
  Inv := Inv
  Ext := Grows
  Held := Recorded
  refl := Grows.refl
  trans := Grows.trans
  stable := stable_recorded
  reordered _ _ hre hs := ⟨Reordered.inv hre hs, Reordered.grows hre⟩
  root _ hs := hs.root
  lookup _ fid e hs he := hs.fids fid e he
  allocQid s path isDir hs := by
    obtain ⟨hinv, hgrow, hrecorded⟩ := allocQid_spec s hs path isDir
    exact ⟨⟨hinv, hgrow⟩, hrecorded⟩
  setFid s fid _ _ isDir hs hrecorded := ⟨inv_setFid hs fid isDir hrecorded, Grows.refl s⟩
  markOpen s fid hs := by
    refine ⟨inv_modifyFid hs fid _ fun _ => ⟨rfl, rfl⟩, ?_⟩
    intro q e hq
    simpa [Critical.exec, modifyFid_paths] using hq
  removeFid s fid hs := ⟨inv_removeFid hs fid, Grows.refl s⟩
  renameFid _ _ _ _ _ _ hrouter := by
    have hrefused := hrouter rfl
    cases hrefused
  writeMsize s _ hs := ⟨hs, Grows.refl s⟩

/-! ## Whole runs -/

section
variable {ι : Type} [DecidableEq ι]

/-- Any number of connections, any interleaving, any outcome of any message, as
long as no rename is accepted: the path table is injective with `/` at qid 0
and below the counter, every fid's qid is the qid of its path, a path keeps its
qid for good, and fids agree on qids exactly when they agree on paths. -/
theorem qid_table_invariant (msgs : ι → List Message) (t : List (Event ninep ι))
    (c : Config ninep ι Shared) (run : Run (semantics noRename) (listener msgs) t c) :
    (∀ q q' e e', c.state.state.paths.lookup q = some e →
      c.state.state.paths.lookup q' = some e' → q ≠ q' → e.path ≠ e'.path) ∧
    (∃ e, c.state.state.paths.lookup 0 = some e ∧ e.path = "/") ∧
    (∀ q e, c.state.state.paths.lookup q = some e → q < c.state.state.nextQid) ∧
    (∀ f e, c.state.state.fids.lookup f = some e →
      ∃ p, c.state.state.paths.lookup e.qid = some p ∧ p.path = e.path) ∧
    (∀ u d, Run (semantics noRename) c u d → ∀ q e, c.state.state.paths.lookup q = some e →
      ∃ e', d.state.state.paths.lookup q = some e' ∧ e'.path = e.path ∧
        ∀ q' e'', d.state.state.paths.lookup q' = some e'' → e''.path = e.path → q' = q) ∧
    (∀ f g e e', c.state.state.fids.lookup f = some e → c.state.state.fids.lookup g = some e' →
      (e.qid = e'.qid ↔ e.path = e'.path)) := by
  obtain ⟨hinv, hlater⟩ := consistency.run consistent_new run
  refine ⟨?_, hinv.root, hinv.below, hinv.fids, ?_, ?_⟩
  · intro q q' e e' hq hq' hne hp
    exact hne (hinv.distinct q q' e e' hq hq' hp)
  · intro u d hrun q e hq
    obtain ⟨hinv', hgrow⟩ := hlater u d hrun
    have hq' := hgrow q e hq
    exact ⟨e, hq', rfl, fun q' e'' h hp => hinv'.distinct q' q e'' e h hq' hp⟩
  · intro f g e e' hf hg
    obtain ⟨p, hp, hpath⟩ := hinv.fids f e hf
    obtain ⟨p', hp', hpath'⟩ := hinv.fids g e' hg
    constructor
    · intro hqid
      rw [hqid, hp'] at hp
      have hsame : p' = p := Option.some.inj hp
      rw [← hpath, ← hpath', hsame]
    · intro hpaths
      exact hinv.distinct _ _ p p' hp hp' (by rw [hpath, hpath', hpaths])

end

/-- An attach of fid 0 and a walk from it to `a` under fid 1. -/
def attachAndWalk : List Message :=
  [⟨TATTACH, 1, [0, 0, 0, 0, 255, 255, 255, 255]⟩,
    ⟨TWALK, 2, [0, 0, 0, 0, 1, 0, 0, 0, 1, 0, 1, 0, 97]⟩]

theorem qid_table_after_walk : ∃ t c,
    Run (semantics noRename) (listener fun _ : Unit => attachAndWalk) t c ∧
    (c.state.state.fids.lookup 1).map FidEntry.path = some "/a" ∧
    ∀ f g e e', c.state.state.fids.lookup f = some e → c.state.state.fids.lookup g = some e' →
      (e.qid = e'.qid ↔ e.path = e'.path) := by
  let env : Env := ⟨fun req => .reply (if req.op = .rename then .error "" else .ok ⟨[], none, false⟩),
    fun _ => 0⟩
  have hwalk : (evaluate env (serveAll attachAndWalk) (.start Shared.new)).map
      (fun x => (x.2.shared.state.fids.lookup 1).map FidEntry.path) = some (some "/a") := by decide
  obtain ⟨⟨_, w⟩, hx, hpath⟩ := Option.map_eq_some_iff.mp hwalk
  have hrouter : ∀ req, noRename req (env.router req) := by
    intro req hop
    simp [env, hop, Answer.accepted]
  obtain ⟨t, run, _⟩ := evaluate_run hrouter () (serveAll attachAndWalk) Prog.done hx
    (listener fun _ => attachAndWalk) (Prog.bind_done _).symm rfl
  exact ⟨t, _, run, hpath, (qid_table_invariant _ _ _ run).2.2.2.2.2⟩

end Pinhead.QidTable
