import Pinhead.QidDisciplines
import Pinhead.QidRenumbering

/-!
# Connections that share one fid table

All connections of a listener share the fid table, the path table and the message
size. What one connection is told then depends on the others, unless they keep
away from the fids it uses, from the message size and from the paths it walks.

`Apart` says so for each critical section in the state before it. A history keeps
the entries that the connections of interest were told about, as they were told.
Under that condition their replies are those of a run without the others, up to
the numbering of qids.
-/
namespace Pinhead.ConnectionIsolation
open FiniteTables ByteStrings FsRequests Resumption NinepShared NinepHandlers NinepRuns
open QidDisciplines QidRenumbering

/-! ## The condition -/

/-- The path entries a connection was told about, by their qids. -/
abbrev History := ℕ → Option PathEntry

def History.start : History := Function.update (fun _ => none) 0 (some ⟨"/", true⟩)

/-- The first answer with a qid is the one that counts. -/
def History.told (h : History) (qid : ℕ) (e : PathEntry) : History :=
  Function.update h qid (some ((h qid).getD e))

def History.learn (h : History) : (o : Op) → Op.Ret o → History
  | .locked (.allocQid path isDir), qid => h.told qid ⟨path, isDir⟩
  | .locked (.createFid _ path isDir), qid => h.told qid ⟨path, isDir⟩
  | .locked (.renameFid _ qid newPath), _ => Function.update h qid (some ⟨newPath, false⟩)
  | _, _ => h

/-- The fid whose entry a critical section writes. -/
def binds : Critical → Option UInt32
  | .attach fid | .setFid fid _ _ _ | .createFid fid _ _ | .removeFid fid | .renameFid fid _ _ =>
      some fid
  | _ => none

/-- What the connections themselves must not run into: a listing shows only
entries they were told about, and a rename does not meet an entry of another. -/
def OwnStep (h : History) (s : Shared) : Op → Prop
  | .locked (.listDir dir) => ∀ q e, s.state.paths.lookup q = some e →
      (childName dir e.path).isSome → h q = some e
  | .locked (.renameFid _ _ newPath) => ∀ q e, s.state.paths.lookup q = some e →
      e.path = newPath → h q ≠ none
  | _ => True

/-- What the others must not do: write a fid in `F`, change the message size, or
rename an entry the connections were told about or onto a path in the table. -/
def OtherStep (F : Set UInt32) (h : History) (s : Shared) : Op → Prop
  | .locked c => (∀ fid, binds c = some fid → fid ∉ F) ∧
      match c with
      | .writeMsize msize => msize = s.msize
      | .renameFid _ qid newPath => h qid = none ∧
          ∀ q e, s.state.paths.lookup q = some e → e.path ≠ newPath
      | _ => True
  | _ => True

section
variable {ι : Type} (mine : ι → Prop) (F : Set UInt32)

def Apart (h : History) (s : Shared) (e : Event ninep ι) (h' : History) : Prop :=
  (mine e.task → OwnStep h s e.op ∧ h' = h.learn e.op e.answer) ∧
    (¬ mine e.task → OtherStep F h s e.op ∧ h' = h)

end

/-! ## Numbers below the counter -/

/-- Every number that is in use was handed out by the counter. -/
structure Bounded (s : NinepState) : Prop where
  counter : 0 < s.nextQid
  paths : ∀ q e, s.paths.lookup q = some e → q < s.nextQid
  fids : ∀ f e, s.fids.lookup f = some e → e.qid < s.nextQid

theorem Bounded.reordered {s t : Shared} (hs : Bounded s.state) (hre : s.Reordered t) :
    Bounded t.state := by
  constructor
  · rw [← hre.nextQid]
    exact hs.counter
  · intro q e hq
    rw [hre.lookup_paths] at hq
    rw [← hre.nextQid]
    exact hs.paths q e hq
  · intro f e hf
    rw [hre.lookup_fids] at hf
    rw [← hre.nextQid]
    exact hs.fids f e hf

theorem bounded_new : Bounded Shared.new.state where
  counter := Nat.one_pos
  paths q e hq := by
    have hmem := AList.mem_lookup_iff.mp hq
    have hzero : q = 0 ∧ e = ⟨"/", true⟩ := by simpa [Shared.new, NinepState.new] using hmem
    rw [hzero.1]
    exact Nat.one_pos
  fids f e hf := by
    cases hf

theorem Bounded.allocQid {s : NinepState} (hs : Bounded s) (path : String) (isDir : Bool) :
    Bounded (s.allocQid path isDir).2 ∧ s.nextQid ≤ (s.allocQid path isDir).2.nextQid ∧
      (s.allocQid path isDir).1 < (s.allocQid path isDir).2.nextQid := by
  rcases allocQid_cases s path isDir with ⟨q, e, hq, _, halloc⟩ | ⟨_, halloc⟩
  · rw [halloc]
    exact ⟨hs, le_rfl, hs.paths q e hq⟩
  · rw [halloc]
    refine ⟨⟨Nat.succ_pos _, ?_, ?_⟩, Nat.le_succ _, Nat.lt_succ_self _⟩
    · intro q e hq
      rcases (lookup_insert_iff ..).mp hq with ⟨rfl, _⟩ | ⟨_, hold⟩
      · exact Nat.lt_succ_self _
      · exact Nat.lt_succ_of_lt (hs.paths q e hold)
    · intro f e hf
      exact Nat.lt_succ_of_lt (hs.fids f e hf)

theorem Bounded.setFid {s : NinepState} (hs : Bounded s) (fid : UInt32) {qid : ℕ}
    (path : String) (isDir : Bool) (hqid : qid < s.nextQid) :
    Bounded (s.setFid fid qid path isDir) where
  counter := hs.counter
  paths := hs.paths
  fids f e hf := by
    rcases (lookup_insert_iff ..).mp hf with ⟨_, rfl⟩ | ⟨_, hold⟩
    · exact hqid
    · exact hs.fids f e hold

theorem Bounded.modifyFid {s : NinepState} (hs : Bounded s) (fid : UInt32)
    {g : FidEntry → FidEntry} (hg : ∀ e, (g e).qid = e.qid) : Bounded (s.modifyFid fid g) := by
  constructor
  · rw [modifyFid_nextQid]
    exact hs.counter
  · rw [modifyFid_nextQid, modifyFid_paths]
    exact hs.paths
  · intro f e hf
    rw [lookup_modifyFid] at hf
    rw [modifyFid_nextQid]
    by_cases hne : f = fid
    · rw [if_pos hne] at hf
      obtain ⟨e₀, he₀, rfl⟩ := Option.map_eq_some_iff.mp hf
      rw [hg]
      exact hs.fids f e₀ he₀
    · rw [if_neg hne] at hf
      exact hs.fids f e hf

theorem Bounded.removeFid {s : NinepState} (hs : Bounded s) (fid : UInt32) :
    Bounded { s with fids := s.fids.erase fid } where
  counter := hs.counter
  paths := hs.paths
  fids f e hf := hs.fids f e ((lookup_erase_iff _ _ _ _).mp hf).2

theorem Bounded.renamePath {s : NinepState} (hs : Bounded s) {qid : ℕ} (e : PathEntry)
    (hqid : qid < s.nextQid) : Bounded { s with paths := s.paths.insert qid e } where
  counter := hs.counter
  paths q e' hq := by
    rcases (lookup_insert_iff ..).mp hq with ⟨rfl, _⟩ | ⟨_, hold⟩
    · exact hqid
    · exact hs.paths q e' hold
  fids := hs.fids

/-- Renames included, handlers bring back only numbers they were given. -/
def bounded (router : Request → Answer → Prop) : Discipline where
  router := router
  Inv s := Bounded s.state
  Ext s s' := s.state.nextQid ≤ s'.state.nextQid
  Held q _ s := q < s.state.nextQid
  refl _ := le_rfl
  trans _ _ _ h k := h.trans k
  stable _ _ _ _ hle hq := hq.trans_le hle
  reordered _ _ hre hs := ⟨hs.reordered hre, hre.nextQid.le⟩
  root _ hs := hs.counter
  lookup _ fid e hs he := hs.fids fid e he
  allocQid _ path isDir hs := by
    obtain ⟨hinv, hle, hheld⟩ := hs.allocQid path isDir
    exact ⟨⟨hinv, hle⟩, hheld⟩
  setFid _ fid _ path isDir hs hheld := ⟨hs.setFid fid path isDir hheld, le_rfl⟩
  markOpen s fid hs := ⟨hs.modifyFid fid fun _ => rfl, (modifyFid_nextQid ..).ge⟩
  removeFid _ fid hs := ⟨hs.removeFid fid, le_rfl⟩
  renameFid s fid _ _ newPath _ _ hs hheld := by
    have hmoved := hs.modifyFid fid (g := fun e => { e with path := newPath }) fun _ => rfl
    refine ⟨hmoved.renamePath _ ?_, (modifyFid_nextQid ..).ge⟩
    rw [modifyFid_nextQid]
    exact hheld
  writeMsize _ _ hs := ⟨hs, le_rfl⟩

/-! ## Tables that correspond -/

/-- The second table holds exactly what was told, under the paired numbers. In the
first, what was not told has its path to itself. -/
structure SameTable (ρ : Renumbering) (h : History) (s s' : NinepState) : Prop where
  known : ∀ q q', ρ.Pairs q q' → ∃ e isDir, h q = some e ∧ s'.paths.lookup q' = some e ∧
    s.paths.lookup q = some ⟨e.path, isDir⟩
  told : ∀ q, h q ≠ none → ∃ q', ρ.Pairs q q'
  covered : ∀ q' e, s'.paths.lookup q' = some e → ∃ q, ρ.Pairs q q'
  apart : ∀ q e p e', s.paths.lookup q = some e → h q = none → s.paths.lookup p = some e' →
    e'.path = e.path → p = q
  below : ∀ q' e, s'.paths.lookup q' = some e → q' < s'.nextQid

def SameFids (F : Set UInt32) (ρ : Renumbering) (s s' : NinepState) : Prop :=
  ∀ fid ∈ F, Option.Rel (SameFid ρ) (s.fids.lookup fid) (s'.fids.lookup fid)

structure Corresponds (F : Set UInt32) (ρ : Renumbering) (h : History) (s s' : Shared) :
    Prop where
  msize : s.msize = s'.msize
  fids : SameFids F ρ s.state s'.state
  table : SameTable ρ h s.state s'.state

namespace SameTable
variable {ρ : Renumbering} {h : History} {s s' : NinepState}

/-- Only the entries and the counter matter. -/
theorem congr (hs : SameTable ρ h s s') {t t' : NinepState}
    (ht : ∀ q, t.paths.lookup q = s.paths.lookup q)
    (ht' : ∀ q, t'.paths.lookup q = s'.paths.lookup q) (hn' : t'.nextQid = s'.nextQid) :
    SameTable ρ h t t' := by
  constructor
  · intro q q' hq
    rw [ht, ht']
    exact hs.known q q' hq
  · exact hs.told
  · intro q' e hq'
    rw [ht'] at hq'
    exact hs.covered q' e hq'
  · intro q e p e' hq hnone hp
    rw [ht] at hq hp
    exact hs.apart q e p e' hq hnone hp
  · intro q' e hq'
    rw [ht'] at hq'
    rw [hn']
    exact hs.below q' e hq'

theorem unpaired (hs : SameTable ρ h s s') {q : ℕ} (hq : h q = none) (q' : ℕ) :
    ¬ ρ.Pairs q q' := by
  intro hpair
  obtain ⟨e, isDir, he, _, _⟩ := hs.known q q' hpair
  rw [hq] at he
  cases he

/-- A number that was never handed out is not paired. -/
theorem fresh (hs : SameTable ρ h s s') (hb : Bounded s) (q' : ℕ) : ¬ ρ.Pairs s.nextQid q' := by
  intro hpair
  obtain ⟨_, _, _, _, hlook⟩ := hs.known _ q' hpair
  exact absurd (hb.paths _ _ hlook) (lt_irrefl _)

/-- Every path of the second table is one of the first. -/
theorem path_left (hs : SameTable ρ h s s') {q' : ℕ} {e : PathEntry}
    (hq' : s'.paths.lookup q' = some e) :
    ∃ q isDir, ρ.Pairs q q' ∧ h q = some e ∧ s.paths.lookup q = some ⟨e.path, isDir⟩ := by
  obtain ⟨q, hpair⟩ := hs.covered q' e hq'
  obtain ⟨e₁, isDir, htold, hlook, hq⟩ := hs.known q q' hpair
  rw [hq'] at hlook
  cases hlook
  exact ⟨q, isDir, hpair, htold, hq⟩

/-- Another connection writes an entry that was told to nobody, for a path that is
nowhere in the table. -/
theorem write_other (hs : SameTable ρ h s s') {k next : ℕ} {e : PathEntry}
    (hfree : ∀ q', ¬ ρ.Pairs k q')
    (hnew : ∀ q e', s.paths.lookup q = some e' → e'.path ≠ e.path) :
    SameTable ρ h { s with paths := s.paths.insert k e, nextQid := next } s' := by
  constructor
  · intro q q' hpair
    obtain ⟨e₀, d, htold, hq', hq⟩ := hs.known q q' hpair
    have hne : q ≠ k := by
      rintro rfl
      exact hfree q' hpair
    exact ⟨e₀, d, htold, hq', (lookup_insert_iff ..).mpr (Or.inr ⟨hne, hq⟩)⟩
  · exact hs.told
  · exact hs.covered
  · intro q e₁ p e₂ hq hnone hp hpath
    rcases (lookup_insert_iff ..).mp hq with ⟨rfl, rfl⟩ | ⟨_, hold⟩
    · rcases (lookup_insert_iff ..).mp hp with ⟨rfl, _⟩ | ⟨_, hold'⟩
      · rfl
      · exact absurd hpath (hnew p e₂ hold')
    · rcases (lookup_insert_iff ..).mp hp with ⟨_, rfl⟩ | ⟨_, hold'⟩
      · exact absurd hpath.symm (hnew q e₁ hold)
      · exact hs.apart q e₁ p e₂ hold hnone hold' hpath
  · exact hs.below

theorem insert_other (hs : SameTable ρ h s s') (hb : Bounded s) {path : String} (isDir : Bool)
    (hnew : ∀ q e, s.paths.lookup q = some e → e.path ≠ path) :
    SameTable ρ h { s with
      paths := s.paths.insert s.nextQid ⟨path, isDir⟩, nextQid := s.nextQid + 1 } s' :=
  hs.write_other (hs.fresh hb) hnew

theorem rename_other (hs : SameTable ρ h s s') {qid : ℕ} {newPath : String}
    (hnone : h qid = none) (hnew : ∀ q e, s.paths.lookup q = some e → e.path ≠ newPath) :
    SameTable ρ h { s with paths := s.paths.insert qid ⟨newPath, false⟩ } s' :=
  hs.write_other (hs.unpaired hnone) hnew

/-- A rename in both tables, onto a path that nothing unknown carries. -/
theorem rename_own (hs : SameTable ρ h s s') {qid qid' : ℕ} {newPath : String}
    (hpair : ρ.Pairs qid qid')
    (hknown : ∀ q e, s.paths.lookup q = some e → e.path = newPath → h q ≠ none) :
    SameTable ρ (Function.update h qid (some ⟨newPath, false⟩))
      { s with paths := s.paths.insert qid ⟨newPath, false⟩ }
      { s' with paths := s'.paths.insert qid' ⟨newPath, false⟩ } := by
  obtain ⟨e₀, d₀, htold₀, hq₀', hq₀⟩ := hs.known qid qid' hpair
  constructor
  · intro q q' hq
    by_cases hne : q = qid
    · subst q
      obtain rfl := hq.right_unique hpair
      exact ⟨⟨newPath, false⟩, false, Function.update_self .., AList.lookup_insert _,
        AList.lookup_insert _⟩
    · have hne' : q' ≠ qid' := by
        rintro rfl
        exact hne (hq.left_unique hpair)
      rw [Function.update_of_ne hne]
      obtain ⟨e, d, htold, hlook', hlook⟩ := hs.known q q' hq
      exact ⟨e, d, htold, (lookup_insert_iff ..).mpr (Or.inr ⟨hne', hlook'⟩),
        (lookup_insert_iff ..).mpr (Or.inr ⟨hne, hlook⟩)⟩
  · intro q hq
    by_cases hne : q = qid
    · subst q
      exact ⟨qid', hpair⟩
    · rw [Function.update_of_ne hne] at hq
      exact hs.told q hq
  · intro q' e hq'
    rcases (lookup_insert_iff ..).mp hq' with ⟨rfl, _⟩ | ⟨_, hq'⟩
    · exact ⟨qid, hpair⟩
    · exact hs.covered q' e hq'
  · intro q e p e' hq hunknown hp hpath
    have hne : q ≠ qid := by
      rintro rfl
      rw [Function.update_self] at hunknown
      cases hunknown
    rw [Function.update_of_ne hne] at hunknown
    rcases (lookup_insert_iff ..).mp hq with ⟨rfl, _⟩ | ⟨_, hq⟩
    · exact absurd rfl hne
    · rcases (lookup_insert_iff ..).mp hp with ⟨_, rfl⟩ | ⟨_, hp⟩
      · exact absurd hunknown (hknown q e hq hpath.symm)
      · exact hs.apart q e p e' hq hunknown hp hpath
  · intro q' e hq'
    rcases (lookup_insert_iff ..).mp hq' with ⟨rfl, _⟩ | ⟨_, hq'⟩
    · exact hs.below q' e₀ hq₀'
    · exact hs.below q' e hq'

/-- The path of an unknown entry is not in the other table. -/
theorem unknown_path (hs : SameTable ρ h s s') {q : ℕ} {e : PathEntry}
    (hq : s.paths.lookup q = some e) (hnone : h q = none) {q' : ℕ} {e' : PathEntry}
    (hq' : s'.paths.lookup q' = some e') : e'.path ≠ e.path := by
  intro hpath
  obtain ⟨p, d, _, htold, hp⟩ := hs.path_left hq'
  have hpq : p = q := hs.apart q e p _ hq hnone hp hpath
  rw [hpq, hnone] at htold
  cases htold

/-- An entry that was there and unknown is told: the other table allocates. -/
theorem learn (hs : SameTable ρ h s s') {q : ℕ} {e : PathEntry} (isDir : Bool)
    (hq : s.paths.lookup q = some e) (hnone : h q = none) :
    ∃ σ, ρ ≤ σ ∧ σ.Pairs q s'.nextQid ∧ SameTable σ (h.told q ⟨e.path, isDir⟩) s { s' with
      paths := s'.paths.insert s'.nextQid ⟨e.path, isDir⟩, nextQid := s'.nextQid + 1 } := by
  have hfree : ∀ p, ¬ ρ.Pairs p s'.nextQid := by
    intro p hpair
    obtain ⟨e', _, _, hlook, _⟩ := hs.known p _ hpair
    exact absurd (hs.below _ e' hlook) (lt_irrefl _)
  have hunpaired : ∀ q', ¬ ρ.Pairs q q' := fun q' => hs.unpaired hnone q'
  have htold : h.told q ⟨e.path, isDir⟩ = Function.update h q (some ⟨e.path, isDir⟩) := by
    rw [History.told, hnone]
    rfl
  refine ⟨ρ.extend q s'.nextQid hunpaired hfree, Renumbering.le_extend,
    (Renumbering.extend_pairs ..).mpr (Or.inl ⟨rfl, rfl⟩), ?_⟩
  rw [htold]
  constructor
  · intro p p' hpair
    rcases (Renumbering.extend_pairs ..).mp hpair with ⟨rfl, rfl⟩ | hold
    · exact ⟨⟨e.path, isDir⟩, e.isDir, Function.update_self .., AList.lookup_insert _, hq⟩
    · obtain ⟨e', d, hp, hlook', hlook⟩ := hs.known p p' hold
      have hne : p ≠ q := by
        rintro rfl
        exact hunpaired p' hold
      have hne' : p' ≠ s'.nextQid := (hs.below p' e' hlook').ne
      rw [Function.update_of_ne hne]
      exact ⟨e', d, hp, (lookup_insert_iff ..).mpr (Or.inr ⟨hne', hlook'⟩), hlook⟩
  · intro p hp
    by_cases hne : p = q
    · exact ⟨_, (Renumbering.extend_pairs ..).mpr (Or.inl ⟨hne, rfl⟩)⟩
    · rw [Function.update_of_ne hne] at hp
      obtain ⟨p', hpair⟩ := hs.told p hp
      exact ⟨p', Renumbering.le_extend p p' hpair⟩
  · intro p' e' hp'
    rcases (lookup_insert_iff ..).mp hp' with ⟨rfl, _⟩ | ⟨_, hp'⟩
    · exact ⟨q, (Renumbering.extend_pairs ..).mpr (Or.inl ⟨rfl, rfl⟩)⟩
    · obtain ⟨p, hpair⟩ := hs.covered p' e' hp'
      exact ⟨p, Renumbering.le_extend p p' hpair⟩
  · intro p e₁ r e₂ hp hunknown
    by_cases hne : p = q
    · subst p
      rw [Function.update_self] at hunknown
      cases hunknown
    · rw [Function.update_of_ne hne] at hunknown
      exact hs.apart p e₁ r e₂ hp hunknown
  · intro p' e' hp'
    rcases (lookup_insert_iff ..).mp hp' with ⟨rfl, _⟩ | ⟨_, hp'⟩
    · exact Nat.lt_succ_self _
    · exact Nat.lt_succ_of_lt (hs.below p' e' hp')

end SameTable

/-! ## Orders of iteration -/

/-- The same entries, iterated in the given order. -/
def reorder (s : NinepState) (l : List (Sigma fun _ : ℕ => PathEntry))
    (hl : s.paths.entries.Perm l) : NinepState :=
  { s with paths := ⟨l, (List.perm_nodupKeys hl).mp s.paths.nodupKeys⟩ }

theorem lookup_reorder (s : NinepState) {l : List (Sigma fun _ : ℕ => PathEntry)}
    (hl : s.paths.entries.Perm l) (q : ℕ) :
    (reorder s l hl).paths.lookup q = s.paths.lookup q := by
  have hperm : s.paths.entries.Perm (reorder s l hl).paths.entries := hl
  exact (AList.perm_lookup hperm).symm

theorem reordered_reorder (s : Shared) {l : List (Sigma fun _ : ℕ => PathEntry)}
    (hl : s.state.paths.entries.Perm l) : s.Reordered { s with state := reorder s.state l hl } :=
  ⟨.refl _, hl, rfl, rfl⟩

/-- In some order of iteration an entry is the first with its path. -/
theorem found_first (s : NinepState) {q : ℕ} {e : PathEntry} (hq : s.paths.lookup q = some e)
    (isDir : Bool) :
    ∃ l, ∃ hl : s.paths.entries.Perm l,
      (reorder s l hl).allocQid e.path isDir = (q, reorder s l hl) := by
  have hmem : (⟨q, e⟩ : Sigma fun _ : ℕ => PathEntry) ∈ s.paths.entries :=
    AList.mem_lookup_iff.mp hq
  refine ⟨_, List.perm_cons_erase hmem, ?_⟩
  simp [NinepState.allocQid, reorder]

section
variable {ρ : Renumbering} {h : History} {s s' : NinepState}

theorem SameTable.reorder_right (hs : SameTable ρ h s s')
    {l : List (Sigma fun _ : ℕ => PathEntry)} (hl : s'.paths.entries.Perm l) :
    SameTable ρ h s (reorder s' l hl) :=
  hs.congr (fun _ => rfl) (lookup_reorder s' hl) rfl

/-- An unknown entry is found on one side; the other side has nothing to find. -/
theorem SameTable.alloc_unknown (hs : SameTable ρ h s s') {q : ℕ} {e : PathEntry}
    (hq : s.paths.lookup q = some e) (hnone : h q = none) (isDir : Bool) :
    ∃ σ, ρ ≤ σ ∧ σ.Pairs q (s'.allocQid e.path isDir).1 ∧
      SameTable σ (h.told q ⟨e.path, isDir⟩) s (s'.allocQid e.path isDir).2 := by
  obtain ⟨σ, hle, hpair, htable⟩ := hs.learn isDir hq hnone
  rcases allocQid_cases s' e.path isDir with ⟨q', e', hlook, hpath, _⟩ | ⟨_, halloc⟩
  · exact absurd hpath (hs.unknown_path hq hnone hlook)
  · rw [halloc]
    exact ⟨σ, hle, hpair, htable⟩

/-- Allocations of the same path, the second in a suitable order of iteration. -/
theorem SameTable.alloc_own (hs : SameTable ρ h s s') (hb : Bounded s) (path : String)
    (isDir : Bool) :
    ∃ l, ∃ hl : s'.paths.entries.Perm l, ∃ σ, ρ ≤ σ ∧
      σ.Pairs (s.allocQid path isDir).1 ((reorder s' l hl).allocQid path isDir).1 ∧
      SameTable σ (h.told (s.allocQid path isDir).1 ⟨path, isDir⟩) (s.allocQid path isDir).2
        ((reorder s' l hl).allocQid path isDir).2 := by
  rcases allocQid_cases s path isDir with ⟨q, e, hq, rfl, halloc⟩ | ⟨hnew, halloc⟩
  · rw [halloc]
    by_cases hnone : h q = none
    · exact ⟨_, .refl _, hs.alloc_unknown hq hnone isDir⟩
    · obtain ⟨q', hpair⟩ := hs.told q hnone
      obtain ⟨e₀, d, htold, hq', hlook⟩ := hs.known q q' hpair
      rw [hq] at hlook
      cases hlook
      obtain ⟨l, hl, hfound⟩ := found_first s' hq' isDir
      have hsame : h.told q ⟨e₀.path, isDir⟩ = h := by
        rw [History.told, htold]
        exact Function.update_eq_self_iff.mpr htold.symm
      rw [hsame]
      refine ⟨l, hl, ρ, le_rfl, ?_⟩
      rw [hfound]
      exact ⟨hpair, hs.reorder_right hl⟩
  · rw [halloc]
    have hnone : h s.nextQid = none := by
      by_contra hne
      obtain ⟨q', hpair⟩ := hs.told _ hne
      exact hs.fresh hb q' hpair
    have hinserted := hs.insert_other hb isDir hnew
    exact ⟨_, .refl _, hinserted.alloc_unknown (AList.lookup_insert _) hnone isDir⟩

/-- Any order of the entries that pass a test is part of an order of all entries. -/
theorem exists_order {α : Type} {l m : List α} {p : α → Bool} (hm : m.Perm (l.filter p)) :
    ∃ l', l.Perm l' ∧ l'.filter p = m := by
  refine ⟨m ++ l.filter (fun x => !p x), ?_, ?_⟩
  · exact (List.filter_append_perm p l).symm.trans (hm.symm.append_right _)
  · have hall : ∀ x ∈ m, p x = true := fun x hx => (List.mem_filter.mp (hm.subset hx)).2
    rw [List.filter_append, List.filter_eq_self.mpr hall]
    simp

/-- The entries that a listing of `dir` shows. -/
def shown (dir : String) (x : Sigma fun _ : ℕ => PathEntry) : Bool :=
  (childName dir x.2.path).isSome

/-- The entry of the other table under the paired number. -/
def paired (ρ : Renumbering) (x : Sigma fun _ : ℕ => PathEntry) : Sigma fun _ : ℕ => PathEntry :=
  ⟨(ρ.1 x.1).getD 0, x.2⟩

theorem paired_eq {x : Sigma fun _ : ℕ => PathEntry} {q' : ℕ} (hpair : ρ.Pairs x.1 q') :
    paired ρ x = ⟨q', x.2⟩ := by
  have hsome : ρ.1 x.1 = some q' := hpair
  rw [paired, hsome]
  rfl

/-- What is shown on one side is paired with what is shown on the other. -/
theorem SameTable.shown_perm (hs : SameTable ρ h s s') (dir : String)
    (hshown : ∀ q e, s.paths.lookup q = some e → (childName dir e.path).isSome → h q = some e) :
    (∀ x ∈ s.paths.entries.filter (shown dir), ρ.Pairs x.1 (paired ρ x).1) ∧
      ((s.paths.entries.filter (shown dir)).map (paired ρ)).Perm
        (s'.paths.entries.filter (shown dir)) := by
  have himage : ∀ x ∈ s.paths.entries.filter (shown dir),
      ρ.Pairs x.1 (paired ρ x).1 ∧ paired ρ x ∈ s'.paths.entries.filter (shown dir) := by
    intro x hx
    obtain ⟨hmem, hdir⟩ := List.mem_filter.mp hx
    have htold : h x.1 = some x.2 := hshown x.1 x.2 (AList.mem_lookup_iff.mpr hmem) hdir
    obtain ⟨q', hpair⟩ := hs.told x.1 (by rw [htold]; exact Option.some_ne_none _)
    obtain ⟨e, d, he, hlook, _⟩ := hs.known x.1 q' hpair
    rw [htold] at he
    cases he
    rw [paired_eq hpair]
    exact ⟨hpair, List.mem_filter.mpr ⟨AList.mem_lookup_iff.mp hlook, hdir⟩⟩
  have hinj : ∀ x ∈ s.paths.entries.filter (shown dir),
      ∀ y ∈ s.paths.entries.filter (shown dir), paired ρ x = paired ρ y → x = y := by
    intro x hx y hy hxy
    have hpx := (himage x hx).1
    rw [hxy] at hpx
    have hkey : x.1 = y.1 := hpx.left_unique (himage y hy).1
    have hvalue : (paired ρ x).2 = (paired ρ y).2 := by rw [hxy]
    exact Sigma.ext hkey (heq_of_eq hvalue)
  refine ⟨fun x hx => (himage x hx).1, ?_⟩
  apply (List.perm_ext_iff_of_nodup
    ((s.paths.nodupKeys.nodup.filter _).map_on hinj) (s'.paths.nodupKeys.nodup.filter _)).mpr
  intro y
  constructor
  · intro hy
    obtain ⟨x, hx, rfl⟩ := List.mem_map.mp hy
    exact (himage x hx).2
  · intro hy
    obtain ⟨hmem, hdir⟩ := List.mem_filter.mp hy
    obtain ⟨q, d, hpair, htold, hlook⟩ := hs.path_left (AList.mem_lookup_iff.mpr hmem)
    have hagain := hshown q _ hlook hdir
    rw [htold] at hagain
    have hvalue : y.2 = ⟨y.2.path, d⟩ := Option.some.inj hagain
    rw [← hvalue] at hlook
    exact List.mem_map.mpr ⟨⟨q, y.2⟩,
      List.mem_filter.mpr ⟨AList.mem_lookup_iff.mp hlook, hdir⟩, paired_eq hpair⟩

/-- A listing reads the entries it shows and nothing else. -/
theorem listDir_shown (s : NinepState) (dir : String) :
    s.listDir dir = (s.paths.entries.filter (shown dir)).filterMap fun x =>
      (childName dir x.2.path).map fun name => ⟨name, x.1, x.2.isDir⟩ := by
  rw [NinepState.listDir, List.filterMap_filter]
  apply List.filterMap_congr
  intro x _
  by_cases hx : shown dir x
  · rw [if_pos hx]
  · have hnone : childName dir x.2.path = none := by simpa [shown] using hx
    rw [if_neg hx, hnone]
    rfl

/-- Listings of the same directory, the second in a suitable order of iteration. -/
theorem SameTable.list_own (hs : SameTable ρ h s s') (dir : String)
    (hshown : ∀ q e, s.paths.lookup q = some e → (childName dir e.path).isSome → h q = some e) :
    ∃ l, ∃ hl : s'.paths.entries.Perm l,
      List.Forall₂ (SameEntry ρ) (s.listDir dir) ((reorder s' l hl).listDir dir) := by
  obtain ⟨hpairs, hperm⟩ := hs.shown_perm dir hshown
  obtain ⟨l, hl, hfilter⟩ := exists_order hperm
  refine ⟨l, hl, ?_⟩
  have hentries : (reorder s' l hl).paths.entries = l := rfl
  rw [listDir_shown, listDir_shown, hentries, hfilter]
  have hforall : List.Forall₂ (fun x y => ρ.Pairs x.1 y.1 ∧ y.2 = x.2)
      (s.paths.entries.filter (shown dir)) ((s.paths.entries.filter (shown dir)).map (paired ρ)) := by
    rw [List.forall₂_map_right_iff, List.forall₂_same]
    exact fun x hx => ⟨hpairs x hx, rfl⟩
  apply List.rel_filterMap _ hforall
  intro x y hxy
  obtain ⟨hpair, hvalue⟩ := hxy
  dsimp only
  rw [hvalue]
  cases childName dir x.2.path with
  | none => exact .none
  | some name => exact .some ⟨rfl, hpair, rfl⟩

/-! ## Fid tables that correspond -/

theorem rel_map {A B C D : Type} {R : A → B → Prop} {Q : C → D → Prop} {f : A → C} {g : B → D}
    (hfg : ∀ a b, R a b → Q (f a) (g b)) {x : Option A} {y : Option B} (hxy : Option.Rel R x y) :
    Option.Rel Q (x.map f) (y.map g) := by
  cases hxy with
  | none => exact .none
  | some hab => exact .some (hfg _ _ hab)

variable {F : Set UInt32}

theorem SameFids.mono {σ : Renumbering} (hs : SameFids F ρ s s') (hle : ρ ≤ σ) :
    SameFids F σ s s' := by
  intro fid hfid
  have hrel := rel_map (f := id) (g := id) (fun _ _ h => SameFid.mono h hle) (hs fid hfid)
  simpa using hrel

/-- Only the entries of the fid table matter. -/
theorem SameFids.congr (hs : SameFids F ρ s s') {t t' : NinepState} (ht : t.fids = s.fids)
    (ht' : t'.fids = s'.fids) : SameFids F ρ t t' := by
  intro fid hfid
  rw [ht, ht']
  exact hs fid hfid

/-- Both sides write the same fid. -/
theorem SameFids.insert (hs : SameFids F ρ s s') (fid : UInt32) {e e' : FidEntry}
    (he : SameFid ρ e e') :
    SameFids F ρ { s with fids := s.fids.insert fid e } { s' with fids := s'.fids.insert fid e' } := by
  intro f hf
  by_cases hne : f = fid
  · subst f
    rw [AList.lookup_insert, AList.lookup_insert]
    exact .some he
  · rw [AList.lookup_insert_ne hne, AList.lookup_insert_ne hne]
    exact hs f hf

theorem SameFids.erase (hs : SameFids F ρ s s') (fid : UInt32) :
    SameFids F ρ { s with fids := s.fids.erase fid } { s' with fids := s'.fids.erase fid } := by
  intro f hf
  by_cases hne : f = fid
  · subst f
    rw [AList.lookup_erase, AList.lookup_erase]
    exact .none
  · rw [AList.lookup_erase_ne hne, AList.lookup_erase_ne hne]
    exact hs f hf

/-- Both sides update the same fid, where it is bound. -/
theorem SameFids.modify (hs : SameFids F ρ s s') (fid : UInt32) {f : FidEntry → FidEntry}
    (hf : ∀ e e', SameFid ρ e e' → SameFid ρ (f e) (f e')) :
    SameFids F ρ (s.modifyFid fid f) (s'.modifyFid fid f) := by
  intro g hg
  rw [lookup_modifyFid, lookup_modifyFid]
  by_cases hne : g = fid
  · subst g
    rw [if_pos rfl, if_pos rfl]
    exact rel_map hf (hs fid hg)
  · rw [if_neg hne, if_neg hne]
    exact hs g hg

/-- A change outside `F` on one side. -/
theorem SameFids.other (hs : SameFids F ρ s s') {t : NinepState}
    (ht : ∀ fid ∈ F, t.fids.lookup fid = s.fids.lookup fid) : SameFids F ρ t s' := by
  intro fid hfid
  rw [ht fid hfid]
  exact hs fid hfid

end

/-! ## Steps of the connections themselves -/

section
variable {F : Set UInt32} {ρ : Renumbering} {h : History} {s s' t : Shared}

theorem Corresponds.reordered (hs : Corresponds F ρ h s s') (hre : s.Reordered t) :
    Corresponds F ρ h t s' where
  msize := hre.msize.symm.trans hs.msize
  fids := hs.fids.other fun fid _ => hre.lookup_fids fid
  table := hs.table.congr hre.lookup_paths (fun _ => rfl) rfl

theorem OwnStep.reordered {o : Op} (hs : OwnStep h s o) (hre : s.Reordered t) : OwnStep h t o := by
  cases o with
  | locked c =>
      cases c with
      | listDir dir =>
          intro q e hq
          rw [hre.lookup_paths] at hq
          exact hs q e hq
      | renameFid fid qid newPath =>
          intro q e hq
          rw [hre.lookup_paths] at hq
          exact hs q e hq
      | _ => trivial
  | _ => trivial

/-- Binding the same fid to paired qids. -/
theorem Corresponds.setFid (hs : Corresponds F ρ h s s') (fid : UInt32) {qid qid' : ℕ}
    (path : String) (isDir : Bool) (hpair : ρ.Pairs qid qid') :
    Corresponds F ρ h { s with state := s.state.setFid fid qid path isDir }
      { s' with state := s'.state.setFid fid qid' path isDir } where
  msize := hs.msize
  fids := hs.fids.insert fid ⟨hpair, rfl, rfl⟩
  table := hs.table.congr (fun _ => rfl) (fun _ => rfl) rfl

theorem Corresponds.modifyFid (hs : Corresponds F ρ h s s') (fid : UInt32)
    {f : FidEntry → FidEntry} (hf : ∀ e e', SameFid ρ e e' → SameFid ρ (f e) (f e')) :
    Corresponds F ρ h { s with state := s.state.modifyFid fid f }
      { s' with state := s'.state.modifyFid fid f } where
  msize := hs.msize
  fids := hs.fids.modify fid hf
  table := hs.table.congr (fun q => by rw [modifyFid_paths])
    (fun q => by rw [modifyFid_paths]) (modifyFid_nextQid ..)

theorem Corresponds.allocQid (hs : Corresponds F ρ h s s') (hb : Bounded s.state)
    (path : String) (isDir : Bool) :
    ∃ t', s'.Reordered t' ∧ ∃ σ, ρ ≤ σ ∧
      σ.Pairs (s.state.allocQid path isDir).1 (t'.state.allocQid path isDir).1 ∧
      Corresponds F σ (h.told (s.state.allocQid path isDir).1 ⟨path, isDir⟩)
        { s with state := (s.state.allocQid path isDir).2 }
        { t' with state := (t'.state.allocQid path isDir).2 } := by
  obtain ⟨l, hl, σ, hle, hpair, htable⟩ := hs.table.alloc_own hb path isDir
  have hfids := hs.fids.mono hle
  refine ⟨_, reordered_reorder s' hl, σ, hle, hpair, hs.msize, ?_, htable⟩
  exact hfids.congr (allocQid_fids ..) (allocQid_fids ..)

theorem Corresponds.renameFid (hs : Corresponds F ρ h s s') (fid : UInt32) {qid qid' : ℕ}
    {newPath : String} (hpair : ρ.Pairs qid qid')
    (hown : ∀ q e, s.state.paths.lookup q = some e → e.path = newPath → h q ≠ none) :
    Corresponds F ρ (Function.update h qid (some ⟨newPath, false⟩))
      ((Critical.renameFid fid qid newPath).exec s).2
      ((Critical.renameFid fid qid' newPath).exec s').2 := by
  have hmoved := hs.modifyFid fid (f := fun e => { e with path := newPath })
    fun _ _ he => ⟨he.qid, rfl, he.isDir⟩
  have htable := hmoved.table.rename_own hpair fun q e hq => by
    rw [modifyFid_paths] at hq
    exact hown q e hq
  exact ⟨hs.msize, hmoved.fids, htable⟩

/-- One critical section of the connections, replayed without the others. -/
theorem Corresponds.own {c c' : Critical}
    {R : Renumbering → Op.Ret (.locked c) → Op.Ret (.locked c') → Prop}
    (hs : Corresponds F ρ h s s') (hb : Bounded s.state)
    (hm : Matches F ρ (.locked c) (.locked c') R) (hown : OwnStep h s (.locked c)) :
    ∃ t', s'.Reordered t' ∧ ∃ σ, ρ ≤ σ ∧ R σ (c.exec s).1 (c'.exec t').1 ∧
      Corresponds F σ (h.learn (.locked c) (c.exec s).1) (c.exec s).2 (c'.exec t').2 := by
  cases hm with
  | getFid hfid => exact ⟨s', .refl _, ρ, le_rfl, hs.fids _ hfid, hs⟩
  | attach fid => exact ⟨s', .refl _, ρ, le_rfl, trivial, hs.setFid fid "/" true ρ.2⟩
  | allocQid path isDir => exact hs.allocQid hb path isDir
  | setFid fid path isDir hpair =>
      exact ⟨s', .refl _, ρ, le_rfl, trivial, hs.setFid fid path isDir hpair⟩
  | markOpen fid =>
      exact ⟨s', .refl _, ρ, le_rfl, trivial, hs.modifyFid fid fun _ _ he => ⟨he.1, he.2, he.3⟩⟩
  | createFid fid path isDir =>
      obtain ⟨t', hre, σ, hle, hpair, hcor⟩ := hs.allocQid hb path isDir
      have hbound := hcor.setFid fid path isDir hpair
      exact ⟨t', hre, σ, hle, hpair, hbound.modifyFid fid fun _ _ he => ⟨he.1, he.2, he.3⟩⟩
  | listDir dir =>
      obtain ⟨l, hl, hlist⟩ := hs.table.list_own dir hown
      exact ⟨_, reordered_reorder s' hl, ρ, le_rfl, hlist, hs.msize,
        hs.fids.congr rfl rfl, hs.table.reorder_right hl⟩
  | removeFid fid =>
      exact ⟨s', .refl _, ρ, le_rfl, trivial, hs.msize, hs.fids.erase fid,
        hs.table.congr (fun _ => rfl) (fun _ => rfl) rfl⟩
  | renameFid fid newPath hpair =>
      exact ⟨s', .refl _, ρ, le_rfl, trivial, hs.renameFid fid hpair hown⟩
  | readMsize => exact ⟨s', .refl _, ρ, le_rfl, hs.msize, hs⟩
  | writeMsize msize =>
      exact ⟨s', .refl _, ρ, le_rfl, trivial, rfl, hs.fids, hs.table⟩

/-! ## Steps of the others -/

theorem OtherStep.reordered {o : Op} (hs : OtherStep F h s o) (hre : s.Reordered t) :
    OtherStep F h t o := by
  cases o with
  | locked c =>
      obtain ⟨hbinds, hrest⟩ := hs
      refine ⟨hbinds, ?_⟩
      cases c with
      | writeMsize msize => exact hrest.trans hre.msize
      | renameFid fid qid newPath =>
          obtain ⟨hnone, hnew⟩ := hrest
          refine ⟨hnone, ?_⟩
          intro q e hq
          rw [hre.lookup_paths] at hq
          exact hnew q e hq
      | _ => trivial
  | _ => trivial

theorem Corresponds.setFid_other (hs : Corresponds F ρ h s s') {fid : UInt32} (hfid : fid ∉ F)
    (qid : ℕ) (path : String) (isDir : Bool) :
    Corresponds F ρ h { s with state := s.state.setFid fid qid path isDir } s' where
  msize := hs.msize
  fids := hs.fids.other fun _ hg => AList.lookup_insert_ne fun heq => hfid (heq ▸ hg)
  table := hs.table.congr (fun _ => rfl) (fun _ => rfl) rfl

theorem Corresponds.modifyFid_other (hs : Corresponds F ρ h s s') (fid : UInt32)
    {f : FidEntry → FidEntry}
    (hf : fid ∈ F → ∀ e e', SameFid ρ e e' → SameFid ρ (f e) e') :
    Corresponds F ρ h { s with state := s.state.modifyFid fid f } s' where
  msize := hs.msize
  fids := by
    intro g hg
    rw [lookup_modifyFid]
    by_cases hne : g = fid
    · subst g
      rw [if_pos rfl]
      have hrel := rel_map (g := id) (hf hg) (hs.fids fid hg)
      simpa using hrel
    · rw [if_neg hne]
      exact hs.fids g hg
  table := hs.table.congr (fun q => by rw [modifyFid_paths]) (fun _ => rfl) rfl

theorem Corresponds.allocQid_other (hs : Corresponds F ρ h s s') (hb : Bounded s.state)
    (path : String) (isDir : Bool) :
    Corresponds F ρ h { s with state := (s.state.allocQid path isDir).2 } s' := by
  rcases allocQid_cases s.state path isDir with ⟨q, e, _, _, halloc⟩ | ⟨hnew, halloc⟩
  · rw [halloc]
    exact hs
  · rw [halloc]
    exact ⟨hs.msize, hs.fids, hs.table.insert_other hb isDir hnew⟩

/-- One critical section of another connection goes unnoticed. -/
theorem Corresponds.other {c : Critical} (hs : Corresponds F ρ h s s') (hb : Bounded s.state)
    (hother : OtherStep F h s (.locked c)) : Corresponds F ρ h (c.exec s).2 s' := by
  obtain ⟨hbinds, hrest⟩ := hother
  cases c with
  | getFid fid => exact hs
  | attach fid => exact hs.setFid_other (hbinds fid rfl) 0 "/" true
  | allocQid path isDir => exact hs.allocQid_other hb path isDir
  | setFid fid qid path isDir => exact hs.setFid_other (hbinds fid rfl) qid path isDir
  | markOpen fid => exact hs.modifyFid_other fid fun _ _ _ he => ⟨he.1, he.2, he.3⟩
  | createFid fid path isDir =>
      have hbound := (hs.allocQid_other hb path isDir).setFid_other (hbinds fid rfl)
        (s.state.allocQid path isDir).1 path isDir
      exact hbound.modifyFid_other fid fun _ _ _ he => ⟨he.1, he.2, he.3⟩
  | listDir dir => exact hs
  | removeFid fid =>
      have hfree : ∀ g ∈ F, (s.state.fids.erase fid).lookup g = s.state.fids.lookup g :=
        fun g hg => AList.lookup_erase_ne fun heq => hbinds fid rfl (heq ▸ hg)
      exact ⟨hs.msize, hs.fids.other hfree, hs.table.congr (fun _ => rfl) (fun _ => rfl) rfl⟩
  | renameFid fid qid newPath =>
      obtain ⟨hnone, hnew⟩ := hrest
      have hmoved := hs.modifyFid_other fid (f := fun e => { e with path := newPath })
        fun hfid => absurd hfid (hbinds fid rfl)
      refine ⟨hs.msize, hmoved.fids, hmoved.table.rename_other hnone ?_⟩
      intro q e hq
      rw [modifyFid_paths] at hq
      exact hnew q e hq
  | readMsize => exact hs
  | writeMsize msize => exact ⟨hrest.trans hs.msize, hs.fids, hs.table⟩

theorem corresponds_new (F : Set UInt32) :
    Corresponds F .initial .start Shared.new Shared.new := by
  have hroot : ∀ q e, NinepState.new.paths.lookup q = some e → q = 0 ∧ e = ⟨"/", true⟩ := by
    intro q e hq
    have hmem := AList.mem_lookup_iff.mp hq
    simpa [NinepState.new] using hmem
  have hlook : NinepState.new.paths.lookup 0 = some ⟨"/", true⟩ := rfl
  have hinit : ∀ q q', Renumbering.initial.Pairs q q' → q = 0 ∧ q' = 0 := by
    intro q q' hpair
    obtain ⟨hq, hq'⟩ := (PEquiv.mem_single_iff ..).mp hpair
    exact ⟨hq, hq'⟩
  refine ⟨rfl, fun fid _ => .none, ?_, ?_, ?_, ?_, ?_⟩
  · intro q q' hpair
    obtain ⟨rfl, rfl⟩ := hinit q q' hpair
    exact ⟨⟨"/", true⟩, true, rfl, hlook, hlook⟩
  · intro q hq
    by_cases hne : q = 0
    · exact ⟨0, hne ▸ Renumbering.initial.2⟩
    · exact absurd (Function.update_of_ne hne ..) hq
  · intro q' e hq'
    obtain ⟨rfl, _⟩ := hroot q' e hq'
    exact ⟨0, Renumbering.initial.2⟩
  · intro q e p e' hq _ hp _
    rw [(hroot q e hq).1, (hroot p e' hp).1]
  · intro q e hq
    rw [(hroot q e hq).1]
    exact Nat.one_pos

end

/-! ## Whole runs -/

/-- The router answers a request by its operation, path and data alone. -/
def oneAnswer (answers : Request → Answer) (req : Request) (a : Answer) : Prop := a = answers req

section
variable {ι : Type} {answers : Request → Answer} {F : Set UInt32} {ρ : Renumbering} {h : History}
  {s s' s₁ : Shared} {o o' : Op}

theorem own_step {R : Renumbering → Op.Ret o → Op.Ret o' → Prop} {r : Op.Ret o}
    (hs : Corresponds F ρ h s s') (hb : Bounded s.state) (hm : Matches F ρ o o' R)
    (hsem : semantics (oneAnswer answers) o s r s₁) (hown : OwnStep h s o) :
    ∃ σ r' s₁', ρ ≤ σ ∧ semantics (oneAnswer answers) o' s' r' s₁' ∧ R σ r r' ∧
      Corresponds F σ (h.learn o r) s₁ s₁' := by
  cases o with
  | locked c =>
      obtain ⟨u, hre, hexec⟩ := hsem
      obtain ⟨rfl, rfl⟩ := Prod.mk.inj hexec
      obtain ⟨c', rfl⟩ : ∃ c', o' = .locked c' := by
        cases hm <;> exact ⟨_, rfl⟩
      obtain ⟨t', hre', σ, hle, hR, hcor⟩ := (hs.reordered hre).own (hb.reordered hre) hm
        (hown.reordered hre)
      exact ⟨σ, _, _, hle, ⟨t', hre', rfl⟩, hR, hcor⟩
  | route req =>
      cases hm
      obtain ⟨hr, rfl⟩ := hsem
      exact ⟨ρ, r, s', le_rfl, ⟨hr, rfl⟩, rfl, hs⟩
  | now =>
      cases hm
      cases hsem
      exact ⟨ρ, r, s', le_rfl, rfl, rfl, hs⟩
  | send msg =>
      cases hm
      cases hsem
      exact ⟨ρ, (), s', le_rfl, rfl, trivial, hs⟩
  | crash => exact hsem.elim

theorem other_step {r : Op.Ret o} (hs : Corresponds F ρ h s s') (hb : Bounded s.state)
    (hsem : semantics (oneAnswer answers) o s r s₁) (hother : OtherStep F h s o) :
    Corresponds F ρ h s₁ s' := by
  cases o with
  | locked c =>
      obtain ⟨u, hre, hexec⟩ := hsem
      obtain ⟨rfl, rfl⟩ := Prod.mk.inj hexec
      exact (hs.reordered hre).other (hb.reordered hre) (hother.reordered hre)
  | route req =>
      obtain ⟨_, rfl⟩ := hsem
      exact hs
  | now =>
      cases hsem
      exact hs
  | send msg =>
      cases hsem
      exact hs
  | crash => exact hsem.elim

/-- Corresponding operations write messages that correspond, or nothing. -/
theorem renumbered_sent [DecidableEq ι] {t t' : List (Event ninep ι)} (i : ι)
    (ht : List.Forall₂ (Event.Similar (Matches F) ρ) t t') :
    List.Forall₂ (Renumbered ρ) (sent i t) (sent i t') := by
  apply List.rel_filterMap _ ht
  intro e e' he
  obtain ⟨j, o, r⟩ := e
  obtain ⟨j', o', r'⟩ := e'
  obtain ⟨rfl, R, hm⟩ := he
  dsimp only at hm ⊢
  by_cases hj : j = i
  · rw [if_pos hj, if_pos hj]
    cases hm with
    | send hmsg => exact .some hmsg
    | _ => exact .none
  · rw [if_neg hj, if_neg hj]
    exact .none

/-- What the other connections are sent does not count. -/
theorem sent_filter [DecidableEq ι] (mine : ι → Prop) [DecidablePred mine] {i : ι} (hi : mine i)
    (t : List (Event ninep ι)) : sent i (t.filter fun e => mine e.task) = sent i t := by
  induction t with
  | nil => rfl
  | cons e t ih =>
      rw [sent_cons i e t, ← ih]
      by_cases he : mine e.task
      · rw [List.filter_cons_of_pos (by simpa using he), sent_cons]
      · have hne : e.task ≠ i := fun heq => he (heq ▸ hi)
        rw [List.filter_cons_of_neg (by simpa using he)]
        simp [sent, hne]

end

section
variable {ι : Type} (mine : ι → Prop) (msgs : ι → List Message)

/-- The fids that the messages of the connections name. -/
def fidsUsed : Set UInt32 := {fid | ∃ i, mine i ∧ ∃ m ∈ msgs i, fid ∈ fidsOf m}

/-- The others send nothing. -/
def alone [DecidablePred mine] (i : ι) : List Message := if mine i then msgs i else []

end

/-- In every run whose steps keep apart, the selected connections are sent what a
run without the others would send them, up to the numbering of qids. Their fids
and the message size are then as in that run, and they have come equally far. -/
theorem connections_isolated {ι : Type} [DecidableEq ι] (answers : Request → Answer)
    (mine : ι → Prop) [DecidablePred mine] (msgs : ι → List Message)
    (t : List (Event ninep ι)) (c : Config ninep ι Shared) (h : History)
    (hrun : Watched (semantics (oneAnswer answers)) (Apart mine (fidsUsed mine msgs))
      History.start (listener msgs) t c h) :
    ∃ ρ t' c', Run (semantics (oneAnswer answers)) (listener (alone mine msgs)) t' c' ∧
      (∀ i, mine i → List.Forall₂ (Renumbered ρ) (sent i t) (sent i t')) ∧
      (∀ i, mine i → (c.tasks i = .done () ↔ c'.tasks i = .done ())) ∧
      SameFids (fidsUsed mine msgs) ρ c.state.state c'.state.state ∧
      c.state.msize = c'.state.msize := by
  have hsim : ∀ i, mine i → Similar (Matches (fidsUsed mine msgs)) (fun _ _ _ => True) .initial
      ((listener msgs).tasks i) ((listener (alone mine msgs)).tasks i) := by
    intro i hi
    have hsame : (listener (alone mine msgs)).tasks i = serveAll (msgs i) := by
      simp [listener, alone, hi]
    rw [hsame]
    exact similar_serveAll (msgs i) fun m hm fid hfid => ⟨i, hi, m, hm, hfid⟩
  have hM : ∀ (ρ σ : Renumbering) (o o' : Op) R, ρ ≤ σ →
      Matches (fidsUsed mine msgs) ρ o o' R → Matches (fidsUsed mine msgs) σ o o' R :=
    fun _ _ _ _ _ hle hm => hm.mono hle
  have hown : ∀ ρ h s s' i o o' R r s₁ h₁, mine i →
      Corresponds (fidsUsed mine msgs) ρ h s s' → Matches (fidsUsed mine msgs) ρ o o' R →
      semantics (oneAnswer answers) o s r s₁ →
      Bounded s.state ∧ Apart mine (fidsUsed mine msgs) h s ⟨i, o, r⟩ h₁ →
      ∃ σ r' s₁', ρ ≤ σ ∧ semantics (oneAnswer answers) o' s' r' s₁' ∧ R σ r r' ∧
        Corresponds (fidsUsed mine msgs) σ h₁ s₁ s₁' := by
    intro ρ h s s' i o o' R r s₁ h₁ hi hs hm hsem hapart
    obtain ⟨hstep, rfl⟩ := hapart.2.1 hi
    exact own_step hs hapart.1 hm hsem hstep
  have hother : ∀ ρ h s s' i o r s₁ h₁, ¬ mine i →
      Corresponds (fidsUsed mine msgs) ρ h s s' → semantics (oneAnswer answers) o s r s₁ →
      Bounded s.state ∧ Apart mine (fidsUsed mine msgs) h s ⟨i, o, r⟩ h₁ →
      Corresponds (fidsUsed mine msgs) ρ h₁ s₁ s' := by
    intro ρ h s s' i o r s₁ h₁ hi hs hsem hapart
    obtain ⟨hstep, rfl⟩ := hapart.2.2 hi
    exact other_step hs hapart.1 hsem hstep
  have hwatched := (bounded (oneAnswer answers)).watched bounded_new hrun
  obtain ⟨ρ, t', c', _, hrun', hcor, hsim', hevents⟩ := hwatched.simulated mine hM hown hother
    .initial (listener (alone mine msgs)) (corresponds_new _) hsim
  refine ⟨ρ, t', c', hrun', ?_, ?_, hcor.fids, hcor.msize⟩
  · intro i hi
    rw [← sent_filter mine hi]
    exact renumbered_sent i hevents
  · intro i hi
    exact (hsim' i hi).done_iff

def noAnswer (_ : Request) : Answer := .handlerGone

/-- Both connections attach, each a fid of its own. -/
def attached : Bool → List Message
  | true => [⟨TATTACH, 0, [0, 0, 0, 0, 255, 255, 255, 255]⟩]
  | false => [⟨TATTACH, 0, [1, 0, 0, 0, 255, 255, 255, 255]⟩]

theorem connections_isolated_attach :
    ∃ t c h, Watched (semantics (oneAnswer noAnswer))
        (Apart (· = true) (fidsUsed (· = true) attached)) History.start (listener attached) t c h ∧
      (sent true t).length = 1 ∧
      ∃ ρ t' c', Run (semantics (oneAnswer noAnswer))
        (listener (alone (· = true) attached)) t' c' ∧
        List.Forall₂ (Renumbered ρ) (sent true t) (sent true t') := by
  have hfree : (1 : UInt32) ∉ fidsUsed (· = true) attached := by
    intro hused
    obtain ⟨i, rfl, m, hm, hfid⟩ := hused
    obtain rfl := List.mem_singleton.mp hm
    exact absurd hfid (by decide)
  have hother : OtherStep (fidsUsed (· = true) attached) History.start
      ((Critical.attach 0).exec Shared.new).2 (.locked (.attach 1)) := by
    refine ⟨?_, trivial⟩
    intro fid hfid
    cases hfid
    exact hfree
  have hwatched : ∃ c, Watched (semantics (oneAnswer noAnswer))
      (Apart (· = true) (fidsUsed (· = true) attached)) History.start (listener attached)
      [⟨true, .locked (.attach 0), ()⟩, ⟨false, .locked (.attach 1), ()⟩,
        ⟨true, .send (message RATTACH 0 (encodeQid ⟨0x80, 0, 0⟩)), ()⟩] c History.start := by
    have hmine : ∀ s (o : Op) (r : Op.Ret o), OwnStep History.start s o →
        History.start.learn o r = History.start → Apart (· = true)
          (fidsUsed (· = true) attached) History.start s ⟨true, o, r⟩ History.start :=
      fun s o r hown hlearn => ⟨fun _ => ⟨hown, hlearn.symm⟩, fun hne => absurd rfl hne⟩
    exact ⟨_, .step (Step.answer (S := ninep) true (Op.locked (.attach 0)) _ _ _ rfl
        (semantics_exec _ _)) (hmine _ _ _ trivial rfl)
      (.step (Step.answer (S := ninep) false (Op.locked (.attach 1)) _ _ _ rfl
        (semantics_exec _ _)) ⟨fun heq => absurd heq (by decide), fun _ => ⟨hother, rfl⟩⟩
      (.step (Step.answer (S := ninep) true (Op.send _) _ _ _ rfl rfl)
        (hmine _ _ _ trivial rfl) (.refl _ _)))⟩
  obtain ⟨c, hwatched⟩ := hwatched
  obtain ⟨ρ, t', c', hrun, hsame, _⟩ := connections_isolated _ _ _ _ _ _ hwatched
  exact ⟨_, c, _, hwatched, rfl, ρ, t', c', hrun, hsame true rfl⟩

/-! ## A connection that does not keep apart -/

section
variable {ι : Type} [DecidableEq ι]

/-- The only task that is left, read for the state and for what it is sent; what it
is sent has to satisfy `Good` at every moment. -/
def watching (router : Request → Answer → Prop) (i : ι) (Good : List Bytes → Prop) :
    Spec ninep (Shared × List Bytes) :=
  fun o K x => ∀ r s, semantics router o x.1 r s →
    Good (x.2 ++ sent i [(⟨i, o, r⟩ : Event ninep ι)]) ∧
      K r (s, x.2 ++ sent i [(⟨i, o, r⟩ : Event ninep ι)])

theorem watching_run {router : Request → Answer → Prop} {i : ι} {Good : List Bytes → Prop}
    {c d : Config ninep ι Shared} {t : List (Event ninep ι)} (hrun : Run (semantics router) c t d)
    (hothers : ∀ j, j ≠ i → c.tasks j = .done ()) {out : List Bytes} (hout : Good out)
    (hwp : wp (watching router i Good) (c.tasks i) (fun _ _ => True) (c.state, out)) :
    Good (out ++ sent i t) := by
  induction hrun generalizing out with
  | refl c => simpa [sent] using hout
  | @step c d e ev t hs _ ih =>
      obtain ⟨j, o, next, r, s, hj, hsem⟩ := hs
      have hji : j = i := by
        by_contra hne
        rw [hothers j hne] at hj
        cases hj
      subst j
      rw [hj] at hwp
      obtain ⟨hgood, hnext⟩ := hwp r s hsem
      rw [sent_cons, ← List.append_assoc]
      apply ih _ hgood
      · simpa using hnext
      · intro k hk
        exact (Function.update_of_ne hk ..).trans (hothers k hk)

end

/-- The first connection attaches fid 0 and clones it; the second clunks it. -/
def clunked : Bool → List Message
  | true => [⟨TATTACH, 0, [0, 0, 0, 0, 255, 255, 255, 255]⟩,
      ⟨TWALK, 1, [0, 0, 0, 0, 1, 0, 0, 0, 0, 0]⟩]
  | false => [⟨TCLUNK, 0, [0, 0, 0, 0]⟩]

/-- The second reply is the answer to a walk. -/
def WalkAnswered (out : List Bytes) : Prop := ∀ m, out[1]? = some m → m[4]? = some RWALK

theorem walkAnswered_of_length {out : List Bytes} (hout : out.length ≤ 1) : WalkAnswered out := by
  intro m hm
  have hlt := (List.getElem?_eq_some_iff.mp hm).1
  omega

theorem clone_watched :
    wp (watching (oneAnswer noAnswer) true WalkAnswered) (serveAll (clunked true))
      (fun _ _ => True) (Shared.new, []) := by
  intro r₁ s₁ hattach
  obtain ⟨u₁, hre₁, hexec₁⟩ := hattach
  obtain ⟨rfl, rfl⟩ := Prod.mk.inj hexec₁
  refine ⟨walkAnswered_of_length (Nat.zero_le _), ?_⟩
  intro r₂ s₂ hsend
  cases hsend
  refine ⟨walkAnswered_of_length le_rfl, ?_⟩
  intro r₃ s₃ hget
  obtain ⟨u₃, hre₃, hexec₃⟩ := hget
  obtain ⟨hr₃, rfl⟩ := Prod.mk.inj hexec₃
  refine ⟨walkAnswered_of_length le_rfl, ?_⟩
  have hbound : r₃ = some ⟨0, "/", false, true⟩ := by
    rw [← hr₃]
    exact (hre₃.lookup_fids 0).trans (AList.lookup_insert _)
  subst hbound
  intro r₄ s₄ hset
  obtain ⟨u₄, hre₄, hexec₄⟩ := hset
  obtain ⟨rfl, rfl⟩ := Prod.mk.inj hexec₄
  refine ⟨walkAnswered_of_length le_rfl, ?_⟩
  intro r₅ s₅ hwalk
  cases hwalk
  refine ⟨?_, trivial⟩
  intro m hm
  cases hm
  rfl

/-- A clone of a fid that was just attached is answered, if nobody interferes. -/
theorem clone_answered (t : List (Event ninep Bool)) (c : Config ninep Bool Shared)
    (hrun : Run (semantics (oneAnswer noAnswer)) (listener (alone (· = true) clunked)) t c) :
    WalkAnswered (sent true t) := by
  have hothers : ∀ j, j ≠ true → (listener (alone (· = true) clunked)).tasks j = .done () := by
    intro j hj
    cases j with
    | false => rfl
    | true => exact absurd rfl hj
  have hnone : WalkAnswered [] := by
    intro m hm
    cases hm
  exact watching_run hrun hothers hnone clone_watched

theorem clunk_reaches_another_connection :
    ∃ t c, Run (semantics (oneAnswer noAnswer)) (listener clunked) t c ∧
      ∀ ρ t' c', Run (semantics (oneAnswer noAnswer)) (listener (alone (· = true) clunked)) t' c' →
        ¬ List.Forall₂ (Renumbered ρ) (sent true t) (sent true t') := by
  let env : Env := ⟨noAnswer, fun _ => 0⟩
  let attach : Message := ⟨TATTACH, 0, [0, 0, 0, 0, 255, 255, 255, 255]⟩
  let walk : Message := ⟨TWALK, 1, [0, 0, 0, 0, 1, 0, 0, 0, 0, 0]⟩
  have hplay : ((evaluate env (serveMessage attach) (.start Shared.new)).bind fun x =>
      (evaluate env (serveAll (clunked false)) (.start x.2.shared)).bind fun y =>
      (evaluate env (serveMessage walk) (.start y.2.shared)).map fun z =>
        ((x.2.out ++ z.2.out)[1]?).bind (·[4]?)) = some (some RERROR) := by decide
  obtain ⟨⟨_, w₁⟩, h₁, hplay⟩ := Option.bind_eq_some_iff.mp hplay
  obtain ⟨⟨_, w₂⟩, h₂, hplay⟩ := Option.bind_eq_some_iff.mp hplay
  obtain ⟨⟨_, w₃⟩, h₃, hplay⟩ := Option.map_eq_some_iff.mp hplay
  obtain ⟨m, hm, hty⟩ := Option.bind_eq_some_iff.mp hplay
  have hrouter : ∀ req, oneAnswer noAnswer req (env.router req) := fun _ => rfl
  obtain ⟨t₁, run₁, hout₁, _⟩ := evaluate_run hrouter true (serveMessage attach)
    (fun _ => serveAll [walk]) h₁ (listener clunked) rfl rfl
  obtain ⟨t₂, run₂, _, hout₂⟩ := evaluate_run hrouter false (serveAll (clunked false))
    Prog.done h₂ ⟨w₁.shared, Function.update (listener clunked).tasks true (serveAll [walk])⟩
    (Prog.bind_done _).symm rfl
  obtain ⟨t₃, run₃, hout₃, _⟩ := evaluate_run hrouter true (serveMessage walk)
    Prog.done h₃ ⟨w₂.shared, Function.update (Function.update (listener clunked).tasks true
      (serveAll [walk])) false (.done ())⟩ rfl rfl
  refine ⟨t₁ ++ (t₂ ++ t₃), _, run₁.append (run₂.append run₃), ?_⟩
  intro ρ t' c' hrun hsame
  have hsent : sent true (t₁ ++ (t₂ ++ t₃)) = w₁.out ++ w₃.out := by
    rw [sent_append, sent_append, hout₂ true (by decide), hout₁, hout₃]
    rfl
  rw [hsent] at hsame
  obtain ⟨hlt, rfl⟩ := List.getElem?_eq_some_iff.mp hm
  have hlt' : 1 < (sent true t').length := hsame.length_eq ▸ hlt
  have htype := (hsame.get hlt hlt').type
  have hwalk := clone_answered t' c' hrun _ (List.getElem?_eq_getElem hlt')
  have hcontra : some RERROR = some RWALK := hty.symm.trans (htype.trans hwalk)
  exact absurd hcontra (by decide)

end Pinhead.ConnectionIsolation
