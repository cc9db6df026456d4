import Pinhead.FuseSteps
import Pinhead.QidRenames

/-!
# Inodes and their objects

An inode number is handed out for the object at a path. The object may be renamed, and
so may a directory above it; requests on the inode should then go to where the object
is now. `follow` moves the objects of all inodes along with the accepted renames, and
`Tracked` compares the table with it after every callback of a run. It also asks that
a rename, an unlink or an rmdir leaves no cached length for the path that it vacates.

A rename updates one inode with the old path and nothing else, so the comparison
succeeds exactly when at most one inode had to be moved and none below it.
-/
namespace Pinhead.FuseInodes
open ByteStrings FsRequests Resumption Histories FuseFilesystem FuseSteps
open FiniteTables (forall_lookup_iff)
open NinepShared (joinPath)
open QidRenames (relocate eq_map_iff)

/-! ## Objects -/

/-- Where the objects are after a turn, from where they were before it. The numbers
that are new in the table were handed out for the objects at their recorded paths. -/
def follow (t : Turn) (objects : ℕ → Option String) : ℕ → Option String :=
  match t.callback, t.reply with
  | .rename parent name newparent newname, .ok => fun ino => (objects ino).map
      (relocate (childPath t.before parent name) (childPath t.before newparent newname))
  | .forget ino, _ => if ino ≠ 1 then Function.update objects ino none else objects
  | _, _ => fun ino =>
      if t.before.inoNext ≤ ino ∧ ino < t.after.inoNext then t.after.pathFor ino else objects ino

/-- The path that a successful rename or removal leaves empty. -/
def vacated (t : Turn) : Option String :=
  match t.callback, t.reply with
  | .rename parent name _ _, .ok | .unlink parent name, .ok | .rmdir parent name, .ok =>
      some (childPath t.before parent name)
  | _, _ => none

/-- The turn sent its requests to where the objects were, recorded where they are now
and forgot the length of what is gone. -/
structure Faithful (objects : ℕ → Option String) (t : Turn) : Prop where
  routed : ∀ ino, onInode t.callback = some ino → ino ≠ 1 →
    ∀ req ∈ asked t.history, objects ino = some req.path
  entered : ∀ parent name path, inDirectory t.callback = some (parent, name) →
    objects parent = some path → ∀ req ∈ asked t.history,
      req.path = joinPath path (fromUtf8Lossy name) ∨
        req.path = trimEndMatches '/' path ++ "/" ++ fromUtf8Lossy name
  recorded : ∀ ino, t.after.pathFor ino = follow t objects ino
  cleared : ∀ path, vacated t = some path → t.after.sizeCache.lookup path = none

def Tracked (objects : ℕ → Option String) : List Turn → Prop
  | [] => True
  | t :: ts => Faithful objects t ∧ Tracked (follow t objects) ts

/-- At most one inode has to be moved, and none from below the old path. -/
def Lone (s : FuseState) (old new : String) : Prop :=
  ∀ ino path, s.pathFor ino = some path → relocate old new path ≠ path →
    path = old ∧ ∀ ino', s.pathFor ino' = some old → ino' = ino

instance (s : FuseState) (old new : String) : Decidable (Lone s old new) :=
  decidable_of_iff (∀ x ∈ s.paths.entries, relocate old new x.2 ≠ x.2 →
      x.2 = old ∧ ∀ y ∈ s.paths.entries, y.2 = old → y.1 = x.1) (by
    have hone := forall_lookup_iff s.paths fun ino path => relocate old new path ≠ path →
      path = old ∧ ∀ y ∈ s.paths.entries, y.2 = old → y.1 = ino
    have hother := fun ino => forall_lookup_iff s.paths fun ino' path => path = old → ino' = ino
    rw [← hone]
    constructor
    · intro h ino path hpath hmoved
      obtain ⟨hold, hall⟩ := h ino path hpath hmoved
      exact ⟨hold, fun ino' hino' => (hother ino).mpr hall ino' old hino' rfl⟩
    · intro h ino path hpath hmoved
      obtain ⟨hold, hall⟩ := h ino path hpath hmoved
      refine ⟨hold, (hother ino).mp ?_⟩
      rintro ino' _ hino' rfl
      exact hall ino' hino')

structure Meets (t : Turn) : Prop where
  lone : ∀ parent name newparent newname, t.callback = .rename parent name newparent newname →
    t.reply = .ok → Lone t.before (childPath t.before parent name)
      (childPath t.before newparent newname)
  uncached : ∀ path, vacated t = some path → t.before.sizeCache.lookup path = none

/-! ## One rename -/

section
variable {s : FuseState} {old new : String}

theorem relocate_self (old new : String) : relocate old new old = new := by
  rw [relocate, if_pos rfl]

theorem moved_iff {ino : ℕ} (hino : s.pathFor ino = some old) :
    (∀ ino', (s.recordPath ino new).pathFor ino' = (s.pathFor ino').map (relocate old new)) ↔
      Lone s old new := by
  constructor
  · intro h ino' path hpath hmoved
    have hhere : ino' = ino := by
      by_contra hne
      have hkept := h ino'
      rw [pathFor_recordPath, if_neg hne] at hkept
      exact hmoved (eq_map_iff.mp hkept path hpath)
    subst ino'
    rw [hino] at hpath
    obtain rfl := Option.some.inj hpath
    refine ⟨rfl, ?_⟩
    intro ino' hother
    by_contra hne
    have hkept := h ino'
    rw [pathFor_recordPath, if_neg hne] at hkept
    exact hmoved (eq_map_iff.mp hkept _ hother)
  · intro h ino'
    rw [pathFor_recordPath]
    split
    · next heq => rw [heq, hino, Option.map_some, relocate_self]
    · next hne =>
        apply eq_map_iff.mpr
        intro path hpath
        by_contra hmoved
        obtain ⟨rfl, honly⟩ := h ino' path hpath hmoved
        exact hne (honly ino hino).symm

theorem unmoved_iff (hnone : s.inodesAt old = []) :
    (∀ ino, s.pathFor ino = (s.pathFor ino).map (relocate old new)) ↔ Lone s old new := by
  constructor
  · intro h ino path hpath hmoved
    exact absurd (eq_map_iff.mp (h ino) path hpath) hmoved
  · intro h ino
    apply eq_map_iff.mpr
    intro path hpath
    by_contra hmoved
    obtain ⟨rfl, _⟩ := h ino path hpath hmoved
    have hmem := mem_inodesAt.mpr hpath
    rw [hnone] at hmem
    cases hmem

end

/-! ## One turn -/

theorem recorded_rename_iff {s s' : FuseState} {parent newparent : ℕ} {name newname : Bytes}
    (h : Leads s (.ok, s') (.rename parent name newparent newname)) :
    (∀ ino, s'.pathFor ino = (s.pathFor ino).map
        (relocate (childPath s parent name) (childPath s newparent newname))) ↔
      Lone s (childPath s parent name) (childPath s newparent newname) := by
  rcases h with ⟨hsame, hnone⟩ | ⟨_, ino, hino, hmoved⟩
  · obtain rfl : s' = s := hsame
    exact unmoved_iff (hnone rfl)
  · obtain rfl : s' = s.recordPath ino (childPath s newparent newname) := hmoved
    exact moved_iff (mem_inodesAt.mp hino)

theorem recorded_forget {s s' : FuseState} {reply : Reply} {ino : ℕ}
    (h : Leads s (reply, s') (.forget ino)) (ino' : ℕ) :
    s'.pathFor ino' = (if ino ≠ 1 then Function.update s.pathFor ino none else s.pathFor) ino' := by
  rw [show s' = if ino ≠ 1 then { s with paths := s.paths.erase ino } else s from h]
  split
  · by_cases heq : ino' = ino
    · rw [heq, Function.update_self]
      exact AList.lookup_erase ino s.paths
    · rw [Function.update_of_ne heq]
      exact AList.lookup_erase_ne heq
  · rfl

/-- But for the numbers handed out meanwhile the table is as it was. -/
theorem recorded_extends {s s' : FuseState} (h : Extends s s') (ino : ℕ) :
    s'.pathFor ino =
      if s.inoNext ≤ ino ∧ ino < s'.inoNext then s'.pathFor ino else s.pathFor ino := by
  split
  · rfl
  · next hold =>
      have hkept : ino < s.inoNext ∨ s'.inoNext ≤ ino := by omega
      exact h.kept ino hkept

section
variable {t : Turn} (h : Leads t.before (t.reply, t.after) t.callback)
include h

theorem after_sizeCache {path : String} (hvacated : vacated t = some path) :
    t.after.sizeCache = t.before.sizeCache := by
  obtain ⟨s, cb, history, reply, s'⟩ := t
  cases cb with
  | rename parent name newparent newname =>
      rcases h with ⟨hsame, _⟩ | ⟨_, ino, _, hmoved⟩
      · exact congrArg FuseState.sizeCache hsame
      · rw [show s' = _ from hmoved]
        rfl
  | unlink _ _ | rmdir _ _ => exact congrArg FuseState.sizeCache h
  | _ => cases hvacated

/-- The table is right after a turn exactly when the condition on renames is met. -/
theorem recorded_iff :
    (∀ ino, t.after.pathFor ino = follow t t.before.pathFor ino) ↔
      ∀ parent name newparent newname, t.callback = .rename parent name newparent newname →
        t.reply = .ok → Lone t.before (childPath t.before parent name)
          (childPath t.before newparent newname) := by
  obtain ⟨s, cb, history, reply, s'⟩ := t
  dsimp only at h ⊢
  cases cb with
  | rename parent name newparent newname =>
      cases reply with
      | ok =>
          apply (recorded_rename_iff h).trans
          constructor
          · intro hlone p n p' n' heq _
            cases heq
            exact hlone
          · exact fun hall => hall _ _ _ _ rfl rfl
      | _ =>
          rcases h with ⟨hsame, _⟩ | ⟨hok, _⟩
          · obtain rfl : s' = s := hsame
            exact ⟨nofun, fun _ => recorded_extends (Extends.refl s')⟩
          · cases hok
  | forget ino => exact ⟨nofun, fun _ => recorded_forget h⟩
  | unlink _ _ | rmdir _ _ =>
      obtain rfl : s' = s := h
      exact ⟨nofun, fun _ => recorded_extends (Extends.refl s')⟩
  | _ => exact ⟨nofun, fun _ => recorded_extends h⟩

end

theorem faithful_iff {t : Turn} {mounted : ℕ}
    (hp : Passes (dispatch mounted t.before t.callback) t.history (.done (t.reply, t.after))) :
    Faithful t.before.pathFor t ↔ Meets t := by
  have hsends := sends_dispatch t.before mounted t.callback
  have hleads : Leads t.before (t.reply, t.after) t.callback := hsends.result hp
  constructor
  · intro h
    constructor
    · exact (recorded_iff hleads).mp h.recorded
    · intro path hvacated
      rw [← after_sizeCache hleads hvacated]
      exact h.cleared path hvacated
  · intro h
    constructor
    · intro ino hon hino req hreq
      exact routes_onInode hon hino (sends_asked hsends hp req hreq)
    · intro parent name path hin hpath req hreq
      exact routes_inDirectory hin hpath (sends_asked hsends hp req hreq)
    · exact (recorded_iff hleads).mpr h.lone
    · intro path hvacated
      rw [after_sizeCache hleads hvacated]
      exact h.uncached path hvacated

/-! ## Runs -/

theorem tracked_iff {mounted : ℕ} {s s' : FuseState} {ts : List Turn}
    (h : Turns mounted s ts s') : Tracked s.pathFor ts ↔ ∀ t ∈ ts, Meets t := by
  induction h with
  | nil s => exact iff_of_true True.intro (List.forall_mem_nil _)
  | cons t hp _ ih =>
      rw [List.forall_mem_cons, Tracked, faithful_iff hp]
      apply and_congr_right
      intro hmeets
      -- The objects have moved to where the table now has them.
      rw [← funext ((faithful_iff hp).mpr hmeets).recorded]
      exact ih

/-- In every run from the mount, all inodes keep track of their objects exactly when
every rename and removal that succeeds meets the condition. -/
theorem inodes_track_objects_iff (mounted : ℕ) (ts : List Turn) (s : FuseState)
    (h : Turns mounted FuseState.new ts s) :
    Tracked FuseState.new.pathFor ts ↔ ∀ t ∈ ts, Meets t :=
  tracked_iff h

/-- A callback all of whose requests are accepted. -/
def obliged (s : FuseState) (cb : Callback) : Turn :=
  let result := answered obliging (dispatch 0 s cb)
  ⟨s, cb, result.1, result.2.1, result.2.2⟩

def obligedTurns (s : FuseState) : List Callback → List Turn
  | [] => []
  | cb :: cbs => obliged s cb :: obligedTurns (obliged s cb).after cbs

theorem turns_obliged (s : FuseState) (cbs : List Callback) :
    ∃ s', Turns 0 s (obligedTurns s cbs) s' := by
  induction cbs generalizing s with
  | nil => exact ⟨s, .nil s⟩
  | cons cb cbs ih =>
      obtain ⟨s', hs'⟩ := ih (obliged s cb).after
      have hp := passes_answered obliging (dispatch 0 s cb)
      exact ⟨s', .cons (obliged s cb) hp hs'⟩

def renamedFile : List Callback :=
  [.lookup 1 (asBytes "a"), .rename 1 (asBytes "a") 1 (asBytes "b")]

/-- A file that was looked up once keeps its inode through a rename. -/
theorem inodes_track_objects_file : ∃ s,
    Turns 0 FuseState.new (obligedTurns FuseState.new renamedFile) s ∧
      Tracked FuseState.new.pathFor (obligedTurns FuseState.new renamedFile) := by
  obtain ⟨s, hs⟩ := turns_obliged FuseState.new renamedFile
  refine ⟨s, hs, (inodes_track_objects_iff 0 _ s hs).mpr ?_⟩
  intro t ht
  fin_cases ht
  · exact ⟨nofun, nofun⟩
  · constructor
    · intro parent name newparent newname heq _
      cases heq
      decide
    · intro path _
      rfl

def renamedDirectory : List Callback :=
  [.lookup 1 (asBytes "a"), .lookup 2 (asBytes "x"), .rename 1 (asBytes "a") 1 (asBytes "b")]

/-- The inode of a file below a renamed directory stays where the file was. -/
theorem renamed_directory_leaves_inodes_behind :
    ¬ ∀ mounted ts s, Turns mounted FuseState.new ts s → Tracked FuseState.new.pathFor ts := by
  intro h
  obtain ⟨s, hs⟩ := turns_obliged FuseState.new renamedDirectory
  have hmeets := (tracked_iff hs).mp (h 0 _ s hs)
  have hlone := (hmeets _ (List.mem_of_getElem? (i := 2) rfl)).lone _ _ _ _ rfl rfl
  revert hlone
  decide

end Pinhead.FuseInodes
