import Pinhead.FuseSteps
import Pinhead.MutationReplies
import Pinhead.NinepContracts

/-!
# Identifiers that no table has

A fid, a handle or an inode that is not in its table names nothing, so a request that
uses it should not reach the router at all. The 9P handlers look their fid up before
anything else and give up without it. The two other frontends put a path in place of
the missing one at a few points: the empty path for a handle, the root for a parent
directory.
-/
namespace Pinhead.AbsentIdentifiers
open ByteStrings FsRequests Resumption Histories

/-! ## 9P -/

namespace Ninep
open NinepShared NinepHandlers NinepScripts NinepContracts
open MutationReplies.Ninep (Given)

/-- No triple is ever handed out, and so no path may ever be used. -/
def nothing : Contract where
  Held _ _ _ := False
  Path _ := False
  Child _ := True
  Accepts _ _ := True
  path := id
  join h _ := h
  sibling h _ := h

theorem nothing_rely {pending : Option Request} {o : Op} {r : Op.Ret o} (hgiven : Given none o r)
    (h : nothing.guarantee pending o) : nothing.rely o r := by
  cases o with
  | locked c =>
      cases c with
      | getFid fid =>
          intro e he
          rw [show r = none from hgiven] at he
          cases he
      | allocQid path isDir => exact h
      | createFid fid path isDir => exact h
      | _ => trivial
  | _ => trivial

/-- A message whose fid is not found when it is looked up sends nothing to the router. -/
theorem silent (m : Message) {h : List (Answered ninep)} {q : Prog ninep Unit}
    (hp : Passes (serveMessage m) h q) (habsent : ∀ a ∈ h, Given none a.op a.answer) :
    h.flatMap (fun a => requestOf a.op) = [] := by
  apply List.flatMap_eq_nil_iff.mpr
  intro a ha
  obtain ⟨pending, hg⟩ := hp.admitted (fun e he _ hg => nothing_rely (habsent e he) hg)
    (serveMessage_sound (C := nothing) m (fun _ _ => trivial) none) a ha
  match h : a.op, hg with
  | .route req, hg => exact hg.1.elim
  | .locked _, _ => rfl
  | .now, _ => rfl
  | .send _, _ => rfl
  | .crash, _ => rfl

end Ninep

/-! ## SFTP -/

namespace Sftp
open SftpSessions
open MutationReplies.Sftp (Resolved)

def handleOf : Packet → Option String
  | .close _ handle | .read _ handle _ _ | .write _ handle _ _ | .readDir _ handle
  | .fstat _ handle | .fSetStat _ handle _ => some handle
  | _ => none

/-- If the packet names a handle that the table does not have, it sends nothing. -/
def Silent (s : HandleState) (p : Packet) : Prop :=
  ∀ handle, handleOf p = some handle → s.get handle = none →
    ∀ h q, Passes (dispatch s p) h q → h = []

theorem silent_withHandle {s : HandleState} {handle : String} (hnone : s.get handle = none)
    {id : ℕ} {f : HandleEntry → Prog sftp Result} {h : List (Answered sftp)}
    {q : Prog sftp (Option Reply × HandleState)}
    (hp : Passes (replyTo id (withHandle s handle f)) h q) : h = [] := by
  rw [withHandle, hnone] at hp
  exact (passes_done hp).1

theorem silent_of_resolved {s : HandleState} {p : Packet} (hres : Resolved s p) : Silent s p := by
  intro handle hof hnone h q hp
  cases p with
  | close id handle =>
      obtain rfl := Option.some.inj hof
      rw [dispatch, close, hnone] at hp
      exact (passes_done hp).1
  | read _ _ _ _ | write _ _ _ _ | readDir _ _ | fstat _ _ =>
      obtain rfl := Option.some.inj hof
      exact silent_withHandle hnone hp
  | fSetStat id handle attrs =>
      obtain rfl := Option.some.inj hof
      exact absurd hnone hres
  | _ => cases hof

theorem resolved_of_silent {s : HandleState} {p : Packet} (h : Silent s p) : Resolved s p := by
  cases p with
  | fSetStat id handle attrs =>
      intro hnone
      have hp : Passes (dispatch s (.fSetStat id handle attrs)) [⟨⟨.setAttr, "/", []⟩, none⟩]
          (.done (some (makeStatus id .failure), s)) := by
        rw [dispatch, fSetStat, replyTo_acknowledge, hnone]
        exact .answer _ _ _ (.refl _)
      cases h handle rfl hnone _ _ hp
  | _ => trivial

theorem silent_iff (s : HandleState) (p : Packet) : Silent s p ↔ Resolved s p :=
  ⟨resolved_of_silent, silent_of_resolved⟩

end Sftp

/-! ## FUSE -/

namespace Fuse
open FuseFilesystem FuseSteps

def named : Callback → List ℕ
  | .lookup parent _ | .create parent _ | .mkdir parent _ | .unlink parent _ | .rmdir parent _ =>
      [parent]
  | .rename parent _ newparent _ => [parent, newparent]
  | .getattr ino | .readdir ino _ _ | .read ino _ _ | .write ino _ _ | .release ino | .opendir ino
  | .releasedir ino | .forget ino | .setattr ino _ _ _ _ _ _ => [ino]
  | _ => []

/-- If the callback names an inode that the table does not have, it sends nothing. -/
def Silent (s : FuseState) (cb : Callback) : Prop :=
  ∀ ino ∈ named cb, s.pathFor ino = none →
    ∀ mounted h q, Passes (dispatch mounted s cb) h q → asked h = []

def dotName (name : Bytes) : Prop := fromUtf8Lossy name = "." ∨ fromUtf8Lossy name = ".."

/-- The directories that a callback changes or looks into are in the table. -/
def Covered (s : FuseState) : Callback → Prop
  | .lookup parent name => dotName name ∨ s.pathFor parent ≠ none
  | .mkdir parent _ | .unlink parent _ | .rmdir parent _ => s.pathFor parent ≠ none
  | .rename parent _ newparent _ => s.pathFor parent ≠ none ∧ s.pathFor newparent ≠ none
  | _ => True

section
variable {s : FuseState} {cb : Callback}

theorem asked_lookup_dot {mounted parent : ℕ} {name : Bytes} (hdot : dotName name)
    {h : List (Answered fuse)} {q : Prog fuse Result}
    (hp : Passes (dispatch mounted s (.lookup parent name)) h q) : asked h = [] := by
  have hs : Sends (fun _ => False) (fun _ => True) (dispatch mounted s (.lookup parent name)) := by
    unfold dotName at hdot
    rw [dispatch, lookup]
    dsimp only
    rw [if_pos hdot]
    split
    · exact sends_pure trivial
    · exact sends_reply_attr fun _ => trivial
  exact List.eq_nil_iff_forall_not_mem.mpr (sends_asked hs hp)

/-- On an inode, no request is possible without a recorded path. -/
theorem asked_onInode {ino mounted : ℕ} {h : List (Answered fuse)} {q : Prog fuse Result}
    (hp : Passes (dispatch mounted s cb) h q) (hnone : s.pathFor ino = none)
    (hroutes : ∀ req, Routes s req cb → s.pathFor ino = some req.path) : asked h = [] := by
  apply List.eq_nil_iff_forall_not_mem.mpr
  intro req hreq
  have hpath := hroutes req (sends_asked (sends_dispatch s mounted cb) hp req hreq)
  rw [hnone] at hpath
  cases hpath

theorem silent_of_covered (hs : Sound s) (hc : Covered s cb) : Silent s cb := by
  intro ino hino hnone mounted h q hp
  cases cb with
  | lookup parent name =>
      obtain rfl := List.mem_singleton.mp hino
      exact asked_lookup_dot (hc.resolve_right (not_not.mpr hnone)) hp
  | readdir ino' offset room =>
      obtain rfl := List.mem_singleton.mp hino
      apply asked_onInode hp hnone
      intro req hreq
      have hother : ino ≠ 1 := by
        rintro rfl
        exact hs.root hnone
      exact (if_neg hother).mp hreq
  | mkdir _ _ | unlink _ _ | rmdir _ _ =>
      obtain rfl := List.mem_singleton.mp hino
      exact absurd hnone hc
  | rename parent name newparent newname =>
      rcases List.mem_cons.mp hino with rfl | hino
      · exact absurd hnone hc.1
      · obtain rfl := List.mem_singleton.mp hino
        exact absurd hnone hc.2
  | create _ _ | forget _ => exact asked_onInode hp hnone fun _ => False.elim
  | getattr _ | read _ _ _ | write _ _ _ | release _ | opendir _ | releasedir _
  | setattr _ _ _ _ _ _ _ =>
      obtain rfl := List.mem_singleton.mp hino
      exact asked_onInode hp hnone fun _ => id
  | _ => cases hino

/-- A callback that starts with a request names nothing that is absent. -/
theorem known_of_silent (h : Silent s cb) {ino : ℕ} (hino : ino ∈ named cb) {req : Request}
    {next : Answer → Prog fuse Result} (hcall : dispatch 0 s cb = .call (.route req) next) :
    s.pathFor ino ≠ none := by
  intro hnone
  have hp : Passes (dispatch 0 s cb) [⟨.route req, Answer.routerGone⟩] (next .routerGone) := by
    rw [hcall]
    exact .answer _ _ _ (.refl _)
  cases h ino hino hnone 0 _ _ hp

theorem covered_of_silent (h : Silent s cb) : Covered s cb := by
  cases cb with
  | lookup parent name =>
      by_cases hdot : dotName name
      · exact Or.inl hdot
      · right
        apply known_of_silent h (List.mem_singleton_self _)
        unfold dotName at hdot
        rw [dispatch, lookup]
        dsimp only
        rw [if_neg hdot]
        rfl
  | mkdir parent name => exact known_of_silent h (List.mem_singleton_self _) rfl
  | unlink parent name => exact known_of_silent h (List.mem_singleton_self _) rfl
  | rmdir parent name => exact known_of_silent h (List.mem_singleton_self _) rfl
  | rename parent name newparent newname =>
      constructor
      · exact known_of_silent h (List.mem_cons_self ..) rfl
      · exact known_of_silent h (List.mem_cons_of_mem _ (List.mem_singleton_self _)) rfl
  | _ => trivial

theorem silent_iff (hs : Sound s) (cb : Callback) : Silent s cb ↔ Covered s cb :=
  ⟨covered_of_silent, silent_of_covered hs⟩

end

end Fuse

/-! ## All frontends -/

/-- A 9P message never reaches the router through a fid that is not found; in the
other frontends exactly the requests that are not covered do. -/
theorem absent_identifiers_silent_iff (m : NinepHandlers.Message)
    (h : List (Answered NinepShared.ninep)) (q : Prog NinepShared.ninep Unit)
    (s : SftpSessions.HandleState) (p : SftpSessions.Packet) (mounted : ℕ)
    (ts : List FuseSteps.Turn) (u : FuseFilesystem.FuseState) (cb : FuseFilesystem.Callback) :
    (Passes (NinepHandlers.serveMessage m) h q →
      (∀ a ∈ h, MutationReplies.Ninep.Given none a.op a.answer) →
      h.flatMap (fun a => NinepScripts.requestOf a.op) = []) ∧
    (Sftp.Silent s p ↔ MutationReplies.Sftp.Resolved s p) ∧
    (FuseSteps.Turns mounted FuseFilesystem.FuseState.new ts u →
      (Fuse.Silent u cb ↔ Fuse.Covered u cb)) := by
  refine ⟨?_, Sftp.silent_iff s p, ?_⟩
  · exact fun hp habsent => Ninep.silent m hp habsent
  · exact fun hts => Fuse.silent_iff (FuseSteps.sound_new.turns hts) cb

/-- A handle that was never given out sets the attributes of the root, and an unlink
in a directory that was never looked up removes a file of the root. -/
theorem absent_identifiers_reach_the_root :
    ¬ Sftp.Silent SftpSessions.HandleState.new (.fSetStat 1 "0000000000000001" .empty) ∧
    ∃ mounted ts s, FuseSteps.Turns mounted FuseFilesystem.FuseState.new ts s ∧
      ¬ Fuse.Silent s (.unlink 7 (asBytes "f")) := by
  constructor
  · rw [Sftp.silent_iff]
    exact fun h => h rfl
  · refine ⟨0, [], FuseFilesystem.FuseState.new, .nil _, ?_⟩
    rw [Fuse.silent_iff FuseSteps.sound_new]
    exact fun h => h rfl

end Pinhead.AbsentIdentifiers
