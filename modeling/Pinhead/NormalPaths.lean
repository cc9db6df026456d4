import Pinhead.NinepContracts
import Pinhead.SftpSessions

/-!
# Paths in normal form

The 9P handlers put the names of their messages behind the paths of fids, and the
SFTP methods take over paths as they come, with a slash in front where there is none.
Nothing resolves dots or drops empty segments on the way to the router. What keeps
paths in normal form is the discipline of the clients alone: as long as the names and
paths that they send are proper ones, so is everything that is bound to a fid or a
handle, and everything the router is sent.
-/
namespace Pinhead.NormalPaths
open FiniteTables ByteStrings FsRequests Resumption Histories NinepShared NinepHandlers
open NinepRuns NinepContracts

/-! ## Normal forms -/

/-- No segment is empty, a dot or two dots. -/
def Proper (name : String) : Prop :=
  ∀ seg ∈ name.toList.splitOn '/', seg ∉ [[], ['.'], ['.', '.']]

instance : DecidablePred Proper := fun name =>
  inferInstanceAs (Decidable (∀ seg ∈ name.toList.splitOn '/', seg ∉ [[], ['.'], ['.', '.']]))

/-- The root, or a slash and proper segments. -/
def NormalForm (path : String) : Prop := path = "/" ∨ ∃ name, path = "/" ++ name ∧ Proper name

theorem normalForm_cons {name : String} (h : Proper name) : NormalForm ("/" ++ name) :=
  Or.inr ⟨name, rfl, h⟩

theorem splitOn_slash (a b : String) :
    (a ++ "/" ++ b).toList.splitOn '/' = a.toList.splitOn '/' ++ b.toList.splitOn '/' := by
  rw [String.toList_append, String.toList_append, List.append_assoc]
  exact List.splitOn_append_cons_self _ _

/-- A character of a segment is one of the text, and no slash. -/
theorem mem_segment {cs seg : List Char} {c : Char} (hseg : seg ∈ cs.splitOn '/') (hc : c ∈ seg) :
    c ∈ cs ∧ c ≠ '/' := by
  induction cs generalizing seg with
  | nil =>
      rw [List.splitOn_nil, List.mem_singleton] at hseg
      rw [hseg] at hc
      exact absurd hc List.not_mem_nil
  | cons x cs ih =>
      rw [List.splitOn_cons_eq_if_modifyHead] at hseg
      split at hseg
      · rcases List.mem_cons.mp hseg with rfl | hseg
        · exact absurd hc List.not_mem_nil
        · exact (ih hseg hc).imp_left (List.mem_cons_of_mem x)
      · next hx =>
          cases hsplit : cs.splitOn '/' with
          | nil => exact absurd hsplit (List.splitOn_ne_nil _ _)
          | cons first rest =>
              rw [hsplit] at hseg ih
              rcases List.mem_cons.mp hseg with rfl | hseg
              · rcases List.mem_cons.mp hc with rfl | hc
                · exact ⟨List.mem_cons_self, fun heq => hx (beq_iff_eq.mpr heq)⟩
                · exact (ih List.mem_cons_self hc).imp_left (List.mem_cons_of_mem x)
              · exact (ih (List.mem_cons_of_mem _ hseg) hc).imp_left (List.mem_cons_of_mem x)

theorem proper_append {a b : String} : Proper (a ++ "/" ++ b) ↔ Proper a ∧ Proper b := by
  unfold Proper
  rw [splitOn_slash]
  exact List.forall_mem_append

theorem not_proper_empty : ¬ Proper "" := by decide

theorem proper_no_trailing_slash {name : String} (h : Proper name) : endsWithSlash name = false := by
  by_contra hslash
  have hlast : name.toList.getLast? = some '/' := by
    rw [Bool.not_eq_false, endsWithSlash, beq_iff_eq] at hslash
    exact hslash
  obtain ⟨init, hinit⟩ := List.getLast?_eq_some_iff.mp hlast
  have hname : name = String.ofList init ++ "/" ++ "" := by
    rw [← String.toList_inj, hinit]
    simp
  rw [hname, proper_append] at h
  exact not_proper_empty h.2

theorem endsWithSlash_cons {name : String} (h : name ≠ "") :
    endsWithSlash ("/" ++ name) = endsWithSlash name := by
  unfold endsWithSlash
  rw [String.toList_append, List.getLast?_append_of_ne_nil]
  rwa [ne_eq, String.toList_eq_nil_iff]

theorem NormalForm.join {path name : String} (hp : NormalForm path) (hn : Proper name) :
    NormalForm (joinPath path name) := by
  rcases hp with rfl | ⟨rest, rfl, hrest⟩
  · exact normalForm_cons hn
  · have hslash : endsWithSlash ("/" ++ rest) = false := by
      rw [endsWithSlash_cons fun h => not_proper_empty (h ▸ hrest)]
      exact proper_no_trailing_slash hrest
    have hjoin : joinPath ("/" ++ rest) name = "/" ++ (rest ++ "/" ++ name) := by
      rw [joinPath, hslash, if_neg Bool.false_ne_true]
      simp only [String.append_assoc]
    rw [hjoin]
    exact normalForm_cons (proper_append.mpr ⟨hrest, hn⟩)

theorem beforeLastSlash_none {path : String} (h : beforeLastSlash path = none) :
    lastSegment path = path := by
  have hwhole := List.takeWhile_append_dropWhile (p := (· ≠ '/')) (l := path.toList.reverse)
  unfold beforeLastSlash at h
  split at h
  · next hdrop =>
      rw [hdrop, List.append_nil] at hwhole
      rw [lastSegment, hwhole, List.reverse_reverse, String.ofList_toList]
  · cases h

/-- The path is cut at its last slash. -/
theorem beforeLastSlash_some {path parent : String} (h : beforeLastSlash path = some parent) :
    path.toList = parent.toList ++ '/' :: (lastSegment path).toList := by
  have hwhole := List.takeWhile_append_dropWhile (p := (· ≠ '/')) (l := path.toList.reverse)
  unfold beforeLastSlash at h
  split at h
  · cases h
  · next c rest hdrop =>
      obtain rfl := Option.some.inj h
      have hslash : c = '/' := by
        have hhead := List.head?_dropWhile_not (· ≠ '/') path.toList.reverse
        rw [hdrop] at hhead
        simpa using hhead
      rw [hdrop, hslash] at hwhole
      rw [lastSegment, String.toList_ofList, String.toList_ofList]
      calc path.toList = (path.toList.reverse.takeWhile (· ≠ '/') ++ '/' :: rest).reverse := by
            rw [hwhole, List.reverse_reverse]
        _ = _ := by simp

theorem beforeLastSlash_spec {path parent : String} (h : beforeLastSlash path = some parent) :
    ∃ last, path = parent ++ "/" ++ last := by
  refine ⟨lastSegment path, ?_⟩
  rw [← String.toList_inj, beforeLastSlash_some h]
  simp

/-- Above a proper segment there is nothing, or a path in normal form. -/
theorem parent_cases {rest parent last : String} (hrest : Proper rest)
    (h : "/" ++ rest = parent ++ "/" ++ last) :
    parent = "" ∨ ∃ above, parent = "/" ++ above ∧ Proper above := by
  have hslash : "/".toList = ['/'] := rfl
  have hlist := String.toList_inj.mpr h
  rw [String.toList_append, String.toList_append, String.toList_append, hslash,
    List.singleton_append, List.append_assoc, List.singleton_append] at hlist
  cases hparent : parent.toList with
  | nil => exact Or.inl (String.toList_eq_nil_iff.mp hparent)
  | cons c above =>
      rw [hparent, List.cons_append] at hlist
      obtain ⟨rfl, htail⟩ := List.cons.inj hlist
      refine Or.inr ⟨String.ofList above, ?_, ?_⟩
      · rw [← String.toList_inj, hparent]
        simp
      · have hsplit : rest = String.ofList above ++ "/" ++ last := by
          rw [← String.toList_inj]
          simpa using htail
        rw [hsplit, proper_append] at hrest
        exact hrest.1

theorem NormalForm.sibling {path name : String} (hp : NormalForm path) (hn : Proper name) :
    NormalForm (renamedPath path name) := by
  unfold renamedPath
  dsimp only
  split
  · exact normalForm_cons hn
  · next hroot =>
      obtain ⟨rest, rfl, hrest⟩ := hp.resolve_left hroot
      split
      · exact normalForm_cons hn
      · next hparent =>
          cases hbefore : beforeLastSlash ("/" ++ rest) with
          | none =>
              rw [hbefore] at hparent
              exact absurd rfl hparent
          | some parent =>
              obtain ⟨last, hlast⟩ := beforeLastSlash_spec hbefore
              rw [Option.getD_some]
              rcases parent_cases hrest hlast with rfl | ⟨above, rfl, habove⟩
              · exact normalForm_cons hn
              · have hnew : "/" ++ above ++ "/" ++ name = "/" ++ (above ++ "/" ++ name) := by
                  simp only [String.append_assoc]
                rw [hnew]
                exact normalForm_cons (proper_append.mpr ⟨habove, hn⟩)

/-- The path of the request is in normal form, and so is the new path of a rename. -/
def NormalRequest (req : Request) : Prop :=
  NormalForm req.path ∧ (req.op = .rename → ∃ path, req.data = asBytes path ∧ NormalForm path)

/-! ## 9P -/

/-- Fids have paths in normal form, and messages bring proper names. -/
def normal : Contract where
  Held _ path _ := NormalForm path
  Path := NormalForm
  Child := Proper
  Accepts _ _ := True
  path := id
  join := NormalForm.join
  sibling := NormalForm.sibling

def FidsNormal (s : NinepState) : Prop :=
  ∀ fid e, s.fids.lookup fid = some e → NormalForm e.path

section
variable {s : NinepState}

theorem FidsNormal.setFid (hs : FidsNormal s) (fid : UInt32) (qid : ℕ) {path : String}
    (hpath : NormalForm path) (isDir : Bool) : FidsNormal (s.setFid fid qid path isDir) := by
  intro f e hf
  rcases (lookup_insert_iff _ _ _ _ _).mp hf with ⟨_, rfl⟩ | ⟨_, hold⟩
  · exact hpath
  · exact hs f e hold

theorem FidsNormal.modifyFid (hs : FidsNormal s) (fid : UInt32) {g : FidEntry → FidEntry}
    (hg : ∀ e, NormalForm e.path → NormalForm (g e).path) : FidsNormal (s.modifyFid fid g) := by
  intro f e hf
  rw [lookup_modifyFid] at hf
  split at hf
  · obtain ⟨e', he', rfl⟩ := Option.map_eq_some_iff.mp hf
    exact hg e' (hs f e' he')
  · exact hs f e hf

theorem FidsNormal.allocQid (hs : FidsNormal s) (path : String) (isDir : Bool) :
    FidsNormal (s.allocQid path isDir).2 := by
  unfold FidsNormal
  rw [allocQid_fids]
  exact hs

theorem FidsNormal.removeFid (hs : FidsNormal s) (fid : UInt32) :
    FidsNormal { s with fids := s.fids.erase fid } := by
  intro f e hf
  exact hs f e ((lookup_erase_iff _ _ _ _).mp hf).2

end

/-- Sections that keep the contract find and leave fids with paths in normal form. -/
theorem FidsNormal.exec {s : Shared} (hs : FidsNormal s.state) (pending : Option Request)
    (c : Critical) (hG : normal.guarantee pending (.locked c)) :
    normal.rely (.locked c) (c.exec s).1 ∧ FidsNormal (c.exec s).2.state := by
  cases c with
  | getFid fid => exact ⟨fun e he => hs fid e he, hs⟩
  | attach fid => exact ⟨trivial, hs.setFid fid 0 (Or.inl rfl) true⟩
  | allocQid path isDir => exact ⟨hG, hs.allocQid path isDir⟩
  | setFid fid qid path isDir => exact ⟨trivial, hs.setFid fid qid hG isDir⟩
  | markOpen fid => exact ⟨trivial, hs.modifyFid fid fun _ h => h⟩
  | createFid fid path isDir =>
      exact ⟨hG, ((hs.allocQid path isDir).setFid fid _ hG isDir).modifyFid fid fun _ h => h⟩
  | listDir dir => exact ⟨trivial, hs⟩
  | removeFid fid => exact ⟨trivial, hs.removeFid fid⟩
  | renameFid fid qid path => exact ⟨trivial, hs.modifyFid fid fun _ _ => hG.1⟩
  | readMsize => exact ⟨trivial, hs⟩
  | writeMsize msize => exact ⟨trivial, hs⟩

theorem FidsNormal.reordered {s t : Shared} (hs : FidsNormal s.state) (h : s.Reordered t) :
    FidsNormal t.state := by
  intro fid e he
  rw [h.lookup_fids] at he
  exact hs fid e he

theorem FidsNormal.step {o : Op} {s s' : Shared} {r : Op.Ret o} {pending : Option Request}
    (hs : FidsNormal s.state) (hG : normal.guarantee pending o)
    (hsem : semantics anyRouter o s r s') : normal.rely o r ∧ FidsNormal s'.state := by
  cases o with
  | locked c =>
      obtain ⟨t, ht, hexec⟩ := hsem
      have hkept := (hs.reordered ht).exec pending c hG
      rw [hexec] at hkept
      exact hkept
  | route req => exact ⟨trivial, hsem.2 ▸ hs⟩
  | now => exact ⟨trivial, (show s' = s from hsem) ▸ hs⟩
  | send msg => exact ⟨trivial, (show s' = s from hsem) ▸ hs⟩
  | crash => exact Empty.elim r

/-- In every run of connections that send proper names, all requests are normal. -/
theorem ninep_requests {ι : Type} [DecidableEq ι] {msgs : ι → List Message}
    {t : List (Event ninep ι)} {c : Config ninep ι Shared}
    (run : Run (semantics anyRouter) (listener msgs) t c)
    (hnames : ∀ i, ∀ m ∈ msgs i, ∀ name ∈ namesOf m, Proper name) :
    ∀ e ∈ t, ∀ req, e.op = .route req → NormalRequest req := by
  have hnew : FidsNormal Shared.new.state := fun _ _ h => by cases h
  have hsem : ∀ o s r s' pending, FidsNormal (Shared.state s) → normal.guarantee pending o →
      semantics anyRouter o s r s' → normal.rely o r ∧ FidsNormal s'.state :=
    fun _ _ _ _ _ hs hG hsem => hs.step hG hsem
  have hall := (run_observed hsem run hnew (fun _ => none) fun i =>
    serveAll_sound (C := normal) (msgs i) (hnames i) none).2
  intro e he req hop
  obtain ⟨_, pending, hG⟩ := hall e he
  rw [hop] at hG
  exact hG

/-! ## SFTP -/

namespace Sftp
open SftpSessions

/-- The paths of a packet are in normal form once they have a slash in front. The new
path of a rename is sent without that. -/
def Conforms : Packet → Prop
  | .open _ path _ | .openDir _ path | .remove _ path | .mkDir _ path | .rmDir _ path
  | .stat _ path | .lstat _ path | .setStat _ path _ => NormalForm (normalized path)
  | .rename _ oldpath newpath => NormalForm (normalized oldpath) ∧ NormalForm newpath
  | _ => True

def HandlesNormal (s : HandleState) : Prop :=
  ∀ handle e, s.get handle = some e → NormalForm (normalized e.path)

section
variable {s : HandleState}

theorem HandlesNormal.alloc (hs : HandlesNormal s) {path : String}
    (hpath : NormalForm (normalized path)) (isDir : Bool) :
    HandlesNormal (s.alloc path isDir).2 := by
  intro handle e he
  rcases (lookup_insert_iff _ _ _ _ _).mp he with ⟨_, rfl⟩ | ⟨_, hold⟩
  · exact hpath
  · exact hs handle e hold

theorem HandlesNormal.free (hs : HandlesNormal s) (handle : String) :
    HandlesNormal (s.free handle) := by
  intro h e he
  exact hs h e ((lookup_erase_iff _ _ _ _).mp he).2

/-- Every request is normal, and so are the handles in the end. -/
abbrev Keeps (p : Prog sftp Result) : Prop :=
  Confined (fun req : Request => NormalRequest req) (fun r => HandlesNormal r.2) p

theorem keeps_route {op : FsOperation} {path : String} {data : Bytes}
    {f : Except String Bytes → Prog sftp Result} (hpath : NormalForm (normalized path))
    (hdata : op = .rename → ∃ path, data = asBytes path ∧ NormalForm path)
    (hf : ∀ x, Keeps (f x)) : Keeps (route op path data >>= f) :=
  confined_route ⟨hpath, hdata⟩ (fun _ => hf _) fun _ => hf _

theorem keeps_query {op : FsOperation} {path : String} {data : Bytes}
    {f : Except String Bytes → Prog sftp Result} (hpath : NormalForm (normalized path))
    (hop : op ≠ .rename) (hf : ∀ x, Keeps (f x)) : Keeps (route op path data >>= f) :=
  keeps_route hpath (fun h => absurd h hop) hf

theorem keeps_acknowledge (hs : HandlesNormal s) {op : FsOperation} {id : ℕ} {path : String}
    {data : Bytes} (hpath : NormalForm (normalized path)) (hop : op ≠ .rename) :
    Keeps (acknowledge s op id path data) :=
  confined_acknowledge ⟨hpath, fun h => absurd h hop⟩ hs hs

theorem keeps_withHandle (hs : HandlesNormal s) {handle : String}
    {f : HandleEntry → Prog sftp Result}
    (hf : ∀ e, NormalForm (normalized e.path) → Keeps (f e)) : Keeps (withHandle s handle f) :=
  confined_withHandle hs fun e he => hf e (hs handle e he)

theorem keeps_statImpl (hs : HandlesNormal s) (id : ℕ) {path : String}
    (hpath : NormalForm (normalized path)) : Keeps (statImpl s id path) :=
  confined_statImpl ⟨hpath, fun h => by cases h⟩ (fun _ _ => hs) hs

theorem keeps_replyTo {id : ℕ} {x : Prog sftp Result} (hx : Keeps x) :
    Confined (fun req : Request => NormalRequest req) (fun r => HandlesNormal r.2)
      (replyTo id x) :=
  confined_replyTo hx (fun _ _ hs => hs) fun _ _ hs => hs

theorem keeps_open (hs : HandlesNormal s) {id : ℕ} {path : String} {pflags : ℕ}
    (hpath : NormalForm (normalized path)) : Keeps (openFile s id path pflags) := by
  apply keeps_query hpath
  · split <;> decide
  · intro x
    cases x with
    | ok _ => exact hs.alloc hpath false
    | error _ => exact hs

theorem keeps_opendir (hs : HandlesNormal s) {id : ℕ} {path : String}
    (hpath : NormalForm (normalized path)) : Keeps (opendir s id path) := by
  apply keeps_query hpath (by decide)
  intro x
  cases x with
  | ok _ => exact hs.alloc hpath true
  | error _ => exact hs

theorem keeps_close (hs : HandlesNormal s) (id : ℕ) (handle : String) :
    Keeps (close s id handle) :=
  confined_close (fun e he => ⟨hs handle e he, fun h => by cases h⟩) (hs.free handle)

theorem keeps_read (hs : HandlesNormal s) (id : ℕ) (handle : String) (offset len : ℕ) :
    Keeps (read s id handle offset len) :=
  confined_read (fun e he => ⟨hs handle e he, fun h => by cases h⟩) (fun _ => hs) fun _ => hs

theorem keeps_readdir (hs : HandlesNormal s) (id : ℕ) (handle : String) :
    Keeps (readdir s id handle) :=
  confined_readdir (fun e he => ⟨hs handle e he, fun h => by cases h⟩) (fun _ => hs) fun _ => hs

theorem keeps_fSetStat (hs : HandlesNormal s) (id : ℕ) (handle : String) :
    Keeps (fSetStat s id handle) := by
  apply keeps_acknowledge hs _ (by decide)
  cases he : s.get handle with
  | none => exact Or.inl (by decide)
  | some e => exact hs handle e he

/-- The new path goes out as it came in. -/
theorem keeps_rename (hs : HandlesNormal s) (id : ℕ) {oldpath newpath : String}
    (hold : NormalForm (normalized oldpath)) (hnew : NormalForm newpath) :
    Keeps (rename s id oldpath newpath) := by
  apply keeps_route hold fun _ => ⟨newpath, rfl, hnew⟩
  intro x
  cases x <;> exact hs

theorem keeps_dispatch (hs : HandlesNormal s) {p : Packet} (hp : Conforms p) :
    Confined (fun req : Request => NormalRequest req) (fun r => HandlesNormal r.2)
      (dispatch s p) := by
  cases p with
  | «open» id path pflags => exact keeps_replyTo (keeps_open hs hp)
  | close id handle => exact keeps_replyTo (keeps_close hs id handle)
  | read id handle offset len => exact keeps_replyTo (keeps_read hs id handle offset len)
  | write id handle offset data =>
      exact keeps_replyTo (keeps_withHandle hs fun e he => keeps_acknowledge hs he (by decide))
  | openDir id path => exact keeps_replyTo (keeps_opendir hs hp)
  | readDir id handle => exact keeps_replyTo (keeps_readdir hs id handle)
  | remove id path => exact keeps_replyTo (keeps_acknowledge hs hp (by decide))
  | mkDir id path => exact keeps_replyTo (keeps_acknowledge hs hp (by decide))
  | rmDir id path => exact keeps_replyTo (keeps_acknowledge hs hp (by decide))
  | realPath id path => exact keeps_replyTo (x := realpath s id path) hs
  | stat id path => exact keeps_replyTo (keeps_statImpl hs id hp)
  | lstat id path => exact keeps_replyTo (keeps_statImpl hs id hp)
  | fstat id handle =>
      exact keeps_replyTo (keeps_withHandle hs fun e he => keeps_statImpl hs id he)
  | rename id oldpath newpath => exact keeps_replyTo (keeps_rename hs id hp.1 hp.2)
  | setStat id path attrs => exact keeps_replyTo (keeps_acknowledge hs hp (by decide))
  | fSetStat id handle attrs => exact keeps_replyTo (keeps_fSetStat hs id handle)
  | readLink _ | symlink _ | extended _ | other => exact hs

theorem keeps_sftpLoop (hs : HandlesNormal s) {ps : List Packet} (hps : ∀ p ∈ ps, Conforms p) :
    Confined (fun req : Request => NormalRequest req) (fun r => HandlesNormal r.2)
      (sftpLoop s ps) := by
  induction ps generalizing s with
  | nil => exact hs
  | cons p ps ih =>
      apply (keeps_dispatch hs (hps p (List.mem_cons_self ..))).bind
      intro r hr
      apply (ih hr fun p hp => hps p (List.mem_cons_of_mem _ hp)).bind
      exact fun r hr => hr

end

end Sftp

/-! ## Both frontends -/

/-- The directory that a path is in; the root is in itself. -/
def parentDirectory (path : String) : String :=
  match beforeLastSlash path with
  | some parent => if parent = "" then "/" else parent
  | none => "/"

/-- A walk along `..` binds its fid to the parent directory. -/
def Ascends (m : Message) : Prop :=
  m.ty = TWALK → walkedNames m.body (NinepDatagrams.uintAt 2 m.body 8) 10 = [".."] →
    ∀ h, Passes (serveMessage m) h (.done ()) → ∀ asked e fid qid path isDir,
      ⟨.locked (.getFid asked), some e⟩ ∈ h → ⟨.locked (.setFid fid qid path isDir), ()⟩ ∈ h →
        path = parentDirectory e.path

/-- In every run in which all names are proper, and in every session in which all paths
are, the router is sent nothing but paths in normal form. -/
theorem requests_in_normal_form {ι : Type} [DecidableEq ι] (msgs : ι → List Message)
    (t : List (Event ninep ι)) (c : Config ninep ι Shared) (ps : List SftpSessions.Packet)
    (h : List (Answered SftpSessions.sftp))
    (q : Prog SftpSessions.sftp (List SftpSessions.Reply × SftpSessions.HandleState)) :
    (Run (semantics anyRouter) (listener msgs) t c →
      (∀ i, ∀ m ∈ msgs i, ∀ name ∈ namesOf m, Proper name) →
      (∀ e ∈ t, ∀ req, e.op = .route req → NormalRequest req) ∧ ∀ i, ∀ m ∈ msgs i, Ascends m) ∧
    (Passes (SftpSessions.sftpLoop SftpSessions.HandleState.new ps) h q →
      (∀ p ∈ ps, Sftp.Conforms p) → ∀ a ∈ h, NormalRequest a.op) := by
  constructor
  · intro run hnames
    refine ⟨ninep_requests run hnames, ?_⟩
    intro i m hm hty hup
    have hdots : ".." ∈ namesOf m := by
      rw [namesOf, hty]
      exact hup ▸ List.mem_singleton_self _
    exact absurd (hnames i m hm _ hdots) (by decide)
  · intro hp hps
    have hnew : Sftp.HandlesNormal SftpSessions.HandleState.new := fun _ _ h => by cases h
    exact (Sftp.keeps_sftpLoop hnew hps).ops hp

def attachRoot : Message := ⟨TATTACH, 1, [0, 0, 0, 0, 255, 255, 255, 255]⟩

/-- Walk from fid 0 along `..` to fid 1. -/
def walkUp : Message := ⟨TWALK, 1, [0, 0, 0, 0, 1, 0, 0, 0, 1, 0, 2, 0, 46, 46]⟩

/-- The handling of both, up to the answer of the router. -/
def walkingUp : List (Answered ninep) :=
  [⟨.locked (.attach 0), ()⟩, ⟨.send (message RATTACH 1 (encodeQid ⟨0x80, 0, 0⟩)), ()⟩,
    ⟨.locked (.getFid 0), some (⟨0, "/", false, true⟩ : FidEntry)⟩,
    ⟨.route ⟨.lookup, "/..", []⟩, Answer.routerGone⟩]

theorem not_normal_dots : ¬ NormalForm "/.." := by
  rintro (h | ⟨name, hname, hproper⟩)
  · exact absurd h (by decide)
  · have hdots : "/" ++ ".." = "/" ++ name := hname
    rw [String.append_right_inj] at hdots
    rw [← hdots] at hproper
    exact absurd hproper (by decide)

/-- Two dots reach the router in both frontends. -/
theorem dots_reach_the_router :
    (¬ ∀ (msgs : Unit → List Message) (t : List (Event ninep Unit)) (c : Config ninep Unit Shared),
      Run (semantics anyRouter) (listener msgs) t c →
      ∀ e ∈ t, ∀ req, e.op = .route req → NormalRequest req) ∧
    ¬ ∀ ps h q, Passes (SftpSessions.sftpLoop SftpSessions.HandleState.new ps) h q →
      ∀ a ∈ h, NormalRequest a.op := by
  constructor
  · intro h
    have hp : ∃ q, Passes (serveAll [attachRoot, walkUp]) walkingUp q :=
      ⟨_, .answer _ _ _ (.answer _ _ _ (.answer _ _ _ (.answer _ _ _ (.refl _))))⟩
    have hs : ∃ s, Performs (semantics anyRouter) Shared.new walkingUp s :=
      ⟨_, .answer _ _ (semantics_exec _ _) (.answer _ _ rfl (.answer _ _ (semantics_exec _ _)
        (.answer _ _ ⟨trivial, rfl⟩ (.refl _))))⟩
    obtain ⟨q, hp⟩ := hp
    obtain ⟨s, hs⟩ := hs
    have run : Run (semantics anyRouter) (listener fun _ : Unit => [attachRoot, walkUp])
        (alone () walkingUp) _ := hp.run () hs rfl
    have hlast := h _ _ _ run ⟨(), .route ⟨.lookup, "/..", []⟩, Answer.routerGone⟩
      (List.mem_of_getElem? (i := 3) rfl)
    exact not_normal_dots (hlast _ rfl).1
  · intro h
    have hp : ∃ q, Passes (SftpSessions.sftpLoop SftpSessions.HandleState.new [.stat 1 "/.."])
        [⟨⟨.getAttr, "/..", []⟩, none⟩] q := ⟨_, .answer _ _ _ (.refl _)⟩
    obtain ⟨q, hp⟩ := hp
    exact not_normal_dots (h _ _ _ hp _ (List.mem_singleton_self _)).1

end Pinhead.NormalPaths
