import Pinhead.FuseFilesystem

/-!
# What one callback can do

Most callbacks leave the inode table as it is or add entries under fresh numbers.
Forget takes one entry out, and an accepted rename gives one inode a new path. This
module says so once for each callback, together with the paths that a callback may
send to the router, so that no invariant has to look into the callbacks again.
-/
namespace Pinhead.FuseSteps
open ByteStrings FsRequests Resumption Histories FuseFilesystem
open NinepShared (joinPath)

/-! ## Confined callbacks -/

section
variable {A : Type} {R : Request → Prop} {P : A → Prop}

/-- Every request satisfies `R` and every result `P`, whatever the answers. -/
abbrev Sends (R : Request → Prop) (P : A → Prop) (p : Prog fuse A) : Prop :=
  Confined (fun o => ∀ req, o = Op.route req → R req) P p

theorem sends_asked {p q : Prog fuse A} (hs : Sends R P p) {h : List (Answered fuse)}
    (hp : Passes p h q) : ∀ req ∈ asked h, R req := by
  intro req hreq
  obtain ⟨⟨o, a⟩, he, hsome⟩ := List.mem_filterMap.mp hreq
  cases o with
  | route req' =>
      obtain rfl := Option.some.inj hsome
      exact hs.ops hp _ he _ rfl
  | now => cases hsome
  | choose => cases hsome

theorem sends_sendReq {op : FsOperation} {path : String} {data : Bytes}
    {f : Except String Bytes → Prog fuse A} (hreq : R ⟨op, path, data⟩)
    (hf : ∀ x, Sends R P (f x)) : Sends R P (sendReq op path data >>= f) := by
  refine ⟨?_, fun a => hf (outcome a)⟩
  intro req h
  rw [← Op.route.inj h]
  exact hreq

theorem sends_attrNow {ino size : ℕ} {isDir : Bool} {f : FileAttr → Prog fuse A}
    (hf : ∀ attr, Sends R P (f attr)) : Sends R P (attrNow ino size isDir >>= f) :=
  ⟨nofun, fun _ => hf _⟩

theorem sends_findInode {s : FuseState} {path : String} {f : Option ℕ → Prog fuse A}
    (hf : ∀ found, (∀ ino ∈ found, ino ∈ s.inodesAt path) →
      (found = none → s.inodesAt path = []) → Sends R P (f found)) :
    Sends R P (findInode s path >>= f) := by
  refine ⟨nofun, fun choice => hf _ ?_ ?_⟩
  · exact fun ino hino => List.mem_of_getElem? hino
  · intro hnone
    rw [List.getElem?_eq_none_iff] at hnone
    by_contra hne
    exact absurd (Nat.mod_lt choice (List.length_pos_iff.mpr hne)) (not_lt.mpr hnone)

end

/-! ## Growing tables -/

/-- Entries were added under fresh numbers and nothing else changed in the table. -/
structure Extends (s s' : FuseState) : Prop where
  next : s.inoNext ≤ s'.inoNext
  kept : ∀ ino, ino < s.inoNext ∨ s'.inoNext ≤ ino → s'.pathFor ino = s.pathFor ino

theorem Extends.refl (s : FuseState) : Extends s s := ⟨le_rfl, fun _ _ => rfl⟩

theorem Extends.trans {s t u : FuseState} (h : Extends s t) (h' : Extends t u) : Extends s u := by
  constructor
  · exact h.next.trans h'.next
  · intro ino hino
    have hnext := h.next
    have hnext' := h'.next
    rw [h'.kept ino (by omega), h.kept ino (by omega)]

theorem extends_cacheSize (s : FuseState) (path : String) (size : ℕ) :
    Extends s (s.cacheSize path size) := ⟨le_rfl, fun _ _ => rfl⟩

theorem extends_handOut (s : FuseState) (path : String) : Extends s (s.handOut path) := by
  constructor
  · exact Nat.le_succ _
  · intro ino hino
    apply AList.lookup_insert_ne
    rintro rfl
    change s.inoNext < s.inoNext ∨ s.inoNext + 1 ≤ s.inoNext at hino
    omega

theorem extends_recordEntries (path : String) (names : List String) (s : FuseState) :
    Extends s (recordEntries path names s).2 := by
  induction names generalizing s with
  | nil => exact Extends.refl s
  | cons name names ih => exact (extends_handOut s _).trans (ih _)

/-! ## Callbacks -/

/-- The requests that a callback may send in a state. -/
def Routes (s : FuseState) (req : Request) : Callback → Prop
  | .lookup parent name => req.path = joinPath (parentPath s parent) (fromUtf8Lossy name)
  | .getattr ino | .read ino _ _ | .write ino _ _ | .release ino | .opendir ino | .releasedir ino
  | .setattr ino _ _ _ _ _ _ => s.pathFor ino = some req.path
  | .readdir ino _ _ => if ino = 1 then req.path = "/" else s.pathFor ino = some req.path
  | .mkdir parent name | .unlink parent name | .rmdir parent name | .rename parent name _ _ =>
      req.path = childPath s parent name
  | _ => False

/-- The tables and the reply that it may lead to. -/
def Leads (s : FuseState) (r : Result) : Callback → Prop
  | .forget ino => r.2 = if ino ≠ 1 then { s with paths := s.paths.erase ino } else s
  | .unlink _ _ | .rmdir _ _ => r.2 = s
  | .rename parent name newparent newname =>
      let old := childPath s parent name
      r.2 = s ∧ (r.1 = .ok → s.inodesAt old = []) ∨
      r.1 = .ok ∧ ∃ ino ∈ s.inodesAt old, r.2 = s.recordPath ino (childPath s newparent newname)
  | _ => Extends s r.2

/-- The inode that a callback works on, for those that work on one. -/
def onInode : Callback → Option ℕ
  | .getattr ino | .readdir ino _ _ | .read ino _ _ | .write ino _ _ | .release ino | .opendir ino
  | .releasedir ino | .setattr ino _ _ _ _ _ _ => some ino
  | _ => none

/-- Its requests are all for the recorded path. -/
theorem routes_onInode {s : FuseState} {req : Request} {cb : Callback} {ino : ℕ}
    (hon : onInode cb = some ino) (hino : ino ≠ 1) (h : Routes s req cb) :
    s.pathFor ino = some req.path := by
  cases cb with
  | readdir ino' offset room =>
      obtain rfl := Option.some.inj hon
      exact (if_neg hino).mp h
  | getattr _ | read _ _ _ | write _ _ _ | release _ | opendir _ | releasedir _
  | setattr _ _ _ _ _ _ _ =>
      obtain rfl := Option.some.inj hon
      exact h
  | _ => cases hon

/-- The directory and the name that a callback asks about, for those that do. -/
def inDirectory : Callback → Option (ℕ × Bytes)
  | .lookup parent name | .mkdir parent name | .unlink parent name | .rmdir parent name
  | .rename parent name _ _ => some (parent, name)
  | _ => none

/-- Its requests are all for that name below the recorded path. -/
theorem routes_inDirectory {s : FuseState} {req : Request} {cb : Callback} {parent : ℕ}
    {name : Bytes} {path : String} (hin : inDirectory cb = some (parent, name))
    (hpath : s.pathFor parent = some path) (h : Routes s req cb) :
    req.path = joinPath path (fromUtf8Lossy name) ∨
      req.path = trimEndMatches '/' path ++ "/" ++ fromUtf8Lossy name := by
  have hparent : parentPath s parent = path := by rw [parentPath, hpath, Option.getD_some]
  cases cb with
  | lookup _ _ =>
      cases hin
      left
      rw [← hparent]
      exact h
  | mkdir _ _ | unlink _ _ | rmdir _ _ | rename _ _ _ _ =>
      cases hin
      right
      rw [← hparent]
      exact h
  | _ => cases hin

section
variable {R : Request → Prop} {P : Result → Prop} (s : FuseState)

theorem sends_pure {A : Type} {P : A → Prop} {a : A} (h : P a) : Sends R P (pure a) := h

theorem sends_withPath {ino : ℕ} {f : String → Prog fuse Result}
    (hnone : P (.error .enoent, s)) (hf : ∀ path, s.pathFor ino = some path → Sends R P (f path)) :
    Sends R P (withPath s ino f) := by
  cases hpath : s.pathFor ino with
  | none =>
      rw [withPath_none hpath]
      exact hnone
  | some path =>
      rw [withPath_some hpath]
      exact hf path hpath

/-- The end of most callbacks: attributes as of now, and the tables as given. -/
theorem sends_reply_attr {ino size : ℕ} {isDir : Bool} {reply : FileAttr → Reply} {s' : FuseState}
    (h : ∀ attr, P (reply attr, s')) : Sends R P (do
      let attr ← attrNow ino size isDir
      pure (reply attr, s')) :=
  sends_attrNow fun attr => h attr

theorem sends_lookup (mounted parent : ℕ) (name : Bytes) :
    Sends (fun req => Routes s req (.lookup parent name)) (fun r => Extends s r.2)
      (lookup s mounted parent name) := by
  unfold lookup
  dsimp only
  split
  · split
    · exact sends_pure (Extends.refl s)
    · exact sends_reply_attr fun _ => Extends.refl s
  · apply sends_sendReq
    · exact rfl
    · intro x
      cases x with
      | ok data =>
          apply sends_sendReq
          · exact rfl
          · intro y
            cases y with
            | ok attrData =>
                dsimp only
                split <;> exact sends_reply_attr fun _ => extends_handOut s _
            | error _ => exact sends_reply_attr fun _ => extends_handOut s _
      | error msg =>
          dsimp only
          split
          · exact sends_reply_attr fun _ => extends_handOut s _
          · exact sends_pure (Extends.refl s)

theorem sends_getattr (mounted ino : ℕ) :
    Sends (fun req => Routes s req (.getattr ino)) (fun r => Extends s r.2)
      (getattr s mounted ino) := by
  unfold getattr
  split
  · exact sends_pure (Extends.refl s)
  · apply sends_withPath s (Extends.refl s)
    intro path hpath
    apply sends_sendReq hpath
    intro x
    cases x with
    | ok data =>
        dsimp only
        split
        · exact sends_reply_attr fun _ => Extends.refl s
        · split
          · split
            · exact sends_reply_attr fun _ => Extends.refl s
            · apply sends_sendReq hpath
              intro y
              cases y <;> exact sends_reply_attr fun _ => Extends.refl s
          · exact sends_reply_attr fun _ => Extends.refl s
    | error msg =>
        apply sends_sendReq hpath
        intro y
        cases y with
        | ok data => exact sends_reply_attr fun _ => Extends.refl s
        | error lookupMsg =>
            dsimp only
            split
            · exact sends_reply_attr fun _ => Extends.refl s
            · exact sends_pure (Extends.refl s)

/-- Callbacks on an inode that send one request and then decide. -/
theorem sends_onInode {ino : ℕ} {op : FsOperation} {data : Bytes}
    {f : String → Except String Bytes → Prog fuse Result} (hnone : P (.error .enoent, s))
    (hf : ∀ path x, s.pathFor ino = some path →
      Sends (fun req => s.pathFor ino = some req.path) P (f path x)) :
    Sends (fun req => s.pathFor ino = some req.path) P
      (withPath s ino fun path => sendReq op path data >>= f path) := by
  apply sends_withPath s hnone
  intro path hpath
  apply sends_sendReq
  · exact hpath
  · exact fun x => hf path x hpath

theorem sends_read (ino offset size : ℕ) :
    Sends (fun req => Routes s req (.read ino offset size)) (fun r => Extends s r.2)
      (read s ino offset size) := by
  apply sends_onInode s (Extends.refl s)
  intro path x _
  cases x with
  | ok data => exact sends_pure (extends_cacheSize s _ _)
  | error _ => exact sends_pure (Extends.refl s)

theorem sends_write (ino offset : ℕ) (data : Bytes) :
    Sends (fun req => Routes s req (.write ino offset data)) (fun r => Extends s r.2)
      (write s ino offset data) := by
  apply sends_onInode s (Extends.refl s)
  intro path x _
  cases x with
  | ok _ => exact sends_pure (extends_cacheSize s _ _)
  | error _ => exact sends_pure (Extends.refl s)

theorem sends_releasing (ino : ℕ) :
    Sends (fun req => s.pathFor ino = some req.path) (fun r => Extends s r.2)
      (releasing s ino) := by
  apply sends_onInode s (Extends.refl s)
  intro path x _
  exact sends_pure (Extends.refl s)

theorem sends_opendir (ino : ℕ) :
    Sends (fun req => Routes s req (.opendir ino)) (fun r => Extends s r.2) (opendir s ino) := by
  apply sends_onInode s (Extends.refl s)
  intro path x _
  cases x <;> exact sends_pure (Extends.refl s)

theorem sends_setattr (ino : ℕ) (mode uid gid size : Option ℕ) (atime mtime : Option TimeOrNow) :
    Sends (fun req => Routes s req (.setattr ino mode uid gid size atime mtime))
      (fun r => Extends s r.2) (setattr s ino mode uid gid size atime mtime) := by
  apply sends_onInode s (Extends.refl s)
  intro path x hpath
  cases x with
  | ok data => exact sends_reply_attr fun _ => Extends.refl s
  | error _ =>
      apply sends_sendReq
      · exact hpath
      · intro y
        cases y with
        | ok data => exact sends_reply_attr fun _ => Extends.refl s
        | error _ => exact sends_pure (Extends.refl s)

theorem sends_parentInode {ino : ℕ} {path : String} {f : ℕ → Prog fuse Result}
    (hf : ∀ parent, Sends R P (f parent)) : Sends R P (parentInode s ino path >>= f) := by
  unfold parentInode
  split
  · exact hf 1
  · exact sends_findInode fun found _ _ => hf (found.getD 1)

theorem sends_readdir (ino offset room : ℕ) :
    Sends (fun req => Routes s req (.readdir ino offset room)) (fun r => Extends s r.2)
      (readdir s ino offset room) := by
  unfold readdir
  dsimp only
  split
  · next hroot =>
      apply sends_parentInode
      intro parent
      apply sends_sendReq
      · exact (if_pos hroot).mpr rfl
      · intro x
        cases x with
        | ok data => exact sends_pure (extends_recordEntries _ _ s)
        | error _ => exact sends_pure (Extends.refl s)
  · next hother =>
      apply sends_withPath s (Extends.refl s)
      intro path hpath
      apply sends_parentInode
      intro parent
      apply sends_sendReq
      · exact (if_neg hother).mpr hpath
      · intro x
        cases x with
        | ok data => exact sends_pure (extends_recordEntries _ _ s)
        | error _ => exact sends_pure (Extends.refl s)

theorem sends_create (parent : ℕ) (name : Bytes) :
    Sends (fun req => Routes s req (.create parent name)) (fun r => Extends s r.2)
      (create s parent name) :=
  sends_reply_attr fun _ => extends_handOut s _

theorem sends_mkdir (parent : ℕ) (name : Bytes) :
    Sends (fun req => Routes s req (.mkdir parent name)) (fun r => Extends s r.2)
      (mkdir s parent name) := by
  unfold mkdir
  apply sends_sendReq
  · exact rfl
  · intro x
    cases x with
    | ok _ =>
        apply sends_sendReq
        · exact rfl
        · intro y
          cases y <;> exact sends_reply_attr fun _ => extends_handOut s _
    | error _ => exact sends_pure (Extends.refl s)

theorem sends_removing (op : FsOperation) (parent : ℕ) (name : Bytes) :
    Sends (fun req => req.path = childPath s parent name) (fun r => r.2 = s)
      (removing s op parent name) := by
  unfold removing
  apply sends_sendReq
  · exact rfl
  · intro x
    cases x <;> exact sends_pure rfl

theorem sends_rename (parent : ℕ) (name : Bytes) (newparent : ℕ) (newname : Bytes) :
    Sends (fun req => Routes s req (.rename parent name newparent newname))
      (fun r => Leads s r (.rename parent name newparent newname))
      (rename s parent name newparent newname) := by
  unfold rename
  apply sends_sendReq
  · exact rfl
  · intro x
    cases x with
    | ok _ =>
        apply sends_findInode
        intro found hfound hnone
        cases found with
        | some ino => exact sends_pure (Or.inr ⟨rfl, ino, hfound ino rfl, rfl⟩)
        | none => exact sends_pure (Or.inl ⟨rfl, fun _ => hnone rfl⟩)
    | error _ => exact sends_pure (Or.inl ⟨rfl, nofun⟩)

theorem sends_forget (ino : ℕ) :
    Sends (fun req => Routes s req (.forget ino)) (fun r => Leads s r (.forget ino))
      (forget s ino) := by
  unfold forget
  split
  · next hne => exact sends_pure (if_pos hne).symm
  · next heq => exact sends_pure (if_neg heq).symm

/-- What a callback can do, whatever it is answered. -/
theorem sends_dispatch (mounted : ℕ) (cb : Callback) :
    Sends (fun req => Routes s req cb) (fun r => Leads s r cb) (dispatch mounted s cb) := by
  cases cb with
  | lookup parent name => exact sends_lookup s mounted parent name
  | getattr ino => exact sends_getattr s mounted ino
  | readdir ino offset room => exact sends_readdir s ino offset room
  | read ino offset size => exact sends_read s ino offset size
  | write ino offset data => exact sends_write s ino offset data
  | release ino => exact sends_releasing s ino
  | opendir ino => exact sends_opendir s ino
  | releasedir ino => exact sends_releasing s ino
  | forget ino => exact sends_forget s ino
  | create parent name => exact sends_create s parent name
  | mkdir parent name => exact sends_mkdir s parent name
  | unlink parent name => exact sends_removing s .unlink parent name
  | rmdir parent name => exact sends_removing s .rmDir parent name
  | rename parent name newparent newname => exact sends_rename s parent name newparent newname
  | setattr ino mode uid gid size atime mtime =>
      exact sends_setattr s ino mode uid gid size atime mtime
  | _ => exact sends_pure (Extends.refl s)

end

/-! ## Runs -/

/-- One callback with everything that happened during it. -/
structure Turn where
  before : FuseState
  callback : Callback
  history : List (Answered fuse)
  reply : Reply
  after : FuseState

inductive Turns (mounted : ℕ) : FuseState → List Turn → FuseState → Prop
  | nil (s : FuseState) : Turns mounted s [] s
  | cons (t : Turn) {ts : List Turn} {s : FuseState} :
      Passes (dispatch mounted t.before t.callback) t.history (.done (t.reply, t.after)) →
      Turns mounted t.after ts s → Turns mounted t.before (t :: ts) s

/-- The turns of a session. -/
theorem turns_of_session {mounted : ℕ} {s s' : FuseState} {cbs : List Callback}
    {h : List (Answered fuse)} {replies : List Reply}
    (hp : Passes (session mounted s cbs) h (.done (replies, s'))) :
    ∃ ts, Turns mounted s ts s' ∧ ts.map Turn.callback = cbs ∧ ts.map Turn.reply = replies ∧
      ts.flatMap Turn.history = h := by
  induction cbs generalizing s h replies with
  | nil =>
      obtain ⟨rfl, hdone⟩ := passes_done hp
      cases hdone
      exact ⟨[], .nil _, rfl, rfl, rfl⟩
  | cons cb cbs ih =>
      rw [session] at hp
      obtain ⟨⟨reply, t⟩, h₁, h₂, rfl, hfirst, hrest⟩ := passes_bind_done hp
      obtain ⟨⟨replies', t'⟩, k₁, k₂, rfl, hlater, hdone⟩ := passes_bind_done hrest
      obtain ⟨rfl, hdone⟩ := passes_done hdone
      cases hdone
      obtain ⟨ts, hts, rfl, rfl, rfl⟩ := ih hlater
      refine ⟨⟨s, cb, h₁, reply, t⟩ :: ts, .cons ⟨s, cb, h₁, reply, t⟩ hfirst hts, rfl, rfl, ?_⟩
      rw [List.flatMap_cons, List.append_nil]

/-- The numbers from `inoNext` on are free, and the root is always there. -/
structure Sound (s : FuseState) : Prop where
  fresh : ∀ ino, s.inoNext ≤ ino → s.pathFor ino = none
  root : s.pathFor 1 ≠ none
  next : 1 < s.inoNext

theorem sound_new : Sound FuseState.new := by
  constructor
  · intro ino hino
    have hne : ino ≠ 1 := by
      change 2 ≤ ino at hino
      omega
    change (AList.singleton 1 "/" : AList fun _ : ℕ => String).lookup ino = none
    rw [← AList.insert_empty, AList.lookup_insert_ne hne, AList.lookup_empty]
  · exact nofun
  · exact Nat.one_lt_two

theorem mem_inodesAt {s : FuseState} {ino : ℕ} {path : String} :
    ino ∈ s.inodesAt path ↔ s.pathFor ino = some path := by
  unfold FuseState.inodesAt FuseState.pathFor
  rw [← Option.mem_def, AList.mem_lookup_iff]
  constructor
  · intro hino
    obtain ⟨⟨i, p⟩, he, rfl⟩ := List.mem_map.mp hino
    obtain ⟨he, hpath⟩ := List.mem_filter.mp he
    rw [← eq_of_beq hpath]
    exact he
  · intro he
    exact List.mem_map.mpr ⟨_, List.mem_filter.mpr ⟨he, beq_self_eq_true path⟩, rfl⟩

theorem pathFor_recordPath (s : FuseState) (ino ino' : ℕ) (path : String) :
    (s.recordPath ino path).pathFor ino' = if ino' = ino then some path else s.pathFor ino' := by
  unfold FuseState.pathFor FuseState.recordPath
  split
  · next h =>
      rw [h]
      exact AList.lookup_insert _
  · next h => exact AList.lookup_insert_ne h

theorem Extends.sound {s s' : FuseState} (h : Extends s s') (hs : Sound s) : Sound s' := by
  have hnext := h.next
  constructor
  · intro ino hino
    rw [h.kept ino (Or.inr hino)]
    exact hs.fresh ino (by omega)
  · rw [h.kept 1 (Or.inl hs.next)]
    exact hs.root
  · exact hs.next.trans_le hnext

theorem Sound.recordPath {s : FuseState} (hs : Sound s) {ino : ℕ} {old : String}
    (hino : ino ∈ s.inodesAt old) (path : String) : Sound (s.recordPath ino path) := by
  constructor
  · intro ino' hino'
    have hfree := hs.fresh ino' hino'
    rw [pathFor_recordPath, if_neg, hfree]
    rintro rfl
    rw [mem_inodesAt.mp hino] at hfree
    cases hfree
  · rw [pathFor_recordPath]
    split
    · exact Option.some_ne_none _
    · exact hs.root
  · exact hs.next

theorem Sound.erase {s : FuseState} (hs : Sound s) {ino : ℕ} (hino : ino ≠ 1) :
    Sound { s with paths := s.paths.erase ino } := by
  constructor
  · intro ino' hino'
    by_cases heq : ino' = ino
    · rw [heq]
      exact AList.lookup_erase ino s.paths
    · exact (AList.lookup_erase_ne heq).trans (hs.fresh ino' hino')
  · rw [FuseState.pathFor, AList.lookup_erase_ne (Ne.symm hino)]
    exact hs.root
  · exact hs.next

theorem Sound.leads {s : FuseState} (hs : Sound s) {r : Result} {cb : Callback}
    (h : Leads s r cb) : Sound r.2 := by
  cases cb with
  | forget ino =>
      rw [show r.2 = _ from h]
      split
      · next hino => exact hs.erase hino
      · exact hs
  | unlink parent name =>
      rw [show r.2 = s from h]
      exact hs
  | rmdir parent name =>
      rw [show r.2 = s from h]
      exact hs
  | rename parent name newparent newname =>
      rcases h with ⟨hsame, _⟩ | ⟨_, ino, hino, hmoved⟩
      · rw [hsame]
        exact hs
      · rw [hmoved]
        exact hs.recordPath hino _
  | _ => exact Extends.sound h hs

theorem Sound.turns {mounted : ℕ} {s s' : FuseState} {ts : List Turn} (hs : Sound s)
    (h : Turns mounted s ts s') : Sound s' := by
  induction h with
  | nil s => exact hs
  | cons t hp _ ih => exact ih (hs.leads ((sends_dispatch t.before mounted t.callback).result hp))

end Pinhead.FuseSteps
