import Mathlib.Data.PEquiv
import Pinhead.NinepRuns

/-!
# Replies up to the numbering of qids

Two executions of the same handlers may hand out different numbers for the same
paths. A renumbering pairs the numbers of one execution with those of the other;
it pairs each number at most once, starts with the root, and only grows.

Replies are compared as messages with their qids still visible: everything but
the numbers has to agree, and the numbers have to be paired. Each handler is then
compared with itself, for the fids in a fixed set `F`.
-/
namespace Pinhead.QidRenumbering
open ByteStrings FsRequests Resumption NinepShared NinepHandlers NinepRuns

abbrev Renumbering := {ρ : ℕ ≃. ℕ // 0 ∈ ρ 0}

namespace Renumbering

def Pairs (ρ : Renumbering) (q q' : ℕ) : Prop := q' ∈ ρ.1 q

/-- The root alone. -/
def initial : Renumbering := ⟨PEquiv.single 0 0, by simp⟩

/-- One new pair of numbers that were both unpaired. -/
def extend (ρ : Renumbering) (a b : ℕ) (ha : ∀ q', ¬ ρ.Pairs a q') (hb : ∀ q, ¬ ρ.Pairs q b) :
    Renumbering where
  val :=
    { toFun := fun q => if q = a then some b else ρ.1 q
      invFun := fun q' => if q' = b then some a else ρ.1.symm q'
      inv := by
        intro q q'
        by_cases hq : q = a
        · by_cases hq' : q' = b
          · simp [hq, hq']
          · have hnone : ¬ a ∈ ρ.1.symm q' := fun h => ha q' (PEquiv.mem_iff_mem ρ.1 |>.mp h)
            rw [if_neg hq', if_pos hq]
            subst q
            simpa [Ne.symm hq'] using hnone
        · by_cases hq' : q' = b
          · have hnone : ¬ b ∈ ρ.1 q := hb q
            rw [if_pos hq', if_neg hq]
            subst q'
            simpa [Ne.symm hq] using hnone
          · simpa [hq, hq'] using PEquiv.mem_iff_mem ρ.1 }
  property := by
    have hne : (0 : ℕ) ≠ a := fun h => ha 0 (h ▸ ρ.2)
    change (0 : ℕ) ∈ (if (0 : ℕ) = a then some b else ρ.1 0)
    rw [if_neg hne]
    exact ρ.2

variable {ρ : Renumbering} {a b : ℕ} {ha : ∀ q', ¬ ρ.Pairs a q'} {hb : ∀ q, ¬ ρ.Pairs q b}

theorem Pairs.mono {σ : Renumbering} {q q' : ℕ} (h : ρ.Pairs q q') (hle : ρ ≤ σ) :
    σ.Pairs q q' := hle q q' h

theorem Pairs.right_unique {q q' q'' : ℕ} (h : ρ.Pairs q q') (k : ρ.Pairs q q'') : q' = q'' :=
  Option.mem_unique h k

theorem Pairs.left_unique {q q' q'' : ℕ} (h : ρ.Pairs q q'') (k : ρ.Pairs q' q'') : q = q' :=
  PEquiv.inj ρ.1 h k

theorem extend_pairs (ρ : Renumbering) (a b : ℕ) (ha : ∀ q', ¬ ρ.Pairs a q')
    (hb : ∀ q, ¬ ρ.Pairs q b) (q q' : ℕ) :
    (ρ.extend a b ha hb).Pairs q q' ↔ (q = a ∧ q' = b) ∨ ρ.Pairs q q' := by
  change q' ∈ (if q = a then some b else ρ.1 q) ↔ _
  by_cases hq : q = a
  · subst q
    simp [ha q', eq_comm]
  · simp [hq, Pairs]

theorem le_extend : ρ ≤ ρ.extend a b ha hb := by
  intro q q' h
  exact (extend_pairs ρ a b ha hb q q').mpr (Or.inr h)

end Renumbering

/-! ## Replies with their qids visible -/

structure Stat where
  now : ℕ
  name : String
  qid : Qid
  length : ℕ
  isDir : Bool

def Stat.encode (s : Stat) : Bytes := statBytes s.now s.name s.qid s.length s.isDir

inductive Reply where
  | plain (ty : UInt8) (tag : UInt16) (body : Bytes)
  | walk (tag : UInt16) (count : ℕ) (qids : List Qid)
  | create (tag : UInt16) (qid : Qid)
  | stat (tag : UInt16) (record : Stat)
  | listing (tag : UInt16) (offset : ℕ) (stats : List Stat)

def Reply.encode : Reply → Bytes
  | .plain ty tag body => message ty tag body
  | .walk tag count qids => message RWALK tag (leBytes 2 count ++ qids.flatMap encodeQid)
  | .create tag qid => message RCREATE tag (encodeQid qid)
  | .stat tag record => message RSTAT tag (leBytes 2 record.encode.length ++ record.encode)
  | .listing tag offset stats =>
      let chunk := (stats.flatMap Stat.encode).drop offset
      message RREAD tag (leBytes 4 chunk.length ++ chunk)

structure SameQid (ρ : Renumbering) (q q' : Qid) : Prop where
  ty : q.ty = q'.ty
  version : q.version = q'.version
  path : ρ.Pairs q.path q'.path

structure SameStat (ρ : Renumbering) (s s' : Stat) : Prop where
  now : s.now = s'.now
  name : s.name = s'.name
  qid : SameQid ρ s.qid s'.qid
  length : s.length = s'.length
  isDir : s.isDir = s'.isDir

inductive SameReply (ρ : Renumbering) : Reply → Reply → Prop
  | plain (ty : UInt8) (tag : UInt16) (body : Bytes) :
      SameReply ρ (.plain ty tag body) (.plain ty tag body)
  | walk (tag : UInt16) (count : ℕ) {qids qids' : List Qid} :
      List.Forall₂ (SameQid ρ) qids qids' →
      SameReply ρ (.walk tag count qids) (.walk tag count qids')
  | create (tag : UInt16) {qid qid' : Qid} : SameQid ρ qid qid' →
      SameReply ρ (.create tag qid) (.create tag qid')
  | stat (tag : UInt16) {s s' : Stat} : SameStat ρ s s' →
      SameReply ρ (.stat tag s) (.stat tag s')
  | listing (tag : UInt16) (offset : ℕ) {stats stats' : List Stat} :
      List.Forall₂ (SameStat ρ) stats stats' →
      SameReply ρ (.listing tag offset stats) (.listing tag offset stats')

/-- The bytes of two replies that differ in the numbers of their qids only. -/
def Renumbered (ρ : Renumbering) (m m' : Bytes) : Prop :=
  ∃ r r', SameReply ρ r r' ∧ r.encode = m ∧ r'.encode = m'

/-- The type of a reply does not depend on the numbering. -/
theorem Renumbered.type {ρ : Renumbering} {m m' : Bytes} (hm : Renumbered ρ m m') :
    m[4]? = m'[4]? := by
  have hty : ∀ ty tag body, (message ty tag body)[4]? = some ty := by
    intro ty tag body
    simp [message, leBytes]
  obtain ⟨r, r', hr, rfl, rfl⟩ := hm
  cases hr <;> simp only [Reply.encode, hty]

theorem SameQid.mono {ρ σ : Renumbering} {q q' : Qid} (h : SameQid ρ q q') (hle : ρ ≤ σ) :
    SameQid σ q q' := ⟨h.ty, h.version, h.path.mono hle⟩

theorem sameQid_mk {ρ : Renumbering} (ty : UInt8) (version : ℕ) {q q' : ℕ} (h : ρ.Pairs q q') :
    SameQid ρ ⟨ty, version, q⟩ ⟨ty, version, q'⟩ := ⟨rfl, rfl, h⟩

theorem SameStat.mono {ρ σ : Renumbering} {s s' : Stat} (h : SameStat ρ s s') (hle : ρ ≤ σ) :
    SameStat σ s s' := ⟨h.now, h.name, h.qid.mono hle, h.length, h.isDir⟩

theorem SameReply.mono {ρ σ : Renumbering} {r r' : Reply} (h : SameReply ρ r r') (hle : ρ ≤ σ) :
    SameReply σ r r' := by
  cases h with
  | plain ty tag body => exact .plain ty tag body
  | walk tag count h => exact .walk tag count (h.imp fun _ _ hq => hq.mono hle)
  | create tag h => exact .create tag (h.mono hle)
  | stat tag h => exact .stat tag (h.mono hle)
  | listing tag offset h => exact .listing tag offset (h.imp fun _ _ hs => hs.mono hle)

/-! ## Corresponding operations -/

/-- Whether a fid is open is never read. -/
structure SameFid (ρ : Renumbering) (e e' : FidEntry) : Prop where
  qid : ρ.Pairs e.qid e'.qid
  path : e.path = e'.path
  isDir : e.isDir = e'.isDir

structure SameEntry (ρ : Renumbering) (e e' : DirEntry) : Prop where
  name : e.name = e'.name
  qid : ρ.Pairs e.qid e'.qid
  isDir : e.isDir = e'.isDir

theorem SameFid.mono {ρ σ : Renumbering} {e e' : FidEntry} (h : SameFid ρ e e') (hle : ρ ≤ σ) :
    SameFid σ e e' := ⟨h.qid.mono hle, h.path, h.isDir⟩

theorem SameEntry.mono {ρ σ : Renumbering} {e e' : DirEntry} (h : SameEntry ρ e e')
    (hle : ρ ≤ σ) : SameEntry σ e e' := ⟨h.name, h.qid.mono hle, h.isDir⟩

/-- Operations that differ in the numbers of qids only, with what is known of
their answers afterwards. -/
inductive Matches (F : Set UInt32) : Matching Renumbering ninep
  | getFid {ρ : Renumbering} {fid : UInt32} : fid ∈ F →
      Matches F ρ (.locked (.getFid fid)) (.locked (.getFid fid))
        fun σ (e e' : Option FidEntry) => Option.Rel (SameFid σ) e e'
  | attach {ρ : Renumbering} (fid : UInt32) :
      Matches F ρ (.locked (.attach fid)) (.locked (.attach fid)) fun _ _ _ => True
  | allocQid {ρ : Renumbering} (path : String) (isDir : Bool) :
      Matches F ρ (.locked (.allocQid path isDir)) (.locked (.allocQid path isDir))
        fun σ (q q' : ℕ) => σ.Pairs q q'
  | setFid {ρ : Renumbering} (fid : UInt32) {qid qid' : ℕ} (path : String) (isDir : Bool) :
      ρ.Pairs qid qid' → Matches F ρ (.locked (.setFid fid qid path isDir))
        (.locked (.setFid fid qid' path isDir)) fun _ _ _ => True
  | markOpen {ρ : Renumbering} (fid : UInt32) :
      Matches F ρ (.locked (.markOpen fid)) (.locked (.markOpen fid)) fun _ _ _ => True
  | createFid {ρ : Renumbering} (fid : UInt32) (path : String) (isDir : Bool) :
      Matches F ρ (.locked (.createFid fid path isDir)) (.locked (.createFid fid path isDir))
        fun σ (q q' : ℕ) => σ.Pairs q q'
  | listDir {ρ : Renumbering} (dir : String) :
      Matches F ρ (.locked (.listDir dir)) (.locked (.listDir dir))
        fun σ (es es' : List DirEntry) => List.Forall₂ (SameEntry σ) es es'
  | removeFid {ρ : Renumbering} (fid : UInt32) :
      Matches F ρ (.locked (.removeFid fid)) (.locked (.removeFid fid)) fun _ _ _ => True
  | renameFid {ρ : Renumbering} (fid : UInt32) {qid qid' : ℕ} (newPath : String) :
      ρ.Pairs qid qid' → Matches F ρ (.locked (.renameFid fid qid newPath))
        (.locked (.renameFid fid qid' newPath)) fun _ _ _ => True
  | readMsize {ρ : Renumbering} :
      Matches F ρ (.locked .readMsize) (.locked .readMsize) fun _ (n n' : ℕ) => n = n'
  | writeMsize {ρ : Renumbering} (msize : ℕ) :
      Matches F ρ (.locked (.writeMsize msize)) (.locked (.writeMsize msize)) fun _ _ _ => True
  | route {ρ : Renumbering} (req : Request) :
      Matches F ρ (.route req) (.route req) fun _ (r r' : Answer) => r = r'
  | now {ρ : Renumbering} : Matches F ρ .now .now fun _ (n n' : ℕ) => n = n'
  | send {ρ : Renumbering} {m m' : Bytes} : Renumbered ρ m m' →
      Matches F ρ (.send m) (.send m') fun _ _ _ => True
  | crash {ρ : Renumbering} : Matches F ρ .crash .crash fun _ _ _ => True

theorem Matches.mono {F : Set UInt32} {ρ σ : Renumbering} {o o' : Op}
    {R : Renumbering → Op.Ret o → Op.Ret o' → Prop} (hle : ρ ≤ σ) (h : Matches F ρ o o' R) :
    Matches F σ o o' R := by
  cases h with
  | getFid hfid => exact .getFid hfid
  | attach fid => exact .attach fid
  | allocQid path isDir => exact .allocQid path isDir
  | setFid fid path isDir hq => exact .setFid fid path isDir (hq.mono hle)
  | markOpen fid => exact .markOpen fid
  | createFid fid path isDir => exact .createFid fid path isDir
  | listDir dir => exact .listDir dir
  | removeFid fid => exact .removeFid fid
  | renameFid fid newPath hq => exact .renameFid fid newPath (hq.mono hle)
  | readMsize => exact .readMsize
  | writeMsize msize => exact .writeMsize msize
  | route req => exact .route req
  | now => exact .now
  | send hm =>
      obtain ⟨r, r', hr, h, h'⟩ := hm
      exact .send ⟨r, r', hr.mono hle, h, h'⟩
  | crash => exact .crash

/-! ## Steps of a handler -/

/-- The fid written at position `i` of a body. -/
def namedAt (body : Bytes) (i : ℕ) : Option UInt32 :=
  (slice body i (i + 4)).map fun bs => UInt32.ofNat (leValue bs)

/-- The messages whose body starts with a fid. -/
def fidTypes : List UInt8 :=
  [TATTACH, TWALK, TOPEN, TREAD, TWRITE, TCLUNK, TCREATE, TREMOVE, TSTAT, TWSTAT]

/-- The fids that a message names; a walk names a second one. -/
def fidsOf (m : Message) : List UInt32 :=
  (if m.ty ∈ fidTypes then (namedAt m.body 0).toList else []) ++
    (if m.ty = TWALK then (namedAt m.body 4).toList else [])

section
variable {F : Set UInt32} {ρ : Renumbering} {A : Type}

/-- The same value on both sides. -/
def Same (_ : Renumbering) (a b : A) : Prop := a = b

/-- Both handlers ended without an error. -/
def Ended (_ : Renumbering) (_ _ : Unit) : Prop := True

theorem alike_op {o o' : Op} {R : Renumbering → Op.Ret o → Op.Ret o' → Prop}
    (h : Matches F ρ o o' R) :
    Alike (Matches F) R ρ (liftM (Prog.perform (S := ninep) o) : Handler (Op.Ret o))
      (liftM (Prog.perform (S := ninep) o')) :=
  alike_lift (Similar.perform h)

theorem alike_crash {Q : Renumbering → A → A → Prop} :
    Alike (Matches F) Q ρ (crash : Handler A) crash :=
  .call .crash fun _ _ e => Empty.elim e

theorem alike_failIf (p : Prop) [Decidable p] (e : String) :
    Alike (Matches F) Same ρ (failIf p e) (failIf p e) := by
  unfold failIf
  split
  · exact alike_throw e
  · exact alike_pure rfl

theorem alike_range (body : Bytes) (i j : ℕ) :
    Alike (Matches F) (fun _ a b => a = b ∧ slice body i j = some a) ρ
      (range body i j) (range body i j) := by
  unfold range
  split
  · next h => exact alike_pure ⟨rfl, h⟩
  · exact alike_crash

theorem alike_bytes (body : Bytes) (i j : ℕ) :
    Alike (Matches F) Same ρ (range body i j) (range body i j) := by
  unfold range
  split
  · exact alike_pure rfl
  · exact alike_crash

theorem alike_readUint (width : ℕ) (body : Bytes) (i : ℕ) :
    Alike (Matches F) Same ρ (readUint width body i) (readUint width body i) := by
  apply (alike_bytes _ _ _).same
  intro ρ₁ h₁ bs
  exact alike_pure rfl

theorem alike_readFid (body : Bytes) (i : ℕ) :
    Alike (Matches F) (fun _ a b => a = b ∧ namedAt body i = some a) ρ
      (readFid body i) (readFid body i) := by
  unfold readFid readUint
  apply Alike.bind (Q := fun _ a b => a = b ∧ (slice body i (i + 4)).map leValue = some a)
  · apply (alike_range _ _ _).bind
    rintro ρ₁ h₁ bs _ ⟨rfl, hbs⟩
    exact alike_pure ⟨rfl, by rw [hbs]; rfl⟩
  · rintro ρ₁ h₁ n _ ⟨rfl, hn⟩
    refine alike_pure ⟨rfl, ?_⟩
    obtain ⟨bs, hbs, rfl⟩ := Option.map_eq_some_iff.mp hn
    rw [namedAt, hbs]
    rfl

theorem alike_getFid {fid : UInt32} (hfid : fid ∈ F) :
    Alike (Matches F) SameFid ρ (getFid fid) (getFid fid) := by
  apply (alike_op (.getFid hfid)).bind
  intro ρ₁ h₁ e e' he
  cases he with
  | some h => exact alike_pure h
  | none => exact alike_throw _

theorem alike_request (what : String) (op : FsOperation) (path : String) (data : Bytes) :
    Alike (Matches F) Same ρ (request what op path data) (request what op path data) := by
  apply (alike_op (.route ⟨op, path, data⟩)).same
  intro ρ₁ h₁ answer
  cases answer with
  | routerGone => exact alike_throw _
  | handlerGone => exact alike_throw _
  | reply result =>
      cases result with
      | error e => exact alike_throw _
      | ok r => exact alike_pure rfl

theorem alike_reply {r r' : Reply} (h : SameReply ρ r r') :
    Alike (Matches F) Ended ρ
      (liftM (Prog.perform (S := ninep) (.send r.encode)) : Handler Unit)
      (liftM (Prog.perform (S := ninep) (.send r'.encode))) :=
  alike_op (.send ⟨r, r', h, rfl, rfl⟩)

theorem alike_sendReply (ty : UInt8) (tag : UInt16) (body : Bytes) :
    Alike (Matches F) Ended ρ (sendReply ty tag body) (sendReply ty tag body) :=
  alike_reply (r := .plain ty tag body) (.plain ty tag body)

/-! ## The handlers -/

theorem alike_parseVersion (body : Bytes) :
    Alike (Matches F) Same ρ (parseVersion body) (parseVersion body) := by
  unfold parseVersion
  split
  · apply (alike_readUint _ _ _).same
    intro ρ₁ h₁ vlen
    split
    · apply (alike_bytes _ _ _).same
      intro ρ₂ h₂ raw
      exact alike_pure rfl
    · exact alike_pure rfl
  · exact alike_pure rfl

theorem alike_handleVersion (tag : UInt16) (body : Bytes) :
    Alike (Matches F) Ended ρ (handleVersion tag body) (handleVersion tag body) := by
  apply (alike_failIf _ _).same
  intro ρ₁ h₁ _
  apply (alike_readUint _ _ _).same
  intro ρ₂ h₂ proposed
  apply (alike_parseVersion body).same
  intro ρ₃ h₃ version
  apply (alike_op (.writeMsize _)).bind
  intro ρ₄ h₄ _ _ _
  exact alike_sendReply _ _ _

theorem alike_handleAttach (tag : UInt16) (body : Bytes) :
    Alike (Matches F) Ended ρ (handleAttach tag body) (handleAttach tag body) := by
  apply (alike_failIf _ _).same
  intro ρ₁ h₁ _
  apply (alike_readFid body 0).bind
  rintro ρ₂ h₂ fid _ ⟨rfl, _⟩
  apply (alike_readFid body 4).bind
  rintro ρ₃ h₃ afid _ ⟨rfl, _⟩
  apply (alike_op (.attach fid)).bind
  intro ρ₄ h₄ _ _ _
  exact alike_sendReply _ _ _

/-- The same walk with paired qids. -/
structure SameWalk (ρ : Renumbering) (w w' : Walk) : Prop where
  offset : w.offset = w'.offset
  curPath : w.curPath = w'.curPath
  curQid : ρ.Pairs w.curQid w'.curQid
  wqids : List.Forall₂ (SameQid ρ) w.wqids w'.wqids
  isDir : w.isDir = w'.isDir

theorem alike_lookupLast (isLast : Bool) (path : String) :
    Alike (Matches F) Same ρ (lookupLast isLast path) (lookupLast isLast path) := by
  unfold lookupLast
  split
  · apply (alike_request _ _ _ _).same
    intro ρ₁ h₁ _
    exact alike_pure rfl
  · exact alike_pure rfl

theorem alike_walkNames (body : Bytes) (left : ℕ) {w w' : Walk} (hw : SameWalk ρ w w') :
    Alike (Matches F) SameWalk ρ (walkNames body left w) (walkNames body left w') := by
  induction left generalizing ρ w w' with
  | zero => exact alike_pure hw
  | succ left ih =>
      unfold walkNames
      rw [← hw.offset, ← hw.curPath]
      apply (alike_failIf _ _).same
      intro ρ₁ h₁ _
      apply (alike_readUint _ _ _).same
      intro ρ₂ h₂ nlen
      apply (alike_failIf _ _).same
      intro ρ₃ h₃ _
      apply (alike_bytes _ _ _).same
      intro ρ₄ h₄ raw
      apply (alike_lookupLast _ _).same
      intro ρ₅ h₅ _
      apply (alike_op (.allocQid _ _)).bind
      intro ρ₆ h₆ q q' hq
      apply ih
      have hle : ρ ≤ ρ₆ := h₁.trans (h₂.trans (h₃.trans (h₄.trans (h₅.trans h₆))))
      have hold : List.Forall₂ (SameQid ρ₆) w.wqids w'.wqids := hw.wqids.imp fun _ _ h => h.mono hle
      exact ⟨rfl, rfl, hq, List.rel_append hold (.cons (sameQid_mk _ _ hq) .nil), rfl⟩

theorem alike_handleWalk (tag : UInt16) (body : Bytes) (hF : ∀ fid, namedAt body 0 = some fid → fid ∈ F) :
    Alike (Matches F) Ended ρ (handleWalk tag body) (handleWalk tag body) := by
  apply (alike_failIf _ _).same
  intro ρ₁ h₁ _
  apply (alike_readFid body 0).bind
  rintro ρ₂ h₂ fid _ ⟨rfl, hfid⟩
  apply (alike_readFid body 4).bind
  rintro ρ₃ h₃ newFid _ ⟨rfl, _⟩
  apply (alike_readUint _ _ _).same
  intro ρ₄ h₄ nwname
  apply (alike_getFid (hF fid hfid)).bind
  intro ρ₅ h₅ parent parent' hparent
  have hstart : SameWalk ρ₅ ⟨10, parent.path, parent.qid, [], parent.isDir⟩
      ⟨10, parent'.path, parent'.qid, [], parent'.isDir⟩ :=
    ⟨rfl, hparent.path, hparent.qid, .nil, hparent.isDir⟩
  apply (alike_walkNames body nwname hstart).bind
  intro ρ₆ h₆ w w' hw
  rw [← hw.curPath, ← hw.isDir]
  apply (alike_op (.setFid newFid w.curPath w.isDir hw.curQid)).bind
  intro ρ₇ h₇ _ _ _
  exact alike_reply (.walk tag nwname (hw.wqids.imp fun _ _ h => h.mono h₇))

theorem alike_handleOpen (tag : UInt16) (body : Bytes) (hF : ∀ fid, namedAt body 0 = some fid → fid ∈ F) :
    Alike (Matches F) Ended ρ (handleOpen tag body) (handleOpen tag body) := by
  apply (alike_failIf _ _).same
  intro ρ₁ h₁ _
  apply (alike_readFid body 0).bind
  rintro ρ₂ h₂ fid _ ⟨rfl, hfid⟩
  apply (alike_bytes _ _ _).same
  intro ρ₃ h₃ mode
  apply (alike_getFid (hF fid hfid)).bind
  intro ρ₄ h₄ entry entry' hentry
  rw [← hentry.path, ← hentry.isDir]
  apply (alike_request _ _ _ _).same
  intro ρ₅ h₅ _
  apply (alike_op (.markOpen fid)).bind
  intro ρ₆ h₆ _ _ _
  apply (alike_op .readMsize).same
  intro ρ₇ h₇ msize
  exact alike_sendReply _ _ _

theorem alike_handleCreate (tag : UInt16) (body : Bytes) (hF : ∀ fid, namedAt body 0 = some fid → fid ∈ F) :
    Alike (Matches F) Ended ρ (handleCreate tag body) (handleCreate tag body) := by
  apply (alike_failIf _ _).same
  intro ρ₁ h₁ _
  apply (alike_readFid body 0).bind
  rintro ρ₂ h₂ fid _ ⟨rfl, hfid⟩
  apply (alike_readUint _ _ _).same
  intro ρ₃ h₃ nameLen
  apply (alike_failIf _ _).same
  intro ρ₄ h₄ _
  apply (alike_bytes _ _ _).same
  intro ρ₅ h₅ raw
  apply (alike_readUint _ _ _).same
  intro ρ₆ h₆ perm
  apply (alike_bytes _ _ _).same
  intro ρ₇ h₇ mode
  apply (alike_getFid (hF fid hfid)).bind
  intro ρ₈ h₈ parent parent' hparent
  rw [← hparent.path]
  apply (alike_request _ _ _ _).same
  intro ρ₉ h₉ _
  apply (alike_op (.createFid fid _ _)).bind
  intro ρ' h' q q' hq
  exact alike_reply (.create tag (sameQid_mk _ _ hq))

theorem alike_encodeStat (name : String) {qid qid' : Qid} (length : ℕ) (isDir : Bool)
    (h : SameQid ρ qid qid') :
    Alike (Matches F) (fun σ data data' => ∃ s s', SameStat σ s s' ∧ s.encode = data ∧
      s'.encode = data') ρ
      (encodeStat name qid length isDir) (encodeStat name qid' length isDir) := by
  apply (alike_op .now).same
  intro ρ₁ h₁ now
  exact alike_pure ⟨⟨now, name, qid, length, isDir⟩, ⟨now, name, qid', length, isDir⟩,
    ⟨rfl, rfl, h.mono h₁, rfl, rfl⟩, rfl, rfl⟩

/-- Stat records in a row, up to the numbers of their qids. -/
def SameListing (ρ : Renumbering) (data data' : Bytes) : Prop :=
  ∃ stats stats', List.Forall₂ (SameStat ρ) stats stats' ∧
    stats.flatMap Stat.encode = data ∧ stats'.flatMap Stat.encode = data'

theorem SameListing.mono {σ : Renumbering} {data data' : Bytes} (h : SameListing ρ data data')
    (hle : ρ ≤ σ) : SameListing σ data data' := by
  obtain ⟨stats, stats', hsame, hdata, hdata'⟩ := h
  exact ⟨stats, stats', hsame.imp fun _ _ hs => hs.mono hle, hdata, hdata'⟩

theorem SameListing.cons {data data' : Bytes} {s s' : Stat} (hs : SameStat ρ s s')
    (h : SameListing ρ data data') : SameListing ρ (s.encode ++ data) (s'.encode ++ data') := by
  obtain ⟨stats, stats', hsame, rfl, rfl⟩ := h
  exact ⟨s :: stats, s' :: stats', .cons hs hsame, rfl, rfl⟩

theorem alike_encodeEntries {es es' : List DirEntry} (h : List.Forall₂ (SameEntry ρ) es es') :
    Alike (Matches F) SameListing ρ (encodeEntries es) (encodeEntries es') := by
  induction es generalizing ρ es' with
  | nil =>
      cases h
      exact alike_pure ⟨[], [], .nil, rfl, rfl⟩
  | cons e es ih =>
      obtain ⟨e', es', he, hes, rfl⟩ := List.forall₂_cons_left_iff.mp h
      unfold encodeEntries
      rw [← he.name, ← he.isDir]
      apply (alike_encodeStat e.name 0 e.isDir (sameQid_mk _ _ he.qid)).bind
      rintro ρ₁ h₁ _ _ ⟨s, s', hs, rfl, rfl⟩
      apply (ih (hes.imp fun _ _ hx => hx.mono h₁)).bind
      intro ρ₂ h₂ rest rest' hrest
      exact alike_pure (SameListing.cons (hs.mono h₂) hrest)

theorem alike_withDot (offset : ℕ) {data data' : Bytes} (h : SameListing ρ data data') :
    Alike (Matches F) SameListing ρ (withDot offset data) (withDot offset data') := by
  unfold withDot
  split
  · apply (alike_encodeStat "." 0 true (sameQid_mk _ _ ρ.2)).bind
    rintro ρ₁ h₁ _ _ ⟨s, s', hs, rfl, rfl⟩
    exact alike_pure (SameListing.cons hs (h.mono h₁))
  · exact alike_pure h

theorem alike_handleRead (tag : UInt16) (body : Bytes) (hF : ∀ fid, namedAt body 0 = some fid → fid ∈ F) :
    Alike (Matches F) Ended ρ (handleRead tag body) (handleRead tag body) := by
  apply (alike_failIf _ _).same
  intro ρ₁ h₁ _
  apply (alike_readFid body 0).bind
  rintro ρ₂ h₂ fid _ ⟨rfl, hfid⟩
  apply (alike_readUint _ _ _).same
  intro ρ₃ h₃ offset
  apply (alike_readUint _ _ _).same
  intro ρ₄ h₄ count
  apply (alike_getFid (hF fid hfid)).bind
  intro ρ₅ h₅ entry entry' hentry
  rw [← hentry.path, ← hentry.isDir]
  split
  · apply (alike_request _ _ _ _).same
    intro ρ₆ h₆ _
    apply (alike_op (.listDir entry.path)).bind
    intro ρ₇ h₇ es es' hes
    apply (alike_encodeEntries hes).bind
    intro ρ₈ h₈ listing listing' hlisting
    apply (alike_withDot offset hlisting).bind
    rintro ρ₉ h₉ _ _ ⟨stats, stats', hstats, rfl, rfl⟩
    exact alike_reply (.listing tag offset hstats)
  · apply (alike_request _ _ _ _).same
    intro ρ₆ h₆ resp
    exact alike_sendReply _ _ _

theorem alike_handleWrite (tag : UInt16) (body : Bytes) (hF : ∀ fid, namedAt body 0 = some fid → fid ∈ F) :
    Alike (Matches F) Ended ρ (handleWrite tag body) (handleWrite tag body) := by
  apply (alike_failIf _ _).same
  intro ρ₁ h₁ _
  apply (alike_readFid body 0).bind
  rintro ρ₂ h₂ fid _ ⟨rfl, hfid⟩
  apply (alike_readUint _ _ _).same
  intro ρ₃ h₃ offset
  apply (alike_readUint _ _ _).same
  intro ρ₄ h₄ count
  apply (alike_getFid (hF fid hfid)).bind
  intro ρ₅ h₅ entry entry' hentry
  rw [← hentry.path]
  apply (alike_bytes _ _ _).same
  intro ρ₆ h₆ data
  apply (alike_request _ _ _ _).same
  intro ρ₇ h₇ _
  exact alike_sendReply _ _ _

theorem alike_releaseFid {entry entry' : Option FidEntry} (h : Option.Rel (SameFid ρ) entry entry') :
    Alike (Matches F) Same ρ (releaseFid entry) (releaseFid entry') := by
  cases h with
  | none => exact alike_pure rfl
  | @some e e' he =>
      obtain ⟨qid, path, isOpen, isDir⟩ := e
      obtain ⟨qid', path', isOpen', isDir'⟩ := e'
      obtain rfl : path = path' := he.path
      apply (alike_op (.route ⟨.release, path, []⟩)).same
      intro ρ₁ h₁ _
      exact alike_pure rfl

theorem alike_handleClunk (tag : UInt16) (body : Bytes) (hF : ∀ fid, namedAt body 0 = some fid → fid ∈ F) :
    Alike (Matches F) Ended ρ (handleClunk tag body) (handleClunk tag body) := by
  apply (alike_failIf _ _).same
  intro ρ₁ h₁ _
  apply (alike_readFid body 0).bind
  rintro ρ₂ h₂ fid _ ⟨rfl, hfid⟩
  apply (alike_op (.getFid (hF fid hfid))).bind
  intro ρ₃ h₃ entry entry' hentry
  apply (alike_releaseFid hentry).same
  intro ρ₄ h₄ _
  apply (alike_op (.removeFid fid)).bind
  intro ρ₅ h₅ _ _ _
  exact alike_sendReply _ _ _

theorem alike_handleRemove (tag : UInt16) (body : Bytes) (hF : ∀ fid, namedAt body 0 = some fid → fid ∈ F) :
    Alike (Matches F) Ended ρ (handleRemove tag body) (handleRemove tag body) := by
  apply (alike_failIf _ _).same
  intro ρ₁ h₁ _
  apply (alike_readFid body 0).bind
  rintro ρ₂ h₂ fid _ ⟨rfl, hfid⟩
  apply (alike_getFid (hF fid hfid)).bind
  intro ρ₃ h₃ entry entry' hentry
  rw [← hentry.path, ← hentry.isDir]
  apply (alike_request _ _ _ _).same
  intro ρ₄ h₄ _
  exact alike_sendReply _ _ _

theorem alike_handleStat (tag : UInt16) (body : Bytes) (hF : ∀ fid, namedAt body 0 = some fid → fid ∈ F) :
    Alike (Matches F) Ended ρ (handleStat tag body) (handleStat tag body) := by
  apply (alike_failIf _ _).same
  intro ρ₁ h₁ _
  apply (alike_readFid body 0).bind
  rintro ρ₂ h₂ fid _ ⟨rfl, hfid⟩
  apply (alike_getFid (hF fid hfid)).bind
  intro ρ₃ h₃ entry entry' hentry
  rw [← hentry.path, ← hentry.isDir]
  apply (alike_request _ _ _ _).same
  intro ρ₄ h₄ resp
  apply (alike_encodeStat _ _ _ (sameQid_mk _ _ (hentry.qid.mono h₄))).bind
  rintro ρ₅ h₅ _ _ ⟨s, s', hs, rfl, rfl⟩
  exact alike_reply (.stat tag hs)

theorem alike_newName (path : String) (stat : Bytes) (off : ℕ) :
    Alike (Matches F) Same ρ (newName path stat off) (newName path stat off) := by
  unfold newName
  split
  · apply (alike_readUint _ _ _).same
    intro ρ₁ h₁ nameLen
    split
    · apply (alike_bytes _ _ _).same
      intro ρ₂ h₂ raw
      exact alike_pure rfl
    · exact alike_pure rfl
  · exact alike_pure rfl

theorem alike_applyStat (fid : UInt32) {entry entry' : FidEntry} (stat : Bytes)
    (hentry : SameFid ρ entry entry') :
    Alike (Matches F) Ended ρ (applyStat fid entry stat) (applyStat fid entry' stat) := by
  unfold applyStat
  rw [← hentry.path]
  apply (alike_newName _ _ _).same
  intro ρ₁ h₁ name
  cases name with
  | some name =>
      apply (alike_request _ _ _ _).same
      intro ρ₂ h₂ _
      exact alike_op (.renameFid fid _ (hentry.qid.mono (h₁.trans h₂)))
  | none =>
      dsimp only
      split
      · apply (alike_request _ _ _ _).same
        intro ρ₂ h₂ _
        exact alike_pure trivial
      · exact alike_pure trivial

theorem alike_handleWstat (tag : UInt16) (body : Bytes) (hF : ∀ fid, namedAt body 0 = some fid → fid ∈ F) :
    Alike (Matches F) Ended ρ (handleWstat tag body) (handleWstat tag body) := by
  apply (alike_failIf _ _).same
  intro ρ₁ h₁ _
  apply (alike_readFid body 0).bind
  rintro ρ₂ h₂ fid _ ⟨rfl, hfid⟩
  apply (alike_getFid (hF fid hfid)).bind
  intro ρ₃ h₃ entry entry' hentry
  apply (alike_bytes _ _ _).same
  intro ρ₄ h₄ data
  apply (alike_failIf _ _).same
  intro ρ₅ h₅ _
  apply (alike_readUint _ _ _).same
  intro ρ₆ h₆ statLen
  apply (alike_bytes _ _ _).same
  intro ρ₇ h₇ stat
  split
  · exact alike_sendReply _ _ _
  · have hle : ρ₃ ≤ ρ₇ := h₄.trans (h₅.trans (h₆.trans h₇))
    apply (alike_applyStat fid stat (hentry.mono hle)).bind
    intro ρ₈ h₈ _ _ _
    exact alike_sendReply _ _ _

/-- Every message is handled alike, as long as `F` holds the fids it names. -/
theorem alike_handleMessage (m : Message) (hF : ∀ fid ∈ fidsOf m, fid ∈ F) :
    Alike (Matches F) Ended ρ (handleMessage m) (handleMessage m) := by
  have hnamed : m.ty ∈ fidTypes → ∀ fid, namedAt m.body 0 = some fid → fid ∈ F := by
    intro hty fid hfid
    apply hF
    simp [fidsOf, hty, hfid]
  generalize hx : handleMessage m = x
  unfold handleMessage at hx
  split at hx <;> rename_i hty <;> subst hx
  · exact alike_handleVersion _ _
  · exact alike_handleAttach _ _
  · exact alike_handleWalk _ _ (hnamed (by rw [hty]; decide))
  · exact alike_handleOpen _ _ (hnamed (by rw [hty]; decide))
  · exact alike_handleRead _ _ (hnamed (by rw [hty]; decide))
  · exact alike_handleWrite _ _ (hnamed (by rw [hty]; decide))
  · exact alike_handleClunk _ _ (hnamed (by rw [hty]; decide))
  · exact alike_handleCreate _ _ (hnamed (by rw [hty]; decide))
  · exact alike_handleRemove _ _ (hnamed (by rw [hty]; decide))
  · exact alike_handleStat _ _ (hnamed (by rw [hty]; decide))
  · exact alike_handleWstat _ _ (hnamed (by rw [hty]; decide))
  · exact alike_sendReply _ _ _
  · exact alike_throw _

theorem similar_serveMessage (m : Message) (hF : ∀ fid ∈ fidsOf m, fid ∈ F) :
    Similar (Matches F) Ended ρ (serveMessage m) (serveMessage m) := by
  apply Similar.bind (alike_handleMessage m hF)
  intro ρ₁ h₁ r r' hr
  cases r with
  | ok _ =>
      cases r' with
      | ok _ => exact .done trivial
      | error e => exact hr.elim
  | error e =>
      cases r' with
      | ok _ => exact hr.elim
      | error e' =>
          cases hr
          have hsame : Renumbered ρ₁ (message RERROR m.tag (errorBody e))
              (message RERROR m.tag (errorBody e)) := ⟨_, _, .plain RERROR m.tag _, rfl, rfl⟩
          exact Similar.perform (Matches.send hsame)

theorem similar_serveAll (ms : List Message) (hF : ∀ m ∈ ms, ∀ fid ∈ fidsOf m, fid ∈ F) :
    Similar (Matches F) Ended ρ (serveAll ms) (serveAll ms) := by
  induction ms generalizing ρ with
  | nil => exact .done trivial
  | cons m ms ih =>
      simp only [serveAll]
      apply (similar_serveMessage m (hF m (List.mem_cons_self ..))).bind
      intro ρ₁ h₁ _ _ _
      exact ih fun m' hm' => hF m' (List.mem_cons_of_mem _ hm')

end

end Pinhead.QidRenumbering
