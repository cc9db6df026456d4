import Pinhead.NinepScripts

/-!
# What handlers ask of the tables and give in return

Handlers build paths from the paths of fids and the names in their messages, ask
the router about them and bind them to fids again. A contract fixes what is known
of a triple of qid, path and directory flag that the tables hand out, which names
the messages bring, and what must then hold of every path that is looked up,
allocated, bound or sent to the router. None of it mentions the state, so it
passes through any interleaving.

The ghost value is the last rename that the router accepted from the connection;
a rename of the tables always follows the request it belongs to.
-/
namespace Pinhead.NinepContracts
open ByteStrings FsRequests Resumption Histories NinepShared NinepHandlers NinepRuns
open NinepTotality NinepDatagrams NinepScripts

/-! ## Names in messages -/

/-- The names that a walk reads, up to one that is cut short. -/
def walkedNames (body : Bytes) : ℕ → ℕ → List String
  | 0, _ => []
  | left + 1, off =>
      if off + 2 > body.length then []
      else if off + 2 + uintAt 2 body off > body.length then []
      else nameAt body off :: walkedNames body left (off + 2 + uintAt 2 body off)

def createdNames (body : Bytes) : List String :=
  if 6 + uintAt 2 body 4 + 5 > body.length then [] else [nameAt body 4]

/-- The text that a wstat finds where it looks for a new name. -/
def suppliedNames (stat : Bytes) : List String :=
  let off := (statLayout stat.length).nameAt
  if off + 2 ≤ stat.length ∧ 0 < uintAt 2 stat off ∧ off + 2 + uintAt 2 stat off ≤ stat.length then
    [nameAt stat off]
  else []

/-- Every name that the handling of a message may put into a path. -/
def namesOf (m : Message) : List String :=
  match m.ty with
  | TWALK => walkedNames m.body (uintAt 2 m.body 8) 10
  | TCREATE => createdNames m.body
  | TWSTAT => suppliedNames (statIn m.body)
  | _ => []

theorem mem_suppliedNames {path name : String} {stat : Bytes}
    (h : nameIn path stat (statLayout stat.length).nameAt = some name) :
    name ∈ suppliedNames stat := by
  unfold nameIn at h
  unfold suppliedNames
  dsimp only at h ⊢
  split at h
  · next hfits =>
      rw [if_pos hfits, List.mem_singleton]
      split at h
      · exact (Option.some.inj h).symm
      · cases h
  · cases h

/-! ## Contracts -/

structure Contract where
  Held : ℕ → String → Bool → Prop
  Path : String → Prop
  Child : String → Prop
  Accepts : Request → Answer → Prop
  path : ∀ {q p d}, Held q p d → Path p
  join : ∀ {q p d n}, Held q p d → Child n → Path (joinPath p n)
  sibling : ∀ {q p d n}, Held q p d → Child n → Path (renamedPath p n)

namespace Contract

/-- What a handler may take an answer for. -/
def rely (C : Contract) : (o : Op) → Op.Ret o → Prop
  | .locked (.getFid _), r => ∀ e, r = some e → C.Held e.qid e.path e.isDir
  | .locked (.allocQid p d), q => C.Held q p d
  | .locked (.createFid _ p d), q => C.Held q p d
  | .route req, a => C.Accepts req a
  | _, _ => True

/-- What it owes with each operation. -/
def guarantee (C : Contract) (pending : Option Request) : Op → Prop
  | .locked (.setFid _ q p d) => C.Held q p d
  | .locked (.allocQid p _) => C.Path p
  | .locked (.createFid _ p _) => C.Path p
  | .locked (.renameFid _ _ q) => C.Path q ∧ ∃ req, pending = some req ∧ req.op = .rename ∧
      req.data = asBytes q ∧ ∃ r, C.Accepts req (.reply (.ok r))
  | .route req => C.Path req.path ∧ (req.op = .rename → ∃ q, req.data = asBytes q ∧ C.Path q)
  | _ => True

end Contract

/-- The last rename that was accepted. -/
def noteAccepted (pending : Option Request) : Answered ninep → Option Request
  | ⟨.route req, a⟩ => if req.op = .rename ∧ Answer.accepted a = true then some req else pending
  | _ => pending

abbrev Contract.spec (C : Contract) : Spec ninep (Option Request) :=
  observed noteAccepted C.rely C.guarantee

def Contract.Sound (C : Contract) {A : Type} (x : Handler A) (Post : A → Prop) : Prop :=
  Meets C.spec (fun _ => True) x fun a _ => Post a

variable {C : Contract}

theorem Contract.Sound.bind {A B : Type} {x : Handler A} {f : A → Handler B} {Mid : A → Prop}
    {Post : B → Prop} (hx : C.Sound x Mid) (hf : ∀ a, Mid a → C.Sound (f a) Post) :
    C.Sound (x >>= f) Post :=
  Meets.bind (observed_monotone _ _ _) hx fun a t h => hf a h t trivial

theorem sound_pure {A : Type} {a : A} {Post : A → Prop} (h : Post a) :
    C.Sound (pure a : Handler A) Post := Meets.pure fun _ _ => h

theorem sound_throw {A : Type} (e : String) (Post : A → Prop) :
    C.Sound (throw e : Handler A) Post := Meets.throw e

theorem sound_crash {A : Type} (Post : A → Prop) : C.Sound (crash : Handler A) Post :=
  fun _ _ => ⟨trivial, fun r => Empty.elim r⟩

theorem sound_locked (c : Critical) (h : ∀ pending, C.guarantee pending (.locked c)) :
    C.Sound (locked c) fun r => C.rely (.locked c) r :=
  fun t _ => ⟨h t, fun _ hr => hr⟩

theorem sound_getFid (fid : UInt32) :
    C.Sound (getFid fid) fun e => C.Held e.qid e.path e.isDir := by
  refine (sound_locked (.getFid fid) fun _ => trivial).bind fun r hr => ?_
  cases r with
  | none => exact sound_throw _ _
  | some e => exact sound_pure (hr e rfl)

theorem sound_send (ty : UInt8) (tag : UInt16) (body : Bytes) :
    C.Sound (sendReply ty tag body) fun _ => True :=
  fun _ _ => ⟨trivial, fun _ _ => trivial⟩

theorem sound_encodeStat (name : String) (qid : Qid) (length : ℕ) (isDir : Bool) :
    C.Sound (encodeStat name qid length isDir) fun _ => True :=
  fun _ _ => ⟨trivial, fun _ _ => trivial⟩

/-- The pending rename after a request is the request itself, if it is one. -/
theorem meets_request {what : String} {op : FsOperation} {path : String} {data : Bytes}
    (hpath : C.Path path) (hdata : op = .rename → ∃ q, data = asBytes q ∧ C.Path q) :
    Meets C.spec (fun _ => True) (request what op path data) fun r pending =>
      C.Accepts ⟨op, path, data⟩ (.reply (.ok r)) ∧
        (op = .rename → pending = some ⟨op, path, data⟩) := by
  intro t _
  refine ⟨⟨hpath, hdata⟩, ?_⟩
  intro a ha
  match a, ha with
  | .routerGone, _ => trivial
  | .handlerGone, _ => trivial
  | .reply (.error e), _ => trivial
  | .reply (.ok r), ha =>
      refine ⟨ha, ?_⟩
      intro hop
      simp [noteAccepted, hop, Answer.accepted]

theorem sound_request {what : String} {op : FsOperation} {path : String} {data : Bytes}
    (hpath : C.Path path) (hop : op ≠ .rename) :
    C.Sound (request what op path data) fun r => C.Accepts ⟨op, path, data⟩ (.reply (.ok r)) :=
  (meets_request hpath fun h => absurd h hop).weaken (observed_monotone _ _ _)
    (fun _ h => h) fun _ _ h => h.1

/-! ## Handlers -/

variable (tag : UInt16) (body : Bytes)

theorem sound_handleVersion : C.Sound (handleVersion tag body) fun _ => True := by
  rw [handleVersion_eq]
  split
  · exact sound_throw _ _
  · split
    · exact sound_crash _
    · exact (sound_locked (.writeMsize _) fun _ => trivial).bind fun _ _ => sound_send _ _ _

theorem sound_handleAttach : C.Sound (handleAttach tag body) fun _ => True := by
  rw [handleAttach_eq]
  split
  · exact sound_throw _ _
  · exact (sound_locked (.attach _) fun _ => trivial).bind fun _ _ => sound_send _ _ _

theorem sound_lookupLast {isLast : Bool} {path : String} (h : C.Path path) :
    C.Sound (lookupLast isLast path) fun _ => True := by
  unfold lookupLast
  split
  · exact (sound_request h (by simp)).bind fun _ _ => sound_pure trivial
  · exact sound_pure trivial

theorem sound_walkNames (left : ℕ) (w : Walk) (hw : C.Held w.curQid w.curPath w.isDir)
    (hnames : ∀ n ∈ walkedNames body left w.offset, C.Child n) :
    C.Sound (walkNames body left w) fun w' => C.Held w'.curQid w'.curPath w'.isDir := by
  induction left generalizing w with
  | zero => exact sound_pure hw
  | succ left ih =>
      rw [walkNames_succ]
      unfold walkedNames at hnames
      split at hnames
      · next hcut =>
          rw [if_pos hcut]
          exact sound_throw _ _
      · next hlen =>
          rw [if_neg hlen]
          split at hnames
          · next hcut =>
              rw [if_pos hcut]
              exact sound_throw _ _
          · next hfits =>
              rw [if_neg hfits]
              have hpath := C.join hw (hnames _ (List.mem_cons_self ..))
              refine (sound_lookupLast hpath).bind fun _ _ => ?_
              refine (sound_locked (.allocQid _ _) fun _ => hpath).bind fun q hq => ?_
              exact ih _ hq fun n hn => hnames n (List.mem_cons_of_mem _ hn)

theorem sound_handleWalk
    (hnames : ∀ n ∈ walkedNames body (uintAt 2 body 8) 10, C.Child n) :
    C.Sound (handleWalk tag body) fun _ => True := by
  rw [handleWalk_eq]
  split
  · exact sound_throw _ _
  · split
    · exact sound_crash _
    · refine (sound_getFid _).bind fun parent hparent => ?_
      refine (sound_walkNames body _ _ hparent hnames).bind fun w hw => ?_
      exact (sound_locked (.setFid _ _ _ _) fun _ => hw).bind fun _ _ => sound_send _ _ _

theorem sound_handleOpen : C.Sound (handleOpen tag body) fun _ => True := by
  rw [handleOpen_eq]
  split
  · exact sound_throw _ _
  · refine (sound_getFid _).bind fun e he => ?_
    refine (sound_request (C.path he) (by split <;> simp)).bind fun _ _ => ?_
    refine (sound_locked (.markOpen _) fun _ => trivial).bind fun _ _ => ?_
    exact (sound_locked .readMsize fun _ => trivial).bind fun _ _ => sound_send _ _ _

theorem sound_handleCreate (hnames : ∀ n ∈ createdNames body, C.Child n) :
    C.Sound (handleCreate tag body) fun _ => True := by
  rw [handleCreate_eq]
  split
  · exact sound_throw _ _
  · split
    · exact sound_throw _ _
    · next hfits =>
        refine (sound_getFid _).bind fun e he => ?_
        have hname : C.Child (nameAt body 4) := by
          apply hnames
          rw [createdNames, if_neg hfits]
          exact List.mem_singleton_self _
        have hpath := C.join he hname
        refine (sound_request hpath (by split <;> simp)).bind fun _ _ => ?_
        exact (sound_locked (.createFid _ _ _) fun _ => hpath).bind fun _ _ => sound_send _ _ _

theorem sound_encodeEntries (es : List DirEntry) : C.Sound (encodeEntries es) fun _ => True := by
  induction es with
  | nil => exact sound_pure trivial
  | cons e es ih =>
      refine (sound_encodeStat _ _ _ _).bind fun stat _ => ?_
      exact ih.bind fun rest _ => sound_pure trivial

theorem sound_withDot (offset : ℕ) (data : Bytes) : C.Sound (withDot offset data) fun _ => True := by
  unfold withDot
  split
  · exact (sound_encodeStat _ _ _ _).bind fun _ _ => sound_pure trivial
  · exact sound_pure trivial

theorem sound_handleRead : C.Sound (handleRead tag body) fun _ => True := by
  rw [handleRead_eq]
  split
  · exact sound_throw _ _
  · refine (sound_getFid _).bind fun e he => ?_
    split
    · refine (sound_request (C.path he) (by simp)).bind fun _ _ => ?_
      refine (sound_locked (.listDir _) fun _ => trivial).bind fun entries _ => ?_
      refine (sound_encodeEntries _).bind fun listing _ => ?_
      exact (sound_withDot _ _).bind fun data _ => sound_send _ _ _
    · exact (sound_request (C.path he) (by simp)).bind fun _ _ => sound_send _ _ _

theorem sound_handleWrite : C.Sound (handleWrite tag body) fun _ => True := by
  rw [handleWrite_eq]
  split
  · exact sound_throw _ _
  · refine (sound_getFid _).bind fun e he => ?_
    exact (sound_request (C.path he) (by simp)).bind fun _ _ => sound_send _ _ _

theorem sound_releaseFid {entry : Option FidEntry}
    (h : ∀ e, entry = some e → C.Held e.qid e.path e.isDir) :
    C.Sound (releaseFid entry) fun _ => True := by
  cases entry with
  | none => exact sound_pure trivial
  | some e =>
      intro t _
      exact ⟨⟨C.path (h e rfl), nofun⟩, fun _ _ => trivial⟩

theorem sound_handleClunk : C.Sound (handleClunk tag body) fun _ => True := by
  rw [handleClunk_eq]
  split
  · exact sound_throw _ _
  · refine (sound_locked (.getFid _) fun _ => trivial).bind fun entry hentry => ?_
    refine (sound_releaseFid hentry).bind fun _ _ => ?_
    exact (sound_locked (.removeFid _) fun _ => trivial).bind fun _ _ => sound_send _ _ _

theorem sound_handleRemove : C.Sound (handleRemove tag body) fun _ => True := by
  rw [handleRemove_eq]
  split
  · exact sound_throw _ _
  · refine (sound_getFid _).bind fun e he => ?_
    exact (sound_request (C.path he) (by split <;> simp)).bind fun _ _ => sound_send _ _ _

theorem sound_handleStat : C.Sound (handleStat tag body) fun _ => True := by
  rw [handleStat_eq]
  split
  · exact sound_throw _ _
  · refine (sound_getFid _).bind fun e he => ?_
    refine (sound_request (C.path he) (by simp)).bind fun resp _ => ?_
    exact (sound_encodeStat _ _ _ _).bind fun stat _ => sound_send _ _ _

theorem sound_wstatScript (fid : UInt32) (e : FidEntry) (stat : Bytes)
    (he : C.Held e.qid e.path e.isDir) (hnames : ∀ n ∈ suppliedNames stat, C.Child n) :
    C.Sound (wstatScript fid e stat) fun _ => True := by
  unfold wstatScript
  split
  · next name hname =>
      have hpath := C.sibling he (hnames name (mem_suppliedNames hname))
      refine Meets.bind (observed_monotone _ _ _)
        (meets_request (C.path he) fun _ => ⟨_, rfl, hpath⟩) fun r => ?_
      intro t ht
      exact ⟨⟨hpath, _, ht.2 rfl, rfl, rfl, r, ht.1⟩, fun _ _ => trivial⟩
  · split
    · exact (sound_request (C.path he) (by simp)).bind fun _ _ => sound_pure trivial
    · exact sound_pure trivial

theorem sound_handleWstat (hnames : ∀ n ∈ suppliedNames (statIn body), C.Child n) :
    C.Sound (handleWstat tag body) fun _ => True := by
  rw [handleWstat_eq]
  split
  · exact sound_throw _ _
  · refine (sound_getFid _).bind fun e he => ?_
    split
    · exact sound_throw _ _
    · split
      · exact sound_send _ _ _
      · exact (sound_wstatScript _ e _ he hnames).bind fun _ _ => sound_send _ _ _

theorem sound_handleMessage (m : Message) (hnames : ∀ n ∈ namesOf m, C.Child n) :
    C.Sound (handleMessage m) fun _ => True := by
  unfold handleMessage
  split
  · exact sound_handleVersion _ _
  · exact sound_handleAttach _ _
  · next hty =>
      rw [namesOf, hty] at hnames
      exact sound_handleWalk _ _ hnames
  · exact sound_handleOpen _ _
  · exact sound_handleRead _ _
  · exact sound_handleWrite _ _
  · exact sound_handleClunk _ _
  · next hty =>
      rw [namesOf, hty] at hnames
      exact sound_handleCreate _ _ hnames
  · exact sound_handleRemove _ _
  · exact sound_handleStat _ _
  · next hty =>
      rw [namesOf, hty] at hnames
      exact sound_handleWstat _ _ hnames
  · exact sound_send _ _ _
  · exact sound_throw _ _

theorem serveMessage_sound (m : Message) (hnames : ∀ n ∈ namesOf m, C.Child n)
    (pending : Option Request) : wp C.spec (serveMessage m) (fun _ _ => True) pending := by
  unfold serveMessage
  rw [wp_bind]
  refine wp_mono (observed_monotone _ _ _) _ ?_ _ (sound_handleMessage m hnames pending trivial)
  intro r t _
  cases r with
  | ok _ => trivial
  | error e => exact ⟨trivial, fun _ _ => trivial⟩

theorem serveAll_sound (ms : List Message) (hnames : ∀ m ∈ ms, ∀ n ∈ namesOf m, C.Child n)
    (pending : Option Request) : wp C.spec (serveAll ms) (fun _ _ => True) pending := by
  induction ms generalizing pending with
  | nil => trivial
  | cons m ms ih =>
      simp only [serveAll]
      rw [wp_bind]
      refine wp_mono (observed_monotone _ _ _) _ ?_ _
        (serveMessage_sound m (hnames m (List.mem_cons_self ..)) pending)
      intro _ t _
      exact ih (fun m hm => hnames m (List.mem_cons_of_mem _ hm)) t

end Pinhead.NinepContracts
