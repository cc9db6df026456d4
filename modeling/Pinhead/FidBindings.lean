import Pinhead.NinepLockstep

/-!
# What the server makes of a message, seen from its fids

A fid stands for a path, and for a file or a directory. To a client nothing else of the
server's state matters, as long as the other connections keep off the fids it uses. The
table of what the fids stand for is therefore an abstract state of the server: each
critical section acts on it, and looking up a fid tells what it holds.

`Effect` lists all that can become of a message of the client: what the table is
afterwards, and what is in the reply.
-/
namespace Pinhead.FidBindings
open ByteStrings FsRequests Resumption Histories NinepShared NinepHandlers NinepRuns
open NinepTotality NinepDatagrams NinepScripts NinepCalls NinepLockstep

/-! ## The table -/

abbrev Bindings := UInt32 → Option (String × Bool)

def standsFor (e : FidEntry) : String × Bool := (e.path, e.isDir)

def bindings (s : Shared) : Bindings := fun f => (s.state.fids.lookup f).map standsFor

/-- The fids in `F` stand for the same before and after. -/
def Spares (F : Set UInt32) (s s' : Shared) : Prop := ∀ f ∈ F, bindings s' f = bindings s f

def rebind (b : Bindings) : Op → Bindings
  | .locked (.attach f) => Function.update b f (some ("/", true))
  | .locked (.setFid f _ path isDir) => Function.update b f (some (path, isDir))
  | .locked (.createFid f path isDir) => Function.update b f (some (path, isDir))
  | .locked (.removeFid f) => Function.update b f none
  | .locked (.renameFid f _ path) => Function.update b f ((b f).map fun x => (path, x.2))
  | _ => b

theorem bindings_setFid (s : NinepState) (msize : ℕ) (f : UInt32) (qid : ℕ) (path : String)
    (isDir : Bool) : bindings ⟨s.setFid f qid path isDir, msize⟩ =
      Function.update (bindings ⟨s, msize⟩) f (some (path, isDir)) := by
  funext g
  by_cases hg : g = f
  · subst g
    rw [Function.update_self]
    exact congrArg (Option.map standsFor) (AList.lookup_insert s.fids)
  · rw [Function.update_of_ne hg]
    exact congrArg (Option.map standsFor) (AList.lookup_insert_ne hg)

theorem bindings_modifyFid (s : NinepState) (msize : ℕ) (f : UInt32) (g : FidEntry → FidEntry) :
    bindings ⟨s.modifyFid f g, msize⟩ = Function.update (bindings ⟨s, msize⟩) f
      ((s.fids.lookup f).map fun e => standsFor (g e)) := by
  funext x
  have hlookup := lookup_modifyFid s f x g
  by_cases hx : x = f
  · subst x
    rw [if_pos rfl] at hlookup
    rw [Function.update_self]
    exact (congrArg (Option.map standsFor) hlookup).trans (Option.map_map ..)
  · rw [if_neg hx] at hlookup
    rw [Function.update_of_ne hx]
    exact congrArg (Option.map standsFor) hlookup

/-- Each critical section acts on what the fids stand for. -/
theorem bindings_exec (c : Critical) (s : Shared) :
    bindings (c.exec s).2 = rebind (bindings s) (.locked c) := by
  have halloc : ∀ path isDir, bindings ⟨(s.state.allocQid path isDir).2, s.msize⟩ = bindings s := by
    intro path isDir
    unfold bindings
    dsimp only
    rw [allocQid_fids]
  have hsame : ∀ u : NinepState, ∀ f, bindings
      ⟨u.modifyFid f fun e => { e with isOpen := true }, s.msize⟩ = bindings ⟨u, s.msize⟩ := by
    intro u f
    rw [bindings_modifyFid]
    exact Function.update_eq_self f _
  cases c with
  | attach f => exact bindings_setFid s.state s.msize f 0 "/" true
  | allocQid path isDir => exact halloc path isDir
  | setFid f qid path isDir => exact bindings_setFid s.state s.msize f qid path isDir
  | markOpen f => exact hsame s.state f
  | createFid f path isDir =>
      refine (hsame _ f).trans ?_
      rw [bindings_setFid, halloc]
      rfl
  | removeFid f =>
      funext g
      change Option.map standsFor ((s.state.fids.erase f).lookup g) =
        Function.update (bindings s) f none g
      by_cases hg : g = f
      · subst g
        rw [AList.lookup_erase, Function.update_self]
        rfl
      · rw [AList.lookup_erase_ne hg, Function.update_of_ne hg]
        rfl
  | renameFid f qid path =>
      refine (bindings_modifyFid s.state s.msize f fun e => { e with path := path }).trans ?_
      have hmap : (s.state.fids.lookup f).map (fun e => standsFor { e with path := path }) =
          (bindings s f).map fun x => (path, x.2) := by
        rw [bindings, Option.map_map]
        rfl
      rw [hmap]
      rfl
  | getFid _ => rfl
  | listDir _ => rfl
  | readMsize => rfl
  | writeMsize _ => rfl

theorem rebind_agrees {F : Set UInt32} {b b' : Bindings} (h : ∀ f ∈ F, b f = b' f) (o : Op) :
    ∀ f ∈ F, rebind b o f = rebind b' o f := by
  have hupdate : ∀ (g : UInt32) (x : Option (String × Bool)), ∀ f ∈ F,
      Function.update b g x f = Function.update b' g x f := by
    intro g x f hf
    by_cases hg : f = g
    · subst g
      rw [Function.update_self, Function.update_self]
    · rw [Function.update_of_ne hg, Function.update_of_ne hg]
      exact h f hf
  intro f hf
  unfold rebind
  split
  · exact hupdate _ _ f hf
  · exact hupdate _ _ f hf
  · exact hupdate _ _ f hf
  · exact hupdate _ _ f hf
  · next g _ _ =>
      by_cases hg : f = g
      · subst g
        rw [Function.update_self, Function.update_self, h f hf]
      · rw [Function.update_of_ne hg, Function.update_of_ne hg]
        exact h f hf
  · exact h f hf

/-! ## The abstract server -/

/-- What the fids stand for, and the bytes written for one message. -/
structure Table where
  bound : Bindings
  out : Bytes

def Table.note (t : Table) : Op → Table
  | .send msg => ⟨t.bound, t.out ++ msg⟩
  | o => ⟨rebind t.bound o, t.out⟩

section
variable (F : Set UInt32) (router : Request → Answer → Prop)

/-- Looking up a fid in `F` tells what it stands for. -/
def Admits (b : Bindings) : (o : Op) → Op.Ret o → Prop
  | .locked (.getFid f), r => f ∈ F → Option.map standsFor (show Option FidEntry from r) = b f
  | .route req, a => router req a
  | _, _ => True

def tables : Semantics ninep Table := fun o t r t' => Admits F router t.bound o r ∧ t' = t.note o

variable {F router}

theorem tables_step {o : Op} {r : Op.Ret o} {s s' : Shared} {b : Bindings}
    (hb : ∀ f ∈ F, bindings s f = b f) (h : amid (Spares F) (semantics router) o s r s') :
    Admits F router b o r ∧ ∀ f ∈ F, bindings s' f = rebind b o f := by
  obtain ⟨s₁, hspares, hsem⟩ := h
  have hb₁ : ∀ f ∈ F, bindings s₁ f = b f := fun f hf => (hspares f hf).trans (hb f hf)
  cases o with
  | locked c =>
      obtain ⟨t, ht, hexec⟩ := hsem
      have hr : (c.exec t).1 = r := congrArg Prod.fst hexec
      have hs : (c.exec t).2 = s' := congrArg Prod.snd hexec
      have hbt : ∀ f ∈ F, bindings t f = b f := by
        intro f hf
        rw [bindings, ht.lookup_fids]
        exact hb₁ f hf
      refine ⟨?_, ?_⟩
      · subst hr
        cases c with
        | getFid f => exact hbt f
        | _ => trivial
      · rw [← hs, bindings_exec]
        exact rebind_agrees hbt _
  | route req =>
      rw [hsem.2]
      exact ⟨hsem.1, hb₁⟩
  | now =>
      rw [show s' = s₁ from hsem]
      exact ⟨trivial, hb₁⟩
  | send msg =>
      rw [show s' = s₁ from hsem]
      exact ⟨trivial, hb₁⟩
  | crash => exact hsem.elim

/-- The server's own history, read on the abstract state. -/
theorem performs_tables {s s' : Shared} {h : List (Answered ninep)}
    (hs : Performs (amid (Spares F) (semantics router)) s h s') {t : Table}
    (ht : ∀ f ∈ F, bindings s f = t.bound f) :
    ∃ t', Performs (tables F router) t h t' ∧ t'.out = t.out ++ written h ∧
      ∀ f ∈ F, bindings s' f = t'.bound f := by
  induction hs generalizing t with
  | refl s => exact ⟨t, .refl t, (List.append_nil _).symm, ht⟩
  | @answer o r s s₁ u h hsem _ ih =>
      obtain ⟨hadmits, hnext⟩ := tables_step ht hsem
      have hnote : ∀ f ∈ F, bindings s₁ f = (t.note o).bound f := by
        cases o with
        | _ => exact hnext
      obtain ⟨t', hperforms, hout, hbound⟩ := ih hnote
      refine ⟨t', .answer o r ⟨hadmits, rfl⟩ hperforms, ?_, hbound⟩
      rw [hout]
      cases o with
      | send msg => exact List.append_assoc ..
      | _ => rfl

/-! ## Effects -/

/-- Whether a walk along the names ends at a directory. -/
def walkedDir (names : List String) (isDir : Bool) : Bool :=
  names.foldl (fun _ name => dotName name) isDir

/-- The fid that has to be known for the message not to fail. -/
def subject : Call → Option UInt32
  | .walk fid _ _ | .openFid fid _ | .create fid _ _ _ | .read fid _ _ | .write fid _ _
  | .removeFid fid | .stat fid => some fid
  | .version _ | .attach _ _ | .clunk _ => none

/-- What the router is asked for a fid that stands for `x`, and may refuse. -/
def asks (x : String × Bool) : Call → Option Request
  | .walk _ _ names => some ⟨.lookup, names.foldl joinPath x.1, []⟩
  | .openFid _ _ => some ⟨if x.2 then .openDir else .openFile, x.1, []⟩
  | .create _ name perm _ =>
      some ⟨if perm.toNat.testBit 31 then .mkDir else .create, joinPath x.1 name, []⟩
  | .read _ _ _ => some ⟨if x.2 then .readDir else .read, x.1, []⟩
  | .write _ _ data => some ⟨.write, x.1, data⟩
  | .removeFid _ => some ⟨if x.2 then .rmDir else .unlink, x.1, []⟩
  | .stat _ => some ⟨.getAttr, x.1, []⟩
  | .version _ | .attach _ _ | .clunk _ => none

variable (F router)

/-- How the handling of a message ends, and what the fids stand for then. -/
inductive Effect : Call → Bindings → Outcome → Bindings → Prop
  | version (msize : UInt32) (b : Bindings) : Effect (.version msize) b
      (.replied (leBytes 4 (max 4096 (min msize.toNat 65536)) ++ leBytes 2 6 ++ asBytes "9P2000")) b
  | attach (fid afid : UInt32) (b : Bindings) : Effect (.attach fid afid) b
      (.replied (encodeQid ⟨0x80, 0, 0⟩)) (Function.update b fid (some ("/", true)))
  | walk {fid newFid : UInt32} {names : List String} {b : Bindings} {path : String} {isDir : Bool}
      {qids : Bytes} : (fid ∈ F → b fid = some (path, isDir)) → qids.length = 13 * names.length →
      Effect (.walk fid newFid names) b (.replied (leBytes 2 names.length ++ qids))
        (Function.update b newFid (some (names.foldl joinPath path, walkedDir names isDir)))
  | openFid {fid : UInt32} {mode : UInt8} {b : Bindings} {body : Bytes} : body.length = 17 →
      Effect (.openFid fid mode) b (.replied body) b
  | create {fid : UInt32} {name : String} {perm : UInt32} {mode : UInt8} {b : Bindings}
      {path : String} {isDir : Bool} {body : Bytes} : (fid ∈ F → b fid = some (path, isDir)) →
      body.length = 13 → Effect (.create fid name perm mode) b (.replied body)
        (Function.update b fid (some (joinPath path name, perm.toNat.testBit 31)))
  | listed {fid : UInt32} {offset : UInt64} {count : UInt32} {b : Bindings} {path : String}
      (chunk : Bytes) : (fid ∈ F → b fid = some (path, true)) →
      Effect (.read fid offset count) b (.replied (leBytes 4 chunk.length ++ chunk)) b
  | read {fid : UInt32} {offset : UInt64} {count : UInt32} {b : Bindings} {path : String}
      {r : Response} : (fid ∈ F → b fid = some (path, false)) →
      router ⟨.read, path, []⟩ (.reply (.ok r)) → Effect (.read fid offset count) b (.replied
        (leBytes 4 (r.data.drop offset.toNat).length ++ r.data.drop offset.toNat)) b
  | write {fid : UInt32} {offset : UInt64} {data : Bytes} {b : Bindings} {path : String}
      {isDir : Bool} {r : Response} : (fid ∈ F → b fid = some (path, isDir)) →
      router ⟨.write, path, data⟩ (.reply (.ok r)) →
      Effect (.write fid offset data) b (.replied (leBytes 4 data.length)) b
  | clunk (fid : UInt32) (b : Bindings) :
      Effect (.clunk fid) b (.replied []) (Function.update b fid none)
  | removeFid (fid : UInt32) (b : Bindings) : Effect (.removeFid fid) b (.replied []) b
  | stat (fid : UInt32) (b : Bindings) (record : Bytes) :
      Effect (.stat fid) b (.replied (leBytes 2 record.length ++ record)) b
  | unknown {c : Call} {fid : UInt32} {b : Bindings} (e : String) : subject c = some fid →
      (fid ∈ F → b fid = none) → Effect c b (.failed e) b
  | refused {c : Call} {fid : UInt32} {b : Bindings} {x : String × Bool} {req : Request}
      {a : Answer} (e : String) : subject c = some fid → (fid ∈ F → b fid = some x) →
      asks x c = some req → router req a → a.accepted = false → Effect c b (.failed e) b

/-- What has been written, and what the fids stand for, when the handler is through. -/
def Settled (c : Call) (b : Bindings) : Except String Unit → Table → Prop
  | .ok _, t => ∃ ty body, t.out = message ty 0 body ∧ Effect F router c b (.replied body) t.bound
  | .error e, t => t.out = [] ∧ Effect F router c b (.failed e) t.bound

abbrev table : Spec ninep Table := moved (tables F router)

variable {F router} {A : Type} {t : Table} {c : Call} {b : Bindings}

theorem table_locked {c : Critical} {Q : Except String c.Ret → Table → Prop}
    (h : ∀ r, Admits F router t.bound (.locked c) r → Q (.ok r) (t.note (.locked c))) :
    wp (table F router) (locked c).run Q t := by
  rintro r t' ⟨hadmits, rfl⟩
  exact h r hadmits

theorem table_getFid {fid : UInt32} {Q : Except String FidEntry → Table → Prop}
    (hok : ∀ e, (fid ∈ F → t.bound fid = some (standsFor e)) → Q (.ok e) t)
    (herr : (fid ∈ F → t.bound fid = none) → Q (.error "unknown fid") t) :
    wp (table F router) (NinepHandlers.getFid fid).run Q t := by
  refine wp_seq (table_locked fun r hr => ?_)
  match r with
  | none => exact herr fun hf => (hr hf).symm
  | some e => exact hok e fun hf => (hr hf).symm

theorem table_request {what : String} {op : FsOperation} {path : String} {data : Bytes}
    {Q : Except String Response → Table → Prop}
    (hok : ∀ r, router ⟨op, path, data⟩ (.reply (.ok r)) → Q (.ok r) t)
    (herr : ∀ e a, router ⟨op, path, data⟩ a → a.accepted = false → Q (.error e) t) :
    wp (table F router) (request what op path data).run Q t := by
  rintro a t' ⟨ha, rfl⟩
  match a with
  | .routerGone => exact herr _ _ ha rfl
  | .handlerGone => exact herr _ _ ha rfl
  | .reply (.error e) => exact herr _ _ ha rfl
  | .reply (.ok r) => exact hok r ha

theorem table_lookupLast {isLast : Bool} {path : String} {Q : Except String Unit → Table → Prop}
    (hok : Q (.ok ()) t) (herr : isLast = true → ∀ e a, router ⟨.lookup, path, []⟩ a →
      a.accepted = false → Q (.error e) t) :
    wp (table F router) (lookupLast isLast path).run Q t := by
  unfold lookupLast
  split
  · next hlast => exact wp_seq (table_request (fun _ _ => hok) (herr hlast))
  · exact hok

theorem table_walkTo {names : List String} {w : Walk} {Q : Except String Walk → Table → Prop}
    (hok : ∀ w', w'.curPath = names.foldl joinPath w.curPath → w'.isDir = walkedDir names w.isDir →
      w'.wqids.length = w.wqids.length + names.length → Q (.ok w') t)
    (herr : ∀ e a, router ⟨.lookup, names.foldl joinPath w.curPath, []⟩ a → a.accepted = false →
      Q (.error e) t) : wp (table F router) (walkTo names w).run Q t := by
  induction names generalizing w with
  | nil => exact hok w rfl rfl rfl
  | cons name names ih =>
      refine wp_seq (table_lookupLast ?_ fun hlast => ?_)
      · refine wp_seq (table_locked fun qid _ => ?_)
        refine ih (fun w' hpath hdir hqids => hok w' hpath hdir ?_) herr
        rw [hqids, List.length_append, List.length_singleton, List.length_cons]
        omega
      · rw [List.isEmpty_iff.mp hlast] at herr
        exact herr

theorem table_encodeStat {name : String} {qid : Qid} {length : ℕ} {isDir : Bool}
    {Q : Except String Bytes → Table → Prop} (hok : ∀ bs, Q (.ok bs) t) :
    wp (table F router) (encodeStat name qid length isDir).run Q t := by
  rintro now t' ⟨_, rfl⟩
  exact hok _

theorem table_encodeEntries {es : List DirEntry} {Q : Except String Bytes → Table → Prop}
    (hok : ∀ bs, Q (.ok bs) t) : wp (table F router) (encodeEntries es).run Q t := by
  induction es generalizing Q with
  | nil => exact hok []
  | cons e es ih =>
      refine wp_seq (table_encodeStat fun stat => ?_)
      exact wp_seq (ih fun rest => hok _)

theorem table_withDot {offset : ℕ} {data : Bytes} {Q : Except String Bytes → Table → Prop}
    (hok : ∀ bs, Q (.ok bs) t) : wp (table F router) (withDot offset data).run Q t := by
  unfold withDot
  split
  · exact wp_seq (table_encodeStat fun dot => hok _)
  · exact hok data

theorem settled_send {ty : UInt8} {body : Bytes} {b' : Bindings}
    (h : Effect F router c b (.replied body) b') :
    wp (table F router) (sendReply ty 0 body).run (Settled F router c b) ⟨b', []⟩ := by
  rintro r t' ⟨_, rfl⟩
  exact ⟨ty, body, List.nil_append _, h⟩

theorem settled_unknown {fid : UInt32} (hc : subject c = some fid) (hb : fid ∈ F → b fid = none)
    (e : String) : Settled F router c b (.error e) ⟨b, []⟩ := ⟨rfl, .unknown e hc hb⟩

theorem settled_refused {fid : UInt32} {x : String × Bool} {req : Request}
    (hc : subject c = some fid) (hb : fid ∈ F → b fid = some x) (hasks : asks x c = some req)
    (e : String) (a : Answer) (ha : router req a) (hrefused : a.accepted = false) :
    Settled F router c b (.error e) ⟨b, []⟩ := ⟨rfl, .refused e hc hb hasks ha hrefused⟩

theorem settled_listed {fid : UInt32} {offset : UInt64} {count : UInt32} {path : String}
    (hb : fid ∈ F → b fid = some (path, true)) :
    wp (table F router) (listed 0 offset.toNat path).run
      (Settled F router (.read fid offset count) b) ⟨b, []⟩ := by
  refine wp_seq (table_request (fun _ _ => ?_) (settled_refused rfl hb rfl))
  refine wp_seq (table_locked fun es _ => ?_)
  refine wp_seq (table_encodeEntries fun listing => ?_)
  refine wp_seq (table_withDot fun data => ?_)
  exact settled_send (.listed _ hb)

/-- Every handler has one of the effects. -/
theorem settled_served (c : Call) (b : Bindings) :
    wp (table F router) (c.served 0).run (Settled F router c b) ⟨b, []⟩ := by
  cases c with
  | version msize => exact wp_seq (table_locked fun _ _ => settled_send (.version msize b))
  | attach fid afid =>
      exact wp_seq (table_locked fun _ _ => settled_send (.attach fid afid b))
  | walk fid newFid names =>
      refine wp_seq (table_getFid (fun parent hparent => ?_) fun hb => settled_unknown rfl hb _)
      refine wp_seq (table_walkTo (fun w hpath hdir hqids => ?_)
        (settled_refused rfl hparent rfl))
      refine wp_seq (table_locked fun _ _ => settled_send ?_)
      have hlength : (w.wqids.flatMap encodeQid).length = 13 * names.length := by
        rw [List.length_nil, Nat.zero_add] at hqids
        simp [List.length_flatMap, encodeQid_length, hqids, Nat.mul_comm]
      change Effect F router _ b _ (Function.update b newFid (some (w.curPath, w.isDir)))
      rw [hpath, hdir]
      exact .walk hparent hlength
  | openFid fid mode =>
      refine wp_seq (table_getFid (fun entry hentry => ?_) fun hb => settled_unknown rfl hb _)
      refine wp_seq (table_request (fun _ _ => ?_) (settled_refused rfl hentry rfl))
      refine wp_seq (table_locked fun _ _ => ?_)
      refine wp_seq (table_locked fun msize _ => settled_send (.openFid ?_))
      have hmsize : (leBytes 4 msize).length = 4 := leBytes_length _ _
      rw [List.length_append, encodeQid_length, hmsize]
  | create fid name perm mode =>
      refine wp_seq (table_getFid (fun parent hparent => ?_) fun hb => settled_unknown rfl hb _)
      refine wp_seq (table_request (fun _ _ => ?_) (settled_refused rfl hparent rfl))
      exact wp_seq (table_locked fun qid _ =>
        settled_send (.create hparent (encodeQid_length _)))
  | read fid offset count =>
      refine wp_seq (table_getFid (fun entry hentry => ?_) fun hb => settled_unknown rfl hb _)
      dsimp only [onSuccess]
      split
      · next hdir =>
          refine settled_listed fun hf => (hentry hf).trans ?_
          rw [standsFor, hdir]
      · next hdir =>
          have hasks : asks (standsFor entry) (.read fid offset count) =
              some ⟨.read, entry.path, []⟩ := by
            simp [asks, standsFor, hdir]
          refine wp_seq (table_request (fun r hr => ?_) (settled_refused rfl hentry hasks))
          refine settled_send (.read (fun hf => (hentry hf).trans ?_) hr)
          rw [standsFor, Bool.eq_false_of_not_eq_true hdir]
  | write fid offset data =>
      refine wp_seq (table_getFid (fun entry hentry => ?_) fun hb => settled_unknown rfl hb _)
      exact wp_seq (table_request (fun r hr => settled_send (.write hentry hr))
        (settled_refused rfl hentry rfl))
  | clunk fid =>
      refine wp_seq (table_locked fun entry _ => ?_)
      have hrest : wp (table F router) (locked (.removeFid fid) >>= fun _ =>
          sendReply RCLUNK 0 [] : Handler Unit).run (Settled F router (.clunk fid) b) ⟨b, []⟩ :=
        wp_seq (table_locked fun _ _ => settled_send (.clunk fid b))
      match entry with
      | none => exact hrest
      | some e =>
          -- the answer to the release is dropped
          rintro a t' ⟨_, rfl⟩
          exact hrest
  | removeFid fid =>
      refine wp_seq (table_getFid (fun entry hentry => ?_) fun hb => settled_unknown rfl hb _)
      exact wp_seq (table_request (fun _ _ => settled_send (.removeFid fid b))
        (settled_refused rfl hentry rfl))
  | stat fid =>
      refine wp_seq (table_getFid (fun entry hentry => ?_) fun hb => settled_unknown rfl hb _)
      refine wp_seq (table_request (fun _ _ => ?_) (settled_refused rfl hentry rfl))
      exact wp_seq (table_encodeStat fun record => settled_send (.stat fid b record))

/-- A message that was handled among connections which spare the fids in `F` had one of
the effects. -/
theorem effect_of_ended {h : List (Answered ninep)} {o : Outcome} {s s' : Shared}
    (hc : c.body.length ≤ 65536) (hended : Ended c h o)
    (hs : Performs (amid (Spares F) (semantics router)) s h s') (hb : ∀ f ∈ F, bindings s f = b f) :
    ∃ b', Effect F router c b o b' ∧ ∀ f ∈ F, bindings s' f = b' f := by
  have hserved : handleMessage c.message = c.served 0 := handleMessage_eq_served (fields_message hc)
  obtain ⟨t', ht', hout, hbound⟩ := performs_tables hs (t := ⟨b, []⟩) hb
  cases hended with
  | @replied h ty body hp hsilent =>
      rw [hserved] at hp
      obtain ⟨ty', body', hmsg, heffect⟩ := hp.moved ht' (settled_served c b)
      rw [hout, List.nil_append, written_reply hsilent] at hmsg
      have hbody : body = body' := by
        rw [← message_drop ty 0 body, hmsg, message_drop]
      subst hbody
      exact ⟨t'.bound, heffect, hbound⟩
  | @failed h e hp hsilent =>
      rw [hserved] at hp
      obtain ⟨t₁, ht₁, hsend⟩ := ht'.of_append
      obtain ⟨_, heffect⟩ := hp.moved ht₁ (settled_served c b)
      cases hsend with
      | answer o r hsem hnil =>
          cases hnil
          rw [hsem.2] at hbound
          exact ⟨t₁.bound, heffect, hbound⟩

end

end Pinhead.FidBindings
