import Pinhead.NinepDatagrams
import Pinhead.Histories

/-!
# The handlers without their parsing

After its length checks a handler reads its fields at positions that are now in
range. Here each handler is put into the form that remains: the errors and the
two crashes its body leads to, and otherwise the operations it performs, with the
fields as plain functions of the body.

The second part evaluates the operations of a handler one by one, for the
environments that answer every request in one way.
-/
namespace Pinhead.NinepScripts
open ByteStrings FsRequests Resumption NinepShared NinepHandlers NinepRuns NinepTotality
open NinepDatagrams

/-! ## Fields in range -/

section
variable {B : Type} {body : Bytes}

theorem failIf_bind (p : Prop) [Decidable p] (e : String) (f : Unit → Handler B) :
    (failIf p e >>= f) = if p then throw e else f () := by
  unfold failIf
  split
  · rfl
  · rw [pure_bind]

theorem range_bind {i j : ℕ} (hij : i ≤ j) (hj : j ≤ body.length) (f : Bytes → Handler B) :
    (range body i j >>= f) = f ((body.drop i).take (j - i)) := by
  rw [range_of_le hij hj, pure_bind]

theorem readUint_bind {width i : ℕ} (h : i + width ≤ body.length) (f : ℕ → Handler B) :
    (readUint width body i >>= f) = f (uintAt width body i) := by
  unfold readUint
  rw [bind_assoc, range_bind (Nat.le_add_right i width) h, pure_bind, Nat.add_sub_cancel_left]
  rfl

theorem readFid_bind {i : ℕ} (h : i + 4 ≤ body.length) (f : UInt32 → Handler B) :
    (readFid body i >>= f) = f (fidAt body i) := by
  unfold readFid
  rw [bind_assoc, readUint_bind h, pure_bind]
  rfl

end

theorem uintAt_append (width : ℕ) (bs rest : Bytes) (i : ℕ) :
    uintAt width (bs ++ rest) (bs.length + i) = uintAt width rest i := by
  simp [uintAt]

theorem uintAt_prefix_eq {width : ℕ} {bs full : Bytes} {i : ℕ} (h : bs <+: full)
    (hi : i + width ≤ bs.length) : uintAt width bs i = uintAt width full i := by
  obtain ⟨rest, rfl⟩ := h
  rw [uintAt, uintAt, List.drop_append_of_le_length (by omega),
    List.take_append_of_le_length (by rw [List.length_drop]; omega)]

theorem uintAt_lt (width : ℕ) (bs : Bytes) (i : ℕ) : uintAt width bs i < 256 ^ width := by
  have hlt := leValue_lt ((bs.drop i).take width)
  have hle : 256 ^ ((bs.drop i).take width).length ≤ 256 ^ width :=
    Nat.pow_le_pow_right (by omega) (List.length_take_le ..)
  exact lt_of_lt_of_le hlt hle

theorem fidAt_leBytes (fid : UInt32) (rest : Bytes) : fidAt (leBytes 4 fid.toNat ++ rest) 0 = fid := by
  rw [fidAt, uintAt, List.drop_zero, List.take_left' (leBytes_length 4 _),
    leValue_leBytes_of_lt fid.toNat_lt, UInt32.ofNat_toNat]

/-- The counted bytes at a position of the body. -/
def countedAt (body : Bytes) (i : ℕ) : Bytes := (body.drop (i + 2)).take (uintAt 2 body i)

/-- The name that starts with its length at position `i`. -/
def nameAt (body : Bytes) (i : ℕ) : String := fromUtf8Lossy (countedAt body i)

def writePayload (body : Bytes) : Bytes :=
  (body.drop 16).take (min (uintAt 4 body 12) (body.length - 16))

def createPerm (body : Bytes) : ℕ := uintAt 4 body (6 + uintAt 2 body 4)

/-! ## The handlers -/

variable (tag : UInt16) (body : Bytes)

theorem parseVersion_bind {B : Type} (f : String → Handler B) (g : Handler B)
    (h : ∀ v, f v = g) : (parseVersion body >>= f) = if body.length = 5 then crash else g := by
  unfold parseVersion
  by_cases hfive : body.length = 5
  · rw [if_pos (by omega), readUint_crash (by omega), crash_bind, crash_bind, if_pos hfive]
  · rw [if_neg hfive]
    split
    · next hlong =>
        rw [readUint_bind (by omega)]
        split
        · next hfits => rw [range_bind (by omega) hfits, pure_bind, h]
        · rw [pure_bind, h]
    · rw [pure_bind, h]

theorem handleVersion_eq : handleVersion tag body =
    if body.length < 4 then throw "short version message"
    else if body.length = 5 then crash
    else (do
      locked (.writeMsize (max 4096 (min (uintAt 4 body 0) 65536)))
      sendReply RVERSION tag
        (leBytes 4 (max 4096 (min (uintAt 4 body 0) 65536)) ++ leBytes 2 6 ++ asBytes "9P2000")) := by
  unfold handleVersion
  rw [failIf_bind]
  split
  · rfl
  · rw [readUint_bind (by omega)]
    exact parseVersion_bind body _ _ fun _ => rfl

theorem handleAttach_eq : handleAttach tag body =
    if body.length < 8 then throw "short attach message"
    else (do
      locked (.attach (fidAt body 0))
      sendReply RATTACH tag (encodeQid ⟨0x80, 0, 0⟩)) := by
  unfold handleAttach
  rw [failIf_bind]
  split
  · rfl
  · rw [readFid_bind (by omega), readFid_bind (by omega)]

theorem handleWalk_eq : handleWalk tag body =
    if body.length < 9 then throw "short walk message"
    else if body.length = 9 then crash
    else (do
      let parent ← getFid (fidAt body 0)
      let w ← walkNames body (uintAt 2 body 8) ⟨10, parent.path, parent.qid, [], parent.isDir⟩
      locked (.setFid (fidAt body 4) w.curQid w.curPath w.isDir)
      sendReply RWALK tag (leBytes 2 (uintAt 2 body 8) ++ w.wqids.flatMap encodeQid)) := by
  by_cases hnine : body.length = 9
  · rw [handleWalk_crash tag hnine, if_neg (by omega), if_pos hnine]
  · unfold handleWalk
    rw [failIf_bind, if_neg hnine]
    split
    · rfl
    · rw [readFid_bind (by omega), readFid_bind (by omega), readUint_bind (by omega)]

/-- The names of a walk count as directories by their spelling alone. -/
def dotName (child : String) : Bool := child == "" || child == "." || child == ".."

theorem walkNames_succ (left : ℕ) (w : Walk) : walkNames body (left + 1) w =
    if w.offset + 2 > body.length then throw "short walk wname"
    else if w.offset + 2 + uintAt 2 body w.offset > body.length then
      throw "short walk wname data"
    else (do
      lookupLast (left == 0) (joinPath w.curPath (nameAt body w.offset))
      let qid ← locked (.allocQid (joinPath w.curPath (nameAt body w.offset))
        (dotName (nameAt body w.offset)))
      walkNames body left ⟨w.offset + 2 + uintAt 2 body w.offset,
        joinPath w.curPath (nameAt body w.offset), qid,
        w.wqids ++ [⟨qidType (dotName (nameAt body w.offset)), 0, qid⟩],
        dotName (nameAt body w.offset)⟩) := by
  conv_lhs => unfold walkNames
  rw [failIf_bind]
  split
  · rfl
  · rw [readUint_bind (by omega), failIf_bind]
    split
    · rfl
    · rw [range_bind (by omega) (by omega), Nat.add_sub_cancel_left]
      rfl

theorem handleOpen_eq : handleOpen tag body =
    if body.length < 5 then throw "short open message"
    else (do
      let entry ← getFid (fidAt body 0)
      let _ ← request "open" (if entry.isDir then .openDir else .openFile) entry.path []
      locked (.markOpen (fidAt body 0))
      let msize ← locked .readMsize
      sendReply ROPEN tag (encodeQid ⟨0, 0, 0⟩ ++ leBytes 4 msize)) := by
  unfold handleOpen
  rw [failIf_bind]
  split
  · rfl
  · rw [readFid_bind (by omega), range_bind (by omega) (by omega)]

theorem handleCreate_eq : handleCreate tag body =
    if body.length < 9 then throw "short create message"
    else if 6 + uintAt 2 body 4 + 5 > body.length then throw "short create name"
    else (do
      let parent ← getFid (fidAt body 0)
      let isDir := (createPerm body).testBit 31
      let op := if isDir then FsOperation.mkDir else .create
      let _ ← request op.asStr op (joinPath parent.path (nameAt body 4)) []
      let qid ← locked (.createFid (fidAt body 0) (joinPath parent.path (nameAt body 4)) isDir)
      sendReply RCREATE tag (encodeQid ⟨qidType isDir, 0, qid⟩)) := by
  unfold handleCreate
  rw [failIf_bind]
  split
  · rfl
  · rw [readFid_bind (by omega), readUint_bind (by omega), failIf_bind]
    split
    · rfl
    · rw [range_bind (by omega) (by omega), readUint_bind (by omega),
        range_bind (by omega) (by omega), Nat.add_sub_cancel_left]
      rfl

theorem handleRead_eq : handleRead tag body =
    if body.length < 16 then throw "short read message"
    else (do
      let entry ← getFid (fidAt body 0)
      if entry.isDir then do
        let _ ← request "readdir" .readDir entry.path []
        let entries ← locked (.listDir entry.path)
        let listing ← encodeEntries entries
        let data ← withDot (uintAt 8 body 4) listing
        readReply tag (uintAt 8 body 4) data
      else do
        let resp ← request "read" .read entry.path []
        readReply tag (uintAt 8 body 4) resp.data) := by
  unfold handleRead
  rw [failIf_bind]
  split
  · rfl
  · rw [readFid_bind (by omega), readUint_bind (by omega), readUint_bind (by omega)]

theorem handleWrite_eq : handleWrite tag body =
    if body.length < 16 then throw "short write message"
    else (do
      let entry ← getFid (fidAt body 0)
      let _ ← request "write" .write entry.path (writePayload body)
      sendReply RWRITE tag (leBytes 4 (uintAt 4 body 12))) := by
  unfold handleWrite
  rw [failIf_bind]
  split
  · rfl
  · rw [readFid_bind (by omega), readUint_bind (by omega), readUint_bind (by omega)]
    congr 1
    funext entry
    rw [range_bind (by omega) (by omega), Nat.add_sub_cancel_left]
    rfl

theorem handleClunk_eq : handleClunk tag body =
    if body.length < 4 then throw "short clunk message"
    else (do
      let entry ← locked (.getFid (fidAt body 0))
      releaseFid entry
      locked (.removeFid (fidAt body 0))
      sendReply RCLUNK tag []) := by
  unfold handleClunk
  rw [failIf_bind]
  split
  · rfl
  · rw [readFid_bind (by omega)]

theorem handleRemove_eq : handleRemove tag body =
    if body.length < 4 then throw "short remove message"
    else (do
      let entry ← getFid (fidAt body 0)
      let _ ← request "remove" (if entry.isDir then .rmDir else .unlink) entry.path []
      sendReply RREMOVE tag []) := by
  unfold handleRemove
  rw [failIf_bind]
  split
  · rfl
  · rw [readFid_bind (by omega)]

theorem handleStat_eq : handleStat tag body =
    if body.length < 4 then throw "short stat message"
    else (do
      let entry ← getFid (fidAt body 0)
      let resp ← request "getattr" .getAttr entry.path []
      let stat ← encodeStat (statName entry.path) ⟨qidType entry.isDir, 0, entry.qid⟩
        resp.data.length entry.isDir
      sendReply RSTAT tag (leBytes 2 stat.length ++ stat)) := by
  unfold handleStat
  rw [failIf_bind]
  split
  · rfl
  · rw [readFid_bind (by omega)]

theorem newName_eq (path : String) (stat : Bytes) (off : ℕ) :
    newName path stat off = pure (nameIn path stat off) := by
  unfold newName nameIn
  by_cases hlen : off + 2 ≤ stat.length
  · rw [if_pos hlen, readUint_bind hlen]
    by_cases hfits : 0 < uintAt 2 stat off ∧ off + 2 + uintAt 2 stat off ≤ stat.length
    · rw [if_pos hfits, if_pos ⟨hlen, hfits⟩, range_bind (by omega) hfits.2,
        Nat.add_sub_cancel_left]
    · rw [if_neg hfits, if_neg fun h => hfits h.2]
  · rw [if_neg hlen, if_neg fun h => hlen h.1]

/-- What a wstat leads to once its record is cut out of the body. -/
def wstatScript (fid : UInt32) (entry : FidEntry) (stat : Bytes) : Handler Unit :=
  match nameIn entry.path stat (statLayout stat.length).nameAt with
  | some name => do
      let _ ← request "rename" .rename entry.path (asBytes (renamedPath entry.path name))
      locked (.renameFid fid entry.qid (renamedPath entry.path name))
  | none =>
      if (statLayout stat.length).hasMode || (statLayout stat.length).hasTime ||
          (statLayout stat.length).hasLength then do
        let _ ← request "setattr" .setAttr entry.path []
        pure ()
      else pure ()

theorem handleWstat_eq : handleWstat tag body =
    if body.length < 4 then throw "short wstat message"
    else (do
      let entry ← getFid (fidAt body 0)
      if body.length < 6 then throw "short wstat data"
      else if (statIn body).length < 6 then sendReply RWSTAT tag []
      else do
        wstatScript (fidAt body 0) entry (statIn body)
        sendReply RWSTAT tag []) := by
  unfold handleWstat
  rw [failIf_bind]
  split
  · rfl
  · next hlen =>
      have hall : (body.drop 4).take (body.length - 4) = body.drop 4 :=
        List.take_of_length_le (by rw [List.length_drop])
      have hdrop : (body.drop 4).length = body.length - 4 := List.length_drop
      rw [readFid_bind (by omega)]
      congr 1
      funext entry
      rw [range_bind (by omega) le_rfl, hall, failIf_bind]
      by_cases hshort : body.length < 6
      · rw [if_pos (by omega), if_pos hshort]
      · have hstat : (((body.drop 4).drop 2).take
            (2 + min (uintAt 2 (body.drop 4) 0) ((body.drop 4).length - 2) - 2)) = statIn body := by
          rw [Nat.add_sub_cancel_left, statIn]
        rw [if_neg (by omega), if_neg hshort, readUint_bind (by omega),
          range_bind (by omega) (by omega), hstat]
        simp only [applyStat, newName_eq, pure_bind]
        rfl

/-! ## Evaluation of a handler -/

section
variable {A B : Type} (env : Env) (w : World)

theorem evaluate_step {env : Env} {w w' : World} {x : Handler A} {f : A → Handler B} {a : A}
    (h : evaluate env x.run w = some (.ok a, w')) :
    evaluate env (x >>= f).run w = evaluate env (f a).run w' := by
  rw [evaluate_run_bind, h]
  rfl

theorem evaluate_locked (c : Critical) : evaluate env (locked c).run w =
    some (.ok (c.exec w.shared).1, { w with shared := (c.exec w.shared).2 }) := rfl

theorem evaluate_getFid {w : World} {fid : UInt32} {e : FidEntry}
    (h : w.shared.state.fids.lookup fid = some e) :
    evaluate env (getFid fid).run w = some (.ok e, w) := by
  have hexec : (Critical.getFid fid).exec w.shared = (some e, w.shared) := Prod.ext h rfl
  rw [getFid, evaluate_step (evaluate_locked env w _), hexec]
  rfl

theorem evaluate_request {env : Env} {what : String} {op : FsOperation} {path : String}
    {data : Bytes} {r : Response} (h : env.router ⟨op, path, data⟩ = .reply (.ok r)) :
    evaluate env (request what op path data).run w = some (.ok r, w) := by
  have hstep : evaluate env (liftM (Prog.perform (S := ninep) (.route ⟨op, path, data⟩)) :
      Handler Answer).run w = some (.ok (env.router ⟨op, path, data⟩), w) := rfl
  rw [request, evaluate_step hstep, h]
  rfl

theorem evaluate_refused {env : Env} (what : String) {op : FsOperation} {path : String}
    {data : Bytes} (h : (env.router ⟨op, path, data⟩).accepted = false) :
    ∃ e, evaluate env (request what op path data).run w = some (.error e, w) := by
  have hstep : evaluate env (liftM (Prog.perform (S := ninep) (.route ⟨op, path, data⟩)) :
      Handler Answer).run w = some (.ok (env.router ⟨op, path, data⟩), w) := rfl
  rw [request, evaluate_step hstep]
  match env.router ⟨op, path, data⟩, h with
  | .routerGone, _ => exact ⟨_, rfl⟩
  | .handlerGone, _ => exact ⟨_, rfl⟩
  | .reply (.error e), _ => exact ⟨_, rfl⟩

theorem evaluate_fail {env : Env} {w w' : World} {x : Handler A} {f : A → Handler B} {e : String}
    (h : evaluate env x.run w = some (.error e, w')) :
    evaluate env (x >>= f).run w = some (.error e, w') := by
  rw [evaluate_run_bind, h]
  rfl

/-- Whether it is accepted decides whether what follows a request is reached. -/
theorem accepted_or_refused (a : Answer) :
    (∃ r, a = .reply (.ok r)) ∨ a.accepted = false := by
  match a with
  | .routerGone => exact Or.inr rfl
  | .handlerGone => exact Or.inr rfl
  | .reply (.error _) => exact Or.inr rfl
  | .reply (.ok r) => exact Or.inl ⟨r, rfl⟩

theorem evaluate_encodeStat (name : String) (qid : Qid) (length : ℕ) (isDir : Bool) :
    evaluate env (encodeStat name qid length isDir).run w =
      some (.ok (statBytes (env.clock w.tick) name qid length isDir),
        { w with tick := w.tick + 1 }) := rfl

end

theorem served_stat {env : Env} {w : World} {fid : UInt32} {e : FidEntry} {resp : Response}
    (he : w.shared.state.fids.lookup fid = some e)
    (hresp : env.router ⟨.getAttr, e.path, []⟩ = .reply (.ok resp)) :
    ∃ now w', evaluate env (serveMessage ⟨TSTAT, 0, leBytes 4 fid.toNat⟩) w = some ((), w') ∧
      w'.shared = w.shared ∧ w'.out = w.out ++ [message RSTAT 0 (
        let stat := statBytes now (statName e.path) ⟨qidType e.isDir, 0, e.qid⟩
          resp.data.length e.isDir
        leBytes 2 stat.length ++ stat)] := by
  have hfid := fidAt_leBytes fid []
  rw [List.append_nil] at hfid
  refine ⟨env.clock w.tick, { w with tick := w.tick + 1, out := w.out ++ [_] }, ?_, rfl, rfl⟩
  rw [evaluate_serveMessage]
  change (evaluate env (handleStat 0 (leBytes 4 fid.toNat)).run w).map _ = _
  rw [handleStat_eq, if_neg (by simp), hfid, evaluate_step (evaluate_getFid env he),
    evaluate_step (evaluate_request _ hresp)]
  rfl

/-! ## What a read replies -/

/-- The record of an entry, written at clock time `now`. -/
def entryBytes (now : ℕ) (e : DirEntry) : Bytes :=
  statBytes now e.name ⟨qidType e.isDir, 0, e.qid⟩ 0 e.isDir

/-- The record of the directory itself. -/
def dotBytes (now : ℕ) : Bytes := statBytes now "." ⟨0x80, 0, 0⟩ 0 true

/-- The clock is read once for each record, from tick `k` on. -/
def entryRecords (clock : ℕ → ℕ) : ℕ → List DirEntry → Bytes
  | _, [] => []
  | k, e :: es => entryBytes (clock k) e ++ entryRecords clock (k + 1) es

/-- The bytes that a directory read at `offset` puts together. -/
def directoryData (clock : ℕ → ℕ) (k offset : ℕ) (es : List DirEntry) : Bytes :=
  (if offset = 0 then dotBytes (clock (k + es.length)) else []) ++ entryRecords clock k es

theorem evaluate_entryRecords (env : Env) (es : List DirEntry) (w : World) :
    evaluate env (encodeEntries es).run w = some (.ok (entryRecords env.clock w.tick es),
      { w with tick := w.tick + es.length }) := by
  induction es generalizing w with
  | nil => rfl
  | cons e es ih =>
      have hlength : w.tick + 1 + es.length = w.tick + (e :: es).length := by
        rw [List.length_cons]
        omega
      rw [encodeEntries, evaluate_step (evaluate_encodeStat ..), evaluate_step (ih _), ← hlength]
      rfl

theorem served_directory {env : Env} {w : World} {body : Bytes} {e : FidEntry} {resp : Response}
    (tag : UInt16) (hbody : 16 ≤ body.length)
    (he : w.shared.state.fids.lookup (fidAt body 0) = some e) (hdir : e.isDir = true)
    (hresp : env.router ⟨.readDir, e.path, []⟩ = .reply (.ok resp)) :
    ∃ w', evaluate env (serveMessage ⟨TREAD, tag, body⟩) w = some ((), w') ∧
      w'.shared = w.shared ∧ w'.out = w.out ++ [message RREAD tag (
        let chunk := (directoryData env.clock w.tick (uintAt 8 body 4)
          (w.shared.state.listDir e.path)).drop (uintAt 8 body 4)
        leBytes 4 chunk.length ++ chunk)] := by
  have hlist : evaluate env (locked (.listDir e.path)).run w =
      some (.ok (w.shared.state.listDir e.path), w) := rfl
  rw [evaluate_serveMessage]
  change ∃ w', (evaluate env (handleRead tag body).run w).map _ = _ ∧ _
  rw [handleRead_eq, if_neg (by omega), evaluate_step (evaluate_getFid env he), if_pos hdir,
    evaluate_step (evaluate_request _ hresp), evaluate_step hlist,
    evaluate_step (evaluate_entryRecords ..)]
  unfold withDot directoryData
  split
  · rw [evaluate_step (evaluate_step (evaluate_encodeStat ..))]
    exact ⟨_, rfl, rfl, rfl⟩
  · exact ⟨_, rfl, rfl, rfl⟩

theorem served_file {env : Env} {w : World} {body : Bytes} {e : FidEntry} {resp : Response}
    (tag : UInt16) (hbody : 16 ≤ body.length)
    (he : w.shared.state.fids.lookup (fidAt body 0) = some e) (hfile : e.isDir = false)
    (hresp : env.router ⟨.read, e.path, []⟩ = .reply (.ok resp)) :
    ∃ w', evaluate env (serveMessage ⟨TREAD, tag, body⟩) w = some ((), w') ∧
      w'.shared = w.shared ∧ w'.out = w.out ++ [message RREAD tag (
        let chunk := resp.data.drop (uintAt 8 body 4)
        leBytes 4 chunk.length ++ chunk)] := by
  rw [evaluate_serveMessage]
  change ∃ w', (evaluate env (handleRead tag body).run w).map _ = _ ∧ _
  rw [handleRead_eq, if_neg (by omega), evaluate_step (evaluate_getFid env he),
    if_neg (by simp [hfile]), evaluate_step (evaluate_request _ hresp)]
  exact ⟨_, rfl, rfl, rfl⟩

/-! ## The requests of an evaluation -/

def requestOf : Op → List Request
  | .route req => [req]
  | _ => []

/-- Everything that an evaluation sends to the router, in order. -/
def routed {A : Type} (env : Env) : Prog ninep A → World → List Request
  | .done _, _ => []
  | .call o next, w => requestOf o ++
      match env.answer o w with
      | some x => routed env (next x.1) x.2
      | none => []

section
variable {A B : Type} {env : Env} {w w' : World}

theorem routed_bind (p : Prog ninep A) (f : A → Prog ninep B) (w : World) :
    routed env (p >>= f) w = routed env p w ++
      match evaluate env p w with
      | some x => routed env (f x.1) x.2
      | none => [] := by
  induction p generalizing w with
  | done a => rfl
  | call o next ih =>
      simp only [Prog.call_bind, routed, evaluate]
      cases env.answer o w with
      | none => simp
      | some x =>
          simp only [Option.bind_some, List.append_assoc]
          rw [ih x.1 x.2]

theorem routed_step {x : Handler A} {f : A → Handler B} {a : A}
    (h : evaluate env x.run w = some (.ok a, w')) :
    routed env (x >>= f).run w = routed env x.run w ++ routed env (f a).run w' := by
  rw [ExceptT.run_bind, routed_bind, h]

/-- The loop around the handlers sends nothing to the router. -/
theorem routed_serveMessage (m : Message) :
    routed env (serveMessage m) w = routed env (handleMessage m).run w := by
  rw [serveMessage, routed_bind]
  cases evaluate env (handleMessage m).run w with
  | none => exact List.append_nil _
  | some x =>
      obtain ⟨r, w'⟩ := x
      cases r <;> exact List.append_nil _

theorem routed_before_reply (x : Handler Unit) (ty : UInt8) (tag : UInt16) (body : Bytes) :
    routed env (x >>= fun _ => sendReply ty tag body).run w = routed env x.run w := by
  rw [ExceptT.run_bind, routed_bind]
  cases evaluate env x.run w with
  | none => exact List.append_nil _
  | some y =>
      obtain ⟨r, w'⟩ := y
      cases r <;> exact List.append_nil _

theorem routed_getFid (fid : UInt32) (f : FidEntry → Handler B) :
    routed env (getFid fid >>= f).run w =
      match w.shared.state.fids.lookup fid with
      | some e => routed env (f e).run w
      | none => [] := by
  cases h : w.shared.state.fids.lookup fid with
  | none =>
      have hexec : (Critical.getFid fid).exec w.shared = (none, w.shared) := Prod.ext h rfl
      rw [getFid, bind_assoc, routed_step (evaluate_locked env w _), hexec]
      rfl
  | some e =>
      rw [routed_step (evaluate_getFid env h)]
      have hexec : (Critical.getFid fid).exec w.shared = (some e, w.shared) := Prod.ext h rfl
      rw [getFid, routed_step (evaluate_locked env w _), hexec]
      rfl

/-- A request is sent before it is answered, and nothing after the answer is. -/
theorem routed_request (what : String) (op : FsOperation) (path : String) (data : Bytes)
    {f : Response → Handler B} (hf : ∀ r, routed env (f r).run w = []) :
    routed env (request what op path data >>= f).run w = [⟨op, path, data⟩] := by
  have hstep : evaluate env (liftM (Prog.perform (S := ninep) (.route ⟨op, path, data⟩)) :
      Handler Answer).run w = some (.ok (env.router ⟨op, path, data⟩), w) := rfl
  rw [request, bind_assoc, routed_step hstep]
  change [(⟨op, path, data⟩ : Request)] ++ _ = _
  match env.router ⟨op, path, data⟩ with
  | .routerGone => rfl
  | .handlerGone => rfl
  | .reply (.error _) => rfl
  | .reply (.ok r) =>
      rw [pure_bind, hf r]
      rfl

end

/-- The request of a wstat once its record is cut out of the body. -/
def wstatRequests (e : FidEntry) (stat : Bytes) : List Request :=
  match nameIn e.path stat (statLayout stat.length).nameAt with
  | some name => [⟨.rename, e.path, asBytes (renamedPath e.path name)⟩]
  | none =>
      if (statLayout stat.length).hasMode || (statLayout stat.length).hasTime ||
          (statLayout stat.length).hasLength then [⟨.setAttr, e.path, []⟩]
      else []

theorem routed_wstat (env : Env) (w : World) (tag : UInt16) (body : Bytes) :
    routed env (serveMessage ⟨TWSTAT, tag, body⟩) w =
      if body.length < 6 then []
      else
        match w.shared.state.fids.lookup (fidAt body 0) with
        | none => []
        | some e => if (statIn body).length < 6 then [] else wstatRequests e (statIn body) := by
  rw [routed_serveMessage]
  change routed env (handleWstat tag body).run w = _
  rw [handleWstat_eq]
  by_cases hfour : body.length < 4
  · rw [if_pos hfour, if_pos (by omega)]
    rfl
  · rw [if_neg hfour, routed_getFid]
    cases w.shared.state.fids.lookup (fidAt body 0) with
    | none =>
        dsimp only
        split <;> rfl
    | some e =>
        dsimp only
        by_cases hsix : body.length < 6
        · rw [if_pos hsix, if_pos hsix]
          rfl
        · rw [if_neg hsix, if_neg hsix]
          by_cases hshort : (statIn body).length < 6
          · rw [if_pos hshort, if_pos hshort]
            rfl
          · rw [if_neg hshort, if_neg hshort]
            rw [routed_before_reply]
            unfold wstatScript wstatRequests
            split
            · exact routed_request _ _ _ _ fun _ => rfl
            · split
              · exact routed_request _ _ _ _ fun _ => rfl
              · rfl

/-! ## Environments that agree on the requests of a task -/

section
variable {A : Type} (P : Request → Prop)

/-- Every request of the task satisfies `P`, whatever it is answered. -/
def asks : Spec ninep Unit :=
  Histories.observed (fun t _ => t) (fun _ _ => True) fun _ o => ∀ req, o = .route req → P req

theorem asks_monotone : (asks P).Monotone := Histories.observed_monotone _ _ _

theorem evaluate_congr {env env' : Env} (hclock : env.clock = env'.clock)
    (hrouter : ∀ req, P req → env.router req = env'.router req) (p : Prog ninep A)
    (hp : wp (asks P) p (fun _ _ => True) ()) (w : World) :
    evaluate env p w = evaluate env' p w := by
  induction p generalizing w with
  | done a => rfl
  | call o next ih =>
      have hanswer : env.answer o w = env'.answer o w := by
        cases o with
        | route req => simp only [Env.answer, hrouter req (hp.1 req rfl)]
        | now => simp only [Env.answer, hclock]
        | _ => rfl
      simp only [evaluate, hanswer]
      congr 1
      funext x
      exact ih x.1 (hp.2 x.1 trivial) x.2

variable {P}

theorem asks_locked (c : Critical) :
    Meets (asks P) (fun _ => True) (locked c) fun _ _ => True :=
  fun _ _ => ⟨nofun, fun _ _ => trivial⟩

theorem asks_getFid (fid : UInt32) :
    Meets (asks P) (fun _ => True) (getFid fid) fun _ _ => True := by
  refine (asks_locked (.getFid fid)).bind (asks_monotone P) fun r => ?_
  cases r with
  | none => exact Meets.throw _
  | some e => exact Meets.pure fun _ _ => trivial

theorem asks_request (what : String) {op : FsOperation} {path : String} {data : Bytes}
    (h : P ⟨op, path, data⟩) :
    Meets (asks P) (fun _ => True) (request what op path data) fun _ _ => True := by
  intro t _
  refine ⟨?_, ?_⟩
  · intro req hreq
    obtain rfl := Op.route.inj hreq
    exact h
  · intro a _
    match a with
    | .routerGone => trivial
    | .handlerGone => trivial
    | .reply (.error _) => trivial
    | .reply (.ok _) => trivial

end

theorem asks_lookupLast (isLast : Bool) (path : String) :
    Meets (asks fun req => req.op = .lookup) (fun _ => True) (lookupLast isLast path)
      fun _ _ => True := by
  unfold lookupLast
  split
  · apply Meets.bind (asks_monotone _) (asks_request "lookup" (show FsOperation.lookup = .lookup from rfl))
    exact fun _ => Meets.pure fun _ _ => trivial
  · exact Meets.pure fun _ _ => trivial

/-- A walk looks its names up and asks for nothing else. -/
theorem asks_walkNames (body : Bytes) (left : ℕ) (w : Walk) :
    Meets (asks fun req => req.op = .lookup) (fun _ => True) (walkNames body left w)
      fun _ _ => True := by
  induction left generalizing w with
  | zero => exact Meets.pure fun _ _ => trivial
  | succ left ih =>
      rw [walkNames_succ]
      split
      · exact Meets.throw _
      · split
        · exact Meets.throw _
        · refine (asks_lookupLast _ _).bind (asks_monotone _) fun _ => ?_
          refine (asks_locked (.allocQid _ _)).bind (asks_monotone _) fun qid => ?_
          exact ih _

theorem asks_handleWalk (tag : UInt16) (body : Bytes) :
    Meets (asks fun req => req.op = .lookup) (fun _ => True) (handleWalk tag body)
      fun _ _ => True := by
  rw [handleWalk_eq]
  split
  · exact Meets.throw _
  · split
    · exact fun _ _ => ⟨nofun, fun r => Empty.elim r⟩
    · refine (asks_getFid _).bind (asks_monotone _) fun parent => ?_
      refine (asks_walkNames body _ _).bind (asks_monotone _) fun w => ?_
      refine (asks_locked (.setFid _ _ _ _)).bind (asks_monotone _) fun _ => ?_
      exact fun _ _ => ⟨nofun, fun _ _ => trivial⟩

theorem asks_releaseFid (entry : Option FidEntry) :
    Meets (asks fun req => req.op = .release) (fun _ => True) (releaseFid entry)
      fun _ _ => True := by
  cases entry with
  | none => exact Meets.pure fun _ _ => trivial
  | some e =>
      refine fun _ _ => ⟨fun req hreq => ?_, fun _ _ => trivial⟩
      obtain rfl := Op.route.inj hreq
      rfl

/-- A clunk gives its fid back and asks for nothing else. -/
theorem asks_handleClunk (tag : UInt16) (body : Bytes) :
    Meets (asks fun req => req.op = .release) (fun _ => True) (handleClunk tag body)
      fun _ _ => True := by
  rw [handleClunk_eq]
  split
  · exact Meets.throw _
  · refine (asks_locked (.getFid _)).bind (asks_monotone _) fun entry => ?_
    refine (asks_releaseFid entry).bind (asks_monotone _) fun _ => ?_
    refine (asks_locked (.removeFid _)).bind (asks_monotone _) fun _ => ?_
    exact fun _ _ => ⟨nofun, fun _ _ => trivial⟩

/-- The error reply is no request. -/
theorem asks_serveMessage {P : Request → Prop} {m : Message}
    (h : Meets (asks P) (fun _ => True) (handleMessage m) fun _ _ => True) :
    wp (asks P) (serveMessage m) (fun _ _ => True) () := by
  unfold serveMessage
  rw [wp_bind]
  refine wp_mono (asks_monotone _) _ ?_ _ (h () trivial)
  intro r t _
  cases r with
  | ok _ => trivial
  | error e => exact ⟨nofun, fun _ _ => trivial⟩

theorem asks_serveWalk (tag : UInt16) (body : Bytes) :
    wp (asks fun req => req.op = .lookup) (serveMessage ⟨TWALK, tag, body⟩)
      (fun _ _ => True) () := asks_serveMessage (asks_handleWalk tag body)

theorem asks_serveClunk (tag : UInt16) (body : Bytes) :
    wp (asks fun req => req.op = .release) (serveMessage ⟨TCLUNK, tag, body⟩)
      (fun _ _ => True) () := asks_serveMessage (asks_handleClunk tag body)

end Pinhead.NinepScripts
