import Pinhead.FuseFilesystem
import Pinhead.NinepScripts
import Pinhead.SftpSessions

/-!
# What the router learns of a sequence of writes

Each of the three frontends turns a write into one request with the path and the
bytes. The offset is parsed and dropped: a request has no place for it. The requests
of a sequence of writes are therefore the byte strings in order, and two sequences
look the same to a handler exactly when these are the same, wherever the bytes were
to be put.
-/
namespace Pinhead.WritePositions
open ByteStrings FsRequests Resumption Histories NinepShared NinepHandlers NinepRuns
open NinepDatagrams NinepScripts

/-! ## Writes and files -/

/-- All three protocols count the bytes of a write in 32 bits. -/
structure Write where
  offset : ℕ
  bytes : Bytes
  fits : bytes.length < 2 ^ 32

/-- A positional write; a gap before it is filled with zeros. -/
def Write.apply (file : Bytes) (w : Write) : Bytes :=
  if w.bytes = [] then file
  else (file ++ List.replicate (w.offset - file.length) 0).take w.offset ++ w.bytes ++
    file.drop (w.offset + w.bytes.length)

def contents (ws : List Write) : Bytes := ws.foldl Write.apply []

/-- The requests that carry the bytes of the writes and nothing else of them. -/
def byteRequests (path : String) (ws : List Write) : List Request :=
  ws.map fun w => ⟨.write, path, w.bytes⟩

theorem byteRequests_inj (path : String) (ws ws' : List Write) :
    byteRequests path ws = byteRequests path ws' ↔
      ws.map Write.bytes = ws'.map Write.bytes := by
  have hmap : ∀ l : List Write, byteRequests path l =
      (l.map Write.bytes).map fun bs => ⟨.write, path, bs⟩ := by
    intro l
    simp [byteRequests]
  rw [hmap, hmap]
  apply (List.map_injective_iff.mpr ?_).eq_iff
  intro a b hab
  exact congrArg Request.data hab

/-! ## 9P -/

def twrite (fid : UInt32) (w : Write) : Message :=
  ⟨TWRITE, 0, leBytes 4 fid.toNat ++ (leBytes 8 w.offset ++ (leBytes 4 w.bytes.length ++ w.bytes))⟩

theorem writePayload_twrite (fid : UInt32) (w : Write) :
    writePayload (twrite fid w).body = w.bytes := by
  have hdrop : ∀ rest : Bytes, (leBytes 4 fid.toNat ++ (leBytes 8 w.offset ++ rest)).drop 12 =
      rest := by
    intro rest
    rw [← List.append_assoc]
    exact List.drop_left' (by simp)
  have hcount : uintAt 4 (twrite fid w).body 12 = w.bytes.length := by
    rw [uintAt, twrite, hdrop, List.take_left' (leBytes_length 4 _)]
    exact leValue_leBytes_of_lt w.fits
  have hbody : (twrite fid w).body.drop 16 = w.bytes := by
    have h := congrArg (List.drop 4) (hdrop (leBytes 4 w.bytes.length ++ w.bytes))
    rwa [List.drop_drop, List.drop_left' (leBytes_length 4 _)] at h
  have hlength : (twrite fid w).body.length - 16 = w.bytes.length := by
    rw [← hbody, List.length_drop]
  rw [writePayload, hcount, hbody, hlength, min_self, List.take_length]

theorem handleWrite_twrite (fid : UInt32) (x : Write) :
    handleMessage (twrite fid x) = (do
      let entry ← getFid fid
      let _ ← request "write" .write entry.path x.bytes
      sendReply RWRITE 0 (leBytes 4 (uintAt 4 (twrite fid x).body 12))) := by
  change handleWrite 0 (twrite fid x).body = _
  have hlong : ¬ (twrite fid x).body.length < 16 := by
    simp only [twrite, List.length_append, leBytes_length]
    omega
  have hfid : fidAt (twrite fid x).body 0 = fid := fidAt_leBytes fid _
  rw [handleWrite_eq, if_neg hlong, hfid, writePayload_twrite]

/-- One write: its request, and no change to the tables. -/
theorem routed_twrite (env : Env) {w : World} {fid : UInt32} {e : FidEntry}
    (he : w.shared.state.fids.lookup fid = some e) (x : Write) :
    routed env (serveMessage (twrite fid x)) w = [⟨.write, e.path, x.bytes⟩] ∧
      ∃ w', evaluate env (serveMessage (twrite fid x)) w = some ((), w') ∧
        w'.shared = w.shared := by
  constructor
  · rw [routed_serveMessage, handleWrite_twrite, routed_getFid, he]
    exact routed_request _ _ _ _ fun _ => rfl
  · rw [evaluate_serveMessage, handleWrite_twrite, evaluate_step (evaluate_getFid env he)]
    rcases accepted_or_refused (env.router ⟨.write, e.path, x.bytes⟩) with ⟨r, hr⟩ | hrefused
    · rw [evaluate_step (evaluate_request w hr)]
      exact ⟨_, rfl, rfl⟩
    · obtain ⟨msg, hmsg⟩ := evaluate_refused w "write" hrefused
      rw [evaluate_fail hmsg]
      exact ⟨_, rfl, rfl⟩

theorem routed_writes (env : Env) {w : World} {fid : UInt32} {e : FidEntry}
    (he : w.shared.state.fids.lookup fid = some e) (ws : List Write) :
    routed env (serveAll (ws.map (twrite fid))) w = byteRequests e.path ws := by
  induction ws generalizing w with
  | nil => rfl
  | cons x ws ih =>
      obtain ⟨hrouted, w', heval, hshared⟩ := routed_twrite env he x
      rw [List.map_cons, serveAll, routed_bind, hrouted, heval]
      dsimp only
      rw [ih (by rw [hshared]; exact he)]
      rfl

/-! ## SFTP -/

def sftpWrite (id : ℕ) (handle : String) (x : Write) : SftpSessions.Packet :=
  .write id handle x.offset x.bytes

section
open SftpSessions

theorem traced_sftpWrites {s : HandleState} {handle : String} {entry : HandleEntry}
    (hentry : s.get handle = some entry) (id : ℕ) (ws : List Write) (t : List (Answered sftp)) :
    wp traced (sftpLoop s (ws.map (sftpWrite id handle)))
      (fun _ t' => t'.map Answered.op = t.map Answered.op ++
        byteRequests (normalized entry.path) ws) t := by
  induction ws generalizing t with
  | nil => exact (List.append_nil _).symm
  | cons x ws ih =>
      rw [List.map_cons, sftpLoop, sftpWrite, dispatch_write hentry, wp_bind]
      refine ⟨trivial, ?_⟩
      intro a _
      dsimp only [wp]
      rw [wp_bind]
      refine wp_mono (observed_monotone _ _ _) _ ?_ _ (ih _)
      intro r t' ht'
      change t'.map Answered.op = _
      rw [ht', List.map_append, List.append_assoc]
      rfl

/-- However the requests of a loop are answered, its writes ask for their bytes. -/
theorem sftp_writes {s : HandleState} {handle : String} {entry : HandleEntry}
    (hentry : s.get handle = some entry) (id : ℕ) (ws : List Write)
    {h : List (Answered sftp)} {r : List Reply × HandleState}
    (hp : Passes (sftpLoop s (ws.map (sftpWrite id handle))) h (.done r)) :
    h.map Answered.op = byteRequests (normalized entry.path) ws :=
  hp.traced (traced_sftpWrites hentry id ws [])

end

/-! ## FUSE -/

def fuseWrite (ino : ℕ) (x : Write) : FuseFilesystem.Callback := .write ino x.offset x.bytes

section
open FuseFilesystem

theorem traced_fuseWrites {s : FuseState} {ino : ℕ} {path : String}
    (hpath : s.pathFor ino = some path) (mounted : ℕ) (ws : List Write)
    (t : List (Answered fuse)) :
    wp traced (session mounted s (ws.map (fuseWrite ino)))
      (fun _ t' => asked t' = asked t ++ byteRequests path ws) t := by
  induction ws generalizing s t with
  | nil => exact (List.append_nil _).symm
  | cons x ws ih =>
      rw [List.map_cons, session, fuseWrite, dispatch_write hpath, wp_bind]
      refine ⟨trivial, ?_⟩
      intro a _
      dsimp only [wp]
      rw [wp_bind]
      have hkept : FuseState.pathFor (if Answer.accepted a then
          (Reply.written (x.bytes.length % 2 ^ 32), s.cacheSize path x.bytes.length)
        else (.error .eio, s)).2 ino = some path := by
        split <;> exact hpath
      refine wp_mono (observed_monotone _ _ _) _ ?_ _ (ih hkept _)
      intro r t' ht'
      change asked t' = _
      rw [ht', asked_append, List.append_assoc]
      rfl

theorem fuse_writes {s : FuseState} {ino : ℕ} {path : String} (hpath : s.pathFor ino = some path)
    (mounted : ℕ) (ws : List Write) {h : List (Answered fuse)} {r : List Reply × FuseState}
    (hp : Passes (session mounted s (ws.map (fuseWrite ino))) h (.done r)) :
    asked h = byteRequests path ws :=
  hp.traced (traced_fuseWrites hpath mounted ws [])

end

/-! ## Sequences told apart -/

/-- Two bytes written at the start of a file, and two more over them. -/
def overwriting : List Write := [⟨0, [97, 98], by decide⟩, ⟨0, [99, 100], by decide⟩]

/-- The same bytes as two consecutive chunks of one file. -/
def appending : List Write := [⟨0, [97, 98], by decide⟩, ⟨2, [99, 100], by decide⟩]

theorem contents_differ : contents overwriting ≠ contents appending := by decide

def succeeding : Answer := .reply (.ok ⟨[], none, false⟩)

def accepting : Env := ⟨fun _ => succeeding, fun _ => 0⟩

def oneHandle : SftpSessions.HandleState := (SftpSessions.HandleState.new.alloc "/f" false).2

def oneInode : FuseFilesystem.FuseState := FuseFilesystem.FuseState.new.handOut "/f"

end Pinhead.WritePositions
