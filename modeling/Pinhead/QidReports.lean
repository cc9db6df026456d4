import Pinhead.NinepContracts
import Pinhead.QidTable
import Pinhead.StatRecords

/-!
# The qids that replies report

Attach, walk, create, open, stat and directory reads each build the qid they send
on their own: from the name walked, from the permission bits, from the entry of the
fid or from the path table. `Reports` reads a reply on the wire and says which
object it is about and which qid it carries for it.

As long as no path is allocated a second time with the other directory flag, the
path table fixes one qid for each object once and for all, and every reply agrees
with it, with one exception: an open reports the same qid for every object.
-/
namespace Pinhead.QidReports
open FiniteTables ByteStrings FsRequests Resumption Histories NinepShared NinepHandlers
open NinepRuns NinepTotality NinepDatagrams NinepScripts NinepContracts QidDisciplines QidTable
open StatRecords

/-! ## Reports on the wire -/

/-- Type byte and path number of the qid at a position. -/
def qidAt (bs : Bytes) (i : ℕ) : UInt8 × ℕ := ((bs.drop i).headD 0, uintAt 8 bs (i + 5))

/-- What the handling of a message has seen of the tables: the object that its fid
names, and the last listing with its directory. -/
structure Seen where
  object : Option String
  listing : Option (String × List DirEntry)

def Seen.note (s : Seen) : Answered ninep → Seen
  | ⟨.locked (.attach _), _⟩ => { s with object := some "/" }
  | ⟨.locked (.getFid _), r⟩ => { s with object := (show Option FidEntry from r).map FidEntry.path }
  | ⟨.locked (.setFid _ _ path _), _⟩ => { s with object := some path }
  | ⟨.locked (.createFid _ path _), _⟩ => { s with object := some path }
  | ⟨.locked (.listDir dir), es⟩ => { s with listing := some (dir, es) }
  | _ => s

def seen (h : List (Answered ninep)) : Seen := h.foldl Seen.note ⟨none, none⟩

/-- Where the record of the `k`-th entry starts in a listing read at `offset`. -/
def recordStart (offset : ℕ) (es : List DirEntry) (k : ℕ) : ℕ :=
  (if offset = 0 then 53 else 0) + ((es.take k).map fun e => 52 + (asBytes e.name).length).sum

/-- The position in its body of the qid that a reply reports for the object of its
fid, if it reports one: for a walk, that of the last name. -/
def reportedAt (ty : UInt8) (body : Bytes) : Option ℕ :=
  match ty with
  | RATTACH | ROPEN | RCREATE => some 0
  | RWALK => if uintAt 2 body 0 = 0 then none else some (2 + 13 * (uintAt 2 body 0 - 1))
  | RSTAT => some 10
  | _ => none

/-- The reply `msg` to `m` reports the qid `q` for the object `path`. -/
inductive Reports (m : Message) (s : Seen) (msg : Bytes) (path : String) (q : UInt8 × ℕ) : Prop
  | object (i : ℕ) : s.object = some path →
      reportedAt ((msg.drop 4).headD 0) (msg.drop 7) = some i → q = qidAt (msg.drop 7) i →
      Reports m s msg path q
  | listed (dir : String) (es : List DirEntry) (k : ℕ) (e : DirEntry) :
      (msg.drop 4).headD 0 = RREAD → s.listing = some (dir, es) → es[k]? = some e →
      e.name ≠ "." → path = joinPath dir e.name →
      uintAt 8 m.body 4 ≤ recordStart (uintAt 8 m.body 4) es k →
      q = qidAt (msg.drop 11)
        (recordStart (uintAt 8 m.body 4) es k - uintAt 8 m.body 4 + 8) →
      Reports m s msg path q

/-! ## Runs without conflicting flags -/

/-- No rename and no open is accepted. -/
def noOpen (req : Request) (a : Answer) : Prop :=
  req.op = .rename ∨ req.op = .openDir ∨ req.op = .openFile → a.accepted = false

/-- A path that is already recorded is not allocated with the other flag. -/
def Agreeing (s : Shared) : Op → Prop
  | .locked (.allocQid path isDir) | .locked (.createFid _ path isDir) =>
      ∀ q e, s.state.paths.lookup q = some e → e.path = path → e.isDir = isDir
  | _ => True

/-- The behaviours in which every step meets the condition. -/
def agreeing : Semantics ninep Shared := fun o s r s' => semantics noOpen o s r s' ∧ Agreeing s o

/-- In the run with trace `t`, connection `i` handled `m`, or has begun to, with
the operations `h`. -/
def Handled {ι : Type} [DecidableEq ι] (msgs : ι → List Message) (t : List (Event ninep ι)) (i : ι)
    (m : Message) (h : List (Answered ninep)) : Prop :=
  ∃ before after h₁ h₂ q, msgs i = before ++ m :: after ∧ own i t = h₁ ++ h ++ h₂ ∧
    Passes (serveAll before) h₁ (.done ()) ∧ Passes (serveMessage m) h q

/-! ## What the tables hand out -/

/-- The qid table at the end of a run decides: what is handed out on the way to it
is what it records. -/
def recorded (last : Shared) : Contract where
  Held q p d := last.state.paths.lookup q = some ⟨p, d⟩
  Path _ := True
  Child _ := True
  Accepts := noOpen
  path _ := trivial
  join _ _ := trivial
  sibling _ _ := trivial

/-- The root is a directory and every fid is as `last` records it. -/
structure Flagged (last s : Shared) : Prop where
  root : s.state.paths.lookup 0 = some ⟨"/", true⟩
  fids : ∀ f e, s.state.fids.lookup f = some e →
    last.state.paths.lookup e.qid = some ⟨e.path, e.isDir⟩

variable {last s : Shared}

theorem Flagged.reordered {t : Shared} (hs : Flagged last s) (h : s.Reordered t) :
    Flagged last t where
  root := by
    rw [h.lookup_paths]
    exact hs.root
  fids f := by
    rw [h.lookup_fids]
    exact hs.fids f

theorem Flagged.setFid (hs : Flagged last s) (fid : UInt32) {q : ℕ} {p : String} {d : Bool}
    (hlast : last.state.paths.lookup q = some ⟨p, d⟩) :
    Flagged last { s with state := s.state.setFid fid q p d } where
  root := hs.root
  fids := by
    intro f e hf
    rcases (lookup_insert_iff ..).mp hf with ⟨_, rfl⟩ | ⟨_, hold⟩
    · exact hlast
    · exact hs.fids f e hold

theorem Flagged.markOpen (hs : Flagged last s) (fid : UInt32) :
    Flagged last { s with state := s.state.modifyFid fid fun e => { e with isOpen := true } } where
  root := by
    dsimp only
    rw [modifyFid_paths]
    exact hs.root
  fids := by
    intro f e hf
    dsimp only at hf
    rw [lookup_modifyFid] at hf
    by_cases hne : f = fid
    · rw [if_pos hne] at hf
      obtain ⟨e₀, he₀, rfl⟩ := Option.map_eq_some_iff.mp hf
      exact hs.fids f e₀ he₀
    · rw [if_neg hne] at hf
      exact hs.fids f e hf

/-- An allocation that meets the condition hands out what the last table records. -/
theorem Flagged.allocQid (hs : Flagged last s) (hinv : Inv s) {path : String} {isDir : Bool}
    (hagree : ∀ q e, s.state.paths.lookup q = some e → e.path = path → e.isDir = isDir)
    (hgrow : ∀ x e, (s.state.allocQid path isDir).2.paths.lookup x = some e →
      last.state.paths.lookup x = some e) :
    Flagged last { s with state := (s.state.allocQid path isDir).2 } ∧
      last.state.paths.lookup (s.state.allocQid path isDir).1 = some ⟨path, isDir⟩ := by
  obtain ⟨_, hgrows, _⟩ := allocQid_spec s hinv path isDir
  refine ⟨⟨hgrows _ _ hs.root, ?_⟩, ?_⟩
  · rw [allocQid_fids]
    exact hs.fids
  · apply hgrow
    rcases allocQid_cases s.state path isDir with ⟨q, e, hlook, hp, halloc⟩ | ⟨_, halloc⟩
    · rw [halloc]
      have hflag := hagree q e hlook hp
      rw [hlook, ← hp, ← hflag]
    · rw [halloc]
      exact AList.lookup_insert _

/-- Every critical section on the way to `last` answers with what it records. -/
theorem Flagged.exec (hs : Flagged last s) (hinv : Inv s) (pending : Option Request) (c : Critical)
    (hagree : Agreeing s (.locked c)) (hG : (recorded last).guarantee pending (.locked c))
    (hgrow : Grows (c.exec s).2 last) :
    (recorded last).rely (.locked c) (c.exec s).1 ∧ Flagged last (c.exec s).2 := by
  cases c with
  | getFid fid =>
      refine ⟨?_, hs⟩
      intro e he
      exact hs.fids fid e he
  | attach fid => exact ⟨trivial, hs.setFid fid (hgrow _ _ hs.root)⟩
  | allocQid path isDir =>
      obtain ⟨hflagged, hlast⟩ := hs.allocQid hinv hagree hgrow
      exact ⟨hlast, hflagged⟩
  | setFid fid qid path isDir => exact ⟨trivial, hs.setFid fid hG⟩
  | markOpen fid => exact ⟨trivial, hs.markOpen fid⟩
  | createFid fid path isDir =>
      have halloc : ∀ x e, (s.state.allocQid path isDir).2.paths.lookup x = some e →
          last.state.paths.lookup x = some e := by
        intro x e hx
        apply hgrow
        simp only [Critical.exec]
        rw [modifyFid_paths]
        exact hx
      obtain ⟨hflagged, hlast⟩ := hs.allocQid hinv hagree halloc
      exact ⟨hlast, (hflagged.setFid fid hlast).markOpen fid⟩
  | listDir dir => exact ⟨trivial, hs⟩
  | removeFid fid =>
      refine ⟨trivial, hs.root, ?_⟩
      intro f e hf
      exact hs.fids f e ((lookup_erase_iff _ _ _ _).mp hf).2
  | renameFid fid qid q =>
      obtain ⟨_, req, _, hop, _, r, haccepts⟩ := hG
      have hrefused : true = false := haccepts (Or.inl hop)
      cases hrefused
  | readMsize => exact ⟨trivial, hs⟩
  | writeMsize msize => exact ⟨trivial, hs.root, hs.fids⟩

/-! ## All answers of a run -/

section
variable {ι : Type} [DecidableEq ι]

theorem agreeing_noRename (o : Op) (s : Shared) (r : Op.Ret o) (s' : Shared)
    (h : agreeing o s r s') : semantics noRename o s r s' := by
  cases o with
  | route req => exact ⟨fun hop => h.1.1 (Or.inl hop), h.1.2⟩
  | _ => exact h.1

/-- The states of a run are consistent and their entries are there to stay. -/
theorem run_towards {msgs : ι → List Message} {t : List (Event ninep ι)}
    {c : Config ninep ι Shared} (run : Run agreeing (listener msgs) t c) :
    Run (fun o s r s' => agreeing o s r s' ∧ Inv s ∧ Grows s' c.state) (listener msgs) t c :=
  run.towards Grows.refl Grows.trans consistent_new fun i =>
    guaranteed_sub agreeing_noRename _ (serveAll_guarantees (D := consistency) (msgs i) _)

/-- Everything the tables answered in a run is what they record in the end. -/
theorem answers_recorded {msgs : ι → List Message} {t : List (Event ninep ι)}
    {c : Config ninep ι Shared} (run : Run agreeing (listener msgs) t c) :
    ∀ e ∈ t, (recorded c.state).rely e.op e.answer := by
  have hnew : Flagged c.state Shared.new := by
    refine ⟨rfl, ?_⟩
    intro f e hf
    simp [Shared.new, NinepState.new] at hf
  refine fun e he => ((run_observed ?_ (run_towards run) hnew (fun _ => none) fun i =>
    serveAll_sound (C := recorded c.state) (msgs i) (fun _ _ _ _ => trivial) none).2 e he).1
  intro o s r s' pending hs hG hsem
  obtain ⟨⟨hsem, hagree⟩, hinv, hgrow⟩ := hsem
  cases o with
  | locked k =>
      obtain ⟨u, hre, hexec⟩ := hsem
      have hagree' : Agreeing u (.locked k) := by
        cases k with
        | allocQid path isDir => exact fun q e hq => hagree q e (by rw [← hre.lookup_paths]; exact hq)
        | createFid fid path isDir =>
            exact fun q e hq => hagree q e (by rw [← hre.lookup_paths]; exact hq)
        | _ => trivial
      have hkept := (hs.reordered hre).exec (Reordered.inv hre hinv) pending k hagree' hG
      rw [hexec] at hkept
      exact hkept hgrow
  | route req => exact ⟨hsem.1, hsem.2 ▸ hs⟩
  | now => exact ⟨trivial, (show s' = s from hsem) ▸ hs⟩
  | send msg => exact ⟨trivial, (show s' = s from hsem) ▸ hs⟩
  | crash => exact Empty.elim r

/-- A listing shows what `last` records, under the names that the paths have there. -/
def Listed (last : Shared) : (o : Op) → Op.Ret o → Prop
  | .locked (.listDir dir), es => ∀ e ∈ (show List DirEntry from es), ∃ p,
      last.state.paths.lookup e.qid = some ⟨p, e.isDir⟩ ∧ childName dir p = some e.name
  | _, _ => True

theorem listings_recorded {msgs : ι → List Message} {t : List (Event ninep ι)}
    {c : Config ninep ι Shared} (run : Run agreeing (listener msgs) t c) :
    ∀ e ∈ t, Listed c.state e.op e.answer := by
  refine (run_towards run).answers ?_
  intro o s r s' hsem
  obtain ⟨⟨hsem, _⟩, _, hgrow⟩ := hsem
  match o, r, hsem with
  | .locked (.listDir dir), es, hsem =>
      obtain ⟨u, _, hexec⟩ := hsem
      obtain ⟨rfl, rfl⟩ := Prod.mk.inj hexec
      intro e he
      obtain ⟨⟨q, entry⟩, hmem, hmap⟩ := List.mem_filterMap.mp he
      obtain ⟨name, hname, rfl⟩ := Option.map_eq_some_iff.mp hmap
      have hlook : u.state.paths.lookup q = some entry := AList.mem_lookup_iff.mpr hmem
      exact ⟨entry.path, hgrow _ _ hlook, hname⟩
  | .locked (.getFid _), _, _ => trivial
  | .locked (.attach _), _, _ => trivial
  | .locked (.allocQid _ _), _, _ => trivial
  | .locked (.setFid _ _ _ _), _, _ => trivial
  | .locked (.markOpen _), _, _ => trivial
  | .locked (.createFid _ _ _), _, _ => trivial
  | .locked (.removeFid _), _, _ => trivial
  | .locked (.renameFid _ _ _), _, _ => trivial
  | .locked .readMsize, _, _ => trivial
  | .locked (.writeMsize _), _, _ => trivial
  | .route _, _, _ => trivial
  | .now, _, _ => trivial
  | .send _, _, _ => trivial
  | .crash, r, _ => exact Empty.elim r

end

/-! ## Qids at their positions -/

theorem qidAt_append (bs rest : Bytes) (i : ℕ) :
    qidAt (bs ++ rest) (bs.length + i) = qidAt rest i := by
  have hnumber : uintAt 8 (bs ++ rest) (bs.length + i + 5) = uintAt 8 rest (i + 5) := by
    rw [Nat.add_assoc, uintAt_append]
  have htype : (bs ++ rest).drop (bs.length + i) = rest.drop i := by simp
  rw [qidAt, qidAt, hnumber, htype]

theorem qidAt_drop (bs : Bytes) (n i : ℕ) : qidAt (bs.drop n) i = qidAt bs (n + i) := by
  simp [qidAt, uintAt, List.drop_drop, Nat.add_assoc]

theorem qidAt_encodeQid (q : Qid) (rest : Bytes) :
    qidAt (encodeQid q ++ rest) 0 = (q.ty, q.path % 256 ^ 8) := by
  have hnumber : ((encodeQid q ++ rest).drop 5).take 8 = leBytes 8 q.path := by
    have hsplit : encodeQid q ++ rest = (q.ty :: leBytes 4 q.version) ++ (leBytes 8 q.path ++ rest) := by
      simp [encodeQid]
    rw [hsplit, List.drop_left' (by simp), List.take_left' (by simp)]
  rw [qidAt, uintAt, hnumber, leValue_leBytes]
  rfl

/-- The qid of a stat record starts after its size, type and dev fields. -/
theorem qidAt_statBytes (now : ℕ) (name : String) (q : Qid) (length : ℕ) (isDir : Bool)
    (rest : Bytes) : qidAt (statBytes now name q length isDir ++ rest) 8 =
      (q.ty, q.path % 256 ^ 8) := by
  have hsplit : ∃ size tail, statBytes now name q length isDir ++ rest =
      (leBytes 2 size ++ leBytes 2 0 ++ leBytes 4 0) ++ (encodeQid q ++ tail) := by
    rw [statBytes_eq, fixedFields]
    exact ⟨_, _, by simp only [List.append_assoc]; rfl⟩
  obtain ⟨size, tail, hsplit⟩ := hsplit
  have hlen : (leBytes 2 size ++ leBytes 2 0 ++ leBytes 4 0).length = 8 := by simp
  have hat := qidAt_append (leBytes 2 size ++ leBytes 2 0 ++ leBytes 4 0) (encodeQid q ++ tail) 0
  rw [hlen] at hat
  rw [hsplit, hat, qidAt_encodeQid]

/-! ## One message -/

/-- The qid of an object by the last table. -/
def objectQid (last : Shared) (path : String) : UInt8 × ℕ :=
  match last.state.paths.entries.find? fun e => e.2.path == path with
  | some e => (qidType e.2.isDir, e.1 % 256 ^ 8)
  | none => (0, 0)

theorem objectQid_eq (hlast : Consistent last.state) {q : ℕ} {path : String} {d : Bool}
    (h : last.state.paths.lookup q = some ⟨path, d⟩) :
    objectQid last path = (qidType d, q % 256 ^ 8) := by
  unfold objectQid
  rcases find_path last.state path with ⟨e, he, hlook, hp⟩ | ⟨_, hnew⟩
  · have hq : e.1 = q := hlast.distinct _ _ _ _ hlook h hp
    rw [hq, h] at hlook
    rw [he]
    dsimp only
    rw [hq, ← Option.some.inj hlook]
  · exact absurd rfl (hnew q _ h)

/-- The answers that a message may rely on. -/
def Relies (last : Shared) (o : Op) (r : Op.Ret o) : Prop :=
  (recorded last).rely o r ∧ Listed last o r

/-- Replies report the qid of the last table, and a read asks for what it says. -/
def Tells (last : Shared) (m : Message) (s : Seen) : Op → Prop
  | .send msg => ∀ path q, Reports m s msg path q → q = objectQid last path
  | .route req => req.op = .readDir ∨ req.op = .read →
      (req.op = .readDir ↔ (objectQid last req.path).1 = 0x80)
  | _ => True

abbrev telling (last : Shared) (m : Message) : Spec ninep Seen :=
  observed Seen.note (Relies last) (Tells last m)

section
variable {m : Message} {Pre : Seen → Prop}

theorem tells_locked (c : Critical) : Meets (telling last m) Pre (locked c)
    fun r s' => ∃ s, Pre s ∧ s' = s.note ⟨.locked c, r⟩ ∧ Relies last (.locked c) r :=
  fun s hs => ⟨trivial, fun _ hr => ⟨s, hs, rfl, hr⟩⟩

theorem tells_getFid (fid : UInt32) : Meets (telling last m) Pre (getFid fid) fun e s' =>
    ∃ s, Pre s ∧ s' = { s with object := some e.path } ∧
      last.state.paths.lookup e.qid = some ⟨e.path, e.isDir⟩ := by
  refine (tells_locked (.getFid fid)).bind (observed_monotone _ _ _) fun r => ?_
  cases r with
  | none => exact Meets.throw _
  | some e =>
      refine Meets.pure ?_
      rintro s' ⟨s, hs, rfl, hr⟩
      exact ⟨s, hs, rfl, hr.1 e rfl⟩

theorem tells_request {what : String} {op : FsOperation} {path : String} {data : Bytes}
    (h : op = .readDir ∨ op = .read → (op = .readDir ↔ (objectQid last path).1 = 0x80)) :
    Meets (telling last m) Pre (request what op path data) fun r s =>
      Pre s ∧ noOpen ⟨op, path, data⟩ (.reply (.ok r)) := by
  intro s hs
  refine ⟨h, ?_⟩
  intro a ha
  match a, ha with
  | .routerGone, _ => trivial
  | .handlerGone, _ => trivial
  | .reply (.error e), _ => trivial
  | .reply (.ok r), ha => exact ⟨hs, ha.1⟩

/-- A request that is not a read. -/
theorem tells_other {what : String} {op : FsOperation} {path : String} {data : Bytes}
    (hdir : op ≠ .readDir) (hread : op ≠ .read) :
    Meets (telling last m) Pre (request what op path data) fun r s =>
      Pre s ∧ noOpen ⟨op, path, data⟩ (.reply (.ok r)) := by
  apply tells_request
  rintro (h | h)
  · exact absurd h hdir
  · exact absurd h hread

theorem tells_encodeStat (name : String) (qid : Qid) (length : ℕ) (isDir : Bool) :
    Meets (telling last m) Pre (encodeStat name qid length isDir) fun bs s =>
      Pre s ∧ ∃ now, bs = statBytes now name qid length isDir :=
  fun _ hs => ⟨trivial, fun now _ => ⟨hs, now, rfl⟩⟩

/-- A reply read off its own type and body. -/
theorem reports_message {s : Seen} {ty : UInt8} {tag : UInt16} {body : Bytes} {path : String}
    {q : UInt8 × ℕ} (h : Reports m s (message ty tag body) path q) :
    (∃ i, s.object = some path ∧ reportedAt ty body = some i ∧ q = qidAt body i) ∨
    ∃ dir es k e, ty = RREAD ∧ s.listing = some (dir, es) ∧ es[k]? = some e ∧ e.name ≠ "." ∧
      path = joinPath dir e.name ∧ uintAt 8 m.body 4 ≤ recordStart (uintAt 8 m.body 4) es k ∧
      q = qidAt (body.drop 4)
        (recordStart (uintAt 8 m.body 4) es k - uintAt 8 m.body 4 + 8) := by
  have htype : ((message ty tag body).drop 4).headD 0 = ty := by
    unfold message
    rw [List.append_assoc, List.append_assoc, List.drop_left' (leBytes_length 4 _)]
    rfl
  have heleven : (message ty tag body).drop 11 = body.drop 4 := by
    have hdrop := congrArg (List.drop 4) (message_drop ty tag body)
    rwa [List.drop_drop] at hdrop
  cases h with
  | object i hobject hat hq =>
      rw [htype, message_drop] at hat
      rw [message_drop] at hq
      exact Or.inl ⟨i, hobject, hat, hq⟩
  | listed dir es k e hread hlisting he hdot hpath hoffset hq =>
      rw [htype] at hread
      rw [heleven] at hq
      exact Or.inr ⟨dir, es, k, e, hread, hlisting, he, hdot, hpath, hoffset, hq⟩

theorem tells_send {ty : UInt8} {tag : UInt16} {body : Bytes}
    (h : ∀ s, Pre s → ∀ path q, Reports m s (message ty tag body) path q →
      q = objectQid last path) :
    Meets (telling last m) Pre (sendReply ty tag body) fun _ _ => True :=
  fun s hs => ⟨h s hs, fun _ _ => trivial⟩

/-- Replies of these types report nothing. -/
theorem tells_quiet {ty : UInt8} {tag : UInt16} {body : Bytes} (hat : reportedAt ty body = none)
    (hread : ty ≠ RREAD) :
    Meets (telling last m) Pre (sendReply ty tag body) fun _ _ => True := by
  apply tells_send
  intro s _ path q hreports
  rcases reports_message hreports with ⟨i, _, hi, _⟩ | ⟨_, _, _, _, hty, _⟩
  · rw [hat] at hi
    cases hi
  · exact absurd hty hread

/-- A reply that reports one qid for the object of its fid. -/
theorem tells_object {ty : UInt8} {tag : UInt16} {body : Bytes} (hread : ty ≠ RREAD)
    (h : ∀ s, Pre s → ∀ path i, s.object = some path → reportedAt ty body = some i →
      qidAt body i = objectQid last path) :
    Meets (telling last m) Pre (sendReply ty tag body) fun _ _ => True := by
  apply tells_send
  intro s hs path q hreports
  rcases reports_message hreports with ⟨i, hobject, hi, rfl⟩ | ⟨_, _, _, _, hty, _⟩
  · exact h s hs path i hobject hi
  · exact absurd hty hread

variable (hlast : Consistent last.state)
include hlast

theorem tells_handleAttach (hroot : last.state.paths.lookup 0 = some ⟨"/", true⟩) (tag : UInt16)
    (body : Bytes) : Meets (telling last m) Pre (handleAttach tag body) fun _ _ => True := by
  rw [handleAttach_eq]
  split
  · exact Meets.throw _
  · refine (tells_locked (.attach _)).bind (observed_monotone _ _ _) fun _ => ?_
    apply tells_object (by decide)
    rintro s' ⟨s, _, rfl, _⟩ path i hobject hi
    obtain rfl := Option.some.inj hobject
    obtain rfl := Option.some.inj hi
    have hq := qidAt_encodeQid ⟨0x80, 0, 0⟩ []
    rw [List.append_nil] at hq
    rw [hq, objectQid_eq hlast hroot]
    rfl

/-- The walk so far: its pair is recorded, and the last qid it collected is that of
its pair. -/
structure Collected (last : Shared) (n : ℕ) (w : Walk) : Prop where
  recorded : last.state.paths.lookup w.curQid = some ⟨w.curPath, w.isDir⟩
  count : w.wqids.length = n
  latest : 0 < n → ∃ qs, w.wqids = qs ++ [⟨qidType w.isDir, 0, w.curQid⟩]

omit hlast in
theorem tells_lookupLast (isLast : Bool) (path : String) :
    Meets (telling last m) (fun _ => True) (lookupLast isLast path) fun _ _ => True := by
  unfold lookupLast
  split
  · refine (tells_other (by simp) (by simp)).bind (observed_monotone _ _ _) fun _ => ?_
    exact Meets.pure fun _ _ => trivial
  · exact Meets.pure fun _ _ => trivial

omit hlast in
theorem tells_walkNames (body : Bytes) (left n : ℕ) (w : Walk) (hw : Collected last n w) :
    Meets (telling last m) (fun _ => True) (walkNames body left w)
      fun w' _ => Collected last (n + left) w' := by
  induction left generalizing n w with
  | zero => exact Meets.pure fun _ _ => hw
  | succ left ih =>
      rw [walkNames_succ]
      split
      · exact Meets.throw _
      · split
        · exact Meets.throw _
        · refine (tells_lookupLast _ _).bind (observed_monotone _ _ _) fun _ => ?_
          refine (tells_locked (.allocQid _ _)).bind (observed_monotone _ _ _) fun qid => ?_
          rintro s' ⟨s, _, _, hheld⟩
          have hnext : Collected last (n + 1) ⟨w.offset + 2 + uintAt 2 body w.offset,
              joinPath w.curPath (nameAt body w.offset), qid,
              w.wqids ++ [⟨qidType (dotName (nameAt body w.offset)), 0, qid⟩],
              dotName (nameAt body w.offset)⟩ :=
            ⟨hheld.1, by rw [List.length_append, hw.count]; rfl, fun _ => ⟨_, rfl⟩⟩
          have hrest := ih (n + 1) _ hnext s' trivial
          rw [show n + 1 + left = n + (left + 1) by omega] at hrest
          exact hrest

omit hlast in
theorem flatMap_encodeQid_length (qs : List Qid) : (qs.flatMap encodeQid).length = 13 * qs.length := by
  induction qs with
  | nil => rfl
  | cons q qs ih =>
      rw [List.flatMap_cons, List.length_append, ih]
      simp only [encodeQid, List.length_cons, List.length_append, leBytes_length]
      omega

omit hlast in
theorem uintAt_leBytes (width n : ℕ) (rest : Bytes) :
    uintAt width (leBytes width n ++ rest) 0 = n % 256 ^ width := by
  rw [uintAt, List.drop_zero, List.take_left' (leBytes_length width n), leValue_leBytes]

/-- The last qid of a walk's reply is that of the pair it ended with. -/
theorem reported_walk {n i : ℕ} {w : Walk} (hn : n < 65536) (hw : Collected last n w)
    (hi : reportedAt RWALK (leBytes 2 n ++ w.wqids.flatMap encodeQid) = some i) :
    qidAt (leBytes 2 n ++ w.wqids.flatMap encodeQid) i = objectQid last w.curPath := by
  have hcount : uintAt 2 (leBytes 2 n ++ w.wqids.flatMap encodeQid) 0 = n := by
    rw [uintAt_leBytes]
    exact Nat.mod_eq_of_lt hn
  change (if uintAt 2 (leBytes 2 n ++ w.wqids.flatMap encodeQid) 0 = 0 then none
    else some (2 + 13 * (uintAt 2 (leBytes 2 n ++ w.wqids.flatMap encodeQid) 0 - 1))) = _ at hi
  rw [hcount] at hi
  split at hi
  · cases hi
  · next hpos =>
      obtain ⟨qs, hqs⟩ := hw.latest (Nat.pos_of_ne_zero hpos)
      have hlength := hw.count
      rw [hqs, List.length_append, List.length_singleton] at hlength
      have hi' : i = (leBytes 2 n).length + ((qs.flatMap encodeQid).length + 0) := by
        rw [leBytes_length, flatMap_encodeQid_length, ← Option.some.inj hi]
        omega
      rw [hi', qidAt_append, hqs, List.flatMap_append, qidAt_append, List.flatMap_singleton]
      have hq := qidAt_encodeQid ⟨qidType w.isDir, 0, w.curQid⟩ []
      rw [List.append_nil] at hq
      rw [hq, objectQid_eq hlast hw.recorded]

theorem tells_walked (tag : UInt16) {body : Bytes} {fid : UInt32} {w : Walk}
    (hw : Collected last (uintAt 2 body 8) w) : Meets (telling last m) (fun _ => True) (do
      locked (.setFid fid w.curQid w.curPath w.isDir)
      sendReply RWALK tag (leBytes 2 (uintAt 2 body 8) ++ w.wqids.flatMap encodeQid))
      fun _ _ => True := by
  refine (tells_locked (.setFid _ _ _ _)).bind (observed_monotone _ _ _) fun _ => ?_
  apply tells_object (by decide)
  rintro s' ⟨s, _, rfl, _⟩ path i hobject hi
  obtain rfl := Option.some.inj hobject
  exact reported_walk hlast (uintAt_lt 2 body 8) hw hi

theorem tells_handleWalk (tag : UInt16) (body : Bytes) :
    Meets (telling last m) (fun _ => True) (handleWalk tag body) fun _ _ => True := by
  rw [handleWalk_eq]
  split
  · exact Meets.throw _
  · split
    · exact fun _ _ => ⟨trivial, fun r => Empty.elim r⟩
    · refine (tells_getFid _).bind (observed_monotone _ _ _) fun parent => ?_
      rintro s₁ ⟨_, _, _, hparent⟩
      have hstart : Collected last 0 ⟨10, parent.path, parent.qid, [], parent.isDir⟩ :=
        ⟨hparent, rfl, fun h => absurd h (by omega)⟩
      refine (tells_walkNames body _ 0 _ hstart).bind (observed_monotone _ _ _) ?_ s₁ trivial
      intro w
      rw [Nat.zero_add]
      intro s₂ hw
      exact tells_walked hlast tag hw s₂ trivial

omit hlast in
/-- No open is accepted, so none is answered. -/
theorem tells_handleOpen (tag : UInt16) (body : Bytes) :
    Meets (telling last m) Pre (handleOpen tag body) fun _ _ => True := by
  rw [handleOpen_eq]
  split
  · exact Meets.throw _
  · refine (tells_getFid _).bind (observed_monotone _ _ _) fun e => ?_
    refine (tells_other (by split <;> simp) (by split <;> simp)).bind
      (observed_monotone _ _ _) fun _ => ?_
    rintro s ⟨_, haccepted⟩
    have hrefused : true = false := haccepted (by
      dsimp only
      split
      · exact Or.inr (Or.inl rfl)
      · exact Or.inr (Or.inr rfl))
    cases hrefused

theorem tells_handleCreate (tag : UInt16) (body : Bytes) :
    Meets (telling last m) Pre (handleCreate tag body) fun _ _ => True := by
  rw [handleCreate_eq]
  split
  · exact Meets.throw _
  · split
    · exact Meets.throw _
    · refine (tells_getFid _).bind (observed_monotone _ _ _) fun parent => ?_
      refine (tells_other (by split <;> simp) (by split <;> simp)).bind
        (observed_monotone _ _ _) fun _ => ?_
      refine (tells_locked (.createFid _ _ _)).bind (observed_monotone _ _ _) fun qid => ?_
      apply tells_object (by decide)
      rintro s' ⟨s, _, rfl, hheld⟩ path i hobject hi
      obtain rfl := Option.some.inj hobject
      obtain rfl := Option.some.inj hi
      have hq := qidAt_encodeQid ⟨qidType ((createPerm body).testBit 31), 0, qid⟩ []
      rw [List.append_nil] at hq
      rw [hq, objectQid_eq hlast hheld.1]

theorem tells_handleStat (tag : UInt16) (body : Bytes) :
    Meets (telling last m) Pre (handleStat tag body) fun _ _ => True := by
  rw [handleStat_eq]
  split
  · exact Meets.throw _
  · refine (tells_getFid _).bind (observed_monotone _ _ _) fun e => ?_
    refine (tells_other (by simp) (by simp)).bind (observed_monotone _ _ _) fun resp => ?_
    refine (tells_encodeStat _ _ _ _).bind (observed_monotone _ _ _) fun stat => ?_
    apply tells_object (by decide)
    rintro s' ⟨⟨⟨s, _, rfl, hheld⟩, _⟩, now, rfl⟩ path i hobject hi
    obtain rfl := Option.some.inj hobject
    obtain rfl := Option.some.inj hi
    have hat := qidAt_append (leBytes 2 (statBytes now (statName e.path)
      ⟨qidType e.isDir, 0, e.qid⟩ resp.data.length e.isDir).length)
      (statBytes now (statName e.path) ⟨qidType e.isDir, 0, e.qid⟩ resp.data.length e.isDir) 8
    have hq := qidAt_statBytes now (statName e.path) ⟨qidType e.isDir, 0, e.qid⟩
      resp.data.length e.isDir []
    rw [List.append_nil] at hq
    rw [leBytes_length, hq] at hat
    rw [hat, objectQid_eq hlast hheld]

/-- The records of a listing, each with the clock reading it was written at. -/
def records (l : List (ℕ × DirEntry)) : Bytes :=
  l.flatMap fun x => statBytes x.1 x.2.name ⟨qidType x.2.isDir, 0, x.2.qid⟩ 0 x.2.isDir

omit hlast in
theorem records_length (l : List (ℕ × DirEntry)) : (records l).length =
    ((l.map Prod.snd).map fun e => 52 + (asBytes e.name).length).sum := by
  induction l with
  | nil => rfl
  | cons x l ih =>
      rw [records, List.flatMap_cons, List.length_append, statBytes_length]
      rw [records] at ih
      rw [ih]
      rfl

omit hlast in
theorem qidAt_records {l : List (ℕ × DirEntry)} {k : ℕ} {e : DirEntry}
    (h : (l.map Prod.snd)[k]? = some e) :
    qidAt (records l) ((((l.map Prod.snd).take k).map fun e => 52 + (asBytes e.name).length).sum + 8)
      = (qidType e.isDir, e.qid % 256 ^ 8) := by
  rw [List.getElem?_map] at h
  obtain ⟨x, hx, rfl⟩ := Option.map_eq_some_iff.mp h
  obtain ⟨hk, hget⟩ := List.getElem?_eq_some_iff.mp hx
  have hsplit : records l = records (l.take k) ++ (statBytes x.1 x.2.name
      ⟨qidType x.2.isDir, 0, x.2.qid⟩ 0 x.2.isDir ++ records (l.drop (k + 1))) := by
    conv_lhs => rw [← List.take_append_drop k l, List.drop_eq_getElem_cons hk, hget]
    simp only [records, List.flatMap_append, List.flatMap_cons]
  have hlen := records_length (l.take k)
  rw [List.map_take] at hlen
  rw [hsplit, ← hlen, qidAt_append, qidAt_statBytes]

omit hlast in
theorem tells_encodeEntries (es : List DirEntry) :
    Meets (telling last m) Pre (encodeEntries es) fun bs s =>
      Pre s ∧ ∃ l : List (ℕ × DirEntry), l.map Prod.snd = es ∧ bs = records l := by
  induction es generalizing Pre with
  | nil => exact Meets.pure fun _ hs => ⟨hs, [], rfl, rfl⟩
  | cons e es ih =>
      refine (tells_encodeStat _ _ _ _).bind (observed_monotone _ _ _) fun stat => ?_
      refine ih.bind (observed_monotone _ _ _) fun rest => ?_
      refine Meets.pure ?_
      rintro s ⟨⟨hs, now, rfl⟩, l, rfl, rfl⟩
      exact ⟨hs, (now, e) :: l, rfl, rfl⟩

omit hlast in
theorem tells_withDot (offset : ℕ) (data : Bytes) :
    Meets (telling last m) Pre (withDot offset data) fun bs s =>
      Pre s ∧ ∃ dot, bs = dot ++ data ∧ dot.length = if offset = 0 then 53 else 0 := by
  unfold withDot
  split
  · next hzero =>
      refine (tells_encodeStat _ _ _ _).bind (observed_monotone _ _ _) fun dot => ?_
      refine Meets.pure ?_
      rintro s ⟨hs, now, rfl⟩
      refine ⟨hs, _, rfl, ?_⟩
      rw [statBytes_length]
      decide
  · next hpos => exact Meets.pure fun _ hs => ⟨hs, [], rfl, rfl⟩

/-- A record inside the part of a listing that is sent carries the qid of its entry. -/
theorem reported_listing {dir : String} {es : List DirEntry} {l : List (ℕ × DirEntry)}
    {dot : Bytes} {offset k : ℕ} {e : DirEntry} (hl : l.map Prod.snd = es)
    (hdot : dot.length = if offset = 0 then 53 else 0)
    (hlisted : Listed last (.locked (.listDir dir)) es) (he : es[k]? = some e)
    (hname : e.name ≠ ".") (hoffset : offset ≤ recordStart offset es k) :
    qidAt ((dot ++ records l).drop offset) (recordStart offset es k - offset + 8) =
      objectQid last (joinPath dir e.name) := by
  subst hl
  have hat : offset + (recordStart offset (l.map Prod.snd) k - offset + 8) = dot.length +
      ((((l.map Prod.snd).take k).map fun e => 52 + (asBytes e.name).length).sum + 8) := by
    rw [hdot]
    unfold recordStart at hoffset ⊢
    omega
  obtain ⟨p, hlook, hchild⟩ := hlisted e (List.mem_of_getElem? he)
  rw [qidAt_drop, hat, qidAt_append, qidAt_records he, ← childName_join hchild hname,
    objectQid_eq hlast hlook]

/-- The records that a directory read sends agree with the last table. -/
theorem tells_directory (tag : UInt16) {dir : String} (hdir : (objectQid last dir).1 = 0x80) :
    Meets (telling last m) (fun _ => True) (do
        let _ ← request "readdir" .readDir dir []
        let entries ← locked (.listDir dir)
        let listing ← encodeEntries entries
        let data ← withDot (uintAt 8 m.body 4) listing
        readReply tag (uintAt 8 m.body 4) data) fun _ _ => True := by
  refine (tells_request fun _ => by simp [hdir]).bind (observed_monotone _ _ _) fun _ => ?_
  refine (tells_locked (.listDir _)).bind (observed_monotone _ _ _) fun es => ?_
  refine (tells_encodeEntries _).bind (observed_monotone _ _ _) fun listing => ?_
  refine (tells_withDot _ _).bind (observed_monotone _ _ _) fun data => ?_
  apply tells_send
  rintro s' ⟨⟨⟨s, _, rfl, hlisted⟩, l, hl, rfl⟩, dot, rfl, hdot⟩ path q hreports
  rcases reports_message hreports with ⟨i, _, hi, _⟩ | ⟨dir, es', k, x, _, hlisting, hx, hname,
    rfl, hoffset, rfl⟩
  · cases hi
  · obtain ⟨rfl, rfl⟩ := Prod.mk.inj (Option.some.inj hlisting)
    rw [List.drop_left' (leBytes_length 4 _)]
    exact reported_listing hlast hl hdot hlisted.2 hx hname hoffset

omit hlast in
/-- A file read sends no records. -/
theorem tells_file (tag : UInt16) (offset : ℕ) {path : String}
    (hfile : (objectQid last path).1 ≠ 0x80) :
    Meets (telling last m) (fun s => s.listing = none) (do
        let resp ← request "read" .read path []
        readReply tag offset resp.data) fun _ _ => True := by
  refine (tells_request fun _ => by simp [hfile]).bind (observed_monotone _ _ _) fun resp => ?_
  apply tells_send
  intro s hs path q hreports
  rcases reports_message hreports with ⟨i, _, hi, _⟩ | ⟨_, _, _, _, _, hlisting, _⟩
  · cases hi
  · rw [hs.1] at hlisting
    cases hlisting

theorem tells_handleRead (tag : UInt16) :
    Meets (telling last m) (fun s => s.listing = none) (handleRead tag m.body) fun _ _ => True := by
  rw [handleRead_eq]
  split
  · exact Meets.throw _
  · refine (tells_getFid _).bind (observed_monotone _ _ _) fun e => ?_
    rintro s' ⟨s, hnone, rfl, hheld⟩
    have hkind : (objectQid last e.path).1 = qidType e.isDir := by
      rw [objectQid_eq hlast hheld]
    by_cases hdir : e.isDir = true
    · rw [if_pos hdir]
      rw [hdir] at hkind
      exact tells_directory hlast tag hkind _ trivial
    · rw [if_neg hdir]
      rw [Bool.eq_false_iff.mpr hdir] at hkind
      exact tells_file tag _ (by rw [hkind]; decide) _ hnone

omit hlast in
theorem tells_crash {A : Type} {Post : A → Seen → Prop} :
    Meets (telling last m) Pre (crash : Handler A) Post :=
  fun _ _ => ⟨trivial, fun r => Empty.elim r⟩

omit hlast in
theorem tells_handleVersion (tag : UInt16) (body : Bytes) :
    Meets (telling last m) Pre (handleVersion tag body) fun _ _ => True := by
  rw [handleVersion_eq]
  split
  · exact Meets.throw _
  · split
    · exact tells_crash
    · refine (tells_locked (.writeMsize _)).bind (observed_monotone _ _ _) fun _ => ?_
      exact tells_quiet rfl (by decide)

omit hlast in
theorem tells_handleWrite (tag : UInt16) (body : Bytes) :
    Meets (telling last m) Pre (handleWrite tag body) fun _ _ => True := by
  rw [handleWrite_eq]
  split
  · exact Meets.throw _
  · refine (tells_getFid _).bind (observed_monotone _ _ _) fun e => ?_
    refine (tells_other (by simp) (by simp)).bind (observed_monotone _ _ _) fun _ => ?_
    exact tells_quiet rfl (by decide)

omit hlast in
theorem tells_releaseFid (entry : Option FidEntry) :
    Meets (telling last m) Pre (releaseFid entry) fun _ s => Pre s := by
  cases entry with
  | none => exact Meets.pure fun _ hs => hs
  | some e =>
      intro s hs
      refine ⟨?_, fun _ _ => hs⟩
      rintro (h | h) <;> cases h

omit hlast in
theorem tells_handleClunk (tag : UInt16) (body : Bytes) :
    Meets (telling last m) Pre (handleClunk tag body) fun _ _ => True := by
  rw [handleClunk_eq]
  split
  · exact Meets.throw _
  · refine (tells_locked (.getFid _)).bind (observed_monotone _ _ _) fun entry => ?_
    refine (tells_releaseFid entry).bind (observed_monotone _ _ _) fun _ => ?_
    refine (tells_locked (.removeFid _)).bind (observed_monotone _ _ _) fun _ => ?_
    exact tells_quiet rfl (by decide)

omit hlast in
theorem tells_handleRemove (tag : UInt16) (body : Bytes) :
    Meets (telling last m) Pre (handleRemove tag body) fun _ _ => True := by
  rw [handleRemove_eq]
  split
  · exact Meets.throw _
  · refine (tells_getFid _).bind (observed_monotone _ _ _) fun e => ?_
    refine (tells_other (by split <;> simp) (by split <;> simp)).bind
      (observed_monotone _ _ _) fun _ => ?_
    exact tells_quiet rfl (by decide)

omit hlast in
theorem tells_wstatScript (fid : UInt32) (e : FidEntry) (stat : Bytes) :
    Meets (telling last m) Pre (wstatScript fid e stat) fun _ _ => True := by
  unfold wstatScript
  split
  · refine (tells_other (by simp) (by simp)).bind (observed_monotone _ _ _) fun _ => ?_
    exact (tells_locked (.renameFid _ _ _)).weaken (observed_monotone _ _ _)
      (fun _ h => h) fun _ _ _ => trivial
  · split
    · refine (tells_other (by simp) (by simp)).bind (observed_monotone _ _ _) fun _ => ?_
      exact Meets.pure fun _ _ => trivial
    · exact Meets.pure fun _ _ => trivial

omit hlast in
theorem tells_handleWstat (tag : UInt16) (body : Bytes) :
    Meets (telling last m) Pre (handleWstat tag body) fun _ _ => True := by
  rw [handleWstat_eq]
  split
  · exact Meets.throw _
  · refine (tells_getFid _).bind (observed_monotone _ _ _) fun e => ?_
    split
    · exact Meets.throw _
    · split
      · exact tells_quiet rfl (by decide)
      · refine (tells_wstatScript _ e _).bind (observed_monotone _ _ _) fun _ => ?_
        exact tells_quiet rfl (by decide)

theorem tells_handleMessage (hroot : last.state.paths.lookup 0 = some ⟨"/", true⟩) :
    Meets (telling last m) (fun s => s.listing = none) (handleMessage m) fun _ _ => True := by
  unfold handleMessage
  split
  · exact tells_handleVersion _ _
  · exact tells_handleAttach hlast hroot _ _
  · exact fun s _ => tells_handleWalk hlast _ _ s trivial
  · exact tells_handleOpen _ _
  · exact tells_handleRead hlast _
  · exact tells_handleWrite _ _
  · exact tells_handleClunk _ _
  · exact tells_handleCreate hlast _ _
  · exact tells_handleRemove _ _
  · exact tells_handleStat hlast _ _
  · exact tells_handleWstat _ _
  · exact tells_quiet rfl (by decide)
  · exact Meets.throw _

/-- Everything that the handling of a message sends agrees with the last table. -/
theorem tells_serveMessage (hroot : last.state.paths.lookup 0 = some ⟨"/", true⟩) :
    wp (telling last m) (serveMessage m) (fun _ _ => True) ⟨none, none⟩ := by
  unfold serveMessage
  rw [wp_bind]
  refine wp_mono (observed_monotone _ _ _) _ ?_ _ (tells_handleMessage hlast hroot _ rfl)
  intro r s _
  cases r with
  | ok _ => trivial
  | error e =>
      have hsend : Meets (telling last m) (fun _ => True)
          (sendReply RERROR m.tag (errorBody e)) fun _ _ => True := tells_quiet rfl (by decide)
      obtain ⟨hquiet, _⟩ := hsend s trivial
      exact ⟨hquiet, fun _ _ => trivial⟩

end

/-! ## Whole runs -/

/-- Each operation of the connection loop belongs to one of its messages. -/
theorem passes_serveAll {ms : List Message} {k₁ k₂ : List (Answered ninep)} {e : Answered ninep}
    {p : Prog ninep Unit} (hp : Passes (serveAll ms) (k₁ ++ e :: k₂) p) :
    ∃ before m after h₀ h₁ h₂ h₃ q, ms = before ++ m :: after ∧ k₁ = h₀ ++ h₁ ∧ k₂ = h₂ ++ h₃ ∧
      Passes (serveAll before) h₀ (.done ()) ∧ Passes (serveMessage m) (h₁ ++ e :: h₂) q := by
  induction ms generalizing k₁ with
  | nil =>
      obtain ⟨hnil, _⟩ := passes_done hp
      simp at hnil
  | cons m ms ih =>
      rcases passes_bind hp with ⟨q, hm, _⟩ | ⟨_, h, rest, hsplit, hm, hrest⟩
      · exact ⟨[], m, ms, [], k₁, k₂, [], q, rfl, rfl, by simp, .refl _, hm⟩
      · -- the operation lies behind the first message or within it
        rcases List.append_eq_append_iff.mp hsplit with ⟨h₁, rfl, hin⟩ | ⟨h₁, rfl, rfl⟩
        · cases h₁ with
          | nil =>
              rw [List.nil_append] at hin
              rw [← hin, ← List.nil_append (e :: k₂)] at hrest
              obtain ⟨before, m', after, h₀, h₁, h₂, h₃, q, rfl, hnil, rfl, hbefore, hm'⟩ := ih hrest
              refine ⟨m :: before, m', after, k₁ ++ [] ++ h₀, h₁, h₂, h₃, q, rfl, ?_, rfl, ?_, hm'⟩
              · rw [List.append_assoc, List.append_assoc, ← hnil, List.append_nil, List.append_nil]
              · exact Passes.bind hm hbefore
          | cons e' h₂ =>
              obtain ⟨rfl, rfl⟩ := List.cons.inj hin
              exact ⟨[], m, ms, [], k₁, h₂, rest, _, rfl, rfl, rfl, .refl _, hm⟩
        · obtain ⟨before, m', after, h₀, h₁, h₂, h₃, q, rfl, rfl, rfl, hbefore, hm'⟩ := ih hrest
          refine ⟨m :: before, m', after, h ++ h₀, h₁, h₂, h₃, q, rfl, ?_, rfl, ?_, hm'⟩
          · rw [List.append_assoc]
          · exact Passes.bind hm hbefore

section
variable {ι : Type} [DecidableEq ι]

/-- Every operation of a connection is performed in the handling of a message. -/
theorem handled_of_mem {sem : Semantics ninep Shared} {msgs : ι → List Message}
    {t : List (Event ninep ι)} {c : Config ninep ι Shared} (run : Run sem (listener msgs) t c)
    (i : ι) {e : Answered ninep} (he : e ∈ own i t) : ∃ m h, Handled msgs t i m h ∧ e ∈ h := by
  obtain ⟨k₁, k₂, hown⟩ := List.append_of_mem he
  have hpasses := run_passes run i
  rw [hown] at hpasses
  obtain ⟨before, m, after, h₀, h₁, h₂, h₃, q, hms, rfl, rfl, hbefore, hm⟩ :=
    passes_serveAll hpasses
  refine ⟨m, h₁ ++ e :: h₂, ⟨before, after, h₀, h₃, q, hms, ?_, hbefore, hm⟩, by simp⟩
  rw [hown]
  simp

/-- There is one qid for each object. Whatever message of whatever connection was
being handled, the qids in its reply are those of the objects they are reported
for, and a read asks the router for a directory exactly when that qid says so. -/
def Consistently (msgs : ι → List Message) (t : List (Event ninep ι)) : Prop :=
  ∃ qid : String → UInt8 × ℕ, ∀ i m h, Handled msgs t i m h → ∀ h₁ e h₂, h = h₁ ++ e :: h₂ →
    (∀ msg path q, e.op = .send msg → Reports m (seen h₁) msg path q → q = qid path) ∧
    (∀ req, e.op = .route req → req.op = .readDir ∨ req.op = .read →
      (req.op = .readDir ↔ (qid req.path).1 = 0x80))

theorem qids_reported_consistently (msgs : ι → List Message) (t : List (Event ninep ι))
    (c : Config ninep ι Shared) (run : Run agreeing (listener msgs) t c) :
    (∀ i, ∀ e ∈ own i t, ∃ m h, Handled msgs t i m h ∧ e ∈ h) ∧ Consistently msgs t := by
  refine ⟨fun i e he => handled_of_mem run i he, objectQid c.state, ?_⟩
  rintro i m h ⟨before, after, k₁, k₂, p, _, hown, _, hm⟩ h₁ e h₂ rfl
  obtain ⟨hlast, hgrown, _⟩ := run.invariant Grows.refl Grows.trans consistent_new fun i =>
    guaranteed_sub agreeing_noRename _ (serveAll_guarantees (D := consistency) (msgs i) _)
  have hroot : c.state.state.paths.lookup 0 = some ⟨"/", true⟩ := hgrown 0 _ rfl
  have hrelies : ∀ a ∈ h₁, Relies c.state a.op a.answer := by
    intro a ha
    have hmem : a ∈ own i t := by
      rw [hown]
      simp [ha]
    exact ⟨forall_own (answers_recorded run) i a hmem,
      forall_own (listings_recorded run) i a hmem⟩
  have htells : Tells c.state m (seen h₁) e.op :=
    hm.guaranteed hrelies (tells_serveMessage hlast hroot)
  constructor
  · intro msg path q hop
    rw [hop] at htells
    exact htells path q
  · intro req hop
    rw [hop] at htells
    exact htells

end

/-! ## A directory made and reached -/

def attachAs (fid : UInt8) : Message := ⟨TATTACH, 1, [fid, 0, 0, 0, 255, 255, 255, 255]⟩

/-- Create the directory `d` with fid 0. -/
def makeDirectory : Message := ⟨TCREATE, 1, [0, 0, 0, 0, 1, 0, 100, 0, 0, 0, 128, 0]⟩

/-- Walk from fid 1 to `d`. -/
def reachDirectory : Message := ⟨TWALK, 1, [1, 0, 0, 0, 2, 0, 0, 0, 1, 0, 1, 0, 100]⟩

def accept : Answer := .reply (.ok ⟨[], none, false⟩)

/-- What the handling of an attach does. -/
def attached (fid : UInt32) : List (Answered ninep) :=
  [⟨.locked (.attach fid), ()⟩, ⟨.send (message RATTACH 1 (encodeQid ⟨0x80, 0, 0⟩)), ()⟩]

def making : List (Answered ninep) :=
  [⟨.locked (.getFid 0), some (⟨0, "/", false, true⟩ : FidEntry)⟩,
    ⟨.route ⟨.mkDir, "/d", []⟩, accept⟩,
    ⟨.locked (.createFid 0 "/d" true), (1 : ℕ)⟩]

def made : List (Answered ninep) :=
  making ++ [⟨.send (message RCREATE 1 (encodeQid ⟨0x80, 0, 1⟩)), ()⟩]

def reaching : List (Answered ninep) :=
  [⟨.locked (.getFid 1), some (⟨0, "/", false, true⟩ : FidEntry)⟩,
    ⟨.route ⟨.lookup, "/d", []⟩, accept⟩,
    ⟨.locked (.allocQid "/d" false), (1 : ℕ)⟩,
    ⟨.locked (.setFid 2 1 "/d" false), ()⟩]

def reached : List (Answered ninep) :=
  reaching ++ [⟨.send (message RWALK 1 (leBytes 2 1 ++ encodeQid ⟨0, 0, 1⟩)), ()⟩]

theorem passes_attach (fid : UInt8) (h : fid = 0 ∨ fid = 1) :
    Passes (serveMessage (attachAs fid)) (attached (UInt32.ofNat fid.toNat)) (.done ()) := by
  rcases h with rfl | rfl <;> exact .answer _ _ _ (.answer _ _ _ (.refl _))

theorem passes_made : Passes (serveMessage makeDirectory) made (.done ()) :=
  .answer _ _ _ (.answer _ _ _ (.answer _ _ _ (.answer _ _ _ (.refl _))))

theorem passes_reached : Passes (serveMessage reachDirectory) reached (.done ()) :=
  .answer _ _ _ (.answer _ _ _ (.answer _ _ _ (.answer _ _ _ (.answer _ _ _ (.refl _)))))

theorem passes_last {m : Message} {h : List (Answered ninep)}
    (hm : Passes (serveMessage m) h (.done ())) : Passes (serveAll [m]) h (.done ()) := by
  have hall : Passes (serveAll [m]) (h ++ []) (.done ()) := Passes.bind hm (.refl _)
  rwa [List.append_nil] at hall

theorem passes_make : Passes (serveAll [attachAs 0, makeDirectory]) (attached 0 ++ made)
    (.done ()) :=
  Passes.bind (passes_attach 0 (Or.inl rfl)) (passes_last passes_made)

/-- The tables once the directory is made. -/
def directoryMade : Shared :=
  ((Critical.createFid 0 "/d" true).exec ((Critical.attach 0).exec Shared.new).2).2

theorem performs_make : Performs agreeing Shared.new (attached 0 ++ made) directoryMade := by
  have hagree : Agreeing ((Critical.attach 0).exec Shared.new).2
      (.locked (.createFid 0 "/d" true)) :=
    (forall_lookup_iff _ _).mpr (by decide)
  have haccept : noOpen ⟨.mkDir, "/d", []⟩ accept := by
    rintro (h | h | h) <;> cases h
  exact .answer _ _ ⟨semantics_exec _ _, trivial⟩ (.answer _ _ ⟨rfl, trivial⟩
    (.answer _ _ ⟨semantics_exec _ _, trivial⟩ (.answer _ _ ⟨⟨haccept, rfl⟩, trivial⟩
    (.answer _ _ ⟨semantics_exec _ _, hagree⟩ (.answer _ _ ⟨rfl, trivial⟩ (.refl _))))))

theorem qids_reported_consistently_made : ∃ t c,
    Run agreeing (listener fun _ : Unit => [attachAs 0, makeDirectory]) t c ∧
    own () t = attached 0 ++ made ∧
    Consistently (fun _ : Unit => [attachAs 0, makeDirectory]) t := by
  have run : Run agreeing (listener fun _ : Unit => [attachAs 0, makeDirectory]) _ _ :=
    passes_make.run () performs_make rfl
  exact ⟨_, _, run, own_alone _ _, (qids_reported_consistently _ _ _ run).2⟩

def makeAndReach : List Message := [attachAs 0, makeDirectory, attachAs 1, reachDirectory]

theorem passes_makeAndReach : Passes (serveAll makeAndReach)
    (attached 0 ++ (made ++ (attached 1 ++ reached))) (.done ()) :=
  Passes.bind (passes_attach 0 (Or.inl rfl)) (Passes.bind passes_made
    (Passes.bind (passes_attach 1 (Or.inr rfl)) (passes_last passes_reached)))

/-- A directory made with Tcreate is reported as a file when it is walked to. -/
theorem directory_walked_to_as_a_file :
    ¬ ∀ (msgs : Unit → List Message) (t : List (Event ninep Unit)) (c : Config ninep Unit Shared),
      Run (semantics noRename) (listener msgs) t c → Consistently msgs t := by
  intro h
  have hreach : ∃ s, Performs (semantics noRename) directoryMade (attached 1 ++ reached) s :=
    ⟨_, .answer _ _ (semantics_exec _ _) (.answer _ _ rfl
      (.answer _ _ (semantics_exec _ _) (.answer _ _ ⟨nofun, rfl⟩
      (.answer _ _ (semantics_exec _ _) (.answer _ _ (semantics_exec _ _)
      (.answer _ _ rfl (.refl _)))))))⟩
  obtain ⟨s, hreach⟩ := hreach
  have run : Run (semantics noRename) (listener fun _ : Unit => makeAndReach) _ _ :=
    passes_makeAndReach.run () ((performs_make.mono agreeing_noRename).append hreach) rfl
  obtain ⟨qid, hqid⟩ := h (fun _ => makeAndReach) _ _ run
  have hmade : Handled (fun _ => makeAndReach) _ () makeDirectory made :=
    ⟨[attachAs 0], [attachAs 1, reachDirectory], attached 0, attached 1 ++ reached, _, rfl,
      own_alone _ _, passes_last (passes_attach 0 (Or.inl rfl)), passes_made⟩
  have hreached : Handled (fun _ => makeAndReach) _ () reachDirectory reached :=
    ⟨[attachAs 0, makeDirectory, attachAs 1], [], attached 0 ++ (made ++ attached 1), [], _, rfl,
      own_alone _ _, Passes.bind (passes_attach 0 (Or.inl rfl)) (Passes.bind passes_made
        (passes_last (passes_attach 1 (Or.inr rfl)))), passes_reached⟩
  have hdir := (hqid () _ _ hmade making _ [] rfl).1 _ "/d" (0x80, 1) rfl
    (.object 0 rfl (by decide) (by decide))
  have hfile := (hqid () _ _ hreached reaching _ [] rfl).1 _ "/d" (0, 1) rfl
    (.object 2 rfl (by decide) (by decide))
  rw [← hdir] at hfile
  exact absurd hfile (by decide)

end Pinhead.QidReports
