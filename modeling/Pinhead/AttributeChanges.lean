import Pinhead.FuseFilesystem
import Pinhead.NinepScripts
import Pinhead.SftpSessions
import Pinhead.TextWords

/-!
# Attribute changes on their way to the handler

A change of attributes reaches the handler as the payload of a SetAttr request. FUSE
writes the values into it, but a time only if it is a specific one, and then its whole
seconds. 9P and SFTP send the request without any payload, whatever is to be changed.
-/
namespace Pinhead.AttributeChanges
open ByteStrings FsRequests Resumption Histories NinepShared NinepHandlers NinepRuns
open NinepDatagrams NinepScripts FuseFilesystem TextWords

/-! ## Changes -/

/-- What the kernel wants to be changed. -/
structure Wanted where
  mode : Option ℕ
  uid : Option ℕ
  gid : Option ℕ
  size : Option ℕ
  atime : Option TimeOrNow
  mtime : Option TimeOrNow
  deriving DecidableEq

def Wanted.callback (w : Wanted) (ino : ℕ) : Callback :=
  .setattr ino w.mode w.uid w.gid w.size w.atime w.mtime

/-- A request to change attributes, in the form in which its frontend gets it. -/
inductive Change where
  | setattr (w : Wanted)
  | twstat (body : Bytes)
  | setStat (attrs : SftpSessions.FileAttributes)
  | fSetStat (attrs : SftpSessions.FileAttributes)

/-- The wstat changes attributes of a path: it holds a mode and no new name. -/
def SetsAttr (path : String) (body : Bytes) : Prop :=
  let stat := statIn body
  23 ≤ stat.length ∧ nameIn path stat (statLayout stat.length).nameAt = none

/-- Mode, atime, mtime, length, uid and gid, at their positions in the record of a stat. -/
def statValues (stat : Bytes) : ℕ × ℕ × ℕ × ℕ × String × String :=
  let uid := 43 + uintAt 2 stat 41
  let gid := uid + 2 + uintAt 2 stat uid
  (uintAt 4 stat 21, uintAt 4 stat 25, uintAt 4 stat 29, uintAt 8 stat 33,
    nameAt stat uid, nameAt stat gid)

/-- Two requests of one kind about the same path that ask for different values. -/
def Differ (path : String) : Change → Change → Prop
  | .setattr w, .setattr w' => w ≠ w'
  | .twstat body, .twstat body' => SetsAttr path body ∧ SetsAttr path body' ∧
      statValues (statIn body) ≠ statValues (statIn body')
  | .setStat attrs, .setStat attrs' => attrs ≠ attrs'
  | .fSetStat attrs, .fSetStat attrs' => attrs ≠ attrs'
  | _, _ => False

/-- In some state, and with some answers, the request about the path makes its frontend
send a SetAttr request with this payload. -/
def Carries (path : String) (c : Change) (data : Bytes) : Prop :=
  match c with
  | .setattr w => ∃ (s : FuseState) (mounted ino : ℕ) (f : (o : FuseFilesystem.Op) → o.Ret),
      s.pathFor ino = some path ∧ ⟨.setAttr, path, data⟩ ∈
        asked (answered f (FuseFilesystem.dispatch mounted s (w.callback ino))).1
  | .twstat body => ∃ (env : Env) (w : World) (tag : UInt16) (e : FidEntry),
      w.shared.state.fids.lookup (fidAt body 0) = some e ∧ e.path = path ∧
        ⟨.setAttr, path, data⟩ ∈ routed env (serveMessage ⟨TWSTAT, tag, body⟩) w
  | .setStat attrs => ∃ (s : SftpSessions.HandleState) (id : ℕ) (f : Request → Option Answer),
      ∃ e ∈ (answered (S := SftpSessions.sftp) f
        (SftpSessions.dispatch s (.setStat id path attrs))).1,
          e.op = ⟨.setAttr, SftpSessions.normalized path, data⟩
  | .fSetStat attrs => ∃ (s : SftpSessions.HandleState) (id : ℕ) (handle : String)
      (entry : SftpSessions.HandleEntry) (f : Request → Option Answer),
      s.get handle = some entry ∧ entry.path = path ∧ ∃ e ∈ (answered (S := SftpSessions.sftp) f
        (SftpSessions.dispatch s (.fSetStat id handle attrs))).1,
          e.op = ⟨.setAttr, SftpSessions.normalized path, data⟩

/-- The handler can tell the two requests apart by their payloads. -/
def Told (path : String) (c c' : Change) : Prop :=
  ∀ data data', Carries path c data → Carries path c' data' → data ≠ data'

/-- The seconds that FUSE writes for a time, if it writes any. -/
def wholeSeconds : Option TimeOrNow → Option ℕ
  | some (.specificTime nanos) => some (nanos / 10 ^ 9).toNat
  | _ => none

/-- The values that FUSE writes. -/
def Wanted.written (w : Wanted) : List (String × Option ℕ) :=
  [("mode", w.mode), ("uid", w.uid), ("gid", w.gid), ("size", w.size),
    ("atime", wholeSeconds w.atime), ("mtime", wholeSeconds w.mtime)]

/-- Among the values that differ is one that FUSE writes. -/
def Recorded : Change → Change → Prop
  | .setattr w, .setattr w' => w.written ≠ w'.written
  | _, _ => False

/-! ## The payloads -/

def payload : Change → Bytes
  | .setattr w => attrPayload w.mode w.uid w.gid w.size w.atime w.mtime
  | _ => []

theorem asked_sendReq (f : (o : FuseFilesystem.Op) → o.Ret) (op : FsOperation) (path : String)
    (data : Bytes) : asked (answered f (sendReq op path data)).1 = [⟨op, path, data⟩] := rfl

/-- The first request is the one that matters: the other asks for attributes. -/
theorem asked_setattr {s : FuseState} {ino : ℕ} {path : String} (hpath : s.pathFor ino = some path)
    (w : Wanted) (mounted : ℕ) (f : (o : FuseFilesystem.Op) → o.Ret) :
    ∃ later, asked (answered f (FuseFilesystem.dispatch mounted s (w.callback ino))).1 =
        ⟨.setAttr, path, payload (.setattr w)⟩ :: later ∧ ∀ req ∈ later, req.op = .getAttr := by
  rw [Wanted.callback, FuseFilesystem.dispatch, setattr, withPath_some hpath,
    answered_bind_history, asked_append, asked_sendReq]
  refine ⟨_, List.singleton_append, ?_⟩
  cases (answered f (sendReq .setAttr path (attrPayload w.mode w.uid w.gid w.size w.atime
    w.mtime))).2 with
  | ok data =>
      intro req hreq
      cases hreq
  | error e =>
      dsimp only
      rw [answered_bind_history, asked_append, asked_sendReq]
      intro req hreq
      rcases List.mem_append.mp hreq with hreq | hreq
      · rw [List.mem_singleton.mp hreq]
      · cases h : (answered f (sendReq .getAttr path [])).2 with
        | ok data =>
            rw [h] at hreq
            cases hreq
        | error e =>
            rw [h] at hreq
            cases hreq

theorem carries_setattr (path : String) (w : Wanted) (data : Bytes) :
    Carries path (.setattr w) data ↔ data = payload (.setattr w) := by
  constructor
  · intro h
    obtain ⟨s, mounted, ino, f, hpath, hmem⟩ := h
    obtain ⟨later, hasked, hlater⟩ := asked_setattr hpath w mounted f
    rw [hasked] at hmem
    rcases List.mem_cons.mp hmem with heq | hmem
    · exact congrArg Request.data heq
    · cases hlater _ hmem
  · intro h
    have hpath : (FuseState.new.recordPath 2 path).pathFor 2 = some path := AList.lookup_insert _
    obtain ⟨later, hasked, _⟩ := asked_setattr hpath w 0 obliging
    exact ⟨_, 0, 2, obliging, hpath, by rw [hasked, h]; exact List.mem_cons_self ..⟩

theorem carries_twstat {path : String} {body : Bytes} (h : SetsAttr path body) (data : Bytes) :
    Carries path (.twstat body) data ↔ data = payload (.twstat body) := by
  have hsix : ¬ body.length < 6 := by
    have hlen := h.1
    rw [statIn, List.length_take, List.length_drop, List.length_drop] at hlen
    omega
  have hreqs : ∀ e : FidEntry, e.path = path →
      wstatRequests e (statIn body) = [⟨.setAttr, path, []⟩] := by
    intro e he
    have hmode : (statLayout (statIn body).length).hasMode = true := decide_eq_true h.1
    rw [wstatRequests, he, h.2, hmode]
    rfl
  have hrouted : ∀ (env : Env) (w : World) (tag : UInt16) (e : FidEntry),
      w.shared.state.fids.lookup (fidAt body 0) = some e → e.path = path →
      routed env (serveMessage ⟨TWSTAT, tag, body⟩) w = [⟨.setAttr, path, []⟩] := by
    intro env w tag e hfid he
    rw [routed_wstat, if_neg hsix, hfid]
    dsimp only
    rw [if_neg (by have := h.1; omega), hreqs e he]
  constructor
  · intro hcarries
    obtain ⟨env, w, tag, e, hfid, he, hmem⟩ := hcarries
    rw [hrouted env w tag e hfid he, List.mem_singleton] at hmem
    exact congrArg Request.data hmem
  · intro hdata
    let e : FidEntry := ⟨0, path, false, false⟩
    let s : Shared := ⟨{ NinepState.new with fids := AList.insert (fidAt body 0) e ∅ }, 8192⟩
    have hfid : s.state.fids.lookup (fidAt body 0) = some e := AList.lookup_insert _
    refine ⟨⟨fun _ => .routerGone, id⟩, World.start s, 0, e, hfid, rfl, ?_⟩
    rw [hrouted _ (World.start s) 0 e hfid rfl, hdata]
    exact List.mem_singleton_self _

theorem carries_acknowledge (s : SftpSessions.HandleState) (id : ℕ) (path : String)
    (f : Request → Option Answer) (data : Bytes) :
    (∃ e ∈ (answered (S := SftpSessions.sftp) f
      (SftpSessions.replyTo id (SftpSessions.acknowledge s .setAttr id path []))).1,
        e.op = (⟨.setAttr, SftpSessions.normalized path, data⟩ : Request)) ↔ data = [] := by
  rw [SftpSessions.replyTo_acknowledge]
  constructor
  · intro h
    obtain ⟨e, he, hop⟩ := h
    rw [answered, answered, List.mem_singleton] at he
    rw [he] at hop
    exact (congrArg Request.data hop).symm
  · intro h
    subst h
    exact ⟨_, List.mem_cons_self .., rfl⟩

theorem carries_setStat (path : String) (attrs : SftpSessions.FileAttributes) (data : Bytes) :
    Carries path (.setStat attrs) data ↔ data = payload (.setStat attrs) := by
  constructor
  · intro h
    obtain ⟨s, id, f, hcarries⟩ := h
    exact (carries_acknowledge s id path f data).mp hcarries
  · intro h
    exact ⟨.new, 0, fun _ => none, (carries_acknowledge _ _ _ _ data).mpr h⟩

theorem carries_fSetStat (path : String) (attrs : SftpSessions.FileAttributes) (data : Bytes) :
    Carries path (.fSetStat attrs) data ↔ data = payload (.fSetStat attrs) := by
  have hsends : ∀ (s : SftpSessions.HandleState) (id : ℕ) (handle : String)
      (entry : SftpSessions.HandleEntry), s.get handle = some entry → entry.path = path →
      SftpSessions.dispatch s (.fSetStat id handle attrs) =
        SftpSessions.replyTo id (SftpSessions.acknowledge s .setAttr id path []) := by
    intro s id handle entry hhandle hpath
    rw [SftpSessions.dispatch, SftpSessions.fSetStat, hhandle, ← hpath]
    rfl
  constructor
  · intro h
    obtain ⟨s, id, handle, entry, f, hhandle, hpath, hcarries⟩ := h
    rw [hsends s id handle entry hhandle hpath] at hcarries
    exact (carries_acknowledge s id path f data).mp hcarries
  · intro h
    let s := (SftpSessions.HandleState.new.alloc path false).2
    have hhandle : s.get (SftpSessions.handleId 1) = some ⟨path, false⟩ := AList.lookup_insert _
    refine ⟨s, 0, _, _, fun _ => none, hhandle, rfl, ?_⟩
    rw [hsends s 0 _ _ hhandle rfl]
    exact (carries_acknowledge s 0 path _ data).mpr h

/-! ## What can be told apart -/

def attrPart (key : String) (n : ℕ) : String := key ++ "=" ++ toString n

/-- No key of an attribute has a separator in it. -/
def Key (key : String) : Prop := '=' ∉ key.toList ∧ ';' ∉ key.toList

theorem digits_plain {c : Char} {n : ℕ} (h : c ∈ (toString n).toList) : c.isDigit = true := by
  rw [Nat.toString_eq_repr, Nat.repr_eq_ofList_toDigits, String.toList_ofList] at h
  exact Nat.isDigit_of_mem_toDigits (by decide) (by decide) h

theorem attrPart_injective {key key' : String} {n n' : ℕ} (hkey : Key key)
    (h : attrPart key n = attrPart key' n') : key = key' ∧ n = n' := by
  have hdigits : ∀ m : ℕ, '=' ∉ (toString m).toList := by
    intro m hm
    cases digits_plain hm
  have hchars := congrArg String.toList h
  rw [attrPart, attrPart, String.append_assoc, String.append_assoc, String.toList_append,
    String.toList_append, String.toList_append, String.toList_append] at hchars
  have hcut : key.toList ++ '=' :: (toString n).toList =
      key'.toList ++ '=' :: (toString n').toList := hchars
  obtain ⟨hkeys, _, hrest⟩ :=
    (List.append_cons_inj_of_notMem hkey.1 (hdigits n)).mp hcut
  have hnumber := congrArg (fun ds => Nat.ofDigitChars 10 ds 0) hrest
  exact ⟨String.toList_inj.mp hkeys, by simpa [Nat.toString_eq_ofList_toDigits] using hnumber⟩

/-- The parts of a payload. -/
def attrParts (w : Wanted) : List String :=
  w.written.flatMap fun field => (field.2.map (attrPart field.1)).toList

theorem mem_attrParts {w : Wanted} {x : String} :
    x ∈ attrParts w ↔ ∃ key n, (key, some n) ∈ w.written ∧ x = attrPart key n := by
  rw [attrParts, List.mem_flatMap]
  constructor
  · intro h
    obtain ⟨⟨key, val⟩, hfield, hx⟩ := h
    obtain ⟨n, hn, hpart⟩ := Option.map_eq_some_iff.mp (Option.mem_toList.mp hx)
    subst hn
    exact ⟨key, n, hfield, hpart.symm⟩
  · intro h
    obtain ⟨key, n, hfield, hx⟩ := h
    exact ⟨_, hfield, by rw [hx]; exact List.mem_singleton_self _⟩

theorem payload_setattr (w : Wanted) :
    payload (.setattr w) = asBytes (String.intercalate ";" (attrParts w)) := by
  have hnumber : ∀ (key : String) (val : Option ℕ),
      (val.map (attrPart key)).toList = numberPart key val := by
    intro key val
    cases val <;> rfl
  have htime : ∀ (key : String) (val : Option TimeOrNow),
      numberPart key (wholeSeconds val) = timePart key val := by
    intro key val
    cases val with
    | none => rfl
    | some t => cases t <;> rfl
  have hparts : attrParts w = numberPart "mode" w.mode ++ numberPart "uid" w.uid ++
      numberPart "gid" w.gid ++ numberPart "size" w.size ++ timePart "atime" w.atime ++
      timePart "mtime" w.mtime := by
    simp only [attrParts, Wanted.written, List.flatMap_cons, List.flatMap_nil, hnumber, htime,
      List.append_nil, List.append_assoc]
  rw [hparts]
  rfl

theorem key_of_written {w : Wanted} {key : String} {val : Option ℕ} (h : (key, val) ∈ w.written) :
    Key key := by
  have hkeys : ∀ key ∈ ["mode", "uid", "gid", "size", "atime", "mtime"], Key key := by
    unfold Key
    decide
  exact hkeys key (List.mem_map_of_mem (f := Prod.fst) h)

theorem attrParts_plain (w : Wanted) : ∀ x ∈ attrParts w, x ≠ "" ∧ ';' ∉ x.toList := by
  intro x hx
  obtain ⟨key, n, hfield, rfl⟩ := mem_attrParts.mp hx
  have hchars : (attrPart key n).toList = key.toList ++ '=' :: (toString n).toList := by
    rw [attrPart, String.append_assoc, String.toList_append, String.toList_append]
    rfl
  constructor
  · intro hempty
    rw [hempty] at hchars
    exact absurd (List.append_eq_nil_iff.mp hchars.symm).2 (by simp)
  · intro hmem
    rw [hchars] at hmem
    rcases List.mem_append.mp hmem with hmem | hmem
    · exact (key_of_written hfield).2 hmem
    · rcases List.mem_cons.mp hmem with heq | hmem
      · cases heq
      · cases digits_plain hmem

theorem written_of_attrParts {w w' : Wanted} (h : attrParts w = attrParts w') :
    w.written = w'.written := by
  have hfield : ∀ {v v' : Wanted}, attrParts v = attrParts v' → ∀ key n,
      (key, some n) ∈ v.written → (key, some n) ∈ v'.written := by
    intro v v' hparts key n hmem
    have hpart : attrPart key n ∈ attrParts v' := by
      rw [← hparts]
      exact mem_attrParts.mpr ⟨key, n, hmem, rfl⟩
    obtain ⟨key', n', hmem', heq⟩ := mem_attrParts.mp hpart
    obtain ⟨rfl, rfl⟩ := attrPart_injective (key_of_written hmem) heq
    exact hmem'
  have hboth : ∀ key n, (key, some n) ∈ w.written ↔ (key, some n) ∈ w'.written :=
    fun key n => ⟨hfield h key n, hfield h.symm key n⟩
  have hvals : ∀ a b : Option ℕ, (∀ n, some n = a ↔ some n = b) → a = b := by
    intro a b hab
    apply Option.ext
    intro n
    exact eq_comm.trans ((hab n).trans eq_comm)
  have hmode := hvals w.mode w'.mode (by simpa [Wanted.written] using hboth "mode")
  have huid := hvals w.uid w'.uid (by simpa [Wanted.written] using hboth "uid")
  have hgid := hvals w.gid w'.gid (by simpa [Wanted.written] using hboth "gid")
  have hsize := hvals w.size w'.size (by simpa [Wanted.written] using hboth "size")
  have hatime := hvals (wholeSeconds w.atime) (wholeSeconds w'.atime)
    (by simpa [Wanted.written] using hboth "atime")
  have hmtime := hvals (wholeSeconds w.mtime) (wholeSeconds w'.mtime)
    (by simpa [Wanted.written] using hboth "mtime")
  rw [Wanted.written, hmode, huid, hgid, hsize, hatime, hmtime, Wanted.written]

theorem payload_eq_iff (w w' : Wanted) :
    payload (.setattr w) = payload (.setattr w') ↔ w.written = w'.written := by
  constructor
  · intro h
    rw [payload_setattr, payload_setattr] at h
    have hsep : (";" : String).toList = [';'] := rfl
    exact written_of_attrParts (intercalate_injective hsep (attrParts_plain w)
      (attrParts_plain w') (asBytes_injective h))
  · intro h
    rw [payload_setattr, payload_setattr, attrParts, attrParts, h]

/-! ## The four kinds of requests -/

/-- Of two requests that ask for different values, the handler can tell one from the other
exactly if they came through FUSE and differ in a value that it writes. -/
theorem changes_told_iff (path : String) (c c' : Change) (h : Differ path c c') :
    Told path c c' ↔ Recorded c c' := by
  have hempty : ∀ {c c' : Change}, (∀ data, Carries path c data ↔ data = []) →
      (∀ data, Carries path c' data ↔ data = []) → ¬ Told path c c' := by
    intro c c' hc hc' htold
    exact htold [] [] ((hc []).mpr rfl) ((hc' []).mpr rfl) rfl
  cases c <;> cases c' <;> try exact h.elim
  case setattr.setattr w w' =>
      rw [Recorded, ne_eq, ← payload_eq_iff]
      constructor
      · intro htold
        exact htold _ _ ((carries_setattr path w _).mpr rfl) ((carries_setattr path w' _).mpr rfl)
      · intro hne data data' hdata hdata'
        rw [(carries_setattr path w data).mp hdata, (carries_setattr path w' data').mp hdata']
        exact hne
  case twstat.twstat body body' =>
      exact iff_of_false (hempty (carries_twstat h.1) (carries_twstat h.2.1)) id
  case setStat.setStat attrs attrs' =>
      exact iff_of_false (hempty (carries_setStat path attrs) (carries_setStat path attrs')) id
  case fSetStat.fSetStat attrs attrs' =>
      exact iff_of_false (hempty (carries_fSetStat path attrs) (carries_fSetStat path attrs')) id

/-- Two modes set through FUSE. -/
theorem changes_told_iff_chmod :
    let chmod (mode : ℕ) : Change := .setattr ⟨some mode, none, none, none, none, none⟩
    Differ "/modetest" (chmod 0o600) (chmod 0o644) ∧
    (Told "/modetest" (chmod 0o600) (chmod 0o644) ↔ Recorded (chmod 0o600) (chmod 0o644)) :=
  have h : (⟨some 0o600, none, none, none, none, none⟩ : Wanted) ≠
      ⟨some 0o644, none, none, none, none, none⟩ := by decide
  ⟨h, changes_told_iff "/modetest" (.setattr _) (.setattr _) h⟩

/-- The same two modes set through SFTP. -/
theorem modes_not_told : ¬ ∀ path c c', Differ path c c' → Told path c c' := by
  intro h
  let chmod (mode : ℕ) : SftpSessions.FileAttributes := { SftpSessions.FileAttributes.empty with
    permissions := some mode }
  have hdiffer : Differ "/modetest" (.setStat (chmod 0o600)) (.setStat (chmod 0o644)) := by
    change chmod 0o600 ≠ chmod 0o644
    decide
  exact h _ _ _ hdiffer [] [] ((carries_setStat _ _ _).mpr rfl) ((carries_setStat _ _ _).mpr rfl) rfl

end Pinhead.AttributeChanges
