import Pinhead.NinepScripts

/-!
# The messages of the client and what the server makes of them

The client has ten messages, each with its own encoder; the server has a handler for
each, with its own length checks and positions. `Call` is a message of the client as
the values it encodes, `fields` reads these values off a body as the handlers do, and
`Call.served` is the handler that is left when it is given the values at once.

Every body of up to 65536 bytes is read back as the values it was made from. The
count of names, their lengths and the count of data bytes are then below their
16-bit and 32-bit limits.
-/
namespace Pinhead.NinepCalls
open ByteStrings FsRequests Resumption NinepShared NinepHandlers NinepRuns NinepTotality
open NinepDatagrams NinepScripts

/-! ## Encoders -/

inductive Call where
  | version (msize : UInt32)
  | attach (fid afid : UInt32)
  | walk (fid newFid : UInt32) (names : List String)
  | openFid (fid : UInt32) (mode : UInt8)
  | create (fid : UInt32) (name : String) (perm : UInt32) (mode : UInt8)
  | read (fid : UInt32) (offset : UInt64) (count : UInt32)
  | write (fid : UInt32) (offset : UInt64) (data : Bytes)
  | clunk (fid : UInt32)
  | removeFid (fid : UInt32)
  | stat (fid : UInt32)
  deriving DecidableEq

/-- A text behind its length. -/
def counted (s : String) : Bytes := leBytes 2 (asBytes s).length ++ asBytes s

namespace Call

def ty : Call → UInt8
  | version _ => TVERSION
  | attach _ _ => TATTACH
  | walk _ _ _ => TWALK
  | openFid _ _ => TOPEN
  | create _ _ _ _ => TCREATE
  | read _ _ _ => TREAD
  | write _ _ _ => TWRITE
  | clunk _ => TCLUNK
  | removeFid _ => TREMOVE
  | stat _ => TSTAT

/-- The body that the client builds. Attaching sends empty user and tree names. -/
def body : Call → Bytes
  | version msize => leBytes 4 msize.toNat ++ (leBytes 2 6 ++ asBytes "9P2000")
  | attach fid afid => leBytes 4 fid.toNat ++ (leBytes 4 afid.toNat ++ (leBytes 2 0 ++ leBytes 2 0))
  | walk fid newFid names => leBytes 4 fid.toNat ++ (leBytes 4 newFid.toNat ++
      (leBytes 2 names.length ++ names.flatMap counted))
  | openFid fid mode => leBytes 4 fid.toNat ++ [mode]
  | create fid name perm mode => leBytes 4 fid.toNat ++ (leBytes 2 (asBytes name).length ++
      (asBytes name ++ (leBytes 4 perm.toNat ++ [mode])))
  | read fid offset count =>
      leBytes 4 fid.toNat ++ (leBytes 8 offset.toNat ++ leBytes 4 count.toNat)
  | write fid offset data =>
      leBytes 4 fid.toNat ++ (leBytes 8 offset.toNat ++ (leBytes 4 data.length ++ data))
  | clunk fid | removeFid fid | stat fid => leBytes 4 fid.toNat

/-- The client uses tag 0 throughout. -/
def message (c : Call) : Message := ⟨c.ty, 0, c.body⟩

end Call

/-! ## The values in a body -/

/-- `n` names that start at position `off`, if the body holds them. -/
def namesAt (body : Bytes) : ℕ → ℕ → Option (List String)
  | 0, _ => some []
  | n + 1, off =>
      if off + 2 ≤ body.length ∧ off + 2 + uintAt 2 body off ≤ body.length then
        (namesAt body n (off + 2 + uintAt 2 body off)).map (nameAt body off :: ·)
      else none

def byteAt (body : Bytes) (i : ℕ) : UInt8 := (body.drop i).headD 0

/-- The values that the handlers read, at the positions and behind the length checks
at which they read them. -/
def fields (m : Message) : Option Call :=
  match m.ty with
  | TVERSION =>
      if m.body.length < 4 ∨ m.body.length = 5 then none
      else some (.version (fidAt m.body 0))
  | TATTACH => if m.body.length < 8 then none else some (.attach (fidAt m.body 0) (fidAt m.body 4))
  | TWALK =>
      if m.body.length < 10 then none
      else (namesAt m.body (uintAt 2 m.body 8) 10).map (.walk (fidAt m.body 0) (fidAt m.body 4))
  | TOPEN => if m.body.length < 5 then none else some (.openFid (fidAt m.body 0) (byteAt m.body 4))
  | TCREATE =>
      if m.body.length < 9 ∨ 6 + uintAt 2 m.body 4 + 5 > m.body.length then none
      else some (.create (fidAt m.body 0) (nameAt m.body 4)
        (fidAt m.body (6 + uintAt 2 m.body 4)) (byteAt m.body (6 + uintAt 2 m.body 4 + 4)))
  | TREAD =>
      if m.body.length < 16 then none
      else some (.read (fidAt m.body 0) (UInt64.ofNat (uintAt 8 m.body 4)) (fidAt m.body 12))
  | TWRITE =>
      if m.body.length < 16 ∨ m.body.length < 16 + uintAt 4 m.body 12 then none
      else some (.write (fidAt m.body 0) (UInt64.ofNat (uintAt 8 m.body 4)) (writePayload m.body))
  | TCLUNK => if m.body.length < 4 then none else some (.clunk (fidAt m.body 0))
  | TREMOVE => if m.body.length < 4 then none else some (.removeFid (fidAt m.body 0))
  | TSTAT => if m.body.length < 4 then none else some (.stat (fidAt m.body 0))
  | _ => none

/-! ## The handlers on values -/

/-- One allocation for each name; only the last one is looked up. -/
def walkTo : List String → Walk → Handler Walk
  | [], w => pure w
  | name :: names, w => do
      lookupLast names.isEmpty (joinPath w.curPath name)
      let qid ← locked (.allocQid (joinPath w.curPath name) (dotName name))
      walkTo names ⟨w.offset, joinPath w.curPath name, qid,
        w.wqids ++ [⟨qidType (dotName name), 0, qid⟩], dotName name⟩

def listed (tag : UInt16) (offset : ℕ) (path : String) : Handler Unit := do
  let _ ← request "readdir" .readDir path []
  let entries ← locked (.listDir path)
  let listing ← encodeEntries entries
  let data ← withDot offset listing
  readReply tag offset data

def Call.served (tag : UInt16) : Call → Handler Unit
  | version msize => do
      locked (.writeMsize (max 4096 (min msize.toNat 65536)))
      sendReply RVERSION tag
        (leBytes 4 (max 4096 (min msize.toNat 65536)) ++ leBytes 2 6 ++ asBytes "9P2000")
  | attach fid _ => do
      locked (.attach fid)
      sendReply RATTACH tag (encodeQid ⟨0x80, 0, 0⟩)
  | walk fid newFid names => do
      let parent ← NinepHandlers.getFid fid
      let w ← walkTo names ⟨10, parent.path, parent.qid, [], parent.isDir⟩
      locked (.setFid newFid w.curQid w.curPath w.isDir)
      sendReply RWALK tag (leBytes 2 names.length ++ w.wqids.flatMap encodeQid)
  | openFid fid _ => do
      let entry ← NinepHandlers.getFid fid
      let _ ← request "open" (if entry.isDir then .openDir else .openFile) entry.path []
      locked (.markOpen fid)
      let msize ← locked .readMsize
      sendReply ROPEN tag (encodeQid ⟨0, 0, 0⟩ ++ leBytes 4 msize)
  | create fid name perm _ => do
      let parent ← NinepHandlers.getFid fid
      let isDir := perm.toNat.testBit 31
      let op := if isDir then FsOperation.mkDir else .create
      let _ ← request op.asStr op (joinPath parent.path name) []
      let qid ← locked (.createFid fid (joinPath parent.path name) isDir)
      sendReply RCREATE tag (encodeQid ⟨qidType isDir, 0, qid⟩)
  | read fid offset _ => do
      let entry ← NinepHandlers.getFid fid
      if entry.isDir then listed tag offset.toNat entry.path
      else do
        let resp ← request "read" .read entry.path []
        readReply tag offset.toNat resp.data
  | write fid _ data => do
      let entry ← NinepHandlers.getFid fid
      let _ ← request "write" .write entry.path data
      sendReply RWRITE tag (leBytes 4 data.length)
  | clunk fid => do
      let entry ← locked (.getFid fid)
      releaseFid entry
      locked (.removeFid fid)
      sendReply RCLUNK tag []
  | removeFid fid => do
      let entry ← NinepHandlers.getFid fid
      let _ ← request "remove" (if entry.isDir then .rmDir else .unlink) entry.path []
      sendReply RREMOVE tag []
  | stat fid => do
      let entry ← NinepHandlers.getFid fid
      let resp ← request "getattr" .getAttr entry.path []
      let stat ← encodeStat (statName entry.path) ⟨qidType entry.isDir, 0, entry.qid⟩
        resp.data.length entry.isDir
      sendReply RSTAT tag (leBytes 2 stat.length ++ stat)

/-- The names of a walk are taken from the body as they were asked for. -/
theorem walkNames_bind {B : Type} {body : Bytes} {f : Walk → Handler B}
    (hf : ∀ w off, f { w with offset := off } = f w) {n : ℕ} {names : List String} {w : Walk}
    (h : namesAt body n w.offset = some names) (off : ℕ) :
    (walkNames body n w >>= f) = (walkTo names { w with offset := off } >>= f) := by
  induction n generalizing names w with
  | zero =>
      obtain rfl := Option.some.inj h
      rw [walkNames, walkTo, pure_bind, pure_bind]
      exact (hf w off).symm
  | succ n ih =>
      rw [namesAt] at h
      split at h
      · next hfits =>
          obtain ⟨rest, hrest, rfl⟩ := Option.map_eq_some_iff.mp h
          have hlast : (n == 0) = rest.isEmpty := by
            cases n with
            | zero =>
                obtain rfl := Option.some.inj hrest
                rfl
            | succ n =>
                rw [namesAt] at hrest
                split at hrest
                · obtain ⟨_, _, rfl⟩ := Option.map_eq_some_iff.mp hrest
                  rfl
                · cases hrest
          rw [walkNames_succ, if_neg (by omega), if_neg (by omega), walkTo, hlast]
          simp only [bind_assoc]
          congr 1
          funext _
          congr 1
          funext qid
          exact ih hrest
      · cases h

theorem namesAt_length {body : Bytes} {n off : ℕ} {names : List String}
    (h : namesAt body n off = some names) : names.length = n := by
  induction n generalizing off names with
  | zero =>
      obtain rfl := Option.some.inj h
      rfl
  | succ n ih =>
      rw [namesAt] at h
      split at h
      · obtain ⟨rest, hrest, rfl⟩ := Option.map_eq_some_iff.mp h
        rw [List.length_cons, ih hrest]
      · cases h

theorem uint32_at (body : Bytes) (i : ℕ) : (fidAt body i).toNat = uintAt 4 body i := by
  rw [fidAt, UInt32.toNat_ofNat']
  exact Nat.mod_eq_of_lt (uintAt_lt 4 body i)

theorem uint64_at (body : Bytes) (i : ℕ) :
    (UInt64.ofNat (uintAt 8 body i)).toNat = uintAt 8 body i := by
  rw [UInt64.toNat_ofNat']
  exact Nat.mod_eq_of_lt (uintAt_lt 8 body i)

theorem writePayload_length {body : Bytes} (h : 16 + uintAt 4 body 12 ≤ body.length) :
    (writePayload body).length = uintAt 4 body 12 := by
  rw [writePayload, List.length_take, List.length_drop]
  omega

/-- A handler does with a body what the values in it say. -/
theorem handleMessage_eq_served {m : Message} {c : Call} (h : fields m = some c) :
    handleMessage m = c.served m.tag := by
  obtain ⟨ty, tag, body⟩ := m
  unfold fields at h
  dsimp only at h
  split at h
  · split at h
    · cases h
    · next hlen =>
        obtain rfl := Option.some.inj h
        change handleVersion tag body = _
        rw [handleVersion_eq, if_neg (by omega), if_neg (by omega), Call.served, uint32_at]
  · split at h
    · cases h
    · next hlen =>
        obtain rfl := Option.some.inj h
        change handleAttach tag body = _
        rw [handleAttach_eq, if_neg hlen, Call.served]
  · split at h
    · cases h
    · next hlen =>
        obtain ⟨names, hnames, rfl⟩ := Option.map_eq_some_iff.mp h
        change handleWalk tag body = _
        rw [handleWalk_eq, if_neg (by omega), if_neg (by omega), Call.served]
        congr 1
        funext parent
        rw [walkNames_bind (fun _ _ => rfl) hnames 10, namesAt_length hnames]
  · split at h
    · cases h
    · next hlen =>
        obtain rfl := Option.some.inj h
        change handleOpen tag body = _
        rw [handleOpen_eq, if_neg hlen, Call.served]
  · split at h
    · cases h
    · next hlen =>
        obtain rfl := Option.some.inj h
        change handleCreate tag body = _
        rw [handleCreate_eq, if_neg (by omega), if_neg (by omega), Call.served, uint32_at]
        rfl
  · split at h
    · cases h
    · next hlen =>
        obtain rfl := Option.some.inj h
        change handleRead tag body = _
        rw [handleRead_eq, if_neg hlen, Call.served, uint64_at]
        rfl
  · split at h
    · cases h
    · next hlen =>
        obtain rfl := Option.some.inj h
        change handleWrite tag body = _
        rw [handleWrite_eq, if_neg (by omega), Call.served, writePayload_length (by omega)]
  · split at h
    · cases h
    · next hlen =>
        obtain rfl := Option.some.inj h
        change handleClunk tag body = _
        rw [handleClunk_eq, if_neg hlen, Call.served]
  · split at h
    · cases h
    · next hlen =>
        obtain rfl := Option.some.inj h
        change handleRemove tag body = _
        rw [handleRemove_eq, if_neg hlen, Call.served]
  · split at h
    · cases h
    · next hlen =>
        obtain rfl := Option.some.inj h
        change handleStat tag body = _
        rw [handleStat_eq, if_neg hlen, Call.served]
  · cases h

/-! ## Reading back what was encoded -/

theorem uintAt_leBytes (width n : ℕ) (rest : Bytes) :
    uintAt width (leBytes width n ++ rest) 0 = n % 256 ^ width := by
  rw [uintAt, List.drop_zero, List.take_left' (leBytes_length width n), leValue_leBytes]

theorem uintAt_here (width n : ℕ) (rest : Bytes) (h : n < 256 ^ width) :
    uintAt width (leBytes width n ++ rest) 0 = n := by
  rw [uintAt_leBytes, Nat.mod_eq_of_lt h]

theorem uintAt_behind {bs : Bytes} {k : ℕ} (hbs : bs.length = k) (width : ℕ) (rest : Bytes) (i : ℕ) :
    uintAt width (bs ++ rest) (k + i) = uintAt width rest i := by
  rw [← hbs, uintAt_append]

theorem fidAt_behind {bs : Bytes} {k : ℕ} (hbs : bs.length = k) (rest : Bytes) (i : ℕ) :
    fidAt (bs ++ rest) (k + i) = fidAt rest i := by
  rw [fidAt, uintAt_behind hbs, fidAt]

theorem byteAt_behind {bs : Bytes} {k : ℕ} (hbs : bs.length = k) (rest : Bytes) (i : ℕ) :
    byteAt (bs ++ rest) (k + i) = byteAt rest i := by
  subst hbs
  simp [byteAt]

theorem fidAt_here (x : UInt32) : fidAt (leBytes 4 x.toNat) 0 = x := by
  have h := fidAt_leBytes x []
  rwa [List.append_nil] at h

/-- A text behind its length is read back, wherever it stands. -/
theorem nameAt_counted {s : String} (h : (asBytes s).length < 65536) (before rest : Bytes) :
    uintAt 2 (before ++ (counted s ++ rest)) before.length = (asBytes s).length ∧
      nameAt (before ++ (counted s ++ rest)) before.length = s := by
  have hlen : uintAt 2 (before ++ (counted s ++ rest)) before.length = (asBytes s).length := by
    have hskip := uintAt_append 2 before (counted s ++ rest) 0
    rw [Nat.add_zero] at hskip
    rw [hskip, counted, List.append_assoc, uintAt_here 2 _ _ h]
  refine ⟨hlen, ?_⟩
  have hsplit : before ++ (counted s ++ rest) =
      (before ++ leBytes 2 (asBytes s).length) ++ (asBytes s ++ rest) := by
    simp [counted]
  rw [nameAt, countedAt, hlen, hsplit, List.drop_left' (by simp), List.take_left, fromUtf8Lossy_asBytes]

theorem namesAt_counted {names : List String} (h : ∀ s ∈ names, (asBytes s).length < 65536)
    (before : Bytes) :
    namesAt (before ++ names.flatMap counted) names.length before.length = some names := by
  induction names generalizing before with
  | nil => rfl
  | cons s names ih =>
      obtain ⟨hlen, hname⟩ := nameAt_counted (h s (List.mem_cons_self ..)) before
        (names.flatMap counted)
      have hcounted : (counted s).length = 2 + (asBytes s).length := by simp [counted]
      have hnext := ih (fun s' hs' => h s' (List.mem_cons_of_mem _ hs')) (before ++ counted s)
      rw [List.append_assoc, List.length_append, hcounted, ← Nat.add_assoc] at hnext
      rw [List.flatMap_cons, List.length_cons, namesAt, hlen, hname, if_pos, hnext]
      · rfl
      · rw [List.length_append, List.length_append, hcounted]
        omega

theorem length_flatMap_counted (names : List String) :
    names.length ≤ (names.flatMap counted).length ∧
      ∀ s ∈ names, (asBytes s).length ≤ (names.flatMap counted).length := by
  induction names with
  | nil => exact ⟨le_rfl, nofun⟩
  | cons s names ih =>
      have hcounted : (counted s).length = 2 + (asBytes s).length := by simp [counted]
      rw [List.flatMap_cons, List.length_append, hcounted, List.length_cons]
      refine ⟨by omega, ?_⟩
      intro s' hs'
      rcases List.mem_cons.mp hs' with rfl | hs'
      · omega
      · have hrest := ih.2 s' hs'
        omega

theorem fields_walk {fid newFid : UInt32} {names : List String}
    (h : (Call.walk fid newFid names).body.length ≤ 65536) :
    fields (Call.walk fid newFid names).message = some (.walk fid newFid names) := by
  obtain ⟨hcount, hnames⟩ := length_flatMap_counted names
  simp only [Call.body, List.length_append, leBytes_length] at h
  have hfour : (leBytes 4 fid.toNat).length = 4 := leBytes_length _ _
  have height : (leBytes 4 newFid.toNat).length = 4 := leBytes_length _ _
  have hfid : fidAt (Call.walk fid newFid names).body 0 = fid := by rw [Call.body, fidAt_leBytes]
  have hnew : fidAt (Call.walk fid newFid names).body 4 = newFid := by
    rw [Call.body, ← Nat.add_zero 4, fidAt_behind hfour, fidAt_leBytes]
  have hn : uintAt 2 (Call.walk fid newFid names).body 8 = names.length := by
    rw [Call.body, show 8 = 4 + (4 + 0) from rfl, uintAt_behind hfour, uintAt_behind height,
      uintAt_here 2 _ _ (by omega)]
  have hread : namesAt (Call.walk fid newFid names).body names.length 10 = some names := by
    have hat := namesAt_counted (fun s hs => lt_of_le_of_lt (hnames s hs) (by omega))
      (leBytes 4 fid.toNat ++ (leBytes 4 newFid.toNat ++ leBytes 2 names.length))
    simpa [Call.body] using hat
  change (if (Call.walk fid newFid names).body.length < 10 then none else _) = _
  rw [if_neg (by simp [Call.body]; omega)]
  change (namesAt (Call.walk fid newFid names).body
    (uintAt 2 (Call.walk fid newFid names).body 8) 10).map _ = _
  rw [hn, hread, Option.map_some]
  change some (Call.walk (fidAt (Call.walk fid newFid names).body 0)
    (fidAt (Call.walk fid newFid names).body 4) names) = _
  rw [hfid, hnew]

theorem fields_create {fid : UInt32} {name : String} {perm : UInt32} {mode : UInt8}
    (h : (Call.create fid name perm mode).body.length ≤ 65536) :
    fields (Call.create fid name perm mode).message = some (.create fid name perm mode) := by
  have hsplit : (Call.create fid name perm mode).body =
      leBytes 4 fid.toNat ++ (counted name ++ (leBytes 4 perm.toNat ++ [mode])) := by
    simp [Call.body, counted]
  have hcounted : (counted name).length = 2 + (asBytes name).length := by simp [counted]
  have hfour : (leBytes 4 fid.toNat).length = 4 := leBytes_length _ _
  have hperm : (leBytes 4 perm.toNat).length = 4 := leBytes_length _ _
  have hlength : (Call.create fid name perm mode).body.length = 11 + (asBytes name).length := by
    rw [hsplit, List.length_append, List.length_append, List.length_append, hfour, hcounted, hperm,
      List.length_singleton]
    omega
  rw [hlength] at h
  obtain ⟨hlen, hname⟩ := nameAt_counted (show (asBytes name).length < 65536 by omega)
    (leBytes 4 fid.toNat) (leBytes 4 perm.toNat ++ [mode])
  rw [hfour, ← hsplit] at hlen hname
  have hfid : fidAt (Call.create fid name perm mode).body 0 = fid := by
    rw [hsplit, fidAt_leBytes]
  have hpermAt : fidAt (Call.create fid name perm mode).body (6 + (asBytes name).length) = perm := by
    rw [hsplit, show 6 + (asBytes name).length = 4 + (2 + (asBytes name).length + 0) by omega,
      fidAt_behind hfour, fidAt_behind hcounted, fidAt_leBytes]
  have hmode : byteAt (Call.create fid name perm mode).body (6 + (asBytes name).length + 4) = mode := by
    rw [hsplit, show 6 + (asBytes name).length + 4 = 4 + (2 + (asBytes name).length + (4 + 0)) by omega,
      byteAt_behind hfour, byteAt_behind hcounted, byteAt_behind hperm]
    rfl
  change (if (Call.create fid name perm mode).body.length < 9 ∨
    6 + uintAt 2 (Call.create fid name perm mode).body 4 + 5 >
      (Call.create fid name perm mode).body.length then none else _) = _
  rw [hlen, hlength, if_neg (by omega)]
  change some (Call.create (fidAt (Call.create fid name perm mode).body 0)
    (nameAt (Call.create fid name perm mode).body 4)
    (fidAt (Call.create fid name perm mode).body
      (6 + uintAt 2 (Call.create fid name perm mode).body 4))
    (byteAt (Call.create fid name perm mode).body
      (6 + uintAt 2 (Call.create fid name perm mode).body 4 + 4))) = _
  rw [hlen, hname, hfid, hpermAt, hmode]

theorem fields_write {fid : UInt32} {offset : UInt64} {data : Bytes}
    (h : (Call.write fid offset data).body.length ≤ 65536) :
    fields (Call.write fid offset data).message = some (.write fid offset data) := by
  have hfour : (leBytes 4 fid.toNat).length = 4 := leBytes_length _ _
  have height : (leBytes 8 offset.toNat).length = 8 := leBytes_length _ _
  have hlength : (Call.write fid offset data).body.length = 16 + data.length := by
    simp only [Call.body, List.length_append, leBytes_length]
    omega
  rw [hlength] at h
  have hfid : fidAt (Call.write fid offset data).body 0 = fid := by rw [Call.body, fidAt_leBytes]
  have hoffset : uintAt 8 (Call.write fid offset data).body 4 = offset.toNat := by
    rw [Call.body, ← Nat.add_zero 4, uintAt_behind hfour, uintAt_here 8 _ _ offset.toNat_lt]
  have hcount : uintAt 4 (Call.write fid offset data).body 12 = data.length := by
    rw [Call.body, show 12 = 4 + (8 + 0) from rfl, uintAt_behind hfour, uintAt_behind height,
      uintAt_here 4 _ _ (by omega)]
  have hdata : writePayload (Call.write fid offset data).body = data := by
    have hdrop : (Call.write fid offset data).body.drop 16 = data := by
      rw [Call.body, ← List.append_assoc, ← List.append_assoc]
      exact List.drop_left' (by simp)
    rw [writePayload, hcount, hlength, hdrop]
    exact List.take_of_length_le (by omega)
  change (if (Call.write fid offset data).body.length < 16 ∨
    (Call.write fid offset data).body.length < 16 + uintAt 4 (Call.write fid offset data).body 12
      then none else _) = _
  rw [hcount, hlength, if_neg (by omega)]
  change some (Call.write (fidAt (Call.write fid offset data).body 0)
    (UInt64.ofNat (uintAt 8 (Call.write fid offset data).body 4))
    (writePayload (Call.write fid offset data).body)) = _
  rw [hfid, hoffset, hdata, UInt64.ofNat_toNat]

theorem fidAt_read (fid : UInt32) (offset : UInt64) (count : UInt32) :
    fidAt (Call.read fid offset count).body 0 = fid := by
  rw [Call.body, fidAt_leBytes]

theorem offset_read (fid : UInt32) (offset : UInt64) (count : UInt32) :
    uintAt 8 (Call.read fid offset count).body 4 = offset.toNat := by
  have hfour : (leBytes 4 fid.toNat).length = 4 := leBytes_length _ _
  rw [Call.body, ← Nat.add_zero 4, uintAt_behind hfour, uintAt_here 8 _ _ offset.toNat_lt]

theorem fields_read (fid : UInt32) (offset : UInt64) (count : UInt32) :
    fields (Call.read fid offset count).message = some (.read fid offset count) := by
  have hfour : (leBytes 4 fid.toNat).length = 4 := leBytes_length _ _
  have height : (leBytes 8 offset.toNat).length = 8 := leBytes_length _ _
  have hcount : fidAt (Call.read fid offset count).body 12 = count := by
    rw [Call.body, show 12 = 4 + (8 + 0) from rfl, fidAt_behind hfour, fidAt_behind height,
      fidAt_here]
  change (if (Call.read fid offset count).body.length < 16 then none else _) = _
  rw [if_neg (by simp [Call.body])]
  change some (Call.read (fidAt (Call.read fid offset count).body 0)
    (UInt64.ofNat (uintAt 8 (Call.read fid offset count).body 4))
    (fidAt (Call.read fid offset count).body 12)) = _
  rw [fidAt_read, offset_read, hcount, UInt64.ofNat_toNat]

/-- The server reads from every message the values that the client put into it. -/
theorem fields_message {c : Call} (h : c.body.length ≤ 65536) : fields c.message = some c := by
  cases c with
  | version msize =>
      change some (Call.version (fidAt (Call.version msize).body 0)) = _
      rw [Call.body, fidAt_leBytes]
  | attach fid afid =>
      have hafid : fidAt (Call.attach fid afid).body 4 = afid := by
        rw [Call.body, ← Nat.add_zero 4, fidAt_behind (leBytes_length _ _), fidAt_leBytes]
      change some (Call.attach (fidAt (Call.attach fid afid).body 0)
        (fidAt (Call.attach fid afid).body 4)) = _
      rw [hafid, Call.body, fidAt_leBytes]
  | walk fid newFid names => exact fields_walk h
  | openFid fid mode =>
      have hmode : byteAt (Call.openFid fid mode).body 4 = mode := by
        rw [Call.body, ← Nat.add_zero 4, byteAt_behind (leBytes_length _ _)]
        rfl
      change some (Call.openFid (fidAt (Call.openFid fid mode).body 0)
        (byteAt (Call.openFid fid mode).body 4)) = _
      rw [hmode, Call.body, fidAt_leBytes]
  | create fid name perm mode => exact fields_create h
  | read fid offset count => exact fields_read fid offset count
  | write fid offset data => exact fields_write h
  | clunk fid =>
      change some (Call.clunk (fidAt (leBytes 4 fid.toNat) 0)) = _
      rw [fidAt_here]
  | removeFid fid =>
      change some (Call.removeFid (fidAt (leBytes 4 fid.toNat) 0)) = _
      rw [fidAt_here]
  | stat fid =>
      change some (Call.stat (fidAt (leBytes 4 fid.toNat) 0)) = _
      rw [fidAt_here]

end Pinhead.NinepCalls
