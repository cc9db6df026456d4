import Pinhead.FuseFilesystem
import Pinhead.SftpSessions
import Pinhead.WindowedReads

/-!
# Windows of a file over SFTP and FUSE

Both frontends ask the handler for the whole file and cut the window out of it with
machine arithmetic. SFTP checks the offset first and then adds with saturation. FUSE
adds first, where an overflow would be a panic, and checks the offset afterwards.

A byte string in memory has fewer than 2^63 bytes. Together with the kernel's limit on
offsets this is why neither of the two runs into the end of the 64-bit numbers.
-/
namespace Pinhead.FileWindows
open ByteStrings FsRequests Resumption Histories WindowedReads

/-! ## Machine arithmetic -/

def usizeMax : ℕ := 2 ^ 64 - 1

def saturatingAdd (a b : ℕ) : ℕ := min (a + b) usizeMax

/-- An overflow is a panic and has no value. -/
def addUsize (a b : ℕ) : Option ℕ := if a + b ≤ usizeMax then some (a + b) else none

/-- What an SFTP session makes of the handler's bytes; no value is a slice out of range. -/
def sftpChunk (resp : Bytes) (offset : UInt64) (len : UInt32) :
    Option (Except SftpSessions.StatusCode Bytes) :=
  let start := offset.toNat
  if start ≥ resp.length then some (.error .eof)
  else (slice resp start (min (saturatingAdd start len.toNat) resp.length)).map .ok

/-- What the FUSE filesystem makes of them; no value is an overflow or a slice out of
range. -/
def fuseChunk (data : Bytes) (offset : UInt64) (size : UInt32) : Option Bytes := do
  let start := offset.toNat
  let sum ← addUsize start size.toNat
  let stop := min sum data.length
  if start < data.length then slice data start stop else some []

theorem slice_window {bs : Bytes} {o c : ℕ} (ho : o ≤ bs.length) :
    slice bs o (min (o + c) bs.length) = some (window bs o (o + c)) := by
  rw [slice_of_le (by omega) (by omega), window, min_eq_left ho]

theorem sftpChunk_eq {D : Bytes} (hD : D.length < 2 ^ 63) (o : UInt64) (c : UInt32) :
    sftpChunk D o c = some (if o.toNat < D.length then
      .ok (window D o.toNat (o.toNat + c.toNat)) else .error .eof) := by
  unfold sftpChunk
  by_cases ho : o.toNat < D.length
  · have hclamp : min (saturatingAdd o.toNat c.toNat) D.length =
        min (o.toNat + c.toNat) D.length := by
      rw [saturatingAdd, usizeMax, min_assoc, min_eq_right (a := 2 ^ 64 - 1) (by omega)]
    rw [if_pos ho]
    dsimp only
    rw [if_neg (by omega), hclamp, slice_window ho.le, Option.map_some]
  · rw [if_neg ho]
    exact if_pos (by omega)

theorem fuseChunk_eq (D : Bytes) {o : UInt64} (ho : o.toNat < 2 ^ 63) (c : UInt32) :
    fuseChunk D o c = some (window D o.toNat (o.toNat + c.toNat)) := by
  have hc := c.toNat_lt
  have hsum : addUsize o.toNat c.toNat = some (o.toNat + c.toNat) :=
    if_pos (by rw [usizeMax]; omega)
  unfold fuseChunk
  dsimp only
  rw [hsum]
  change (if o.toNat < D.length then slice D o.toNat (min (o.toNat + c.toNat) D.length)
    else some []) = _
  split
  · next hlt => exact slice_window hlt.le
  · next hge => rw [window_past (by omega)]

/-! ## SFTP -/

/-- The handler answers every read of the file with these bytes. -/
structure SftpFile (f : Request → Option Answer) (s : SftpSessions.HandleState) (handle : String)
    (D : Bytes) (entry : SftpSessions.HandleEntry) (resp : Response) : Prop where
  opened : s.get handle = some entry
  content : resp.data = D
  answer : f ⟨.read, SftpSessions.normalized entry.path, []⟩ = some (.reply (.ok resp))

/-- One read of a client; the ids of the requests may be any. -/
def sftpReader (f : Request → Option Answer) (handle : String) (ids : ℕ → ℕ)
    (s : SftpSessions.HandleState) (offset len : ℕ) : Piece UInt8 × SftpSessions.HandleState :=
  match (answered (S := SftpSessions.sftp) f
      (SftpSessions.dispatch s (.read (ids offset) handle offset len))).2 with
  | (some (.data _ bytes), s) => (.data bytes, s)
  | (some (.status _ .eof _ _), s) => (.ended, s)
  | (_, s) => (.failed, s)

def sftpReply (id : ℕ) : Except SftpSessions.StatusCode Bytes → SftpSessions.Reply
  | .ok bytes => .data id bytes
  | .error code => SftpSessions.makeStatus id code

theorem answered_read {f : Request → Option Answer} {s : SftpSessions.HandleState}
    {handle : String} {D : Bytes} {entry : SftpSessions.HandleEntry} {resp : Response}
    (h : SftpFile f s handle D entry resp) (id o c : ℕ) :
    (answered (S := SftpSessions.sftp) f (SftpSessions.dispatch s (.read id handle o c))).2 =
      (some (sftpReply id (if o < D.length then .ok (window D o (o + c)) else .error .eof)), s) := by
  have hroute : (answered (S := SftpSessions.sftp) f
      (SftpSessions.route .read entry.path [])).2 = .ok D := by
    rw [← h.content]
    exact congrArg SftpSessions.outcome h.answer
  rw [SftpSessions.dispatch, SftpSessions.replyTo, answered_bind, SftpSessions.read,
    SftpSessions.withHandle, h.opened]
  dsimp only
  rw [answered_bind, hroute]
  dsimp only
  by_cases ho : o < D.length
  · rw [if_neg (by omega), if_pos ho, window_of_le ho.le]
    rfl
  · rw [if_pos (by omega), if_neg ho]
    rfl

theorem sftpReader_serves {f : Request → Option Answer} {s : SftpSessions.HandleState}
    {handle : String} {D : Bytes} {entry : SftpSessions.HandleEntry} {resp : Response}
    (h : SftpFile f s handle D entry resp) (ids : ℕ → ℕ) :
    Serves (sftpReader f handle ids) (· = s) D := by
  rintro _ o c rfl _ _
  unfold sftpReader
  rw [answered_read h]
  by_cases ho : o < D.length
  · rw [if_pos ho, if_pos ho]
    exact ⟨rfl, rfl⟩
  · rw [if_neg ho, if_neg ho]
    exact ⟨rfl, rfl⟩

/-! ## FUSE -/

structure FuseFile (f : (o : FuseFilesystem.Op) → o.Ret) (s : FuseFilesystem.FuseState) (ino : ℕ)
    (D : Bytes) (path : String) (resp : Response) : Prop where
  known : s.pathFor ino = some path
  content : resp.data = D
  answer : f (.route ⟨.read, path, []⟩) = Answer.reply (.ok resp)

/-- One read of the kernel, which takes an empty reply for the end. -/
def fuseReader (f : (o : FuseFilesystem.Op) → o.Ret) (mounted ino : ℕ)
    (s : FuseFilesystem.FuseState) (offset size : ℕ) : Piece UInt8 × FuseFilesystem.FuseState :=
  match (answered f (FuseFilesystem.dispatch mounted s (.read ino offset size))).2 with
  | (.data [], s) => (.ended, s)
  | (.data bytes, s) => (.data bytes, s)
  | (_, s) => (.failed, s)

theorem answered_fuse_read {f : (o : FuseFilesystem.Op) → o.Ret} {s : FuseFilesystem.FuseState}
    {ino : ℕ} {D : Bytes} {path : String} {resp : Response} (h : FuseFile f s ino D path resp)
    (mounted o c : ℕ) :
    (answered f (FuseFilesystem.dispatch mounted s (.read ino o c))).2 =
      (.data (window D o (o + c)), s.cacheSize path D.length) := by
  have hroute : (answered f (FuseFilesystem.sendReq .read path [])).2 = .ok D := by
    rw [← h.content]
    exact congrArg FuseFilesystem.outcome h.answer
  have hwindow : (D.drop o).take c = window D o (o + c) := by
    by_cases ho : o ≤ D.length
    · exact (window_of_le ho c).symm
    · rw [window_past (by omega), List.drop_eq_nil_of_le (by omega), List.take_nil]
  rw [FuseFilesystem.dispatch, FuseFilesystem.read, FuseFilesystem.withPath_some h.known,
    answered_bind, hroute, ← hwindow]
  rfl

theorem fuseReader_serves {f : (o : FuseFilesystem.Op) → o.Ret} {s : FuseFilesystem.FuseState}
    {ino : ℕ} {D : Bytes} {path : String} {resp : Response} (h : FuseFile f s ino D path resp)
    (mounted : ℕ) : Serves (fuseReader f mounted ino) (·.pathFor ino = some path) D := by
  intro s' o c hs' ho hc
  have hfile : FuseFile f s' ino D path resp := ⟨hs', h.content, h.answer⟩
  unfold fuseReader
  rw [answered_fuse_read hfile]
  by_cases hlt : o < D.length
  · obtain ⟨b, bs, hwindow⟩ := List.exists_cons_of_ne_nil (window_ne_nil hlt hc)
    rw [if_pos hlt, hwindow]
    exact ⟨hs', rfl⟩
  · rw [if_neg hlt, window_past (by omega)]
    exact ⟨hs', rfl⟩

/-! ## Both -/

/-- Reads over SFTP are windows of `D`, and put together they are `D`. -/
structure SftpReads (D : Bytes) : Prop where
  chunk : ∀ o c, sftpChunk D o c = some (if o.toNat < D.length then
    .ok (window D o.toNat (o.toNat + c.toNat)) else .error .eof)
  reply : ∀ f s handle entry resp, SftpFile f s handle D entry resp →
    ∀ (id : ℕ) (o : UInt64) (c : UInt32), ∃ chunk, sftpChunk D o c = some chunk ∧
      (answered (S := SftpSessions.sftp) f
        (SftpSessions.dispatch s (.read id handle o.toNat c.toNat))).2 =
        (some (sftpReply id chunk), s)
  whole : ∀ f s handle entry resp, SftpFile f s handle D entry resp →
    ∀ (ids : ℕ → ℕ) (lens : ℕ → UInt32), (∀ k, 0 < (lens k).toNat) → ∀ fuel > D.length,
      readOn (sftpReader f handle ids) (fun k => (lens k).toNat) fuel 0 0 s = some (D, s)

/-- Reads over FUSE are windows of `D`, and put together they are `D`. -/
structure FuseReads (D : Bytes) : Prop where
  chunk : ∀ o c, o.toNat < 2 ^ 63 →
    fuseChunk D o c = some (window D o.toNat (o.toNat + c.toNat))
  reply : ∀ f s ino path resp, FuseFile f s ino D path resp →
    ∀ (mounted : ℕ) (o : UInt64) (c : UInt32), o.toNat < 2 ^ 63 → ∃ chunk,
      fuseChunk D o c = some chunk ∧
      (answered f (FuseFilesystem.dispatch mounted s (.read ino o.toNat c.toNat))).2 =
        (.data chunk, s.cacheSize path D.length)
  whole : ∀ f s ino path resp, FuseFile f s ino D path resp →
    ∀ (mounted : ℕ) (lens : ℕ → UInt32), (∀ k, 0 < (lens k).toNat) → ∀ fuel > D.length,
      ∃ s', readOn (fuseReader f mounted ino) (fun k => (lens k).toNat) fuel 0 0 s = some (D, s')

/-- Whatever the handler returns, the replies are the windows asked for, without a panic,
and reading on until the end gives the whole of it. -/
theorem reads_are_windows (D : Bytes) (hD : D.length < 2 ^ 63) : SftpReads D ∧ FuseReads D := by
  refine ⟨⟨sftpChunk_eq hD, ?_, ?_⟩, ⟨fun o c ho => fuseChunk_eq D ho c, ?_, ?_⟩⟩
  · intro f s handle entry resp h id o c
    exact ⟨_, sftpChunk_eq hD o c, answered_read h id o.toNat c.toNat⟩
  · intro f s handle entry resp h ids lens hlens fuel hfuel
    obtain ⟨_, hread, rfl⟩ := readOn_served (sftpReader_serves h ids) hlens (k := 0) rfl
      D.length.zero_le hfuel
    exact hread
  · intro f s ino path resp h mounted o c ho
    exact ⟨_, fuseChunk_eq D ho c, answered_fuse_read h mounted o.toNat c.toNat⟩
  · intro f s ino path resp h mounted lens hlens fuel hfuel
    obtain ⟨s', hread, _⟩ := readOn_served (fuseReader_serves h mounted) hlens (k := 0) h.known
      D.length.zero_le hfuel
    exact ⟨s', hread⟩

def openedFile : SftpSessions.HandleState := (SftpSessions.HandleState.new.alloc "/f" false).2

/-- Two bytes are read in two pieces and a last reply. -/
theorem reads_are_windows_two :
    SftpReads [97, 98] ∧ FuseReads [97, 98] ∧
    readOn (sftpReader (fun _ => some (.reply (.ok ⟨[97, 98], none, false⟩)))
      (SftpSessions.handleId 1) id) (fun _ => 1) 3 0 0 openedFile = some ([97, 98], openedFile) := by
  obtain ⟨hsftp, hfuse⟩ := reads_are_windows [97, 98] (by decide)
  refine ⟨hsftp, hfuse, ?_⟩
  exact hsftp.whole _ _ _ ⟨"/f", false⟩ ⟨[97, 98], none, false⟩ ⟨by decide, rfl, rfl⟩ id
    (fun _ => 1) (fun _ => by decide) 3 (by decide)

end Pinhead.FileWindows
