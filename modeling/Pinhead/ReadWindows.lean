import Pinhead.NinepCalls
import Pinhead.NinepClient

/-!
# The part of a file that a read returns

A read names an offset and a count. The server does not look at the count: it answers with
everything from the offset on. A directory listing has a record for the directory itself in
front, which only the read at offset 0 puts there, so that the offsets of all other reads
count from another start.
-/
namespace Pinhead.ReadWindows
open ByteStrings FsRequests NinepShared NinepHandlers NinepRuns NinepDatagrams NinepScripts
open NinepCalls StatRecords

/-! ## Windows of a list -/

section
variable {α : Type} (all : List α) (offset count : ℕ)

def window : List α := (all.drop offset).take count

theorem window_full_iff :
    all.drop offset = window all offset count ↔ all.length ≤ offset + count := by
  rw [window, eq_comm, List.take_eq_self_iff, List.length_drop]
  omega

/-- What lies `shift` further on is the window if the window is empty and nothing lies there,
or if the window repeats itself there up to the end. -/
theorem window_shifted_iff {shift : ℕ} (hshift : 0 < shift) :
    all.drop (offset + shift) = window all offset count ↔
      all.length ≤ offset ∨ (count = 0 ∧ all.length ≤ offset + shift) ∨
        (0 < count ∧ offset + shift + count = all.length ∧
          ∀ i < count, all[offset + shift + i]? = all[offset + i]?) := by
  have hget (i : ℕ) : (window all offset count)[i]? =
      if i < count then all[offset + i]? else none := by
    rw [window, List.getElem?_take, List.getElem?_drop]
  constructor
  · intro h
    have hlength := congrArg List.length h
    rw [window, List.length_drop, List.length_take, List.length_drop] at hlength
    have helem (i : ℕ) (hi : i < count) : all[offset + shift + i]? = all[offset + i]? := by
      have hi' := congrArg (fun l : List α => l[i]?) h
      simpa only [List.getElem?_drop, hget, if_pos hi] using hi'
    by_cases hout : all.length ≤ offset
    · exact .inl hout
    · by_cases hend : all.length ≤ offset + shift
      · exact .inr (.inl ⟨by omega, hend⟩)
      · exact .inr (.inr ⟨by omega, by omega, helem⟩)
  · rintro (hout | ⟨rfl, hend⟩ | ⟨_, hlength, helem⟩)
    · rw [window, List.drop_eq_nil_of_le (by omega), List.drop_eq_nil_of_le hout, List.take_nil]
    · rw [window, List.drop_eq_nil_of_le hend, List.take_zero]
    · apply List.ext_getElem?
      intro i
      rw [hget, List.getElem?_drop]
      split
      · next hi => exact helem i hi
      · next hi => exact List.getElem?_eq_none (by omega)

end

/-! ## Reads -/

/-- The reply to a read in the given state carries the data. -/
def ReadsData (env : Env) (w : World) (tag : UInt16) (fid : UInt32) (offset : UInt64)
    (count : UInt32) (data : Bytes) : Prop :=
  ∃ w', evaluate env (serveMessage ⟨TREAD, tag, (Call.read fid offset count).body⟩) w =
      some ((), w') ∧
    w'.out = w.out ++ [message RREAD tag (leBytes 4 data.length ++ data)]

/-- A read returns its window of what the largest read at offset 0 returns. -/
def WindowReturned (env : Env) (w : World) (tag : UInt16) (fid : UInt32) (offset : UInt64)
    (count : UInt32) : Prop :=
  ∀ all data, ReadsData env w tag fid 0 0xFFFFFFFF all →
    ReadsData env w tag fid offset count data → data = window all offset.toNat count.toNat

/-- The request behind a read. -/
def readRequest (e : FidEntry) : Request := ⟨if e.isDir then .readDir else .read, e.path, []⟩

/-- The data that a read at an offset cuts. -/
def source (env : Env) (w : World) (e : FidEntry) (resp : Response) (offset : ℕ) : Bytes :=
  if e.isDir then directoryData env.clock w.tick offset (w.shared.state.listDir e.path)
  else resp.data

variable {env : Env} {w : World} {tag : UInt16} {fid : UInt32} {offset : UInt64} {count : UInt32}
  {e : FidEntry} {resp : Response}

theorem ReadsData.unique {data data' : Bytes} (h : ReadsData env w tag fid offset count data)
    (h' : ReadsData env w tag fid offset count data') : data = data' := by
  obtain ⟨v, hserve, hout⟩ := h
  obtain ⟨v', hserve', hout'⟩ := h'
  rw [hserve] at hserve'
  obtain rfl : v = v' := by simpa using hserve'
  have hmessage := List.append_cancel_left (hout.symm.trans hout')
  have hbody := congrArg (fun m : Bytes => (m.drop 7).drop 4) (List.head_eq_of_cons_eq hmessage)
  simpa only [message_drop, List.drop_left' (leBytes_length 4 _)] using hbody

theorem reads_source (he : w.shared.state.fids.lookup fid = some e)
    (hresp : env.router (readRequest e) = .reply (.ok resp)) :
    ReadsData env w tag fid offset count
      ((source env w e resp offset.toNat).drop offset.toNat) := by
  have hbody : 16 ≤ (Call.read fid offset count).body.length := by simp [Call.body]
  have hfid : w.shared.state.fids.lookup (fidAt (Call.read fid offset count).body 0) = some e := by
    rwa [fidAt_read]
  rw [readRequest] at hresp
  cases hdir : e.isDir with
  | true =>
      rw [hdir, if_pos rfl] at hresp
      obtain ⟨w', hserve, _, hout⟩ := served_directory tag hbody hfid hdir hresp
      rw [offset_read] at hout
      rw [source, hdir, if_pos rfl]
      exact ⟨w', hserve, hout⟩
  | false =>
      rw [hdir, if_neg (by decide)] at hresp
      obtain ⟨w', hserve, _, hout⟩ := served_file tag hbody hfid hdir hresp
      rw [offset_read] at hout
      rw [source, hdir, if_neg (by decide)]
      exact ⟨w', hserve, hout⟩

/-- At an offset other than 0 a directory is read without its own record. -/
theorem source_drop (env : Env) (w : World) (e : FidEntry) (resp : Response) {offset : ℕ}
    (hoffset : offset ≠ 0) (hdir : e.isDir = true) :
    (source env w e resp offset).drop offset = (source env w e resp 0).drop (offset + 53) := by
  have hdot : (dotBytes (env.clock (w.tick + (w.shared.state.listDir e.path).length))).length = 53 := by
    rw [dotBytes, statBytes_length]
    rfl
  rw [source, source, if_pos hdir, if_pos hdir, directoryData, directoryData, if_neg hoffset,
    if_pos rfl, List.nil_append, Nat.add_comm, ← List.drop_drop, List.drop_left' hdot]

theorem source_file (env : Env) (w : World) (e : FidEntry) (resp : Response) (offset : ℕ)
    (h : e.isDir = false ∨ offset = 0) : source env w e resp offset = source env w e resp 0 := by
  rcases h with hfile | rfl
  · rw [source, source, if_neg (by simp [hfile]), if_neg (by simp [hfile])]
  · rfl

/-- Where the count makes no difference, and the missing record of a directory neither. -/
def Covered (isDir : Bool) (all : Bytes) (offset count : ℕ) : Prop :=
  if isDir = true ∧ offset ≠ 0 then
    all.length ≤ offset ∨ (count = 0 ∧ all.length ≤ offset + 53) ∨
      (0 < count ∧ offset + 53 + count = all.length ∧
        ∀ i < count, all[offset + 53 + i]? = all[offset + i]?)
  else all.length ≤ offset + count

theorem window_returned_iff (tag : UInt16) (offset : UInt64) (count : UInt32)
    (he : w.shared.state.fids.lookup fid = some e)
    (hresp : env.router (readRequest e) = .reply (.ok resp)) :
    WindowReturned env w tag fid offset count ↔
      Covered e.isDir (source env w e resp 0) offset.toNat count.toNat := by
  have hall : ReadsData env w tag fid 0 0xFFFFFFFF (source env w e resp 0) :=
    reads_source he hresp
  have hread : ReadsData env w tag fid offset count _ := reads_source he hresp
  have hwindow : WindowReturned env w tag fid offset count ↔
      (source env w e resp offset.toNat).drop offset.toNat =
        window (source env w e resp 0) offset.toNat count.toNat := by
    constructor
    · exact fun h => h _ _ hall hread
    · intro h all data hall' hread'
      rw [hall'.unique hall, hread'.unique hread, h]
  rw [hwindow, Covered]
  split
  · next h => rw [source_drop env w e resp h.2 h.1, window_shifted_iff _ _ _ (by decide)]
  · next h =>
      have hsame : e.isDir = false ∨ offset.toNat = 0 := by
        cases hdir : e.isDir with
        | true => exact .inr (by_contra fun hne => h ⟨hdir, hne⟩)
        | false => exact .inl rfl
      rw [source_file env w e resp _ hsame, window_full_iff]

/-- Every file holds two bytes. -/
def twoBytes : Env := ⟨fun _ => .reply (.ok ⟨[97, 98], none, false⟩), fun _ => 0⟩

/-- Fid 1 is bound to the root, which holds the file that fid 2 is bound to. -/
def rootAndFile : World :=
  World.start ⟨((NinepState.new.allocQid "/f" false).2.setFid 1 0 "/" true).setFid 2 1 "/f" false, 8192⟩

/-- The second byte of the file is returned. -/
theorem window_returned_iff_file :
    rootAndFile.shared.state.fids.lookup 2 = some ⟨1, "/f", false, false⟩ ∧
    (WindowReturned twoBytes rootAndFile 0 2 1 1 ↔ Covered false [97, 98] 1 1) := by
  have hfile : rootAndFile.shared.state.fids.lookup 2 = some ⟨1, "/f", false, false⟩ := rfl
  have hresp : twoBytes.router (readRequest ⟨1, "/f", false, false⟩) =
      .reply (.ok ⟨[97, 98], none, false⟩) := rfl
  exact ⟨hfile, window_returned_iff 0 1 1 hfile hresp⟩

/-- One byte is asked for and two are returned; the listing of the root has a second record
that no read at its offset returns. -/
theorem windows_not_returned :
    ¬ WindowReturned twoBytes rootAndFile 0 2 0 1 ∧
      ¬ WindowReturned twoBytes rootAndFile 0 1 53 0xFFFFFFFF := by
  constructor
  · intro h
    have hfile : rootAndFile.shared.state.fids.lookup 2 = some ⟨1, "/f", false, false⟩ := rfl
    have hwindow := h _ _ (reads_source hfile rfl) (reads_source hfile rfl)
    have hlength := congrArg List.length hwindow
    revert hlength
    decide
  · intro h
    have hroot : rootAndFile.shared.state.fids.lookup 1 = some ⟨0, "/", false, true⟩ := rfl
    have hwindow := h _ _ (reads_source hroot rfl) (reads_source hroot rfl)
    have hlength := congrArg List.length hwindow
    revert hlength
    decide

end Pinhead.ReadWindows
