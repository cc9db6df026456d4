import Pinhead.DirectoryListings
import Pinhead.FuseSteps

/-!
# A directory page by page

The kernel reads a directory in several calls. Each reply numbers its entries, and the
next call names the number of the last entry it has got. The filesystem keeps nothing
between the calls: it builds the whole list again and counts up to that number.

The inode numbers of the entries are new in every call, so a page is compared by the
names and kinds of its entries.
-/
namespace Pinhead.DirectoryPages
open ByteStrings FsRequests Resumption Histories NinepShared FuseFilesystem FuseSteps
open DirectoryListings

/-! ## Pages -/

/-- The entries after the offset, each under its number, until one does not fit. -/
def addEntries (offset : ℕ) : ℕ → ℕ → List Dirent → List (ℕ × Dirent)
  | _, _, [] => []
  | seq, room, e :: es =>
      if seq + 1 ≤ offset then addEntries offset (seq + 1) room es
      else
        match room with
        | 0 => []
        | room + 1 => (seq + 1, e) :: addEntries offset (seq + 1) room es

abbrev Page := List (ℕ × Dirent)

section
variable (s : FuseState) (ino offset room : ℕ)

/-- The list is built from the start, whatever the offset is. -/
def listPage (path : String) : Prog fuse (Option Page × FuseState) := do
  let parent ← parentInode s ino path
  let dots : List Dirent := [⟨1, true, "."⟩, ⟨parent, true, ".."⟩]
  match ← sendReq .readDir path [] with
  | .ok data =>
      let names := (lines (fromUtf8Lossy data)).filterMap listedName
      let (entries, s) := recordEntries path names s
      pure (some (addEntries offset 0 room (dots ++ entries)), s)
  | .error _ => pure (some (addEntries offset 0 room dots), s)

/-- One call of `readdir` with the numbers of the entries in its reply; there is no page
for an inode without a path. -/
def readdirPage : Prog fuse (Option Page × FuseState) :=
  if ino = 1 then listPage s ino offset room "/"
  else
    match s.pathFor ino with
    | some path => listPage s ino offset room path
    | none => pure (none, s)

end

def pageReply : Option Page → Reply
  | some page => .directory (page.map Prod.snd)
  | none => .error .enoent

/-- The number that the next call starts from. -/
def lastOffset (offset : ℕ) (page : List (ℕ × Dirent)) : ℕ :=
  (page.getLast?.map Prod.fst).getD offset

/-- The names that the handler lists, each with its kind: a slash marks a directory. -/
def named : Except String Bytes → List (String × Bool)
  | .ok data => ((lines (fromUtf8Lossy data)).filterMap listedName).map fun name =>
      (trimEndMatches '/' name, endsWithSlash name)
  | .error _ => []

def listing (answer : Answer) : List (String × Bool) :=
  (".", true) :: ("..", true) :: named (outcome answer)

def contents (page : List (ℕ × Dirent)) : List (String × Bool) :=
  page.map fun e => (e.2.name, e.2.isDir)

/-! ## One page -/

section
variable {offset seq room : ℕ} {es : List Dirent}

theorem addEntries_past (h : offset ≤ seq) :
    addEntries offset seq room es = ((es.take room).zipIdx (seq + 1)).map Prod.swap := by
  induction es generalizing seq room with
  | nil => simp [addEntries]
  | cons e es ih =>
      rw [addEntries.eq_def]
      dsimp only
      rw [if_neg (by omega)]
      cases room with
      | zero => rfl
      | succ room =>
          dsimp only
          rw [ih (by omega), List.take_succ_cons, List.zipIdx_cons]
          rfl

/-- The page is a window of the list, numbered from the offset on. -/
theorem addEntries_eq (h : seq ≤ offset) : addEntries offset seq room es =
    (((es.drop (offset - seq)).take room).zipIdx (offset + 1)).map Prod.swap := by
  induction es generalizing seq with
  | nil => simp [addEntries]
  | cons e es ih =>
      by_cases hseq : seq = offset
      · subst hseq
        rw [addEntries_past le_rfl, Nat.sub_self, List.drop_zero]
      · rw [addEntries.eq_def]
        dsimp only
        rw [if_pos (by omega), ih (by omega),
          show offset - seq = offset - (seq + 1) + 1 by omega, List.drop_succ_cons]

end

theorem map_addEntries (offset room : ℕ) (es : List Dirent) :
    (addEntries offset 0 room es).map Prod.snd = (es.drop offset).take room := by
  rw [addEntries_eq (Nat.zero_le _), List.map_map, Nat.sub_zero]
  exact List.zipIdx_map_fst _ _

/-- The entries of a reply are those of the page. -/
theorem readdir_page (s : FuseState) (ino offset room : ℕ) : readdir s ino offset room =
    readdirPage s ino offset room >>= fun r => pure (pageReply r.1, r.2) := by
  have hlist (path : String) : (do
      let parent ← parentInode s ino path
      let dots : List Dirent := [⟨1, true, "."⟩, ⟨parent, true, ".."⟩]
      match ← sendReq .readDir path [] with
      | .ok data =>
          let names := (lines (fromUtf8Lossy data)).filterMap listedName
          let (entries, s) := recordEntries path names s
          pure (.directory (((dots ++ entries).drop offset).take room), s)
      | .error _ => pure (.directory ((dots.drop offset).take room), s) : Prog fuse Result) =
      listPage s ino offset room path >>= fun r => pure (pageReply r.1, r.2) := by
    rw [listPage, Prog.bind_assoc']
    congr 1
    funext parent
    dsimp only
    rw [Prog.bind_assoc']
    congr 1
    funext listed
    cases listed with
    | ok data =>
        dsimp only
        rw [pure_bind, pageReply, map_addEntries]
    | error e =>
        dsimp only
        rw [pure_bind, pageReply, map_addEntries]
  unfold readdir readdirPage
  split
  · exact hlist "/"
  · unfold withPath
    cases s.pathFor ino with
    | some path => exact hlist path
    | none => rfl

theorem contents_recordEntries (path : String) (names : List String) (s : FuseState) :
    (recordEntries path names s).1.map (fun e => (e.name, e.isDir)) =
      names.map fun name => (trimEndMatches '/' name, endsWithSlash name) := by
  induction names generalizing s with
  | nil => rfl
  | cons name names ih => rw [recordEntries, List.map_cons, List.map_cons, ih]

theorem contents_addEntries (offset room : ℕ) (es : List Dirent) :
    contents (addEntries offset 0 room es) =
      ((es.map fun e => (e.name, e.isDir)).drop offset).take room := by
  rw [← List.map_drop, ← List.map_take, ← map_addEntries, List.map_map]
  rfl

/-- The next call starts where the page ends. -/
theorem lastOffset_addEntries (offset room : ℕ) (es : List Dirent) :
    lastOffset offset (addEntries offset 0 room es) =
      offset + (addEntries offset 0 room es).length := by
  rw [addEntries_eq (Nat.zero_le _), lastOffset, List.getLast?_map, List.length_map,
    List.length_zipIdx]
  generalize (es.drop (offset - 0)).take room = window
  induction window using List.reverseRecOn with
  | nil => rfl
  | append_singleton window e _ => simp [List.zipIdx_append, Nat.add_comm, Nat.add_left_comm]

/-- What a call finds out about the directory, and what it leaves. -/
structure Shows (answer : Answer) (s : FuseState) (offset room : ℕ)
    (r : Option Page × FuseState) (page : Page) : Prop where
  reply : r.1 = some page
  contents : contents page = ((listing answer).drop offset).take room
  next : lastOffset offset page = offset + page.length
  grown : Extends s r.2

section
variable {f : (o : FuseFilesystem.Op) → o.Ret} {s : FuseState} {ino : ℕ} {path : String}

theorem shows_listPage (offset room : ℕ) : ∃ page,
    Shows (f (.route ⟨.readDir, path, []⟩)) s offset room
      (answered f (listPage s ino offset room path)).2 page := by
  have hanswer : (answered f (sendReq .readDir path [])).2 =
      outcome (f (.route ⟨.readDir, path, []⟩)) := rfl
  have hlisting : listing (f (.route ⟨.readDir, path, []⟩)) =
      (".", true) :: ("..", true) :: named (outcome (f (.route ⟨.readDir, path, []⟩))) := rfl
  rw [listPage, answered_bind, answered_bind, hanswer]
  cases h : outcome (f (.route ⟨.readDir, path, []⟩)) with
  | ok data =>
      refine ⟨_, rfl, ?_, lastOffset_addEntries _ _ _, extends_recordEntries _ _ _⟩
      rw [contents_addEntries, List.map_append, contents_recordEntries, hlisting, h]
      rfl
  | error e =>
      refine ⟨_, rfl, ?_, lastOffset_addEntries _ _ _, Extends.refl s⟩
      rw [contents_addEntries, hlisting, h]
      rfl

theorem shows_readdirPage (hpath : directoryAt s ino = some path) (offset room : ℕ) : ∃ page,
    Shows (f (.route ⟨.readDir, path, []⟩)) s offset room
      (answered f (readdirPage s ino offset room)).2 page := by
  unfold directoryAt at hpath
  unfold readdirPage
  split at hpath
  · next hroot =>
      obtain rfl := Option.some.inj hpath
      rw [if_pos hroot]
      exact shows_listPage offset room
  · next hroot =>
      rw [if_neg hroot, hpath]
      exact shows_listPage offset room

end

/-! ## All pages -/

/-- An inode keeps its path when entries are added under new numbers. -/
theorem directoryAt_extends {s s' : FuseState} (hs : Sound s) (h : Extends s s') {ino : ℕ}
    {path : String} (hpath : directoryAt s ino = some path) :
    directoryAt s' ino = some path := by
  unfold directoryAt at hpath ⊢
  split_ifs at hpath ⊢
  · exact hpath
  · rw [h.kept ino, hpath]
    by_contra hnot
    rw [hs.fresh ino (by omega)] at hpath
    cases hpath

section
variable (f : ℕ → (o : FuseFilesystem.Op) → o.Ret) (rooms : ℕ → ℕ) (ino : ℕ) (s : FuseState)

/-- The state and the offset of each call; the first one starts from zero. -/
def cursor : ℕ → FuseState × ℕ
  | 0 => (s, 0)
  | k + 1 =>
      let r := (answered (f k) (readdirPage (cursor k).1 ino (cursor k).2 (rooms k))).2
      (r.2, lastOffset (cursor k).2 (r.1.getD []))

def page (k : ℕ) : Option Page :=
  (answered (f k)
    (readdirPage (cursor f rooms ino s k).1 ino (cursor f rooms ino s k).2 (rooms k))).2.1

end

section
variable {f : ℕ → (o : FuseFilesystem.Op) → o.Ret} {rooms : ℕ → ℕ} {ino : ℕ} {s : FuseState}
variable {path : String} {answer : Answer}

/-- One more page, from a call in the middle. -/
theorem page_step (hf : ∀ k, f k (.route ⟨.readDir, path, []⟩) = answer) {k : ℕ}
    (hsound : Sound (cursor f rooms ino s k).1)
    (hpath : directoryAt (cursor f rooms ino s k).1 ino = some path) : ∃ p,
    page f rooms ino s k = some p ∧
    contents p = ((listing answer).drop (cursor f rooms ino s k).2).take (rooms k) ∧
    (cursor f rooms ino s (k + 1)).2 = (cursor f rooms ino s k).2 + p.length ∧
    Sound (cursor f rooms ino s (k + 1)).1 ∧
    directoryAt (cursor f rooms ino s (k + 1)).1 ino = some path := by
  obtain ⟨p, hshows⟩ := shows_readdirPage (f := f k) hpath (cursor f rooms ino s k).2 (rooms k)
  rw [hf k] at hshows
  refine ⟨p, hshows.reply, hshows.contents, ?_, hshows.grown.sound hsound,
    directoryAt_extends hsound hshows.grown hpath⟩
  have hnext := hshows.next
  rw [cursor]
  dsimp only
  rw [hshows.reply]
  exact hnext

/-- From any call on the pages make up the rest of the listing. -/
theorem pages_from (hf : ∀ k, f k (.route ⟨.readDir, path, []⟩) = answer)
    (hrooms : ∀ k, 1 ≤ rooms k) (k : ℕ) (hsound : Sound (cursor f rooms ino s k).1)
    (hpath : directoryAt (cursor f rooms ino s k).1 ino = some path)
    (hle : (cursor f rooms ino s k).2 ≤ (listing answer).length) : ∃ pages : List Page,
    (∀ i p, pages[i]? = some p → page f rooms ino s (k + i) = some p ∧ p ≠ []) ∧
    contents pages.flatten = (listing answer).drop (cursor f rooms ino s k).2 ∧
    page f rooms ino s (k + pages.length) = some [] := by
  obtain ⟨p, hp, hcontents, hnext, hsound', hpath'⟩ := page_step hf hsound hpath
  have hlength : p.length = min (rooms k) ((listing answer).length - (cursor f rooms ino s k).2) := by
    have h := congrArg List.length hcontents
    rwa [contents, List.length_map, List.length_take, List.length_drop] at h
  by_cases hend : (cursor f rooms ino s k).2 = (listing answer).length
  · have hempty : p = [] := List.length_eq_zero_iff.mp (by omega)
    refine ⟨[], by simp, ?_, by rw [List.length_nil, Nat.add_zero, hp, hempty]⟩
    rw [hend, List.drop_length]
    rfl
  · have hroom := hrooms k
    obtain ⟨pages, hpages, hrest, hlast⟩ :=
      pages_from hf hrooms (k + 1) hsound' hpath' (by omega)
    refine ⟨p :: pages, ?_, ?_, ?_⟩
    · rintro (_ | i) q hq
      · cases hq
        exact ⟨hp, List.ne_nil_of_length_pos (by omega)⟩
      · rw [← Nat.add_assoc, Nat.add_right_comm]
        exact hpages i q hq
    · rw [List.flatten_cons, contents, List.map_append]
      change contents p ++ contents pages.flatten = _
      rw [hrest, hcontents, hnext, hlength, ← List.drop_drop]
      have hwindow : ((listing answer).drop (cursor f rooms ino s k).2).take (rooms k) =
          ((listing answer).drop (cursor f rooms ino s k).2).take
            (min (rooms k) ((listing answer).length - (cursor f rooms ino s k).2)) := by
        rw [← List.length_drop, ← List.take_eq_take_min]
      rw [hwindow, List.take_append_drop]
    · rw [List.length_cons, ← Nat.add_assoc, Nat.add_right_comm]
      exact hlast
termination_by (listing answer).length - (cursor f rooms ino s k).2

end

/-- Successive calls for a directory, each with room for at least one entry, return the
whole listing in order, every entry once, and then an empty page. -/
theorem paging_lossless {mounted : ℕ} {ts : List Turn} {s : FuseState}
    (hreached : Turns mounted FuseState.new ts s) {ino : ℕ} {path : String}
    (hpath : directoryAt s ino = some path) (answer : Answer)
    (f : ℕ → (o : FuseFilesystem.Op) → o.Ret)
    (hf : ∀ k, f k (.route ⟨.readDir, path, []⟩) = answer) (rooms : ℕ → ℕ)
    (hrooms : ∀ k, 1 ≤ rooms k) : ∃ pages : List Page,
    (∀ i p, pages[i]? = some p → page f rooms ino s i = some p ∧ p ≠ []) ∧
    contents pages.flatten = listing answer ∧
    page f rooms ino s pages.length = some [] := by
  have hsound : Sound s := sound_new.turns hreached
  obtain ⟨pages, hpages, hcontents, hend⟩ := pages_from hf hrooms 0 hsound hpath (Nat.zero_le _)
  simp only [Nat.zero_add] at hpages hend
  exact ⟨pages, hpages, hcontents, hend⟩

/-- The root with two entries, one after the other. -/
theorem paging_lossless_root : ∃ pages : List Page,
    contents pages.flatten = [(".", true), ("..", true), ("a", false), ("b", true)] := by
  let answer : Answer := .reply (.ok ⟨asBytes "a\nb/\n", none, false⟩)
  let f : ℕ → (o : FuseFilesystem.Op) → o.Ret := fun _ o =>
    FuseFilesystem.Op.casesOn (motive := fun o => o.Ret) o (fun _ => answer) (0 : ℕ) (0 : ℕ)
  obtain ⟨pages, -, hcontents, -⟩ := @paging_lossless 0 [] FuseState.new (.nil _) 1 "/" rfl
    answer f (fun _ => rfl) (fun _ => 1) (fun _ => le_rfl)
  refine ⟨pages, hcontents.trans ?_⟩
  decide

end Pinhead.DirectoryPages
