import Pinhead.FuseFilesystem
import Pinhead.SftpSessions
import Pinhead.TextWords

/-!
# One attribute text in two frontends

A GetAttr handler returns a text. FUSE goes by its words: the last one that starts with
`mode=` and the last one that starts with `size=`, and where that gives no size the path
is a file with the text as its content. SFTP searches the text: a directory is what has
`dir` anywhere in it, and its size is the number after the first `size=` anywhere.
-/
namespace Pinhead.AttributeReports
open ByteStrings FsRequests Resumption Histories NinepShared FuseFilesystem TextWords

/-! ## What each frontend presents -/

/-- The kind and the size that FUSE gives to a path, for lookup and getattr. -/
def fuseAttr (data : Bytes) : Bool × ℕ :=
  if (parseAttr data).2 = 0 ∧ data ≠ [] ∧ parseAttrSize data = none then (false, data.length)
  else parseAttr data

def sftpAttr (data : Bytes) : Bool × ℕ :=
  let text := fromUtf8Lossy data
  (containsText text "directory" || containsText text "mode=directory" || containsText text "dir",
    SftpSessions.attrSize data)

/-- These are the kind and the size of every path for which the GetAttr handler returns
`data`, in the replies to lookup and getattr. -/
structure FusePresents (data : Bytes) (attr : Bool × ℕ) : Prop where
  lookup : ∀ (s : FuseState) (mounted parent : ℕ) (name : Bytes) (found resp : Response)
    (f : (o : FuseFilesystem.Op) → o.Ret), resp.data = data →
    ¬ (fromUtf8Lossy name = "." ∨ fromUtf8Lossy name = "..") →
    let path := joinPath (parentPath s parent) (fromUtf8Lossy name)
    f (.route ⟨.lookup, path, []⟩) = Answer.reply (.ok found) →
    f (.route ⟨.getAttr, path, []⟩) = Answer.reply (.ok resp) →
    (answered f (FuseFilesystem.dispatch mounted s (.lookup parent name))).2 =
      (.entry (fileAttr (f .now) s.inoNext attr.2 attr.1), s.handOut path)
  getattr : ∀ (s : FuseState) (mounted ino : ℕ) (path : String) (resp content : Response)
    (f : (o : FuseFilesystem.Op) → o.Ret), resp.data = data → content.data = data →
    ino ≠ 1 → s.pathFor ino = some path → s.sizeCache = ∅ →
    f (.route ⟨.getAttr, path, []⟩) = Answer.reply (.ok resp) →
    f (.route ⟨.read, path, []⟩) = Answer.reply (.ok content) →
    (answered f (FuseFilesystem.dispatch mounted s (.getattr ino))).2 =
      (.attr (fileAttr (f .now) ino attr.2 attr.1), s)

/-- The attributes of a reply of SFTP. A size of 0 is left out. -/
def attrReply (id : ℕ) (attr : Bool × ℕ) : SftpSessions.Reply :=
  .attrs id (if attr.2 > 0 then some attr.2 else none) (if attr.1 then 0o40755 else 0o100644)

/-- These are the attributes of every path for which the GetAttr handler returns `data`,
in the replies to stat, lstat and fstat. -/
def SftpPresents (data : Bytes) (attr : Bool × ℕ) : Prop :=
  ∀ (s : SftpSessions.HandleState) (path : String) (resp : Response)
    (f : Request → Option Answer) (id : ℕ) (packet : SftpSessions.Packet), resp.data = data →
    f ⟨.getAttr, SftpSessions.normalized path, []⟩ = some (.reply (.ok resp)) →
    packet = .stat id path ∨ packet = .lstat id path ∨
      (∃ handle entry, packet = .fstat id handle ∧ s.get handle = some entry ∧
        entry.path = path) →
    (answered (S := SftpSessions.sftp) f (SftpSessions.dispatch s packet)).2 =
      (some (attrReply id attr), s)

theorem answered_sendReq {f : (o : FuseFilesystem.Op) → o.Ret} {op : FsOperation} {path : String}
    {resp : Response} (h : f (.route ⟨op, path, []⟩) = Answer.reply (.ok resp)) :
    (answered f (sendReq op path [])).2 = .ok resp.data :=
  congrArg outcome h

theorem fuse_presents (data : Bytes) : FusePresents data (fuseAttr data) := by
  constructor
  · intro s mounted parent name found resp f hdata hname path hfound hattr
    subst hdata
    rw [FuseFilesystem.dispatch, FuseFilesystem.lookup]
    dsimp only
    rw [if_neg hname, answered_bind, answered_sendReq hfound]
    dsimp only
    rw [answered_bind, answered_sendReq hattr]
    dsimp only
    unfold fuseAttr
    split <;> rfl
  · intro s mounted ino path resp content f hdata hcontent hroot hpath hcache hattr hread
    subst hdata
    rw [FuseFilesystem.dispatch, FuseFilesystem.getattr, if_neg hroot, withPath_some hpath,
      answered_bind, answered_sendReq hattr]
    dsimp only
    unfold fuseAttr
    split
    · rfl
    · split
      · next hempty =>
          -- the content is empty too, so that its length is the size in the text
          obtain ⟨hsize, hnil, hkind⟩ := hempty
          have hnone : s.sizeCache.lookup path = none := by
            rw [hcache]
            rfl
          rw [hnone]
          dsimp only
          rw [answered_bind, answered_sendReq hread, hcontent, hnil]
          rfl
      · rfl

theorem sftp_presents (data : Bytes) : SftpPresents data (sftpAttr data) := by
  intro s path resp f id packet hdata hf hpacket
  subst hdata
  have hstat : (answered (S := SftpSessions.sftp) f
      (SftpSessions.replyTo id (SftpSessions.statImpl s id path))).2 =
      (some (attrReply id (sftpAttr resp.data)), s) := by
    have hanswer : (answered (S := SftpSessions.sftp) f
        (SftpSessions.route .getAttr path [])).2 = .ok resp.data :=
      congrArg SftpSessions.outcome hf
    rw [SftpSessions.replyTo, answered_bind, SftpSessions.statImpl, answered_bind, hanswer]
    rfl
  rcases hpacket with rfl | rfl | ⟨handle, entry, rfl, hhandle, rfl⟩
  · exact hstat
  · exact hstat
  · rw [SftpSessions.dispatch, SftpSessions.fstat, SftpSessions.withHandle, hhandle]
    exact hstat

/-- The two frontends give a path the same attributes, and both take it for a directory
if a word of the text says that it is one. -/
structure Alike (data : Bytes) : Prop where
  attr : fuseAttr data = sftpAttr data
  directory : "mode=dir" ∈ splitWhitespace (fromUtf8Lossy data) ∨
    "mode=directory" ∈ splitWhitespace (fromUtf8Lossy data) →
    (fuseAttr data).1 = true ∧ (sftpAttr data).1 = true

/-! ## The words of an attribute text -/

/-- What follows `key` in the words that start with it. -/
def attrWords (key : String) (data : Bytes) : List String :=
  (splitWhitespace (fromUtf8Lossy data)).filterMap (stripStart key)

def lastMode (data : Bytes) : Option String := (attrWords "mode=" data).getLast?

def number (val : String) : Option ℕ := parseU64 val.toList

def firstSize (data : Bytes) : Option ℕ := (attrWords "size=" data).head?.bind number

def lastSize (data : Bytes) : Option ℕ := (attrWords "size=" data).getLast?.bind number

/-- The digits after the first `size=` anywhere in the text, where there is one. No digits
count as 0. -/
def foundSize (data : Bytes) : Option ℕ :=
  (afterFirst "size=".toList (fromUtf8Lossy data).toList).map fun rest =>
    (parseU64 (rest.takeWhile Char.isDigit)).getD 0

/-- The words give a size: the first of them that starts with `size=` is a number, or the
last is one other than 0. -/
def Sized (data : Bytes) : Prop := firstSize data ≠ none ∨ (lastSize data).getD 0 ≠ 0

def SaysDirectory (data : Bytes) : Prop :=
  lastMode data = some "dir" ∨ lastMode data = some "directory"

/-- With a size in its words, the last mode of the text says directory exactly if the text
has `dir` in it, and its last size is the number after the first `size=`. Without one,
the text has no `dir` in it, and after the first `size=`, if any, its own length. -/
def Clear (data : Bytes) : Prop :=
  Sized data ∧ (containsText (fromUtf8Lossy data) "dir" = true ↔ SaysDirectory data) ∧
    foundSize data = some ((lastSize data).getD 0) ∨
  ¬ Sized data ∧ containsText (fromUtf8Lossy data) "dir" = false ∧
    (foundSize data = none ∨ foundSize data = some data.length)

theorem mem_attrWords {key val : String} {data : Bytes} :
    val ∈ attrWords key data ↔ key ++ val ∈ splitWhitespace (fromUtf8Lossy data) := by
  rw [attrWords, List.mem_filterMap]
  constructor
  · intro h
    obtain ⟨word, hword, hval⟩ := h
    rwa [← stripStart_eq_some.mp hval]
  · intro h
    exact ⟨key ++ val, h, stripStart_eq_some.mpr rfl⟩

theorem attrWords_solid {key val : String} {data : Bytes} (h : val ∈ attrWords key data) :
    Solid val.toList := by
  have hword := (mem_splitWhitespace (mem_attrWords.mp h)).2
  rw [String.toList_append] at hword
  exact fun c hc => hword c (List.mem_append_right _ hc)

/-- A key in one of the words is found in the text. -/
theorem attrWords_found {key val : String} {data : Bytes} (h : val ∈ attrWords key data) :
    key.toList <:+: (fromUtf8Lossy data).toList := by
  have hword := infix_of_mem_words (mem_attrWords.mp h)
  rw [String.toList_append] at hword
  exact (List.prefix_append _ _).isInfix.trans hword

/-- No word starts with both keys. -/
theorem not_mode_and_size {word val : String} (h : stripStart "mode=" word = some val) :
    stripStart "size=" word = none := by
  cases hsize : stripStart "size=" word with
  | none => rfl
  | some size =>
      have hboth := (stripStart_eq_some.mp h).symm.trans (stripStart_eq_some.mp hsize)
      have hchars := congrArg String.toList hboth
      rw [String.toList_append, String.toList_append] at hchars
      cases hchars

/-- The last word for each key counts. -/
theorem parts_foldl (words : List String) (attr : Bool × ℕ) :
    words.foldl parsePart attr =
      (((words.filterMap (stripStart "mode=")).map fun val =>
          trim val == "dir" || trim val == "directory").getLastD attr.1,
        ((words.filterMap (stripStart "size=")).map fun val =>
          (number val).getD 0).getLastD attr.2) := by
  induction words generalizing attr with
  | nil => rfl
  | cons word words ih =>
      rw [List.foldl_cons, ih, parsePart]
      cases hmode : stripStart "mode=" word with
      | some val =>
          rw [List.filterMap_cons_some hmode, List.filterMap_cons_none (not_mode_and_size hmode),
            List.map_cons, List.getLastD_cons]
      | none =>
          rw [List.filterMap_cons_none hmode]
          cases hsize : stripStart "size=" word with
          | some val => rw [List.filterMap_cons_some hsize, List.map_cons, List.getLastD_cons]; rfl
          | none => rw [List.filterMap_cons_none hsize]

theorem parseAttr_snd (data : Bytes) : (parseAttr data).2 = (lastSize data).getD 0 := by
  rw [parseAttr, parts_foldl]
  dsimp only
  rw [List.getLastD_eq_getLast?, List.getLast?_map, lastSize, attrWords]
  cases (List.filterMap (stripStart "size=") _).getLast? <;> rfl

theorem parseAttr_fst (data : Bytes) : (parseAttr data).1 = true ↔ SaysDirectory data := by
  have hlast : (parseAttr data).1 = ((lastMode data).map fun val =>
      trim val == "dir" || trim val == "directory").getD false := by
    rw [parseAttr, parts_foldl, lastMode, attrWords, List.getLastD_eq_getLast?, List.getLast?_map]
  rw [hlast, SaysDirectory]
  cases hmode : lastMode data with
  | none => simp
  | some val =>
      have htrim : trim val = val := trim_solid (attrWords_solid (List.mem_of_getLast? hmode))
      simp [htrim]

theorem parseAttrSize_eq (data : Bytes) : parseAttrSize data = firstSize data := by
  rw [parseAttrSize, firstSize, attrWords, List.head?_filterMap]
  rfl

/-! ## What the two agree on -/

theorem fuseAttr_sized {data : Bytes} (h : Sized data) : fuseAttr data = parseAttr data := by
  rw [fuseAttr, if_neg]
  intro hfall
  rw [parseAttr_snd, parseAttrSize_eq] at hfall
  rcases h with h | h
  · exact h hfall.2.2
  · exact h hfall.1

theorem fuseAttr_unsized {data : Bytes} (h : ¬ Sized data) : fuseAttr data = (false, data.length) := by
  simp only [Sized, not_or, not_not] at h
  by_cases hdata : data = []
  · subst hdata
    rfl
  · rw [fuseAttr, parseAttr_snd, parseAttrSize_eq, if_pos ⟨h.2, hdata, h.1⟩]

/-- A text with `directory` in it has `dir` in it, so only the latter matters. -/
theorem sftpAttr_eq (data : Bytes) : sftpAttr data =
    (containsText (fromUtf8Lossy data) "dir", (foundSize data).getD data.length) := by
  have hdir (needle : String) (h : "dir".toList <:+: needle.toList) :
      containsText (fromUtf8Lossy data) needle = true →
        containsText (fromUtf8Lossy data) "dir" = true := by
    rw [containsText_iff, containsText_iff]
    exact h.trans
  have hone := hdir "directory" (by decide)
  have htwo := hdir "mode=directory" (by decide)
  rw [sftpAttr, SftpSessions.attrSize, foundSize]
  congr 1
  · grind
  · cases afterFirst "size=".toList (fromUtf8Lossy data).toList <;> rfl

theorem foundSize_of_sized {data : Bytes} (h : Sized data) : ∃ n, foundSize data = some n := by
  have hword : ∃ val, val ∈ attrWords "size=" data := by
    apply List.exists_mem_of_ne_nil
    intro hnil
    rcases h with h | h
    · exact h (by rw [firstSize, hnil]; rfl)
    · exact h (by rw [lastSize, hnil]; rfl)
  obtain ⟨val, hval⟩ := hword
  have hsome := (afterFirst_isSome _).mpr (attrWords_found hval)
  obtain ⟨rest, hrest⟩ := Option.isSome_iff_exists.mp hsome
  exact ⟨_, by rw [foundSize, hrest]; rfl⟩

/-- A word that says directory is found by SFTP. -/
theorem contains_dir_of_word {data : Bytes}
    (h : "mode=dir" ∈ splitWhitespace (fromUtf8Lossy data) ∨
      "mode=directory" ∈ splitWhitespace (fromUtf8Lossy data)) :
    containsText (fromUtf8Lossy data) "dir" = true := by
  rw [containsText_iff]
  rcases h with h | h
  · exact List.IsInfix.trans (by decide) (infix_of_mem_words h)
  · exact List.IsInfix.trans (by decide) (infix_of_mem_words h)

theorem attr_eq_iff_clear (data : Bytes) : fuseAttr data = sftpAttr data ↔ Clear data := by
  rw [sftpAttr_eq, Clear]
  by_cases hsized : Sized data
  · obtain ⟨n, hn⟩ := foundSize_of_sized hsized
    rw [fuseAttr_sized hsized, Prod.ext_iff, parseAttr_snd, Bool.eq_iff_iff, parseAttr_fst, hn]
    simp only [hsized, true_and, not_true_eq_false, false_and, or_false, Option.getD_some,
      Option.some.injEq]
    exact and_congr iff_comm eq_comm
  · rw [fuseAttr_unsized hsized, Prod.ext_iff]
    simp only [hsized, false_and, not_false_eq_true, true_and, false_or]
    apply and_congr eq_comm
    cases foundSize data with
    | none => simp
    | some n => simp [eq_comm]

theorem alike_iff_clear (data : Bytes) : Alike data ↔ Clear data := by
  rw [← attr_eq_iff_clear]
  constructor
  · exact Alike.attr
  · intro h
    refine ⟨h, fun hword => ?_⟩
    have hsftp : (sftpAttr data).1 = true := by
      rw [sftpAttr_eq]
      exact contains_dir_of_word hword
    exact ⟨by rw [h, hsftp], hsftp⟩

/-- The attributes compared are those that the two frontends present, and they agree
exactly if the text is clear. -/
theorem attributes_alike_iff (data : Bytes) :
    FusePresents data (fuseAttr data) ∧ SftpPresents data (sftpAttr data) ∧
    (Alike data ↔ Clear data) :=
  ⟨fuse_presents data, sftp_presents data, alike_iff_clear data⟩

/-- A text that says directory and gives no size: FUSE takes it for the content of a file. -/
theorem directory_without_size : ¬ ∀ data : Bytes, Alike data := by
  intro h
  have hkind := ((h (asBytes "mode=dir")).directory (by decide)).1
  revert hkind
  decide

end Pinhead.AttributeReports
