import Pinhead.FuseFilesystem
import Pinhead.NinepScripts
import Pinhead.SftpSessions
import Pinhead.TextWords

/-!
# One directory in three frontends

A ReadDir handler returns a text. FUSE takes one entry from each line, up to a colon
and without slashes at the end. SFTP takes every word of the text. A 9P read asks the
handler and lists the paths that the server has met below the directory, whatever the
text says.

For the texts on which they agree every line that is not blank is one word, other than
the two dots, without a colon and without a slash at its end, and the paths met are
those words.
-/
namespace Pinhead.DirectoryListings
open ByteStrings FsRequests Resumption Histories NinepShared NinepHandlers NinepRuns
open NinepDatagrams NinepScripts FuseFilesystem TextWords

/-! ## What each frontend presents -/

def fuseListing (data : Bytes) : List String :=
  "." :: ".." :: ((lines (fromUtf8Lossy data)).filterMap listedName).map (trimEndMatches '/')

def sftpListing (data : Bytes) : List String := "." :: ".." :: splitWhitespace (fromUtf8Lossy data)

/-- The names that a 9P read finds in the tables. -/
def ninepListing (t : NinepState) (dir : String) : List String :=
  "." :: (t.listDir dir).map DirEntry.name

/-- The directory that an inode stands for. -/
def directoryAt (s : FuseState) (ino : ℕ) : Option String :=
  if ino = 1 then some "/" else s.pathFor ino

/-- Whatever window of a directory the kernel asks for, it is one of these names, if the
handler returns `data`. -/
def FusePresents (data : Bytes) (names : List String) : Prop :=
  ∀ (s : FuseState) (ino : ℕ) (path : String) (resp : Response)
    (f : (o : FuseFilesystem.Op) → o.Ret) (mounted offset room : ℕ), resp.data = data →
    directoryAt s ino = some path → f (.route ⟨.readDir, path, []⟩) = Answer.reply (.ok resp) →
    ∃ es s', (answered f (FuseFilesystem.dispatch mounted s (.readdir ino offset room))).2 =
        (.directory es, s') ∧ es.map Dirent.name = (names.drop offset).take room

def SftpPresents (data : Bytes) (names : List String) : Prop :=
  ∀ (s : SftpSessions.HandleState) (handle : String) (entry : SftpSessions.HandleEntry)
    (resp : Response) (f : Request → Option Answer) (id : ℕ), resp.data = data →
    s.get handle = some entry → entry.isDir = true →
    f ⟨.readDir, SftpSessions.normalized entry.path, []⟩ = some (.reply (.ok resp)) →
    (answered (S := SftpSessions.sftp) f (SftpSessions.dispatch s (.readDir id handle))).2 =
      (some (.name id names), s)

/-- Stat records with these names. -/
def Records (names : List String) (records : List Bytes) : Prop :=
  List.Forall₂ (fun name r => ∃ now qid isDir, r = statBytes now name qid 0 isDir) names records

/-- A read at offset 0 replies with the records of these names, whatever data the handler
returns. -/
def NinepPresents (t : NinepState) (dir : String) (names : List String) : Prop :=
  ∀ (env : Env) (w : World) (tag : UInt16) (body : Bytes) (e : FidEntry) (resp : Response),
    w.shared.state = t → 16 ≤ body.length → uintAt 8 body 4 = 0 →
    t.fids.lookup (fidAt body 0) = some e → e.isDir = true → e.path = dir →
    env.router ⟨.readDir, dir, []⟩ = .reply (.ok resp) →
    ∃ w' records, evaluate env (serveMessage ⟨TREAD, tag, body⟩) w = some ((), w') ∧
      w'.out = w.out ++ [message RREAD tag
        (leBytes 4 records.flatten.length ++ records.flatten)] ∧ Records names records

theorem recordEntries_names (path : String) (names : List String) (s : FuseState) :
    (recordEntries path names s).1.map Dirent.name = names.map (trimEndMatches '/') := by
  induction names generalizing s with
  | nil => rfl
  | cons name names ih =>
      rw [recordEntries, List.map_cons, List.map_cons, ih]

theorem fuse_presents (data : Bytes) : FusePresents data (fuseListing data) := by
  rintro s ino path resp f mounted offset room rfl hpath hf
  let names := (lines (fromUtf8Lossy resp.data)).filterMap listedName
  have hlist {A : Type} (k : Except String Bytes → Prog fuse A) :
      (answered f (sendReq .readDir path [] >>= k)).2 = (answered f (k (.ok resp.data))).2 := by
    have hanswer : (answered f (sendReq .readDir path [])).2 = .ok resp.data :=
      congrArg outcome hf
    rw [answered_bind, hanswer]
  have hnames (parent : ℕ) : ((((⟨1, true, "."⟩ : Dirent) :: ⟨parent, true, ".."⟩ ::
      (recordEntries path names s).1).drop offset).take room).map Dirent.name =
      ((fuseListing resp.data).drop offset).take room := by
    rw [List.map_take, List.map_drop, List.map_cons, List.map_cons, recordEntries_names]
    rfl
  refine ⟨_, (recordEntries path names s).2, ?_, hnames (answered f (parentInode s ino path)).2⟩
  change (answered f (readdir s ino offset room)).2 = _
  unfold readdir
  unfold directoryAt at hpath
  split at hpath
  · next hroot =>
      obtain rfl := Option.some.inj hpath
      rw [if_pos hroot, answered_bind]
      exact hlist _
  · next hroot =>
      rw [if_neg hroot, withPath_some hpath, answered_bind]
      exact hlist _

theorem sftp_presents (data : Bytes) : SftpPresents data (sftpListing data) := by
  rintro s handle entry resp f id rfl hhandle hdir hf
  have hanswer : (answered (S := SftpSessions.sftp) f
      (SftpSessions.route .readDir entry.path [])).2 = .ok resp.data :=
    congrArg SftpSessions.outcome hf
  rw [SftpSessions.dispatch, SftpSessions.replyTo, answered_bind, SftpSessions.readdir,
    SftpSessions.withHandle, hhandle]
  dsimp only
  rw [if_pos hdir, answered_bind, hanswer]
  rfl

theorem records_entries (clock : ℕ → ℕ) (k : ℕ) (es : List DirEntry) :
    ∃ records, entryRecords clock k es = records.flatten ∧ Records (es.map DirEntry.name) records := by
  induction es generalizing k with
  | nil => exact ⟨[], rfl, .nil⟩
  | cons e es ih =>
      obtain ⟨records, hflat, hrecords⟩ := ih (k + 1)
      exact ⟨entryBytes (clock k) e :: records, by rw [entryRecords, hflat]; rfl,
        .cons ⟨_, _, _, rfl⟩ hrecords⟩

theorem ninep_presents (t : NinepState) (dir : String) :
    NinepPresents t dir (ninepListing t dir) := by
  rintro env w tag body e resp rfl hbody hoffset he hdir rfl hresp
  obtain ⟨w', hserve, _, hout⟩ := served_directory tag hbody he hdir hresp
  obtain ⟨records, hflat, hrecords⟩ :=
    records_entries env.clock w.tick (w.shared.state.listDir e.path)
  let dot := dotBytes (env.clock (w.tick + (w.shared.state.listDir e.path).length))
  refine ⟨w', dot :: records, hserve, ?_, .cons ⟨_, _, _, rfl⟩ hrecords⟩
  have hdata : directoryData env.clock w.tick 0 (w.shared.state.listDir e.path) =
      (dot :: records).flatten := by
    rw [directoryData, hflat]
    rfl
  rw [hoffset, hdata] at hout
  exact hout

/-! ## Names line by line -/

def proper (name : String) : Bool := name != "." && name != ".."

/-- The names other than the two dots. -/
def ordinary (names : List String) : List String := names.filter proper

/-- The lines that are not blank, without the whitespace around them. -/
def nonBlankLines (data : Bytes) : List String :=
  ((lines (fromUtf8Lossy data)).map trim).filter (· ≠ "")

/-- The three listings have the same names, one for each line that is not blank. -/
def Alike (data : Bytes) (t : NinepState) (dir : String) : Prop :=
  ordinary (sftpListing data) = ordinary (fuseListing data) ∧
    ordinary (ninepListing t dir) = ordinary (fuseListing data) ∧
    (ordinary (fuseListing data)).length = (nonBlankLines data).length

/-- The name that FUSE takes from a trimmed line. -/
def lineName (line : String) : Option String :=
  if line = "" ∨ line = "." ∨ line = ".." then none
  else
    let name := if line.toList.contains ':' then
      trim (String.ofList (line.toList.takeWhile (· ≠ ':'))) else line
    if name = "" then none else some name

/-- The entry that FUSE presents for a trimmed line, if it is not one of the dots. -/
def presented (line : String) : Option String :=
  ((lineName line).map (trimEndMatches '/')).filter proper

theorem ordinary_fuseListing (data : Bytes) :
    ordinary (fuseListing data) = (nonBlankLines data).filterMap presented := by
  have hdots : ordinary (fuseListing data) =
      (((lines (fromUtf8Lossy data)).filterMap listedName).map (trimEndMatches '/')).filter proper :=
    rfl
  have hblank : (fun l => if decide (l ≠ "") = true then presented l else none) = presented := by
    funext l
    by_cases hl : l = ""
    · subst hl
      rfl
    · simp [hl]
  rw [hdots, nonBlankLines, List.filterMap_filter, hblank, List.filterMap_map, List.map_filterMap,
    List.filter_filterMap]
  rfl

theorem ordinary_sftpListing (data : Bytes) :
    ordinary (sftpListing data) = ordinary ((nonBlankLines data).flatMap splitWhitespace) := by
  have hdots : ordinary (sftpListing data) = ordinary (splitWhitespace (fromUtf8Lossy data)) := rfl
  have htrim : ∀ ls : List String, ls.flatMap splitWhitespace =
      ((ls.map trim).filter (· ≠ "")).flatMap splitWhitespace := by
    intro ls
    induction ls with
    | nil => rfl
    | cons l ls ih =>
        rw [List.flatMap_cons, ih, List.map_cons, List.filter_cons]
        split
        · rw [List.flatMap_cons, splitWhitespace_trim]
        · next hempty =>
            have hl : trim l = "" := by simpa using hempty
            have hwords : splitWhitespace l = [] := by
              rw [← splitWhitespace_trim, hl]
              rfl
            rw [hwords, List.nil_append]
  rw [hdots, splitWhitespace_lines, htrim, nonBlankLines]

/-! ## Lines on which all agree -/

/-- One word, other than the dots, without a colon and without a slash at its end. -/
structure Plain (line : String) : Prop where
  word : Solid line.toList
  colon : ':' ∉ line.toList
  slash : endsWithSlash line = false
  dots : proper line = true

theorem presented_plain {line : String} (h : Plain line) (hne : line ≠ "") :
    presented line = some line := by
  have hdots := h.dots
  simp only [proper, Bool.and_eq_true, bne_iff_ne] at hdots
  have hname : lineName line = some line := by
    have hcolon : line.toList.contains ':' = false := by simpa using h.colon
    rw [lineName, if_neg (by simp [hne, hdots.1, hdots.2]), hcolon]
    exact if_neg hne
  have htrim : trimEndMatches '/' line = line := by
    rw [trimEndMatches_eq_iff]
    simpa [endsWithSlash] using h.slash
  rw [presented, hname, Option.map_some, htrim, Option.filter_some, if_pos h.dots]

/-- The key of a line ends before its first colon. -/
theorem lineName_some {line key : String} (h : lineName line = some key) :
    proper line = true ∧ ':' ∉ key.toList ∧ (':' ∉ line.toList → key = line) := by
  by_cases hdots : line = "" ∨ line = "." ∨ line = ".."
  · rw [lineName, if_pos hdots] at h
    cases h
  · have hproper : proper line = true := by
      simp only [not_or] at hdots
      simp [proper, hdots.2.1, hdots.2.2]
    by_cases hcolon : line.toList.contains ':' = true
    · let start := String.ofList (line.toList.takeWhile (· ≠ ':'))
      have hkey : (if trim start = "" then none else some (trim start)) = some key := by
        rw [lineName, if_neg hdots, hcolon] at h
        exact h
      obtain ⟨_, hstart⟩ := Option.ite_none_left_eq_some.mp hkey
      refine ⟨hproper, ?_, fun hno => absurd (by simpa using hcolon) hno⟩
      intro hmem
      rw [← Option.some.inj hstart] at hmem
      obtain ⟨before, after, hsplit, _, _⟩ := trim_spec start
      have hin : ':' ∈ start.toList := by
        rw [hsplit]
        exact List.mem_append_right _ (List.mem_append_left _ hmem)
      rw [String.toList_ofList] at hin
      have hnot := List.all_eq_true.mp List.all_takeWhile _ hin
      simp at hnot
    · have hkey : (if line = "" then none else some line) = some key := by
        rw [lineName, if_neg hdots, Bool.eq_false_iff.mpr hcolon] at h
        exact h
      obtain ⟨_, hline⟩ := Option.ite_none_left_eq_some.mp hkey
      obtain rfl := Option.some.inj hline
      exact ⟨hproper, by simpa using hcolon, fun _ => rfl⟩

/-- What FUSE presents is never a dot and never holds a colon. Without a colon in the
line it is the line without its slashes at the end. -/
theorem presented_some {line name : String} (h : presented line = some name) :
    proper line = true ∧ ':' ∉ name.toList ∧
      (':' ∉ line.toList → name = trimEndMatches '/' line) := by
  obtain ⟨hmap, _⟩ := Option.filter_eq_some_iff.mp h
  obtain ⟨key, hkey, rfl⟩ := Option.map_eq_some_iff.mp hmap
  obtain ⟨hproper, hcolon, hsame⟩ := lineName_some hkey
  refine ⟨hproper, ?_, fun hno => by rw [hsame hno]⟩
  intro hmem
  obtain ⟨after, hsplit, _⟩ := trimEndMatches_spec '/' key
  apply hcolon
  rw [hsplit]
  exact List.mem_append_left _ hmem

theorem plain_of_alike {ls : List String} (hne : ∀ l ∈ ls, l ≠ "")
    (hlen : (ls.filterMap presented).length = ls.length)
    (hsame : ordinary (ls.flatMap splitWhitespace) = ls.filterMap presented) :
    ∀ l ∈ ls, Plain l := by
  have hsome : ∀ l ∈ ls, ∃ name, presented l = some name :=
    fun l hl => Option.isSome_iff_exists.mp (List.filterMap_length_eq_length.mp hlen l hl)
  have hword : ∀ l ∈ ls, ∀ name, presented l = some name → Solid name.toList := by
    intro l hl name hname
    have hmem : name ∈ ls.filterMap presented := List.mem_filterMap.mpr ⟨l, hl, hname⟩
    rw [← hsame] at hmem
    obtain ⟨l', _, hin⟩ := List.mem_flatMap.mp (List.mem_filter.mp hmem).1
    exact (mem_splitWhitespace hin).2
  -- a colon would be in a word that SFTP presents and FUSE does not
  have hcolon : ∀ l ∈ ls, ':' ∉ l.toList := by
    intro l hl hmem
    obtain ⟨x, hx, hxc⟩ := mem_word_of_mem (by decide) hmem
    have hproper : proper x = true := by
      have hdot : x ≠ "." := fun h => absurd (h ▸ hxc) (by decide)
      have hdots : x ≠ ".." := fun h => absurd (h ▸ hxc) (by decide)
      simp [proper, hdot, hdots]
    have hin : x ∈ ordinary (ls.flatMap splitWhitespace) :=
      List.mem_filter.mpr ⟨List.mem_flatMap.mpr ⟨l, hl, hx⟩, hproper⟩
    rw [hsame] at hin
    obtain ⟨l', _, hl'⟩ := List.mem_filterMap.mp hin
    exact (presented_some hl').2.1 hxc
  have htrim : ∀ l ∈ ls, presented l = some (trimEndMatches '/' l) := by
    intro l hl
    obtain ⟨name, hname⟩ := hsome l hl
    rw [hname, (presented_some hname).2.2 (hcolon l hl)]
  have hsolid : ∀ l ∈ ls, Solid l.toList := by
    intro l hl c hc
    obtain ⟨after, hsplit, hslash⟩ := trimEndMatches_spec '/' l
    rw [hsplit] at hc
    rcases List.mem_append.mp hc with hc | hc
    · exact hword l hl _ (htrim l hl) c hc
    · rw [hslash c hc]
      decide
  have hdots : ∀ l ∈ ls, proper l = true := fun l hl => (presented_some (htrim l hl)).1
  have hwords : ls.flatMap splitWhitespace = ls := by
    rw [List.flatMap_congr fun l hl => splitWhitespace_word (hsolid l hl) (hne l hl)]
    simp
  -- so both listings are the lines themselves, and trimming took nothing off
  have hlines : ls.map id = ls.map (trimEndMatches '/') := by
    rw [List.map_id, ← List.filterMap_eq_map_iff_forall_eq_some.mpr htrim, ← hsame, hwords, ordinary,
      List.filter_eq_self.mpr hdots]
  intro l hl
  refine ⟨hsolid l hl, hcolon l hl, ?_, hdots l hl⟩
  have hl' := (trimEndMatches_eq_iff '/' l).mp (List.map_inj_left.mp hlines l hl).symm
  simpa [endsWithSlash] using hl'

/-- On plain lines the listings of FUSE and SFTP are the lines. -/
theorem listings_plain {ls : List String} (hne : ∀ l ∈ ls, l ≠ "") (h : ∀ l ∈ ls, Plain l) :
    ls.filterMap presented = ls ∧ ordinary (ls.flatMap splitWhitespace) = ls := by
  have hwords : ls.flatMap splitWhitespace = ls := by
    rw [List.flatMap_congr fun l hl => splitWhitespace_word (h l hl).word (hne l hl)]
    simp
  constructor
  · rw [List.filterMap_eq_map_iff_forall_eq_some.mpr fun l hl => presented_plain (h l hl) (hne l hl)]
    exact List.map_id _
  · rw [hwords]
    exact List.filter_eq_self.mpr fun l hl => (h l hl).dots

theorem alike_iff (data : Bytes) (t : NinepState) (dir : String) : Alike data t dir ↔
    (∀ l ∈ nonBlankLines data, Plain l) ∧
      ordinary (ninepListing t dir) = nonBlankLines data := by
  have hne : ∀ l ∈ nonBlankLines data, l ≠ "" :=
    fun l hl => by simpa using (List.mem_filter.mp hl).2
  unfold Alike
  rw [ordinary_fuseListing, ordinary_sftpListing]
  constructor
  · rintro ⟨hsftp, hninep, hlen⟩
    have hplain := plain_of_alike hne hlen hsftp
    exact ⟨hplain, hninep.trans (listings_plain hne hplain).1⟩
  · rintro ⟨hplain, hninep⟩
    obtain ⟨hfuse, hsftp⟩ := listings_plain hne hplain
    rw [hfuse]
    exact ⟨hsftp, hninep, rfl⟩

/-- The three listings are what the three frontends present, and they are alike exactly
if every line is plain and 9P has met just these lines as paths. -/
theorem listings_alike_iff (data : Bytes) (t : NinepState) (dir : String) :
    FusePresents data (fuseListing data) ∧ SftpPresents data (sftpListing data) ∧
    NinepPresents t dir (ninepListing t dir) ∧
    (Alike data t dir ↔ (∀ l ∈ nonBlankLines data, Plain l) ∧
      ordinary (ninepListing t dir) = nonBlankLines data) :=
  ⟨fuse_presents data, sftp_presents data, ninep_presents t dir, alike_iff data t dir⟩

/-- Directories marked with a slash: FUSE takes the slash off, SFTP leaves it on, and 9P
has not met them. -/
theorem marked_directories_differ :
    ¬ ∀ (data : Bytes) (t : NinepState) (dir : String), Alike data t dir := by
  intro h
  have hsftp := (h (asBytes "result/\narticle/") NinepState.new "/").1
  revert hsftp
  decide

end Pinhead.DirectoryListings
