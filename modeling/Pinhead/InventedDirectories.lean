import Pinhead.FuseFilesystem
import Pinhead.RouteResolution

/-!
# Directories that FUSE invents

The kernel walks to a path through every directory above it, and for most of these no
route is registered. The router refuses a request for such a path, and FUSE takes the
refusal for a directory. It does so for every path without a route, whether a route
leads further or not.
-/
namespace Pinhead.InventedDirectories
open ByteStrings FsRequests Resumption Histories NinepShared FuseFilesystem
open RouteResolution (PatternMap RouteMeta Trie)

/-! ## Patterns -/

/-- One segment of a pattern: a text, a parameter with the texts around it, or a
parameter for everything that follows. -/
inductive Segment where
  | text (s : List Char)
  | param (before after : List Char)
  | rest (before : List Char)

/-- The text before the first opening brace, and what follows the brace if there is one.
Doubled braces are text. -/
def toBrace : List Char → List Char × Option (List Char)
  | [] => ([], none)
  | '{' :: '{' :: cs => ('{' :: (toBrace cs).1, (toBrace cs).2)
  | '}' :: '}' :: cs => ('}' :: (toBrace cs).1, (toBrace cs).2)
  | '{' :: cs => ([], some cs)
  | c :: cs => (c :: (toBrace cs).1, (toBrace cs).2)

def parseSegment (cs : List Char) : Segment :=
  match toBrace cs with
  | (before, none) => .text before
  | (before, some ('*' :: _)) => .rest before
  | (before, some name) => .param before (toBrace ((name.dropWhile (· ≠ '}')).drop 1)).1

def segments (path : String) : List (List Char) := path.toList.splitOn '/'

/-- A parameter stands for a text that is not empty: within one segment, or for the whole
remainder of the path. -/
def fits : List Segment → List (List Char) → Bool
  | [], [] => true
  | .text s :: ps, x :: xs => s == x && fits ps xs
  | .param before after :: ps, x :: xs =>
      before.isPrefixOf x && after.isSuffixOf x && decide (before.length + after.length < x.length) &&
        fits ps xs
  | .rest before :: _, xs =>
      let remainder := List.intercalate ['/'] xs
      before.isPrefixOf remainder && decide (before.length < remainder.length)
  | _, _ => false

def Matches (pattern path : String) : Prop :=
  fits ((segments pattern).map parseSegment) (segments path) = true

/-- The path is matched by fewer segments than the pattern has. The root always is. -/
def MatchedByStart (pattern path : String) : Prop :=
  path = "/" ∨ ∃ k < (segments pattern).length,
    fits (((segments pattern).take k).map parseSegment) (segments path) = true

instance (pattern path : String) : Decidable (Matches pattern path) :=
  inferInstanceAs (Decidable (_ = true))

example : Matches "/users/\x7bid\x7d/profile" "/users/7/profile" ∧
    ¬ Matches "/users/\x7bid\x7d/profile" "/users/7" := by decide

/-- What the trie returns was inserted for a pattern that the path matches. -/
def Lawful (trie : Trie) : Prop :=
  ∀ {table : PatternMap} {path : String} {routeMeta : RouteMeta} {params : RouteResolution.Params},
    trie.matchAt table path = .ok (routeMeta, params) →
      ∃ pattern, table.lookup pattern = some routeMeta ∧ Matches pattern path

/-! ## What FUSE answers -/

/-- A route leads through the path. -/
def Intermediate (table : PatternMap) (path : String) : Prop :=
  ∃ pattern ∈ table, MatchedByStart pattern path

/-- Requests that the router refuses are answered with its error. -/
def RoutedBy (trie : Trie) (table : PatternMap) (f : (o : FuseFilesystem.Op) → o.Ret) : Prop :=
  ∀ req e, RouteResolution.dispatch trie table req = .error e →
    f (.route req) = Answer.reply (.error e)

def IsDirectory : Reply → Prop
  | .entry attr | .attr attr => attr.isDir = true
  | _ => False

/-- A directory where a route leads through the path, and an error where none does. -/
def Expected (table : PatternMap) (path : String) (reply : Reply) : Prop :=
  (Intermediate table path → IsDirectory reply) ∧
    (¬ Intermediate table path → reply = .error .enoent)

/-- FUSE answers every lookup and every getattr of the path as expected. -/
structure AnswersRight (trie : Trie) (table : PatternMap) (path : String) : Prop where
  lookup : ∀ (s : FuseState) (mounted parent : ℕ) (name : Bytes)
    (f : (o : FuseFilesystem.Op) → o.Ret), RoutedBy trie table f →
    ¬ (fromUtf8Lossy name = "." ∨ fromUtf8Lossy name = "..") →
    joinPath (parentPath s parent) (fromUtf8Lossy name) = path →
    Expected table path (answered f (FuseFilesystem.dispatch mounted s (.lookup parent name))).2.1
  getattr : ∀ (s : FuseState) (mounted ino : ℕ) (f : (o : FuseFilesystem.Op) → o.Ret),
    RoutedBy trie table f → ino ≠ 1 → s.pathFor ino = some path →
    Expected table path (answered f (FuseFilesystem.dispatch mounted s (.getattr ino))).2.1

section
variable {trie : Trie} {table : PatternMap} {path : String}

/-- No request for a path without a route gets past the router. -/
theorem dispatch_unmatched (htrie : Lawful trie) (hno : ∀ pattern ∈ table, ¬ Matches pattern path)
    (op : FsOperation) (data : Bytes) : ∃ e, noRoute e = true ∧
      RouteResolution.dispatch trie table ⟨op, path, data⟩ = .error e := by
  cases hmatch : trie.matchAt table path with
  | ok found =>
      obtain ⟨pattern, hpattern, hfits⟩ := htrie hmatch
      exact absurd hfits (hno pattern (AList.lookup_isSome.mp (Option.isSome_of_eq_some hpattern)))
  | error e =>
      refine ⟨"no route matches `" ++ path ++ "`: " ++ e, ?_, ?_⟩
      · have hstart : "no route matches `" ++ path ++ "`: " ++ e =
            "no route matches" ++ (" `" ++ path ++ "`: " ++ e) := by
          rw [← String.append_assoc, ← String.append_assoc, ← String.append_assoc]
          rfl
        rw [noRoute, hstart, stripStart_eq_some.mpr rfl]
        rfl
      · rw [RouteResolution.dispatch]
        dsimp only
        rw [hmatch]

theorem answered_unmatched {f : (o : FuseFilesystem.Op) → o.Ret} (htrie : Lawful trie)
    (hno : ∀ pattern ∈ table, ¬ Matches pattern path) (hf : RoutedBy trie table f)
    (op : FsOperation) (data : Bytes) :
    ∃ e, noRoute e = true ∧ (answered f (sendReq op path data)).2 = .error e := by
  obtain ⟨e, hnoRoute, hdispatch⟩ := dispatch_unmatched htrie hno op data
  exact ⟨e, hnoRoute, congrArg outcome (hf _ e hdispatch)⟩

theorem lookup_unmatched (htrie : Lawful trie) (hno : ∀ pattern ∈ table, ¬ Matches pattern path)
    (s : FuseState) (mounted parent : ℕ) (name : Bytes) (f : (o : FuseFilesystem.Op) → o.Ret)
    (hf : RoutedBy trie table f) (hname : ¬ (fromUtf8Lossy name = "." ∨ fromUtf8Lossy name = ".."))
    (hpath : joinPath (parentPath s parent) (fromUtf8Lossy name) = path) :
    (answered f (FuseFilesystem.dispatch mounted s (.lookup parent name))).2.1 =
      .entry (fileAttr (f .now) s.inoNext 4096 true) := by
  obtain ⟨e, hnoRoute, hanswer⟩ := answered_unmatched htrie hno hf .lookup []
  rw [FuseFilesystem.dispatch, FuseFilesystem.lookup]
  dsimp only
  rw [if_neg hname, hpath, answered_bind, hanswer]
  dsimp only
  rw [if_pos hnoRoute]
  rfl

theorem getattr_unmatched (htrie : Lawful trie) (hno : ∀ pattern ∈ table, ¬ Matches pattern path)
    (s : FuseState) (mounted ino : ℕ) (f : (o : FuseFilesystem.Op) → o.Ret)
    (hf : RoutedBy trie table f) (hroot : ino ≠ 1) (hpath : s.pathFor ino = some path) :
    (answered f (FuseFilesystem.dispatch mounted s (.getattr ino))).2.1 =
      .attr (fileAttr (f .now) ino 4096 true) := by
  obtain ⟨e, hnoRoute, hanswer⟩ := answered_unmatched htrie hno hf .getAttr []
  obtain ⟨e', hnoRoute', hanswer'⟩ := answered_unmatched htrie hno hf .lookup []
  rw [FuseFilesystem.dispatch, FuseFilesystem.getattr, if_neg hroot, withPath_some hpath,
    answered_bind, hanswer]
  dsimp only
  rw [answered_bind, hanswer']
  dsimp only
  rw [hnoRoute, hnoRoute']
  rfl

end

/-- The answers of a router, where a handler would be called the channel is closed. -/
def refusals (trie : Trie) (table : PatternMap) : (o : FuseFilesystem.Op) → o.Ret
  | .route req =>
      match RouteResolution.dispatch trie table req with
      | .error e => (.reply (.error e) : Answer)
      | .ok _ => (.handlerGone : Answer)
  | .now => (0 : ℕ)
  | .choose => (0 : ℕ)

theorem routedBy_refusals (trie : Trie) (table : PatternMap) :
    RoutedBy trie table (refusals trie table) := by
  intro req e h
  rw [refusals, h]

/-- A path without a route is answered right exactly if a route leads through it. -/
theorem answers_right_iff (trie : Trie) (htrie : Lawful trie) (table : PatternMap) (path : String)
    (hno : ∀ pattern ∈ table, ¬ Matches pattern path) :
    AnswersRight trie table path ↔ Intermediate table path := by
  constructor
  · intro h
    by_contra hnot
    have hpath : (FuseState.new.recordPath 2 path).pathFor 2 = some path := AList.lookup_insert _
    have hf := routedBy_refusals trie table
    have hreply := (h.getattr _ 0 2 _ hf (by decide) hpath).2 hnot
    rw [getattr_unmatched htrie hno _ 0 2 _ hf (by decide) hpath] at hreply
    cases hreply
  · intro h
    constructor
    · intro s mounted parent name f hf hname hpath
      rw [lookup_unmatched htrie hno s mounted parent name f hf hname hpath]
      exact ⟨fun _ => rfl, fun hnot => absurd h hnot⟩
    · intro s mounted ino f hf hroot hpath
      rw [getattr_unmatched htrie hno s mounted ino f hf hroot hpath]
      exact ⟨fun _ => rfl, fun hnot => absurd h hnot⟩

/-! ## A table with one route -/

/-- The first pattern that the path matches. -/
def firstMatch (table : PatternMap) (path : String) :
    Except String (RouteMeta × RouteResolution.Params) :=
  match table.entries.find? fun e => decide (Matches e.1 path) with
  | some e => .ok (e.2, [])
  | none => .error "Matching route not found"

theorem firstMatch_spec {table : PatternMap} {path : String} {routeMeta : RouteMeta}
    {params : RouteResolution.Params} (h : firstMatch table path = .ok (routeMeta, params)) :
    ∃ pattern, table.lookup pattern = some routeMeta ∧ Matches pattern path := by
  unfold firstMatch at h
  split at h
  · next e hfirst =>
      cases h
      have hfits := List.find?_some hfirst
      exact ⟨e.1, AList.mem_lookup_iff.mpr (List.mem_of_find?_eq_some hfirst),
        of_decide_eq_true hfits⟩
  · cases h

/-- A trie that tries one pattern after another. -/
def patternList : Trie where
  matchAt := firstMatch
  inserted h := (firstMatch_spec h).imp fun _ hpattern => hpattern.1

theorem patternList_lawful : Lawful patternList := fun h => firstMatch_spec h

/-- The profiles of users. -/
def profiles : PatternMap := AList.singleton "/users/{id}/profile" ⟨∅, "/users/{id}/profile"⟩

theorem profiles_unmatched (path : String) (h : ¬ Matches "/users/{id}/profile" path) :
    ∀ pattern ∈ profiles, ¬ Matches pattern path := by
  intro pattern hpattern
  rw [List.mem_singleton.mp hpattern]
  exact h

/-- The directory above a profile. -/
theorem answers_right_iff_user :
    (∀ pattern ∈ profiles, ¬ Matches pattern "/users/7") ∧
    (AnswersRight patternList profiles "/users/7" ↔ Intermediate profiles "/users/7") :=
  have h := profiles_unmatched "/users/7" (by decide)
  ⟨h, answers_right_iff patternList patternList_lawful profiles "/users/7" h⟩

/-- A path that no route leads through. -/
theorem nothing_is_a_directory :
    ¬ ∀ (trie : Trie) (table : PatternMap) (path : String), Lawful trie →
      (∀ pattern ∈ table, ¬ Matches pattern path) → AnswersRight trie table path := by
  intro h
  have hno := profiles_unmatched "/nothing" (by decide)
  have hnot : ¬ Intermediate profiles "/nothing" := by
    intro hthrough
    obtain ⟨pattern, hpattern, hstart⟩ := hthrough
    rw [List.mem_singleton.mp hpattern] at hstart
    revert hstart
    unfold MatchedByStart
    decide
  have hpath : (FuseState.new.recordPath 2 "/nothing").pathFor 2 = some "/nothing" :=
    AList.lookup_insert _
  have hf := routedBy_refusals patternList profiles
  have hreply := ((h patternList profiles "/nothing" patternList_lawful hno).getattr _ 0 2 _ hf
    (by decide) hpath).2 hnot
  rw [getattr_unmatched patternList_lawful hno _ 0 2 _ hf (by decide) hpath] at hreply
  cases hreply

end Pinhead.InventedDirectories
