import Mathlib.Data.List.Lex
import Mathlib.Data.List.MinMax
import Mathlib.Data.Prod.Lex
import Pinhead.InventedDirectories
import Pinhead.NormalPaths

/-!
# Directories that the router detects

A path whose route has other routes below it is a directory, and the router lets no file
operation on it through to a handler. Whether there is one it asks the trie with a single
name: `x`, behind the path and a slash. A route below the path that does not match this
name is not seen, nor one that a catch-all outranks there, and behind the root the probe
has a slash too many.
-/
namespace Pinhead.RouterDirectories
open ByteStrings FsRequests NinepShared NormalPaths RouteResolution InventedDirectories

/-! ## Preference -/

/-- Of the patterns that a path matches the trie finds the one that is better than all the
others. -/
structure Ranks (trie : Trie) (table : PatternMap) (better : String → String → Prop) : Prop where
  asymm : ∀ {q w : String}, better q w → ¬ better w q
  found : ∀ {path : String} {routeMeta : RouteMeta} {params : Params},
    trie.matchAt table path = .ok (routeMeta, params) → Matches routeMeta.pattern path ∧
      ∀ q ∈ table, Matches q path → q ≠ routeMeta.pattern → better routeMeta.pattern q
  missing : ∀ {path e : String}, trie.matchAt table path = .error e →
    ∀ q ∈ table, ¬ Matches q path

/-- A text wins over a parameter for one segment, which wins over one for the remainder. -/
def rank : Segment → Option ℕ
  | .text _ => some 0
  | .param [] [] => some 1
  | .rest [] => some 2
  | _ => none

/-- The first segments of different ranks decide. Nothing is said of parameters with texts
around them. -/
def Preferred : List Segment → List Segment → Prop
  | p :: ps, q :: qs => ∃ a b, rank p = some a ∧ rank q = some b ∧
      (a < b ∨ a = b ∧ Preferred ps qs)
  | _, _ => False

/-- A preference that keeps to the order of the segments. -/
def KeepsOrder (better : String → String → Prop) : Prop :=
  ∀ {q w : String}, Preferred ((segments q).map parseSegment) ((segments w).map parseSegment) →
    better q w

/-! ## Routes below a path -/

def CatchAll (pattern : String) : Prop :=
  ∃ before, Segment.rest before ∈ (segments pattern).map parseSegment

/-- Another route than that of the path, and no catch-all, matches the path with one more
segment. -/
def Child (table : PatternMap) (pattern path : String) : Prop :=
  ∃ q ∈ table, q ≠ pattern ∧ ¬ CatchAll q ∧
    ∃ s : String, s ≠ "" ∧ '/' ∉ s.toList ∧ Matches q (joinPath path s)

/-- A pattern without a star matches the probe, and of such patterns there is a better one
for each pattern with a star that matches it too. -/
def Probed (better : String → String → Prop) (table : PatternMap) (path : String) : Prop :=
  (∃ q ∈ table, '*' ∉ q.toList ∧ Matches q (path ++ "/x")) ∧
    ∀ w ∈ table, '*' ∈ w.toList → Matches w (path ++ "/x") →
      ∃ q ∈ table, '*' ∉ q.toList ∧ Matches q (path ++ "/x") ∧ better q w

def Handled (routeMeta : RouteMeta) (op : FsOperation) : Prop :=
  ((routeMeta.handlers.lookup op.asStr).or (routeMeta.handlers.lookup "*")).isSome

/-- The router reports children exactly where there are some, and exactly there it refuses
the file operations that have a handler. Those without one it refuses anywhere. -/
structure Detects (trie : Trie) (table : PatternMap) (routeMeta : RouteMeta) (path : String) :
    Prop where
  children : hasChildren trie table routeMeta.pattern path = true ↔
    Child table routeMeta.pattern path
  refused : ∀ op, isFileOperation op = true → ∀ data,
    (∃ e, dispatch trie table ⟨op, path, data⟩ = .error e) ↔
      Child table routeMeta.pattern path ∨ ¬ Handled routeMeta op

/-! ## Segments -/

/-- The name in the braces comes from the segment. -/
theorem toBrace_subset {cs name : List Char} (h : (toBrace cs).2 = some name) : name ⊆ cs := by
  induction cs using toBrace.induct with
  | case1 => cases h
  | case2 cs ih =>
      rw [toBrace] at h
      exact List.subset_cons_of_subset _ (List.subset_cons_of_subset _ (ih h))
  | case3 cs ih =>
      rw [toBrace] at h
      exact List.subset_cons_of_subset _ (List.subset_cons_of_subset _ (ih h))
  | case4 cs hdouble =>
      rw [toBrace] at h
      · cases h
        exact List.subset_cons_self _ _
      · exact hdouble
  | case5 c cs hopen hclose hone ih =>
      rw [toBrace] at h
      · exact List.subset_cons_of_subset _ (ih h)
      · exact hopen
      · exact hclose
      · exact hone

theorem star_of_rest {cs before : List Char} (h : parseSegment cs = .rest before) : '*' ∈ cs := by
  unfold parseSegment at h
  split at h
  · cases h
  · next text name hbrace =>
      exact toBrace_subset (congrArg Prod.snd hbrace) List.mem_cons_self
  · cases h

/-- A pattern without a star is no catch-all. -/
theorem not_catchAll {pattern : String} (h : '*' ∉ pattern.toList) : ¬ CatchAll pattern := by
  rintro ⟨before, hrest⟩
  obtain ⟨seg, hseg, hparse⟩ := List.mem_map.mp hrest
  exact h (mem_segment hseg (star_of_rest hparse)).1

theorem length_of_fits {ps : List Segment} {xs : List (List Char)} (h : fits ps xs = true)
    (hrest : ∀ before, Segment.rest before ∉ ps) : ps.length = xs.length := by
  induction ps generalizing xs with
  | nil =>
      cases xs with
      | nil => rfl
      | cons x xs => cases h
  | cons p ps ih =>
      have hps : ∀ before, Segment.rest before ∉ ps := fun before hmem =>
        hrest before (List.mem_cons_of_mem _ hmem)
      cases p with
      | rest before => exact absurd List.mem_cons_self (hrest before)
      | text s =>
          cases xs with
          | nil => cases h
          | cons x xs => exact congrArg Nat.succ (ih (Bool.and_eq_true_iff.mp h).2 hps)
      | param before after =>
          cases xs with
          | nil => cases h
          | cons x xs => exact congrArg Nat.succ (ih (Bool.and_eq_true_iff.mp h).2 hps)

theorem segments_probe (path : String) : segments (path ++ "/x") = segments path ++ [['x']] := by
  have hprobe : path ++ "/x" = path ++ "/" ++ "x" := by
    rw [String.append_assoc]
    rfl
  rw [hprobe]
  exact splitOn_slash path "x"

/-- A route that is no catch-all matches a path or the probe below it, and not both. -/
theorem not_matches_probe {pattern path : String} (hpattern : ¬ CatchAll pattern)
    (h : Matches pattern path) : ¬ Matches pattern (path ++ "/x") := by
  intro hprobe
  have hrest : ∀ before, Segment.rest before ∉ (segments pattern).map parseSegment :=
    fun before hmem => hpattern ⟨before, hmem⟩
  have hlength := length_of_fits h hrest
  have hlonger := length_of_fits hprobe hrest
  rw [segments_probe, List.length_append, List.length_singleton] at hlonger
  omega

/-! ## The probe -/

section
variable {trie : Trie} {better : String → String → Prop} {routes : List RouteRegistration}
  {path : String} {routeMeta : RouteMeta} {params : Params}

theorem pattern_mem (h : trie.matchAt (mergeRoutes routes) path = .ok (routeMeta, params)) :
    routeMeta.pattern ∈ mergeRoutes routes := by
  obtain ⟨p, hp⟩ := trie.inserted h
  rw [pattern_mergeRoutes routes hp]
  exact AList.lookup_isSome.mp (Option.isSome_of_eq_some hp)

theorem hasChildren_iff (hranks : Ranks trie (mergeRoutes routes) better)
    (hmatch : trie.matchAt (mergeRoutes routes) path = .ok (routeMeta, params)) :
    hasChildren trie (mergeRoutes routes) routeMeta.pattern path = true ↔
      Probed better (mergeRoutes routes) path := by
  unfold hasChildren
  cases hprobe : trie.matchAt (mergeRoutes routes) (path ++ "/x") with
  | error e =>
      constructor
      · exact fun h => absurd h Bool.false_ne_true
      · rintro ⟨⟨q, hq, -, hfits⟩, -⟩
        exact absurd hfits (hranks.missing hprobe q hq)
  | ok result =>
      obtain ⟨m, params'⟩ := result
      obtain ⟨hfits, hbest⟩ := hranks.found hprobe
      have hmem := pattern_mem hprobe
      simp only [Bool.and_eq_true, decide_eq_true_eq, Bool.not_eq_true', List.contains_eq_mem,
        decide_eq_false_iff_not]
      constructor
      · rintro ⟨-, hstar⟩
        refine ⟨⟨m.pattern, hmem, hstar, hfits⟩, fun w hw hwstar hwfits => ?_⟩
        have hne : w ≠ m.pattern := fun heq => hstar (heq ▸ hwstar)
        exact ⟨m.pattern, hmem, hstar, hfits, hbest w hw hwfits hne⟩
      · rintro ⟨-, houtranked⟩
        have hstar : '*' ∉ m.pattern.toList := by
          intro hstar
          obtain ⟨q, hq, hqstar, hqfits, hbetter⟩ := houtranked m.pattern hmem hstar hfits
          have hne : q ≠ m.pattern := fun heq => hqstar (heq ▸ hstar)
          exact hranks.asymm hbetter (hbest q hq hqfits hne)
        refine ⟨fun heq => ?_, hstar⟩
        rw [heq] at hfits hstar
        exact not_matches_probe (not_catchAll hstar) (hranks.found hmatch).1 hfits

/-- A handler is called unless the operation has none or is refused for a directory. -/
theorem dispatch_error_iff
    (hmatch : trie.matchAt (mergeRoutes routes) path = .ok (routeMeta, params)) {op : FsOperation}
    (hop : isFileOperation op = true) (data : Bytes) :
    (∃ e, dispatch trie (mergeRoutes routes) ⟨op, path, data⟩ = .error e) ↔
      hasChildren trie (mergeRoutes routes) routeMeta.pattern path = true ∨
        ¬ Handled routeMeta op := by
  unfold dispatch Handled
  rw [hmatch]
  dsimp only
  rw [hop, Bool.and_true]
  cases (routeMeta.handlers.lookup op.asStr).or (routeMeta.handlers.lookup "*") with
  | none => simp
  | some name => cases hasChildren trie (mergeRoutes routes) routeMeta.pattern path <;> simp

/-- Away from the root a child that the probe finds is one. -/
theorem child_of_probed (hmatch : trie.matchAt (mergeRoutes routes) path = .ok (routeMeta, params))
    (hranks : Ranks trie (mergeRoutes routes) better) (hslash : endsWithSlash path = false)
    (h : Probed better (mergeRoutes routes) path) :
    Child (mergeRoutes routes) routeMeta.pattern path := by
  obtain ⟨⟨q, hq, hstar, hfits⟩, -⟩ := h
  have hcatch := not_catchAll hstar
  refine ⟨q, hq, ?_, hcatch, "x", by decide, by decide, ?_⟩
  · rintro rfl
    exact not_matches_probe hcatch (hranks.found hmatch).1 hfits
  · rw [joinPath, hslash, if_neg Bool.false_ne_true, String.append_assoc]
    exact hfits

end

/-! ## A trie that compares patterns -/

def kind : Segment → ℕ
  | .text _ => 0
  | .param _ _ => 1
  | .rest _ => 2

/-- The kinds of the segments, and the pattern itself between patterns of the same kinds. -/
def order (pattern : String) : List ℕ ×ₗ String :=
  toLex (((segments pattern).map parseSegment).map kind, pattern)

def candidates (table : PatternMap) (path : String) : List (Σ _ : String, RouteMeta) :=
  table.entries.filter fun e => decide (Matches e.1 path)

theorem mem_candidates {table : PatternMap} {path q : String} (hq : q ∈ table)
    (hfits : Matches q path) : ∃ m, ⟨q, m⟩ ∈ candidates table path := by
  obtain ⟨m, hm⟩ := Option.isSome_iff_exists.mp (AList.lookup_isSome.mpr hq)
  exact ⟨m, List.mem_filter.mpr ⟨AList.mem_lookup_iff.mp hm, decide_eq_true hfits⟩⟩

/-- The entry whose key comes first. -/
def firstBy {κ : Type} [LinearOrder κ] (key : String → κ)
    (entries : List (Σ _ : String, RouteMeta)) : Option (Σ _ : String, RouteMeta) :=
  entries.argmin fun e => key e.1

theorem firstBy_some {κ : Type} [LinearOrder κ] {key : String → κ}
    {entries : List (Σ _ : String, RouteMeta)} {e : Σ _ : String, RouteMeta}
    (h : firstBy key entries = some e) : e ∈ entries ∧ ∀ e' ∈ entries, key e.1 ≤ key e'.1 :=
  ⟨List.argmin_mem h, fun _ he' => List.le_of_mem_argmin (f := fun e => key e.1) he' h⟩

def bestMatch (table : PatternMap) (path : String) : Except String (RouteMeta × Params) :=
  match firstBy order (candidates table path) with
  | some e => .ok (e.2, [])
  | none => .error "Matching route not found"

theorem bestMatch_ok {table : PatternMap} {path : String} {routeMeta : RouteMeta} {params : Params}
    (h : bestMatch table path = .ok (routeMeta, params)) : ∃ p, table.lookup p = some routeMeta ∧
      Matches p path ∧ ∀ q ∈ table, Matches q path → order p ≤ order q := by
  unfold bestMatch at h
  split at h
  · next e hbest =>
      cases h
      obtain ⟨hmem, hleast⟩ := firstBy_some hbest
      obtain ⟨hmem, hfits⟩ := List.mem_filter.mp hmem
      refine ⟨e.1, AList.mem_lookup_iff.mpr hmem, of_decide_eq_true hfits, fun q hq hqfits => ?_⟩
      obtain ⟨m, hm⟩ := mem_candidates hq hqfits
      exact hleast ⟨q, m⟩ hm
  · cases h

theorem bestMatch_error {table : PatternMap} {path e : String}
    (h : bestMatch table path = .error e) : ∀ q ∈ table, ¬ Matches q path := by
  unfold bestMatch at h
  split at h
  · cases h
  · next hnone =>
      intro q hq hqfits
      obtain ⟨m, hm⟩ := mem_candidates hq hqfits
      rw [List.argmin_eq_none.mp hnone] at hm
      cases hm

def comparing : Trie where
  matchAt := bestMatch
  inserted h := (bestMatch_ok h).imp fun _ hp => hp.1

theorem comparing_ranks (routes : List RouteRegistration) :
    Ranks comparing (mergeRoutes routes) fun q w => order q < order w where
  asymm := lt_asymm
  found h := by
    obtain ⟨p, hp, hfits, hbest⟩ := bestMatch_ok h
    rw [pattern_mergeRoutes routes hp]
    refine ⟨hfits, fun q hq hqfits hne => lt_of_le_of_ne (hbest q hq hqfits) fun heq => hne ?_⟩
    exact (congrArg (fun o => (ofLex o).2) heq).symm
  missing := bestMatch_error

theorem rank_eq {p : Segment} {a : ℕ} (h : rank p = some a) : kind p = a := by
  unfold rank at h
  split at h
  · cases h
    rfl
  · cases h
    rfl
  · cases h
    rfl
  · cases h

theorem kinds_lt {ps qs : List Segment} (h : Preferred ps qs) : ps.map kind < qs.map kind := by
  induction ps generalizing qs with
  | nil => cases h
  | cons p ps ih =>
      cases qs with
      | nil => cases h
      | cons q qs =>
          obtain ⟨a, b, hp, hq, h⟩ := h
          rw [List.map_cons, List.map_cons, rank_eq hp, rank_eq hq, List.cons_lt_cons_iff]
          exact h.imp id fun h => ⟨h.1, ih h.2⟩

theorem comparing_keepsOrder : KeepsOrder fun q w => order q < order w :=
  fun h => Prod.Lex.toLex_lt_toLex.mpr (.inl (kinds_lt h))

/-! ## Two routes -/

/-- A route and one below it, for reading. -/
def readRoutes (pattern below : String) : List RouteRegistration :=
  [⟨pattern, "__route_1", ["read"]⟩, ⟨below, "__route_2", ["read"]⟩]

theorem mem_readRoutes {pattern below q : String} :
    q ∈ mergeRoutes (readRoutes pattern below) ↔ q = pattern ∨ q = below := by
  rw [mem_mergeRoutes]
  simp [readRoutes, eq_comm]

/-- Where only the first of two routes matches, the trie finds it. -/
theorem comparing_first {pattern below path : String} (hpattern : Matches pattern path)
    (hbelow : ¬ Matches below path) : ∃ routeMeta params,
      comparing.matchAt (mergeRoutes (readRoutes pattern below)) path = .ok (routeMeta, params) ∧
        routeMeta.pattern = pattern := by
  have hranks := comparing_ranks (readRoutes pattern below)
  cases hmatch : comparing.matchAt (mergeRoutes (readRoutes pattern below)) path with
  | error e => exact absurd hpattern (hranks.missing hmatch _ (mem_readRoutes.mpr (.inl rfl)))
  | ok result =>
      obtain ⟨routeMeta, params⟩ := result
      refine ⟨routeMeta, params, rfl, ?_⟩
      rcases mem_readRoutes.mp (pattern_mem hmatch) with heq | heq
      · exact heq
      · exact absurd (heq ▸ (hranks.found hmatch).1) hbelow

end Pinhead.RouterDirectories
