import Pinhead.NormalPaths

/-!
# The canonical paths of an SFTP session

A client asks for the canonical path of a dot when its session begins, and builds its later
paths on the answer. The method puts a slash in front and drops empty segments. It does not
resolve dots, and the requests of other methods do not drop empty segments.
-/
namespace Pinhead.RealPaths
open ByteStrings FsRequests Resumption SftpSessions NormalPaths

/-! ## Lexical resolution -/

abbrev Segment := List Char

/-- The segments of a path after one more: two dots cancel the one above, if there is one. -/
def step (above : List Segment) (seg : Segment) : List Segment :=
  if seg = [] ∨ seg = ['.'] then above
  else if seg = ['.', '.'] then above.dropLast
  else above ++ [seg]

def lexical (segs : List Segment) : List Segment := segs.foldl step []

/-- A slash in front of segments with slashes between them. -/
def absolute (segs : List Segment) : String :=
  String.ofList ('/' :: List.intercalate ['/'] segs)

/-- The lexical normal form of a path taken relative to the root. -/
def canonical (path : String) : String := absolute (lexical (path.toList.splitOn '/'))

example : canonical "a/./b//../c" = "/a/c" := by decide

theorem mem_step {above : List Segment} {seg x : Segment} (h : x ∈ step above seg) :
    x ∈ above ∨ x = seg ∧ seg ∉ [[], ['.'], ['.', '.']] := by
  unfold step at h
  split at h
  · exact Or.inl h
  · next hdot =>
      split at h
      · exact Or.inl (List.mem_of_mem_dropLast h)
      · next hdots =>
          rcases List.mem_append.mp h with h | h
          · exact Or.inl h
          · exact Or.inr ⟨List.mem_singleton.mp h, by simp_all⟩

theorem mem_foldl_step {above segs : List Segment} {x : Segment} (h : x ∈ segs.foldl step above) :
    x ∈ above ∨ x ∈ segs ∧ x ∉ [[], ['.'], ['.', '.']] := by
  induction segs generalizing above with
  | nil => exact Or.inl h
  | cons seg segs ih =>
      rcases ih h with hstep | ⟨hmem, hproper⟩
      · rcases mem_step hstep with habove | ⟨rfl, hproper⟩
        · exact Or.inl habove
        · exact Or.inr ⟨List.mem_cons_self .., hproper⟩
      · exact Or.inr ⟨List.mem_cons_of_mem _ hmem, hproper⟩

theorem foldl_step_proper {segs : List Segment} (h : ∀ seg ∈ segs, seg ∉ [[], ['.'], ['.', '.']])
    (above : List Segment) : segs.foldl step above = above ++ segs := by
  induction segs generalizing above with
  | nil => exact (List.append_nil above).symm
  | cons seg segs ih =>
      have hseg := h seg (List.mem_cons_self ..)
      have hstep : step above seg = above ++ [seg] := by simp_all [step]
      rw [List.foldl_cons, hstep, ih fun x hx => h x (List.mem_cons_of_mem _ hx),
        List.append_assoc, List.singleton_append]

/-! ## Absolute paths -/

theorem slash_not_mem_segment {cs seg : List Char} (h : seg ∈ cs.splitOn '/') : '/' ∉ seg :=
  fun hmem => (mem_segment h hmem).2 rfl

theorem splitOn_absolute (name : String) :
    ("/" ++ name).toList.splitOn '/' = [] :: name.toList.splitOn '/' := by
  have hslash := splitOn_slash "" name
  rwa [String.empty_append] at hslash

theorem absolute_splitOn (name : String) : absolute (name.toList.splitOn '/') = "/" ++ name := by
  rw [absolute, List.intercalate_splitOn, ← String.toList_inj]
  simp

/-- Segments without slashes, none of them a dot or two, make a path in normal form. -/
theorem normalForm_absolute {segs : List Segment}
    (h : ∀ seg ∈ segs, '/' ∉ seg ∧ seg ∉ [[], ['.'], ['.', '.']]) : NormalForm (absolute segs) := by
  by_cases hnil : segs = []
  · rw [hnil]
    exact Or.inl rfl
  · have hsplit : (String.ofList (List.intercalate ['/'] segs)).toList.splitOn '/' = segs := by
      rw [String.toList_ofList]
      exact List.splitOn_intercalate '/' (fun seg hseg => (h seg hseg).1) hnil
    have hname := absolute_splitOn (String.ofList (List.intercalate ['/'] segs))
    rw [hsplit] at hname
    rw [hname]
    apply normalForm_cons
    intro seg hseg
    rw [hsplit] at hseg
    exact (h seg hseg).2

theorem normalForm_canonical (path : String) : NormalForm (canonical path) := by
  apply normalForm_absolute
  intro seg hseg
  obtain ⟨hmem, hproper⟩ := (mem_foldl_step hseg).resolve_left List.not_mem_nil
  exact ⟨slash_not_mem_segment hmem, hproper⟩

/-- A slash in front changes nothing. -/
theorem canonical_normalized (path : String) : canonical (normalized path) = canonical path := by
  unfold normalized
  split
  · rfl
  · rw [canonical, splitOn_absolute]
    rfl

theorem canonical_of_normalForm {path : String} (h : NormalForm path) : canonical path = path := by
  rcases h with rfl | ⟨name, rfl, hname⟩
  · decide
  · have hlexical : lexical ([] :: name.toList.splitOn '/') = name.toList.splitOn '/' :=
      foldl_step_proper hname []
    rw [canonical, splitOn_absolute, hlexical, absolute_splitOn]

/-! ## The method -/

/-- The name that the method returns. -/
def resolved (path : String) : String :=
  absolute (((normalized path).toList.splitOn '/').filter fun c => !c.isEmpty)

theorem dispatch_realPath (s : HandleState) (id : ℕ) (path : String) :
    dispatch s (.realPath id path) = pure (some (.name id [resolved path]), s) := rfl

theorem normalized_absolute (segs : List Segment) : normalized (absolute segs) = absolute segs := by
  have hhead : (absolute segs).toList.head? = some '/' := by simp [absolute]
  rw [normalized, if_pos hhead]

theorem resolved_of_normalForm {path : String} (h : NormalForm (normalized path)) :
    resolved path = normalized path := by
  unfold resolved
  rcases h with hroot | ⟨name, hname, hproper⟩
  · rw [hroot]
    decide
  · have hfilter : (name.toList.splitOn '/').filter (fun c => !c.isEmpty) =
        name.toList.splitOn '/' := by
      apply List.filter_eq_self.mpr
      intro seg hseg
      have hne := hproper seg hseg
      simp_all
    rw [hname, splitOn_absolute, List.filter_cons_of_neg (by simp), hfilter, absolute_splitOn]

/-- Two paths lead to the same requests if they agree behind the slash in front. -/
theorem route_eq_iff {path path' : String} :
    (∀ op data, route op path data = route op path' data) ↔ normalized path = normalized path' := by
  constructor
  · intro h
    obtain ⟨hreq, _⟩ := Prog.call.inj (h .getAttr [])
    exact congrArg Request.path hreq
  · intro h op data
    unfold route
    rw [h]

/-- A path is resolved to its lexical normal form, which then stands for it in requests, in
exactly the cases in which it is in normal form itself, but for the slash in front. -/
theorem realpath_canonical_iff (path : String) : ∃ name,
    (∀ s id, dispatch s (.realPath id path) = pure (some (.name id [name]), s)) ∧
    ((name = canonical path ∧ ∀ op data, route op path data = route op name data) ↔
      NormalForm (normalized path)) := by
  refine ⟨resolved path, fun s id => dispatch_realPath s id path, ?_⟩
  have hresolved : normalized (resolved path) = resolved path := normalized_absolute _
  rw [route_eq_iff, hresolved]
  constructor
  · rintro ⟨hname, hsame⟩
    rw [hsame, hname]
    exact normalForm_canonical path
  · intro h
    have hsame := resolved_of_normalForm h
    refine ⟨?_, hsame.symm⟩
    rw [hsame, ← canonical_normalized, canonical_of_normalForm h]

/-- The directory that a session starts from is resolved to a dot below the root. -/
theorem dot_not_resolved : ¬ ∀ path name,
    (∀ s id, dispatch s (.realPath id path) = pure (some (.name id [name]), s)) →
    name = canonical path ∧ ∀ op data, route op path data = route op name data := by
  intro h
  have hname := (h "." (resolved ".") fun s id => dispatch_realPath s id ".").1
  revert hname
  decide

end Pinhead.RealPaths
