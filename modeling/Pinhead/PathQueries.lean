import Pinhead.ByteStrings
import Pinhead.LuaJson

/-!
# Path queries

A path is a text of segments with dots between them. The query goes down the value one
segment at a time: a segment is a key where it meets an object and an index where it meets
an array, and an empty one is passed over. What is left of the path is then a query of the
value that was reached.
-/
namespace Pinhead.PathQueries
open ByteStrings LuaJson

/-! ## The query -/

def typeName : Json → String
  | .null => "null"
  | .bool _ => "boolean"
  | .integer _ | .float _ => "number"
  | .string _ => "string"
  | .array _ => "array"
  | .object _ => "object"

/-- One step down; the keys of a map are distinct, so the first entry is the only one. -/
def queryStep (current : Json) (segment : String) : Except String Json :=
  match current with
  | .object map =>
      match map.lookup segment with
      | some j => .ok j
      | none => .error ("key '" ++ segment ++ "' not found")
  | .array arr =>
      match parseU64 segment.toList with
      | none => .error ("array index '" ++ segment ++ "' is not a valid integer")
      | some idx =>
          match arr[idx]? with
          | some j => .ok j
          | none => .error ("index " ++ toString idx ++ " out of bounds (len " ++
              toString arr.length ++ ")")
  | other => .error ("cannot index into " ++ typeName other ++ " with '" ++ segment ++ "'")

def queryLoop (current : Json) : List String → Except String Json
  | [] => .ok current
  | segment :: segments =>
      if segment = "" then queryLoop current segments
      else do queryLoop (← queryStep current segment) segments

def splitDots (path : String) : List String := (path.toList.splitOn '.').map String.ofList

def jsonQueryValue (val : Json) (path : String) : Except String Json :=
  if path = "" then .ok val else queryLoop val (splitDots path)

/-- The value at the path of a document, as a Lua value. -/
def decodeAndQuery (lua : LuaJit) (parser : String → Except String Json) (format text path : String) :
    Except String LuaValue :=
  match parser text with
  | .error e => .error (format ++ " error: " ++ e)
  | .ok j => do return jsonToLua lua (← jsonQueryValue j path)

/-! ## Composition -/

/-- The empty path has one segment, an empty one. -/
theorem jsonQueryValue_eq (val : Json) (path : String) :
    jsonQueryValue val path = queryLoop val (splitDots path) := by
  rw [jsonQueryValue]
  split
  · next h =>
      rw [h]
      rfl
  · rfl

theorem queryLoop_append (val : Json) (xs ys : List String) :
    queryLoop val (xs ++ ys) = queryLoop val xs >>= fun w => queryLoop w ys := by
  induction xs generalizing val with
  | nil => rfl
  | cons x xs ih =>
      rw [List.cons_append, queryLoop, queryLoop]
      split
      · exact ih val
      · rw [bind_assoc]
        exact congrArg (queryStep val x >>= ·) (funext ih)

theorem splitDots_append (p q : String) :
    splitDots (p ++ "." ++ q) = splitDots p ++ splitDots q := by
  rw [splitDots, splitDots, splitDots, ← List.map_append, String.toList_append,
    String.toList_append, List.append_assoc]
  exact congrArg (List.map String.ofList) (List.splitOn_append_cons_self _ _)

theorem jsonQueryValue_append (val : Json) (p q : String) :
    jsonQueryValue val (p ++ "." ++ q) =
      jsonQueryValue val p >>= fun w => jsonQueryValue w q := by
  simp only [jsonQueryValue_eq, splitDots_append, queryLoop_append]

/-! ## Completeness -/

/-- A step from a value to a part of it. Indices are those of the machine. -/
inductive Step where
  | index (i : Fin (2 ^ 64))
  | key (k : String)

def child : Json → Step → Option Json
  | .array items, .index i => items[i.val]?
  | .object fields, .key k => fields.lookup k
  | _, _ => none

/-- The part of a value that the steps lead to. -/
def descend (val : Json) : List Step → Option Json
  | [] => some val
  | step :: steps => (child val step).bind fun w => descend w steps

def Step.segment : Step → String
  | .index i => toString i.val
  | .key k => k

/-- A key that stands for itself in a path. -/
def Step.Named : Step → Prop
  | .index _ => True
  | .key k => k ≠ "" ∧ '.' ∉ k.toList

def pathOf (steps : List Step) : String :=
  String.ofList (List.intercalate ['.'] (steps.map fun step => step.segment.toList))

theorem parseU64_toString {i : ℕ} (h : i < 2 ^ 64) : parseU64 (toString i).toList = some i := by
  have hdigits : (toString i).toList = Nat.toDigits 10 i := Nat.toList_repr
  have hall : (Nat.toDigits 10 i).all Char.isDigit = true :=
    List.all_eq_true.mpr fun c hc => Nat.isDigit_of_mem_toDigits (by decide) (by decide) hc
  have hplus : (Nat.toDigits 10 i).head? ≠ some '+' := by
    intro hhead
    have hdigit := List.all_eq_true.mp hall '+' (List.mem_of_head? hhead)
    revert hdigit
    decide
  rw [hdigits, parseU64, if_neg hplus]
  dsimp only
  rw [if_pos ⟨Nat.toDigits_ne_nil, hall⟩, Nat.ofDigitChars_ten_toDigits, if_pos h]

theorem queryStep_segment {val w : Json} {step : Step} (h : child val step = some w) :
    queryStep val step.segment = .ok w := by
  cases step with
  | index i =>
      cases val with
      | array items =>
          rw [Step.segment, queryStep, parseU64_toString i.isLt]
          dsimp only
          rw [show items[i.val]? = some w from h]
      | _ => cases h
  | key k =>
      cases val with
      | object fields =>
          rw [Step.segment, queryStep, show fields.lookup k = some w from h]
      | _ => cases h

theorem segment_named {step : Step} (h : step.Named) :
    step.segment ≠ "" ∧ '.' ∉ step.segment.toList := by
  cases step with
  | index i =>
      have hdigits : (toString i.val).toList = Nat.toDigits 10 i.val := Nat.toList_repr
      rw [Step.segment, ne_eq, ← String.toList_inj, hdigits]
      refine ⟨Nat.toDigits_ne_nil, fun hdot => ?_⟩
      have hdigit := Nat.isDigit_of_mem_toDigits (by decide) (by decide) hdot
      revert hdigit
      decide
  | key k => exact h

theorem queryLoop_segments {steps : List Step} {val w : Json} (hnamed : ∀ s ∈ steps, s.Named)
    (h : descend val steps = some w) : queryLoop val (steps.map Step.segment) = .ok w := by
  induction steps generalizing val with
  | nil => exact congrArg Except.ok (Option.some.inj h)
  | cons step steps ih =>
      obtain ⟨hstep, hsteps⟩ := List.forall_mem_cons.mp hnamed
      obtain ⟨next, hchild, hrest⟩ := Option.bind_eq_some_iff.mp h
      rw [List.map_cons, queryLoop, if_neg (segment_named hstep).1, queryStep_segment hchild]
      exact ih hsteps hrest

/-- A path can name every part of a value. -/
theorem jsonQueryValue_pathOf {steps : List Step} {val w : Json} (hnamed : ∀ s ∈ steps, s.Named)
    (h : descend val steps = some w) : jsonQueryValue val (pathOf steps) = .ok w := by
  by_cases hnil : steps = []
  · subst hnil
    exact congrArg Except.ok (Option.some.inj h)
  · have hsplit : splitDots (pathOf steps) = steps.map Step.segment := by
      rw [splitDots, pathOf, String.toList_ofList, List.splitOn_intercalate, List.map_map]
      · exact List.map_congr_left fun step _ => String.ofList_toList
      · intro cs hcs
        obtain ⟨step, hstep, rfl⟩ := List.mem_map.mp hcs
        exact (segment_named (hnamed step hstep)).2
      · rwa [ne_eq, List.map_eq_nil_iff]
    rw [jsonQueryValue_eq, hsplit]
    exact queryLoop_segments hnamed h

/-- A query of a document returns the part at the path, as a Lua value. -/
theorem decodeAndQuery_pathOf (lua : LuaJit) {parser : String → Except String Json}
    {text : String} {val w : Json} (hparse : parser text = .ok val) {steps : List Step}
    (hnamed : ∀ s ∈ steps, s.Named) (h : descend val steps = some w) (format : String) :
    decodeAndQuery lua parser format text (pathOf steps) = .ok (jsonToLua lua w) := by
  rw [decodeAndQuery, hparse]
  dsimp only
  rw [jsonQueryValue_pathOf hnamed h]
  rfl

/-- Querying a path with a dot in it is querying what stands before the dot and then, in
the value found, what stands after it. Every part of a value is found at its path. -/
theorem path_queries (val : Json) :
    (∀ p q : String, jsonQueryValue val (p ++ "." ++ q) =
      jsonQueryValue val p >>= fun w => jsonQueryValue w q) ∧
    ∀ (steps : List Step) (w : Json), (∀ s ∈ steps, s.Named) → descend val steps = some w →
      jsonQueryValue val (pathOf steps) = .ok w :=
  ⟨jsonQueryValue_append val, fun _ _ => jsonQueryValue_pathOf⟩

/-- An element of an array in an object. -/
theorem path_queries_element :
    jsonQueryValue (.object [("users", .array [.integer 7, .bool true])])
      (pathOf [.key "users", .index 1]) = .ok (.bool true) := by
  refine (path_queries _).2 [.key "users", .index 1] (.bool true) ?_ rfl
  intro s hs
  rcases List.mem_cons.mp hs with rfl | hs
  · exact ⟨by decide, by decide⟩
  · rw [List.mem_singleton.mp hs]
    trivial

end Pinhead.PathQueries
