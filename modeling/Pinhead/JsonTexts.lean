import Pinhead.LuaJson

/-!
# Compact JSON texts

A writer and a reader for the JSON whose numbers are integers. The writer puts no blanks
between the parts of a text; the reader takes them anywhere, and gives up on values nested
deeper than its limit. A written text is read back unless it is nested too deeply.
-/
namespace Pinhead.JsonTexts
open OrderedMaps LuaJson

/-! ## Writing -/

def quoteMark : Char := Char.ofNat 34

def backslash : Char := Char.ofNat 92

/-- The characters with an escape of one letter. -/
def shortEscapes : List (Char × Char) :=
  [(quoteMark, quoteMark), (backslash, backslash), (Char.ofNat 8, 'b'), (Char.ofNat 12, 'f'),
    (Char.ofNat 10, 'n'), (Char.ofNat 13, 'r'), (Char.ofNat 9, 't')]

def escapeChar (c : Char) : List Char :=
  match shortEscapes.lookup c with
  | some e => [backslash, e]
  | none =>
      if c.toNat < 32 then
        [backslash, 'u', '0', '0', Nat.digitChar (c.toNat / 16), Nat.digitChar (c.toNat % 16)]
      else [c]

def writeString (s : String) : List Char :=
  quoteMark :: (s.toList.flatMap escapeChar ++ [quoteMark])

def writeInteger (i : ℤ) : List Char :=
  if i < 0 then '-' :: Nat.toDigits 10 i.natAbs else Nat.toDigits 10 i.natAbs

/-- The texts between the brackets, with commas. -/
def writeSeparated (close : Char) : List (List Char) → List Char
  | [] => [close]
  | [text] => text ++ [close]
  | text :: next :: texts => text ++ ',' :: writeSeparated close (next :: texts)

mutual

/-- Numbers with a fraction have no text here. -/
def write : Json → List Char
  | .null => ['n', 'u', 'l', 'l']
  | .bool true => ['t', 'r', 'u', 'e']
  | .bool false => ['f', 'a', 'l', 's', 'e']
  | .integer i => writeInteger i
  | .float _ => ['n', 'u', 'l', 'l']
  | .string s => writeString s
  | .array items => '[' :: writeSeparated ']' (writeItems items)
  | .object fields => '{' :: writeSeparated '}' (writeFields fields)

def writeItems : List Json → List (List Char)
  | [] => []
  | j :: items => write j :: writeItems items

def writeFields : List (String × Json) → List (List Char)
  | [] => []
  | (k, j) :: fields => (writeString k ++ ':' :: write j) :: writeFields fields

end

/-! ## Reading -/

def isBlank (c : Char) : Bool := c.toNat = 32 || c.toNat = 9 || c.toNat = 10 || c.toNat = 13

def skipBlanks (cs : List Char) : List Char := cs.dropWhile isBlank

def hexValue (c : Char) : Option ℕ :=
  if c.isDigit then some (c.toNat - 48)
  else if 97 ≤ c.toNat ∧ c.toNat ≤ 102 then some (c.toNat - 87)
  else if 65 ≤ c.toNat ∧ c.toNat ≤ 70 then some (c.toNat - 55)
  else none

/-- The character of a code of four digits that is no surrogate. -/
def readCode (a b c d : Char) : Option Char := do
  let n := 4096 * (← hexValue a) + 256 * (← hexValue b) + 16 * (← hexValue c) + (← hexValue d)
  if n.isValidChar then return Char.ofNat n else none

def shortUnescape (e : Char) : Option Char :=
  if e = '/' then some '/' else (shortEscapes.find? (·.2 = e)).map Prod.fst

/-- The characters up to the closing quote mark. -/
def readChars : List Char → Option (List Char × List Char)
  | [] => none
  | c :: cs =>
      if c = quoteMark then some ([], cs)
      else if c = backslash then
        match cs with
        | [] => none
        | e :: cs =>
            if e = 'u' then
              match cs with
              | a :: b :: d :: e :: cs =>
                  (readCode a b d e).bind fun x => (readChars cs).map (Prod.map (x :: ·) id)
              | _ => none
            else (shortUnescape e).bind fun x => (readChars cs).map (Prod.map (x :: ·) id)
      else if c.toNat < 32 then none
      else (readChars cs).map (Prod.map (c :: ·) id)

/-- A number without a sign starts with zero only if it is zero. -/
def readNatural (cs : List Char) : Option (ℕ × List Char) :=
  let digits := cs.takeWhile Char.isDigit
  if digits = [] ∨ (1 < digits.length ∧ digits.head? = some '0') then none
  else some (Nat.ofDigitChars 10 digits 0, cs.dropWhile Char.isDigit)

def readInteger : List Char → Option (ℤ × List Char)
  | [] => none
  | c :: cs =>
      if c = '-' then (readNatural cs).map (Prod.map (fun n : ℕ => -(n : ℤ)) id)
      else (readNatural (c :: cs)).map (Prod.map (fun n : ℕ => (n : ℤ)) id)

/-- Integers of more than 64 bits are read as doubles. -/
def ofInteger (i : ℤ) : Json := if -2 ^ 63 ≤ i ∧ i < 2 ^ 64 then .integer i else .float i

/-- Items with commas between them up to the closing bracket; at most as many as the number
allows. -/
def readSeparated {α : Type} (item : List Char → Option (α × List Char)) (close : Char) :
    ℕ → List Char → Option (List α × List Char)
  | 0, _ => none
  | n + 1, cs => do
      let (x, cs) ← item (skipBlanks cs)
      match skipBlanks cs with
      | [] => none
      | c :: cs =>
          if c = ',' then (readSeparated item close n cs).map (Prod.map (x :: ·) id)
          else if c = close then some ([x], cs)
          else none

def readList {α : Type} (item : List Char → Option (α × List Char)) (close : Char)
    (cs : List Char) : Option (List α × List Char) :=
  match skipBlanks cs with
  | [] => none
  | c :: rest => if c = close then some ([], rest) else readSeparated item close cs.length cs

def readField {α : Type} (value : List Char → Option (α × List Char)) :
    List Char → Option ((String × α) × List Char)
  | [] => none
  | c :: cs =>
      if c = quoteMark then do
        let (key, cs) ← readChars cs
        match skipBlanks cs with
        | ':' :: cs =>
            let (x, cs) ← value (skipBlanks cs)
            return ((String.ofList key, x), cs)
        | _ => none
      else none

/-- A value that may use the levels of nesting above the number. -/
def readValue : ℕ → List Char → Option (Json × List Char)
  | 0, _ => none
  | r + 1, cs =>
      match cs with
      | [] => none
      | c :: rest =>
          if c = quoteMark then
            (readChars rest).map (Prod.map (fun s => .string (String.ofList s)) id)
          else if c = '[' then
            if r = 0 then none
            else (readList (readValue r) ']' rest).map (Prod.map .array id)
          else if c = '{' then
            if r = 0 then none
            else (readList (readField (readValue r)) '}' rest).map
              (Prod.map (fun fields => .object (sortEntries fields)) id)
          else if ['n', 'u', 'l', 'l'].isPrefixOf cs then some (.null, cs.drop 4)
          else if ['t', 'r', 'u', 'e'].isPrefixOf cs then some (.bool true, cs.drop 4)
          else if ['f', 'a', 'l', 's', 'e'].isPrefixOf cs then some (.bool false, cs.drop 5)
          else (readInteger cs).map (Prod.map ofInteger id)

def read (limit : ℕ) (cs : List Char) : Option Json :=
  match readValue limit (skipBlanks cs) with
  | some (j, rest) => if skipBlanks rest = [] then some j else none
  | none => none

/-! ## Strings -/

theorem hexValue_digitChar : ∀ d < 16, hexValue (Nat.digitChar d) = some d := by decide

theorem readCode_low {n : ℕ} (h : n < 32) :
    readCode '0' '0' (Nat.digitChar (n / 16)) (Nat.digitChar (n % 16)) = some (Char.ofNat n) := by
  have hzero : hexValue '0' = some 0 := rfl
  have hvalid : Nat.isValidChar n := .inl (by omega)
  have hsum : 4096 * 0 + 256 * 0 + 16 * (n / 16) + n % 16 = n := by omega
  rw [readCode, hzero, hexValue_digitChar _ (by omega), hexValue_digitChar _ (by omega)]
  simp only [Option.bind_eq_bind, Option.bind_some, hsum, if_pos hvalid]
  rfl

theorem readChars_short {e x : Char} (he : e ≠ 'u') (hx : shortUnescape e = some x)
    (rest : List Char) :
    readChars (backslash :: e :: rest) = (readChars rest).map (Prod.map (x :: ·) id) := by
  have hslash : backslash ≠ quoteMark := by decide
  rw [readChars.eq_def]
  simp only [if_neg hslash, if_true, if_neg he, hx, Option.bind_some]

theorem readChars_code {a b d e x : Char} (hx : readCode a b d e = some x) (rest : List Char) :
    readChars (backslash :: 'u' :: a :: b :: d :: e :: rest) =
      (readChars rest).map (Prod.map (x :: ·) id) := by
  have hslash : backslash ≠ quoteMark := by decide
  rw [readChars.eq_def]
  simp only [if_neg hslash, if_true, hx, Option.bind_some]

theorem shortUnescape_short :
    ∀ p ∈ shortEscapes, p.2 ≠ 'u' ∧ shortUnescape p.2 = some p.1 := by decide

theorem readChars_escapeChar (c : Char) (rest : List Char) :
    readChars (escapeChar c ++ rest) = (readChars rest).map (Prod.map (c :: ·) id) := by
  rw [escapeChar]
  split
  · next e he =>
      obtain ⟨l, l', hl, _⟩ := List.lookup_eq_some_iff.mp he
      have hmem : (c, e) ∈ shortEscapes := hl ▸ by simp
      obtain ⟨hu, hunescape⟩ := shortUnescape_short _ hmem
      exact readChars_short hu hunescape rest
  · next hnone =>
      split
      · next hlow =>
          have hcode := readCode_low hlow
          rw [Char.ofNat_toNat] at hcode
          exact readChars_code hcode rest
      · next hhigh =>
          have hquote : c ≠ quoteMark := by
            rintro rfl
            cases hnone
          have hslash : c ≠ backslash := by
            rintro rfl
            cases hnone
          rw [List.singleton_append, readChars.eq_def]
          simp only [if_neg hquote, if_neg hslash, if_neg hhigh]

theorem readChars_write (cs rest : List Char) :
    readChars (cs.flatMap escapeChar ++ quoteMark :: rest) = some (cs, rest) := by
  induction cs with
  | nil =>
      rw [List.flatMap_nil, List.nil_append, readChars.eq_def]
      simp only [if_true]
  | cons c cs ih =>
      rw [List.flatMap_cons, List.append_assoc, readChars_escapeChar, ih]
      rfl

/-! ## Numbers -/

/-- What may stand behind a number. -/
def Follows (rest : List Char) : Prop := ∀ c ∈ rest.head?, c.isDigit = false

theorem Follows.cons {c : Char} (h : c.isDigit = false) (rest : List Char) : Follows (c :: rest) :=
  fun d hd => by rwa [← Option.some.inj hd]

theorem head_toDigits {n : ℕ} (h : 0 < n) : (Nat.toDigits 10 n).head? ≠ some '0' := by
  have hone : ∀ d < 10, 0 < d → [d.digitChar].head? ≠ some '0' := by decide
  induction n using Nat.strong_induction_on with
  | _ n ih =>
      by_cases hlt : n < 10
      · rw [Nat.toDigits_of_lt_base hlt]
        exact hone n hlt h
      · have hne : (Nat.toDigits 10 (n / 10)) ≠ [] := Nat.toDigits_ne_nil
        rw [Nat.toDigits_of_base_le (by decide) (by omega), List.head?_append_of_ne_nil _ hne]
        exact ih (n / 10) (by omega) (by omega)

theorem readNatural_write (n : ℕ) {rest : List Char} (h : Follows rest) :
    readNatural (Nat.toDigits 10 n ++ rest) = some (n, rest) := by
  have hdigits : ∀ c ∈ Nat.toDigits 10 n, c.isDigit = true := fun c hc =>
    Nat.isDigit_of_mem_toDigits (by decide) (by decide) hc
  have hrest : rest.takeWhile Char.isDigit = [] ∧ rest.dropWhile Char.isDigit = rest := by
    cases rest with
    | nil => exact ⟨rfl, rfl⟩
    | cons c rest => simp [h c rfl]
  have hlead : ¬ (Nat.toDigits 10 n = [] ∨
      1 < (Nat.toDigits 10 n).length ∧ (Nat.toDigits 10 n).head? = some '0') := by
    rintro (hnil | ⟨hlong, hzero⟩)
    · exact Nat.toDigits_ne_nil hnil
    · rcases Nat.eq_zero_or_pos n with rfl | hpos
      · rw [Nat.toDigits_zero] at hlong
        simp at hlong
      · exact head_toDigits hpos hzero
  rw [readNatural, List.takeWhile_append_of_pos hdigits, List.dropWhile_append_of_pos hdigits,
    hrest.1, hrest.2, List.append_nil]
  simp only [if_neg hlead, Nat.ofDigitChars_ten_toDigits]

theorem exists_digit (n : ℕ) : ∃ c cs, Nat.toDigits 10 n = c :: cs ∧ c.isDigit = true := by
  obtain ⟨c, cs, hcs⟩ := List.exists_cons_of_ne_nil (Nat.toDigits_ne_nil (n := n) (b := 10))
  exact ⟨c, cs, hcs, Nat.isDigit_of_mem_toDigits (b := 10) (n := n) (by decide) (by decide)
    (hcs ▸ List.mem_cons_self)⟩

theorem readInteger_write (i : ℤ) {rest : List Char} (h : Follows rest) :
    readInteger (writeInteger i ++ rest) = some (i, rest) := by
  have hread := readNatural_write i.natAbs h
  rw [writeInteger]
  split
  · rw [List.cons_append, readInteger, if_pos rfl, hread]
    simp only [Option.map_some, Prod.map_apply, id]
    congr 2
    omega
  · obtain ⟨c, cs, hcs, hdigit⟩ := exists_digit i.natAbs
    have hminus : c ≠ '-' := by
      rintro rfl
      cases hdigit
    rw [hcs] at hread ⊢
    rw [List.cons_append, readInteger, if_neg hminus, ← List.cons_append, hread]
    simp only [Option.map_some, Prod.map_apply, id]
    congr 2
    omega

/-! ## Lists -/

/-- How the text of a value starts. -/
def Starts (text : List Char) : Prop :=
  ∃ c cs, text = c :: cs ∧ isBlank c = false ∧ c ≠ ']' ∧ c ≠ '\x7d'

theorem skipBlanks_cons {c : Char} (h : isBlank c = false) (cs : List Char) :
    skipBlanks (c :: cs) = c :: cs := by
  rw [skipBlanks, List.dropWhile_cons, h]
  rfl

theorem Starts.skipBlanks {text : List Char} (h : Starts text) (rest : List Char) :
    skipBlanks (text ++ rest) = text ++ rest := by
  obtain ⟨c, cs, rfl, hblank, _⟩ := h
  exact skipBlanks_cons hblank _

/-- The brackets that close a list. -/
structure Closes (close : Char) : Prop where
  comma : close ≠ ','
  blank : isBlank close = false
  digit : close.isDigit = false
  bracket : close = ']' ∨ close = '\x7d'

theorem closes_array : Closes ']' := ⟨by decide, rfl, rfl, .inl rfl⟩

theorem closes_object : Closes '\x7d' := ⟨by decide, rfl, rfl, .inr rfl⟩

theorem Starts.not_closes {close : Char} (hclose : Closes close) {c : Char} {cs : List Char}
    (h : Starts (c :: cs)) : c ≠ close := by
  obtain ⟨_, _, heq, _, hne⟩ := h
  cases heq
  rcases hclose.bracket with rfl | rfl
  · exact hne.1
  · exact hne.2

theorem length_writeSeparated (close : Char) (texts : List (List Char)) :
    texts.length ≤ (writeSeparated close texts).length := by
  induction texts with
  | nil => exact Nat.zero_le _
  | cons text texts ih =>
      cases texts with
      | nil => simp [writeSeparated]
      | cons next texts =>
          simp only [writeSeparated, List.length_append, List.length_cons] at ih ⊢
          omega

section
variable {α : Type} {item : List Char → Option (α × List Char)} {text : α → List Char}
  {close : Char}

/-- The item is read back. -/
def Reads (item : List Char → Option (α × List Char)) (text : α → List Char) (x : α) : Prop :=
  ∀ rest, Follows rest → item (text x ++ rest) = some (x, rest)

/-- The item is refused. -/
def Refuses (item : List Char → Option (α × List Char)) (text : α → List Char) (x : α) : Prop :=
  ∀ rest, Follows rest → item (text x ++ rest) = none

variable {x : α} {xs : List α} {n : ℕ}

theorem readSeparated_last (hclose : Closes close) (hx : Reads item text x)
    (hs : Starts (text x)) (rest : List Char) :
    readSeparated item close (n + 1) (text x ++ close :: rest) = some ([x], rest) := by
  rw [readSeparated, hs.skipBlanks, hx _ (Follows.cons hclose.digit rest)]
  simp only [Option.bind_eq_bind, Option.bind_some, skipBlanks_cons hclose.blank,
    if_neg hclose.comma, if_true]

theorem readSeparated_more (hx : Reads item text x) (hs : Starts (text x)) (rest : List Char) :
    readSeparated item close (n + 1) (text x ++ ',' :: rest) =
      (readSeparated item close n rest).map (Prod.map (x :: ·) id) := by
  have hcomma : isBlank ',' = false := rfl
  rw [readSeparated, hs.skipBlanks, hx _ (Follows.cons rfl rest)]
  simp only [Option.bind_eq_bind, Option.bind_some, skipBlanks_cons hcomma, if_true]

theorem readSeparated_refused (hx : Refuses item text x) (hs : Starts (text x))
    {rest : List Char} (h : Follows rest) :
    readSeparated item close n (text x ++ rest) = none := by
  cases n with
  | zero => rfl
  | succ n =>
      rw [readSeparated, hs.skipBlanks, hx _ h]
      rfl

theorem readSeparated_write (hclose : Closes close) (hread : ∀ y ∈ x :: xs, Reads item text y)
    (hstart : ∀ y ∈ x :: xs, Starts (text y)) (hn : xs.length < n) (rest : List Char) :
    readSeparated item close n (writeSeparated close ((x :: xs).map text) ++ rest) =
      some (x :: xs, rest) := by
  obtain ⟨n, rfl⟩ := Nat.exists_eq_succ_of_ne_zero (by omega : n ≠ 0)
  have hx := hread x List.mem_cons_self
  have hs := hstart x List.mem_cons_self
  induction xs generalizing x n with
  | nil =>
      change readSeparated item close (n + 1) ((text x ++ [close]) ++ rest) = _
      rw [List.append_assoc]
      exact readSeparated_last hclose hx hs rest
  | cons y xs ih =>
      obtain ⟨n, rfl⟩ := Nat.exists_eq_succ_of_ne_zero (by
        rw [List.length_cons] at hn
        omega : n ≠ 0)
      have hreads := fun z hz => hread z (List.mem_cons_of_mem x hz)
      have hstarts := fun z hz => hstart z (List.mem_cons_of_mem x hz)
      change readSeparated item close (n + 1 + 1)
        ((text x ++ ',' :: writeSeparated close ((y :: xs).map text)) ++ rest) = _
      rw [List.append_assoc, List.cons_append, readSeparated_more hx hs,
        ih hreads hstarts n (Nat.lt_of_succ_lt_succ hn) (hreads y List.mem_cons_self)
          (hstarts y List.mem_cons_self)]
      rfl

/-- One refused item is enough for the list to be refused. -/
theorem readSeparated_refuses (hclose : Closes close)
    (hread : ∀ y ∈ x :: xs, Reads item text y ∨ Refuses item text y)
    (hbad : ∃ y ∈ x :: xs, Refuses item text y) (hstart : ∀ y ∈ x :: xs, Starts (text y))
    (rest : List Char) :
    readSeparated item close n (writeSeparated close ((x :: xs).map text) ++ rest) = none := by
  have hs := hstart x List.mem_cons_self
  induction xs generalizing x n with
  | nil =>
      obtain ⟨y, hy, hbad⟩ := hbad
      obtain rfl := List.mem_singleton.mp hy
      change readSeparated item close n ((text y ++ [close]) ++ rest) = _
      rw [List.append_assoc]
      exact readSeparated_refused hbad hs (Follows.cons hclose.digit rest)
  | cons z xs ih =>
      have hreads := fun y hy => hread y (List.mem_cons_of_mem x hy)
      have hstarts := fun y hy => hstart y (List.mem_cons_of_mem x hy)
      change readSeparated item close n
        ((text x ++ ',' :: writeSeparated close ((z :: xs).map text)) ++ rest) = _
      rw [List.append_assoc, List.cons_append]
      by_cases hx : Refuses item text x
      · exact readSeparated_refused hx hs (Follows.cons rfl _)
      · have hbad : ∃ y ∈ z :: xs, Refuses item text y := by
          obtain ⟨y, hy, hbad⟩ := hbad
          rcases List.mem_cons.mp hy with rfl | hy
          · exact absurd hbad hx
          · exact ⟨y, hy, hbad⟩
        cases n with
        | zero => rfl
        | succ n =>
            rw [readSeparated_more ((hread x List.mem_cons_self).resolve_right hx) hs,
              ih hreads hbad hstarts (hstarts z List.mem_cons_self)]
            rfl

/-- The first character of a list that is not empty does not close it. -/
theorem readList_cons (hclose : Closes close) (hs : Starts (text x)) (rest : List Char) :
    readList item close (writeSeparated close ((x :: xs).map text) ++ rest) =
      readSeparated item close
        (writeSeparated close ((x :: xs).map text) ++ rest).length
        (writeSeparated close ((x :: xs).map text) ++ rest) := by
  obtain ⟨c, cs, hc, hblank, _⟩ := id hs
  have hne : c ≠ close := (hc ▸ hs).not_closes hclose
  obtain ⟨tail, htail⟩ : ∃ tail, writeSeparated close ((x :: xs).map text) ++ rest = c :: tail := by
    cases xs with
    | nil => exact ⟨_, by rw [List.map_cons, List.map_nil, writeSeparated, hc]; rfl⟩
    | cons y xs => exact ⟨_, by rw [List.map_cons, List.map_cons, writeSeparated, hc]; rfl⟩
  rw [readList, htail, skipBlanks_cons hblank]
  exact if_neg hne

theorem readList_write (hclose : Closes close) (hread : ∀ y ∈ xs, Reads item text y)
    (hstart : ∀ y ∈ xs, Starts (text y)) (rest : List Char) :
    readList item close (writeSeparated close (xs.map text) ++ rest) = some (xs, rest) := by
  cases xs with
  | nil =>
      change readList item close (close :: rest) = _
      rw [readList, skipBlanks_cons hclose.blank]
      exact if_pos rfl
  | cons x xs =>
      have hlength := length_writeSeparated close ((x :: xs).map text)
      rw [List.length_map, List.length_cons] at hlength
      rw [readList_cons hclose (hstart x List.mem_cons_self)]
      apply readSeparated_write hclose hread hstart
      rw [List.length_append]
      omega

theorem readList_refuses (hclose : Closes close)
    (hread : ∀ y ∈ xs, Reads item text y ∨ Refuses item text y)
    (hbad : ∃ y ∈ xs, Refuses item text y) (hstart : ∀ y ∈ xs, Starts (text y))
    (rest : List Char) :
    readList item close (writeSeparated close (xs.map text) ++ rest) = none := by
  cases xs with
  | nil =>
      obtain ⟨y, hy, _⟩ := hbad
      cases hy
  | cons x xs =>
      rw [readList_cons hclose (hstart x List.mem_cons_self)]
      exact readSeparated_refuses hclose hread hbad hstart rest

/-- The item is read back if its depth is below the limit, and refused otherwise. -/
structure Gauged (item : List Char → Option (α × List Char)) (text : α → List Char)
    (limit depth : ℕ) (x : α) : Prop where
  reads : depth < limit → Reads item text x
  refuses : limit ≤ depth → Refuses item text x

/-- A list is as deep as its deepest item. -/
theorem readList_gauged (hclose : Closes close) {limit deepest : ℕ} {depth : α → ℕ}
    (hdeepest : ∀ d, deepest ≤ d ↔ ∀ x ∈ xs, depth x ≤ d)
    (hitems : ∀ x ∈ xs, Gauged item text limit (depth x) x) (hlimit : limit ≠ 0)
    (hstart : ∀ x ∈ xs, Starts (text x)) (rest : List Char) :
    readList item close (writeSeparated close (xs.map text) ++ rest) =
      if deepest < limit then some (xs, rest) else none := by
  have hle := (hdeepest deepest).mp (le_refl _)
  split
  · next hlt =>
      exact readList_write hclose (fun x hx => (hitems x hx).reads ((hle x hx).trans_lt hlt))
        hstart rest
  · next hge =>
      have hbad : ∃ x ∈ xs, limit ≤ depth x := by
        by_contra hnone
        have hsmall : deepest ≤ limit - 1 := (hdeepest _).mpr fun x hx => by
          by_contra hdeep
          exact hnone ⟨x, hx, by omega⟩
        omega
      obtain ⟨x, hx, hdeep⟩ := hbad
      exact readList_refuses hclose (fun y hy => (lt_or_ge (depth y) limit).imp
        (hitems y hy).reads (hitems y hy).refuses) ⟨x, hx, (hitems x hx).refuses hdeep⟩ hstart rest

end

/-! ## Values -/

def writeField (e : String × Json) : List Char := writeString e.1 ++ ':' :: write e.2

theorem writeItems_eq_map (items : List Json) : writeItems items = items.map write := by
  induction items with
  | nil => rfl
  | cons j items ih => rw [writeItems, ih, List.map_cons]

theorem writeFields_eq_map (fields : List (String × Json)) :
    writeFields fields = fields.map writeField := by
  induction fields with
  | nil => rfl
  | cons e fields ih => rw [writeFields, ih, List.map_cons]; rfl

theorem starts_writeString (s : String) (rest : List Char) : Starts (writeString s ++ rest) :=
  ⟨quoteMark, _, rfl, by decide, by decide, by decide⟩

theorem starts_digit {c : Char} (h : c.isDigit = true) (cs : List Char) : Starts (c :: cs) := by
  have hval : 48 ≤ c.val ∧ c.val ≤ 57 := by simpa [Char.isDigit] using h
  have hlow : 48 ≤ c.toNat := UInt32.le_iff_toNat_le.mp hval.1
  refine ⟨c, cs, rfl, ?_, ?_, ?_⟩
  · simp only [isBlank, Bool.or_eq_false_iff, decide_eq_false_iff_not]
    omega
  · rintro rfl
    cases h
  · rintro rfl
    cases h

theorem starts_writeInteger (i : ℤ) : Starts (writeInteger i) := by
  rw [writeInteger]
  split
  · exact ⟨'-', _, rfl, rfl, by decide, by decide⟩
  · obtain ⟨c, cs, hcs, hdigit⟩ := exists_digit i.natAbs
    rw [hcs]
    exact starts_digit hdigit cs

theorem starts_write (j : Json) : Starts (write j) := by
  cases j with
  | null | float => exact ⟨'n', _, rfl, rfl, by decide, by decide⟩
  | bool b => cases b <;> exact ⟨_, _, rfl, rfl, by decide, by decide⟩
  | integer i => exact starts_writeInteger i
  | string s =>
      have hs := starts_writeString s []
      rwa [List.append_nil] at hs
  | array items => exact ⟨'[', _, rfl, rfl, by decide, by decide⟩
  | object fields => exact ⟨'\x7b', _, rfl, rfl, by decide, by decide⟩

theorem readField_write (value : List Char → Option (Json × List Char)) (e : String × Json)
    (rest : List Char) :
    readField value (writeField e ++ rest) =
      (value (write e.2 ++ rest)).map (Prod.map (fun j => (e.1, j)) id) := by
  have hcolon : isBlank ':' = false := rfl
  have hchars := readChars_write e.1.toList (':' :: (write e.2 ++ rest))
  rw [writeField, writeString, List.cons_append, List.cons_append, readField, if_pos rfl,
    List.append_assoc, List.append_assoc, List.singleton_append, List.cons_append, hchars]
  simp only [Option.bind_eq_bind, Option.bind_some, skipBlanks_cons hcolon,
    (starts_write e.2).skipBlanks, String.ofList_toList]
  cases value (write e.2 ++ rest) <;> rfl

theorem Gauged.field {value : List Char → Option (Json × List Char)} {e : String × Json}
    {limit depth : ℕ} (h : Gauged value write limit depth e.2) :
    Gauged (readField value) writeField limit depth e := by
  constructor
  · intro hdepth rest hrest
    rw [readField_write, h.reads hdepth rest hrest]
    rfl
  · intro hdepth rest hrest
    rw [readField_write, h.refuses hdepth rest hrest]
    rfl

theorem starts_writeField (e : String × Json) : Starts (writeField e) := starts_writeString _ _

theorem readValue_string (s : String) (r : ℕ) : Reads (readValue (r + 1)) write (.string s) := by
  intro rest _
  rw [write, writeString, List.cons_append, readValue, List.append_assoc, List.singleton_append,
    readChars_write]
  simp

theorem readValue_number {c : Char} (h : c = '-' ∨ c.isDigit = true) (cs : List Char) (r : ℕ) :
    readValue (r + 1) (c :: cs) = (readInteger (c :: cs)).map (Prod.map ofInteger id) := by
  have hne (d : Char) (hminus : d ≠ '-') (hdigit : d.isDigit = false) : c ≠ d := by
    rintro rfl
    rcases h with h | h
    · exact hminus h
    · rw [hdigit] at h
      cases h
  have hword (d : Char) (w : List Char) (hminus : d ≠ '-') (hdigit : d.isDigit = false) :
      ¬ (d :: w).isPrefixOf (c :: cs) = true := by
    rw [List.isPrefixOf, beq_false_of_ne (hne d hminus hdigit).symm]
    simp
  rw [readValue]
  simp only [if_neg (hne quoteMark (by decide) rfl), if_neg (hne '[' (by decide) rfl),
    if_neg (hne '\x7b' (by decide) rfl), if_neg (hword 'n' _ (by decide) rfl),
    if_neg (hword 't' _ (by decide) rfl), if_neg (hword 'f' _ (by decide) rfl)]

theorem readValue_integer {i : ℤ} (hlow : -2 ^ 63 ≤ i) (hhigh : i < 2 ^ 64) (r : ℕ) :
    Reads (readValue (r + 1)) write (.integer i) := by
  intro rest hrest
  have hread := readInteger_write i hrest
  obtain ⟨c, cs, hcs, hc⟩ : ∃ c cs, writeInteger i = c :: cs ∧ (c = '-' ∨ c.isDigit = true) := by
    rw [writeInteger]
    split
    · exact ⟨'-', _, rfl, .inl rfl⟩
    · obtain ⟨c, cs, hcs, hdigit⟩ := exists_digit i.natAbs
      exact ⟨c, cs, hcs, .inr hdigit⟩
  rw [hcs, List.cons_append] at hread
  rw [write, hcs, List.cons_append, readValue_number hc, hread, Option.map_some, Prod.map_apply, ofInteger,
    if_pos ⟨hlow, hhigh⟩]
  rfl

theorem readValue_array {items : List Json} {r : ℕ}
    (h : ∀ j ∈ items, Gauged (readValue r) write r j.depth j) (rest : List Char) :
    readValue (r + 1) (write (.array items) ++ rest) =
      if Json.itemsDepth items < r then some (.array items, rest) else none := by
  have hquote : '[' ≠ quoteMark := by decide
  rw [write, writeItems_eq_map, List.cons_append, readValue]
  simp only [if_neg hquote, if_true]
  split
  · next hr => rw [if_neg (by omega)]
  · next hr =>
      rw [readList_gauged closes_array (fun d => Json.itemsDepth_le) h hr
        (fun j _ => starts_write j)]
      split <;> rfl

theorem readValue_object {fields : List (String × Json)} {r : ℕ} (hsorted : Sorted fields)
    (h : ∀ e ∈ fields, Gauged (readValue r) write r e.2.depth e.2) (rest : List Char) :
    readValue (r + 1) (write (.object fields) ++ rest) =
      if Json.fieldsDepth fields < r then some (.object fields, rest) else none := by
  have hquote : '\x7b' ≠ quoteMark := by decide
  have hbracket : '\x7b' ≠ '[' := by decide
  rw [write, writeFields_eq_map, List.cons_append, readValue]
  simp only [if_neg hquote, if_neg hbracket, if_true]
  split
  · next hr => rw [if_neg (by omega)]
  · next hr =>
      rw [readList_gauged closes_object (fun d => Json.fieldsDepth_le) (fun e he => (h e he).field)
        hr (fun e _ => starts_writeField e)]
      split
      · simp only [Option.map_some, Prod.map_apply, sortEntries_of_sorted hsorted, id]
      · rfl

theorem gauged_scalar {j : Json} (hdepth : j.depth = 0) (h : ∀ r, Reads (readValue (r + 1)) write j)
    (r : ℕ) : Gauged (readValue r) write r j.depth j := by
  rw [hdepth]
  cases r with
  | zero => exact ⟨fun hr => absurd hr (Nat.lt_irrefl 0), fun _ _ _ => rfl⟩
  | succ r => exact ⟨fun _ => h r, fun hr => absurd hr (Nat.not_succ_le_zero r)⟩

theorem gauged_list {j : Json} {d : ℕ} (hdepth : j.depth = d + 1)
    (h : ∀ r rest, readValue (r + 1) (write j ++ rest) = if d < r then some (j, rest) else none)
    (r : ℕ) : Gauged (readValue r) write r j.depth j := by
  rw [hdepth]
  cases r with
  | zero => exact ⟨fun hr => absurd hr (Nat.not_lt_zero _), fun _ _ _ => rfl⟩
  | succ r =>
      constructor
      · intro hr rest _
        rw [h, if_pos (by omega)]
      · intro hr rest _
        rw [h, if_neg (by omega)]

/-- A written value is read back if the limit allows its depth, and refused otherwise. -/
theorem gauged_write {j : Json} (hj : j.Exact) (r : ℕ) :
    Gauged (readValue r) write r j.depth j := by
  induction hj generalizing r with
  | null => exact gauged_scalar rfl (fun _ _ _ => rfl) r
  | bool b => exact gauged_scalar rfl (fun _ _ _ => by cases b <;> rfl) r
  | integer hlow hhigh => exact gauged_scalar rfl (readValue_integer hlow hhigh) r
  | string s => exact gauged_scalar rfl (readValue_string s) r
  | array _ ih =>
      exact gauged_list rfl (fun r rest => readValue_array (fun j hj => ih j hj r) rest) r
  | object hsorted _ ih =>
      exact gauged_list rfl (fun r rest => readValue_object hsorted (fun e he => ih e he r) rest) r

theorem read_write {j : Json} (hj : j.Exact) (limit : ℕ) :
    read limit (write j) = if j.depth < limit then some j else none := by
  have hg := gauged_write hj limit
  have hnil : Follows [] := fun c hc => by cases hc
  have hskip := (starts_write j).skipBlanks []
  rw [List.append_nil] at hskip
  rw [read, hskip]
  split_ifs with hdepth
  · have hread := hg.reads hdepth [] hnil
    rw [List.append_nil] at hread
    rw [hread]
    rfl
  · have hrefused := hg.refuses (not_lt.mp hdepth) [] hnil
    rw [List.append_nil] at hrefused
    rw [hrefused]

end Pinhead.JsonTexts
