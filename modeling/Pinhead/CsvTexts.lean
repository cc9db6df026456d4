import Mathlib.Data.List.Basic
import Mathlib.Tactic.Common

/-!
# Comma-separated texts

Records of fields, one to a line. A field that contains a comma, a quotation mark or the end
of a line stands between quotation marks, with the marks inside it doubled. A line without
any text would be lost on a reader that skips empty lines, so a record that consists of one
empty field is written with the marks. The reader takes a mark as one only at the start of a
field. What was written is read back, except for a record without fields.
-/
namespace Pinhead.CsvTexts

/-! ## Writing -/

def mark : Char := Char.ofNat 34

def isTerminator (c : Char) : Bool := c = '\n' || c = '\r'

def special (c : Char) : Bool := c = ',' || c = mark || isTerminator c

/-- The text between the quotation marks. -/
def doubled : List Char → List Char
  | [] => []
  | c :: cs => if c = mark then mark :: mark :: doubled cs else c :: doubled cs

def writeField (field : List Char) : List Char :=
  if field.any special then mark :: (doubled field ++ [mark]) else field

def writeFields : List (List Char) → List Char
  | [] => []
  | [field] => writeField field
  | field :: next :: fields => writeField field ++ ',' :: writeFields (next :: fields)

def writeRecord (fields : List (List Char)) : List Char :=
  (if writeFields fields = [] then [mark, mark] else writeFields fields) ++ ['\n']

/-! ## Reading -/

/-- Where the reader is: at the start of a record or of a field, in a field without or with
quotation marks, or behind a mark that may be the closing one. -/
inductive Mode where
  | record
  | field
  | plain
  | quoted
  | closing
  deriving DecidableEq

inductive Action where
  | move (mode : Mode)
  | copy (mode : Mode)
  | endField
  | endRecord

def plainAction (c : Char) : Action :=
  if c = ',' then .endField else if isTerminator c then .endRecord else .copy .plain

def action : Mode → Char → Action
  | .record, c =>
      if isTerminator c then .move .record else if c = mark then .move .quoted else plainAction c
  | .field, c => if c = mark then .move .quoted else plainAction c
  | .plain, c => plainAction c
  | .quoted, c => if c = mark then .move .closing else .copy .quoted
  | .closing, c => if c = mark then .copy .quoted else plainAction c

/-- The records of a text, behind the fields of the current one and a part of a field. -/
def readFrom (mode : Mode) (field : List Char) (fields : List (List Char)) :
    List Char → List (List (List Char))
  | [] => if mode = .record then [] else [fields ++ [field]]
  | c :: cs =>
      match action mode c with
      | .move next => readFrom next field fields cs
      | .copy next => readFrom next (field ++ [c]) fields cs
      | .endField => readFrom .field [] (fields ++ [field]) cs
      | .endRecord => (fields ++ [field]) :: readFrom .record [] [] cs

def read (text : List Char) : List (List (List Char)) := readFrom .record [] [] text

/-! ## One field -/

section
variable {field rest : List Char} {fields : List (List Char)} {c : Char}

theorem plainAction_of_not_special (h : special c = false) : plainAction c = .copy .plain := by
  simp only [special, Bool.or_eq_false_iff, decide_eq_false_iff_not] at h
  rw [plainAction, if_neg h.1.1, if_neg (Bool.not_eq_true _ ▸ h.2)]

theorem read_plain (text : List Char) (htext : ∀ c ∈ text, special c = false) :
    readFrom .plain field fields (text ++ rest) = readFrom .plain (field ++ text) fields rest := by
  induction text generalizing field with
  | nil => rw [List.nil_append, List.append_nil]
  | cons c text ih =>
      obtain ⟨hc, htext⟩ := List.forall_mem_cons.mp htext
      rw [List.cons_append, readFrom, action, plainAction_of_not_special hc]
      dsimp only
      rw [ih htext, List.append_assoc, List.singleton_append]

theorem read_doubled (text : List Char) :
    readFrom .quoted field fields (doubled text ++ rest) =
      readFrom .quoted (field ++ text) fields rest := by
  induction text generalizing field with
  | nil => rw [doubled, List.nil_append, List.append_nil]
  | cons c text ih =>
      rw [doubled, ← List.singleton_append (l := text), ← List.append_assoc, ← ih]
      split
      · next hc =>
          subst hc
          rfl
      · next hc =>
          rw [List.cons_append, readFrom, action, if_neg hc]

/-- What may stand behind a field. -/
def Ends (c : Char) : Prop := c = ',' ∨ c = '\n'

theorem Ends.ne_mark (h : Ends c) : c ≠ mark := by
  rcases h with rfl | rfl <;> decide

/-- Any field is read up to the comma or the newline behind it. -/
theorem read_field (text : List Char) (hc : Ends c) :
    readFrom .field [] fields (writeField text ++ c :: rest) =
      readFrom .plain text fields (c :: rest) := by
  rw [writeField]
  split
  · have hopen : readFrom .field [] fields (mark :: (doubled text ++ [mark]) ++ c :: rest) =
        readFrom .quoted [] fields (doubled text ++ (mark :: c :: rest)) := by
      rw [List.cons_append, List.append_assoc, List.singleton_append]
      rfl
    rw [hopen, read_doubled, List.nil_append, readFrom, action, if_pos rfl]
    dsimp only
    rw [readFrom, readFrom, action, action, if_neg hc.ne_mark]
  · next hspecial =>
      have hplain : ∀ c ∈ text, special c = false := by simpa using hspecial
      cases text with
      | nil => rw [List.nil_append, readFrom, readFrom, action, action, if_neg hc.ne_mark]
      | cons x text =>
          obtain ⟨hx, htext⟩ := List.forall_mem_cons.mp hplain
          have hmark : x ≠ mark := by
            rintro rfl
            cases hx
          rw [List.cons_append, readFrom, action, if_neg hmark, plainAction_of_not_special hx]
          exact read_plain text htext

end

/-! ## Records -/

section
variable {fields before : List (List Char)} {rest : List Char}

theorem read_fields (hfields : fields ≠ []) :
    readFrom .field [] before (writeFields fields ++ '\n' :: rest) =
      (before ++ fields) :: read rest := by
  induction fields generalizing before with
  | nil => exact absurd rfl hfields
  | cons field fields ih =>
      cases fields with
      | nil =>
          rw [writeFields, read_field field (.inr rfl)]
          rfl
      | cons next fields =>
          rw [writeFields, List.append_assoc, List.cons_append, read_field field (.inl rfl)]
          change readFrom .field [] (before ++ [field]) _ = _
          rw [ih (List.cons_ne_nil _ _), List.append_assoc, List.singleton_append]

/-- A record that starts with no terminator starts with a field. -/
theorem read_start {c : Char} {text : List Char} (hc : isTerminator c = false) :
    readFrom .record [] [] (c :: text) = readFrom .field [] [] (c :: text) := by
  rw [readFrom, readFrom, action, action, if_neg (Bool.not_eq_true _ ▸ hc)]

theorem writeField_head {field : List Char} : ∀ c ∈ (writeField field).head?,
    isTerminator c = false := by
  intro c hc
  rw [writeField] at hc
  split at hc
  · cases hc
    rfl
  · next hspecial =>
      have hplain : ∀ c ∈ field, special c = false := by simpa using hspecial
      have hspecial := hplain c (List.mem_of_mem_head? hc)
      exact (Bool.or_eq_false_iff.mp hspecial).2

theorem writeFields_head : ∀ c ∈ (writeFields fields).head?, isTerminator c = false := by
  intro c hc
  match fields with
  | [] => cases hc
  | [field] => exact writeField_head c hc
  | field :: next :: fields =>
      rw [writeFields] at hc
      cases hfield : writeField field with
      | nil =>
          rw [hfield] at hc
          cases hc
          rfl
      | cons x text =>
          have hhead : c ∈ (writeField field).head? := by
            rw [hfield] at hc ⊢
            exact hc
          exact writeField_head c hhead

theorem writeFields_eq_nil (h : writeFields fields = []) (hfields : fields ≠ []) :
    fields = [[]] := by
  match fields with
  | [] => exact absurd rfl hfields
  | [field] =>
      rw [writeFields, writeField] at h
      split at h
      · cases h
      · rw [h]
  | field :: next :: fields =>
      rw [writeFields] at h
      exact absurd h (List.append_ne_nil_of_right_ne_nil _ (List.cons_ne_nil _ _))

theorem read_record (hfields : fields ≠ []) :
    read (writeRecord fields ++ rest) = fields :: read rest := by
  rw [writeRecord]
  split
  · next hempty =>
      rw [writeFields_eq_nil hempty hfields]
      rfl
  · next hempty =>
      obtain ⟨c, text, htext⟩ := List.exists_cons_of_ne_nil hempty
      have hc : isTerminator c = false := writeFields_head c (by rw [htext]; rfl)
      have hread := @read_fields fields [] rest hfields
      rw [htext] at hread ⊢
      rw [read, List.append_assoc, List.cons_append, read_start hc]
      exact hread

theorem read_write {records : List (List (List Char))} (h : ∀ fields ∈ records, fields ≠ []) :
    read (records.flatMap writeRecord) = records := by
  induction records with
  | nil => rfl
  | cons fields records ih =>
      obtain ⟨hfields, hrecords⟩ := List.forall_mem_cons.mp h
      rw [List.flatMap_cons, read_record hfields, ih hrecords]

end

example : String.ofList (writeRecord ["a,b".toList, [], "c".toList]) = "\"a,b\",,c\n" := by decide

end Pinhead.CsvTexts
