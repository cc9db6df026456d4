import Mathlib.Tactic

/-!
# Byte strings, fixed-width integers and text

Wire formats are read and written as lists of bytes. Integers are little-endian
with a fixed width; writing truncates to the width, as a narrowing cast does.
A slice outside its byte string has no value, which is how an out-of-range
access is told apart from an empty one.

Text is Unicode scalar values. `fromUtf8Lossy` decodes UTF-8 and replaces every
maximal ill-formed part by U+FFFD, so it is total on arbitrary bytes.
-/
namespace Pinhead.ByteStrings

abbrev Bytes := List UInt8

/-! ## Little-endian integers -/

def leBytes : ℕ → ℕ → Bytes
  | 0, _ => []
  | width + 1, n => UInt8.ofNat n :: leBytes width (n / 256)

def leValue : Bytes → ℕ
  | [] => 0
  | b :: bs => b.toNat + 256 * leValue bs

@[simp] theorem leBytes_length (width n : ℕ) : (leBytes width n).length = width := by
  induction width generalizing n with
  | zero => rfl
  | succ width ih => simp only [leBytes, List.length_cons, ih]

theorem leValue_leBytes (width n : ℕ) : leValue (leBytes width n) = n % 256 ^ width := by
  induction width generalizing n with
  | zero => simp [leBytes, leValue, Nat.mod_one]
  | succ width ih =>
      simp only [leBytes, leValue, ih, UInt8.toNat_ofNat']
      change n % 256 + 256 * (n / 256 % 256 ^ width) = n % 256 ^ (width + 1)
      rw [Nat.pow_succ', Nat.mod_mul]

theorem leValue_leBytes_of_lt {width n : ℕ} (h : n < 256 ^ width) :
    leValue (leBytes width n) = n := by
  rw [leValue_leBytes, Nat.mod_eq_of_lt h]

theorem leBytes_leValue (bs : Bytes) : leBytes bs.length (leValue bs) = bs := by
  induction bs with
  | nil => rfl
  | cons b bs ih =>
      have hb := b.toNat_lt
      have hlow : UInt8.ofNat (b.toNat + 256 * leValue bs) = b := by
        apply UInt8.toNat_inj.mp
        rw [UInt8.toNat_ofNat']
        omega
      have hhigh : (b.toNat + 256 * leValue bs) / 256 = leValue bs := by omega
      rw [List.length_cons, leValue, leBytes, hlow, hhigh, ih]

theorem leValue_lt (bs : Bytes) : leValue bs < 256 ^ bs.length := by
  induction bs with
  | nil => simp [leValue]
  | cons b bs ih =>
      have hb := b.toNat_lt
      simp only [leValue, List.length_cons, Nat.pow_succ']
      omega

/-- A wide integer is its low bytes followed by the rest of it. -/
theorem leBytes_add (a b n : ℕ) : leBytes (a + b) n = leBytes a n ++ leBytes b (n / 256 ^ a) := by
  induction a generalizing n with
  | zero => simp [leBytes]
  | succ a ih =>
      rw [Nat.succ_add, leBytes, leBytes, ih, Nat.div_div_eq_div_mul, Nat.pow_succ']
      rfl

/-! ## Slices -/

/-- The bytes from position `i` up to but not including `j`. -/
def slice (bs : Bytes) (i j : ℕ) : Option Bytes :=
  if i ≤ j ∧ j ≤ bs.length then some ((bs.drop i).take (j - i)) else none

theorem slice_of_le {bs : Bytes} {i j : ℕ} (hij : i ≤ j) (hj : j ≤ bs.length) :
    slice bs i j = some ((bs.drop i).take (j - i)) := if_pos ⟨hij, hj⟩

theorem slice_eq_none {bs : Bytes} {i j : ℕ} (h : bs.length < j) : slice bs i j = none :=
  if_neg fun hs => absurd hs.2 (by omega)

/-! ## Positions -/

/-- Searching a list for one of its elements. -/
theorem idxOf?_of_mem {α : Type} [DecidableEq α] {x : α} {xs : List α} (h : x ∈ xs) :
    xs.idxOf? x = some (xs.idxOf x) := by
  induction xs with
  | nil => cases h
  | cons y ys ih =>
      rw [List.idxOf?_cons, List.idxOf_cons]
      by_cases heq : y = x
      · simp [heq]
      · have hmem := (List.mem_cons.mp h).resolve_left fun hxy => heq hxy.symm
        simp [beq_false_of_ne heq, ih hmem]

/-! ## Text -/

/-- The UTF-8 bytes of a text. -/
def asBytes (s : String) : Bytes := s.toList.flatMap String.utf8EncodeChar

theorem asBytes_append (s t : String) : asBytes (s ++ t) = asBytes s ++ asBytes t := by
  simp only [asBytes, String.toList_append, List.flatMap_append]

theorem asBytes_injective {s t : String} (h : asBytes s = asBytes t) : s = t := by
  apply String.toByteArray_inj.mp
  rw [← String.utf8Encode_toList, ← String.utf8Encode_toList]
  exact congrArg List.toByteArray h

def isContinuation (b : UInt8) : Bool := 0x80 ≤ b && b ≤ 0xBF

/-- The scalar value spelled by a lead byte with its payload mask and the
continuation bytes after it. -/
def scalar (lead : ℕ) (rest : Bytes) : Char :=
  Char.ofNat (rest.foldl (fun n b => n * 64 + (b.toNat - 0x80)) lead)

/-- Decode the sequence that starts with `b`: the scalar it spells, or U+FFFD
for its maximal ill-formed part, and how many of the following bytes it uses. -/
def decodeStep (b : UInt8) (rest : Bytes) : Char × ℕ :=
  let bad := Char.ofNat 0xFFFD
  if b < 0x80 then (Char.ofNat b.toNat, 0)
  else if 0xC2 ≤ b ∧ b ≤ 0xDF then
    match rest with
    | c :: _ => if isContinuation c then (scalar (b.toNat - 0xC0) [c], 1) else (bad, 0)
    | [] => (bad, 0)
  else if 0xE0 ≤ b ∧ b ≤ 0xEF then
    match rest with
    | c :: rest =>
        if (if b = 0xE0 then 0xA0 else 0x80) ≤ c ∧ c ≤ (if b = 0xED then 0x9F else 0xBF) then
          match rest with
          | d :: _ => if isContinuation d then (scalar (b.toNat - 0xE0) [c, d], 2) else (bad, 1)
          | [] => (bad, 1)
        else (bad, 0)
    | [] => (bad, 0)
  else if 0xF0 ≤ b ∧ b ≤ 0xF4 then
    match rest with
    | c :: rest =>
        if (if b = 0xF0 then 0x90 else 0x80) ≤ c ∧ c ≤ (if b = 0xF4 then 0x8F else 0xBF) then
          match rest with
          | d :: rest =>
              if isContinuation d then
                match rest with
                | e :: _ =>
                    if isContinuation e then (scalar (b.toNat - 0xF0) [c, d, e], 3) else (bad, 2)
                | [] => (bad, 2)
              else (bad, 1)
          | [] => (bad, 1)
        else (bad, 0)
    | [] => (bad, 0)
  else (bad, 0)

/-- The bytes still owed to the sequence already decoded are skipped. -/
def decodeLossy : ℕ → Bytes → List Char
  | _, [] => []
  | skip + 1, _ :: bs => decodeLossy skip bs
  | 0, b :: bs => (decodeStep b bs).1 :: decodeLossy (decodeStep b bs).2 bs

def fromUtf8Lossy (bs : Bytes) : String := String.ofList (decodeLossy 0 bs)

example : fromUtf8Lossy [0x2F, 0xC3, 0xA9, 0xFF, 0xE2, 0x82, 0x2F] = "/é\uFFFD\uFFFD/" := by decide

/-! ## Decoding what was encoded -/

theorem toNat_byte {n : ℕ} (h : n < 256) : (UInt8.ofNat n).toNat = n := by
  rw [UInt8.toNat_ofNat', Nat.mod_eq_of_lt h]

theorem le_byte {k : UInt8} {n : ℕ} (hn : n < 256) : k ≤ UInt8.ofNat n ↔ k.toNat ≤ n := by
  rw [UInt8.le_iff_toNat_le, toNat_byte hn]

theorem byte_le {k : UInt8} {n : ℕ} (hn : n < 256) : UInt8.ofNat n ≤ k ↔ n ≤ k.toNat := by
  rw [UInt8.le_iff_toNat_le, toNat_byte hn]

theorem byte_lt {k : UInt8} {n : ℕ} (hn : n < 256) : UInt8.ofNat n < k ↔ n < k.toNat := by
  rw [UInt8.lt_iff_toNat_lt, toNat_byte hn]

theorem byte_eq {k : UInt8} {n : ℕ} (hn : n < 256) : UInt8.ofNat n = k ↔ n = k.toNat := by
  rw [← UInt8.toNat_inj, toNat_byte hn]

/-- The second byte stays within the bounds that its lead byte sets. -/
theorem second_byte {b c : ℕ} {lo hi : UInt8} (hb : b < 256) (hc : c < 256)
    (hlow : 0x80 ≤ c) (hhigh : c ≤ 0xBF) {l h : UInt8} (hmin : b = lo.toNat → l.toNat ≤ c)
    (hmax : b = hi.toNat → c ≤ h.toNat) :
    (if UInt8.ofNat b = lo then l else 0x80) ≤ UInt8.ofNat c ∧
      UInt8.ofNat c ≤ (if UInt8.ofNat b = hi then h else 0xBF) := by
  constructor
  · split
    · next heq => exact (le_byte hc).mpr (hmin ((byte_eq hb).mp heq))
    · exact (le_byte hc).mpr hlow
  · split
    · next heq => exact (byte_le hc).mpr (hmax ((byte_eq hb).mp heq))
    · exact (byte_le hc).mpr hhigh

theorem isContinuation_low (v : ℕ) : isContinuation (UInt8.ofNat (v % 64 + 0x80)) = true := by
  have hlo : 0x80 ≤ UInt8.ofNat (v % 64 + 0x80) :=
    (le_byte (by omega)).mpr (show 0x80 ≤ v % 64 + 0x80 by omega)
  have hhi : UInt8.ofNat (v % 64 + 0x80) ≤ 0xBF :=
    (byte_le (by omega)).mpr (show v % 64 + 0x80 ≤ 0xBF by omega)
  rw [isContinuation, decide_eq_true hlo, decide_eq_true hhi]
  rfl

theorem utf8EncodeChar_ascii {c : Char} (h : c.toNat < 128) :
    String.utf8EncodeChar c = [UInt8.ofNat c.toNat] := by
  unfold String.utf8EncodeChar
  exact if_pos (Nat.le_of_lt_succ h)

/-- The first byte of any other character is above all ASCII bytes. -/
theorem utf8EncodeChar_wide {c : Char} (h : 128 ≤ c.toNat) :
    ∃ b bs, String.utf8EncodeChar c = b :: bs ∧ 128 ≤ b.toNat := by
  have hvalid : c.val.toNat < 0xd800 ∨ 0xdfff < c.val.toNat ∧ c.val.toNat < 0x110000 := c.valid
  have h' : 128 ≤ c.val.toNat := h
  unfold String.utf8EncodeChar
  dsimp only
  split
  · omega
  · split
    · refine ⟨_, _, rfl, ?_⟩
      rw [toNat_byte (by omega)]
      omega
    · split
      · refine ⟨_, _, rfl, ?_⟩
        rw [toNat_byte (by omega)]
        omega
      · refine ⟨_, _, rfl, ?_⟩
        rw [toNat_byte (by omega)]
        omega

/-- In an ASCII text each character is a byte. -/
theorem asBytes_ascii {cs : List Char} (h : ∀ c ∈ cs, c.toNat < 128) :
    asBytes (String.ofList cs) = cs.map fun c => UInt8.ofNat c.toNat := by
  rw [asBytes, String.toList_ofList]
  induction cs with
  | nil => rfl
  | cons c cs ih =>
      obtain ⟨hc, hcs⟩ := List.forall_mem_cons.mp h
      rw [List.flatMap_cons, utf8EncodeChar_ascii hc, ih hcs]
      rfl

theorem decodeStep_one {v : ℕ} (h : v ≤ 0x7f) (rest : Bytes) :
    decodeStep (UInt8.ofNat v) rest = (Char.ofNat v, 0) := by
  have hlt : UInt8.ofNat v < 0x80 := (byte_lt (by omega)).mpr (show v < 0x80 by omega)
  unfold decodeStep
  rw [if_pos hlt, toNat_byte (by omega)]

theorem decodeStep_two {v : ℕ} (hlo : 0x7f < v) (hhi : v ≤ 0x7ff) (rest : Bytes) :
    decodeStep (UInt8.ofNat (v / 64 % 0x20 + 0xc0)) (UInt8.ofNat (v % 64 + 0x80) :: rest) =
      (Char.ofNat v, 1) := by
  have hb : v / 64 % 0x20 + 0xc0 < 256 := by omega
  have hfirst : ¬ UInt8.ofNat (v / 64 % 0x20 + 0xc0) < 0x80 :=
    fun h => absurd ((byte_lt hb).mp h) (show ¬ v / 64 % 0x20 + 0xc0 < 0x80 by omega)
  have hlead : 0xC2 ≤ UInt8.ofNat (v / 64 % 0x20 + 0xc0) ∧
      UInt8.ofNat (v / 64 % 0x20 + 0xc0) ≤ 0xDF :=
    ⟨(le_byte hb).mpr (show 0xC2 ≤ v / 64 % 0x20 + 0xc0 by omega),
      (byte_le hb).mpr (show v / 64 % 0x20 + 0xc0 ≤ 0xDF by omega)⟩
  unfold decodeStep
  rw [if_neg hfirst, if_pos hlead]
  dsimp only
  rw [if_pos (isContinuation_low v), scalar]
  simp only [List.foldl, toNat_byte hb,
    toNat_byte (show v % 64 + 0x80 < 256 by omega)]
  rw [show (v / 64 % 0x20 + 0xc0 - 0xC0) * 64 + (v % 64 + 0x80 - 0x80) = v by omega]

theorem decodeStep_three {v : ℕ} (hlo : 0x7ff < v) (hhi : v ≤ 0xffff)
    (hscalar : v < 0xd800 ∨ 0xdfff < v) (rest : Bytes) :
    decodeStep (UInt8.ofNat (v / 4096 % 0x10 + 0xe0))
      (UInt8.ofNat (v / 64 % 0x40 + 0x80) :: UInt8.ofNat (v % 0x40 + 0x80) :: rest) =
      (Char.ofNat v, 2) := by
  have hb : v / 4096 % 0x10 + 0xe0 < 256 := by omega
  have hc : v / 64 % 0x40 + 0x80 < 256 := by omega
  have hfirst : ¬ UInt8.ofNat (v / 4096 % 0x10 + 0xe0) < 0x80 :=
    fun h => absurd ((byte_lt hb).mp h) (show ¬ v / 4096 % 0x10 + 0xe0 < 0x80 by omega)
  have htwo : ¬ (0xC2 ≤ UInt8.ofNat (v / 4096 % 0x10 + 0xe0) ∧
      UInt8.ofNat (v / 4096 % 0x10 + 0xe0) ≤ 0xDF) :=
    fun h => absurd ((byte_le hb).mp h.2) (show ¬ v / 4096 % 0x10 + 0xe0 ≤ 0xDF by omega)
  have hlead : 0xE0 ≤ UInt8.ofNat (v / 4096 % 0x10 + 0xe0) ∧
      UInt8.ofNat (v / 4096 % 0x10 + 0xe0) ≤ 0xEF :=
    ⟨(le_byte hb).mpr (show 0xE0 ≤ v / 4096 % 0x10 + 0xe0 by omega),
      (byte_le hb).mpr (show v / 4096 % 0x10 + 0xe0 ≤ 0xEF by omega)⟩
  have hsecond : (if UInt8.ofNat (v / 4096 % 0x10 + 0xe0) = 0xE0 then 0xA0 else 0x80) ≤
        UInt8.ofNat (v / 64 % 0x40 + 0x80) ∧ UInt8.ofNat (v / 64 % 0x40 + 0x80) ≤
        (if UInt8.ofNat (v / 4096 % 0x10 + 0xe0) = 0xED then 0x9F else 0xBF) :=
    second_byte hb hc (by omega) (by omega) (fun h => show 0xA0 ≤ v / 64 % 0x40 + 0x80 by change _ = 0xE0 at h; omega)
      (fun h => show v / 64 % 0x40 + 0x80 ≤ 0x9F by change _ = 0xED at h; omega)
  unfold decodeStep
  rw [if_neg hfirst, if_neg htwo, if_pos hlead]
  dsimp only
  rw [if_pos hsecond, if_pos (isContinuation_low v), scalar]
  simp only [List.foldl, toNat_byte hb, toNat_byte hc,
    toNat_byte (show v % 0x40 + 0x80 < 256 by omega)]
  rw [show ((v / 4096 % 0x10 + 0xe0 - 0xE0) * 64 + (v / 64 % 0x40 + 0x80 - 0x80)) * 64 +
    (v % 0x40 + 0x80 - 0x80) = v by omega]

theorem decodeStep_four {v : ℕ} (hlo : 0xffff < v) (hhi : v < 0x110000) (rest : Bytes) :
    decodeStep (UInt8.ofNat (v / 262144 % 0x08 + 0xf0))
      (UInt8.ofNat (v / 4096 % 0x40 + 0x80) :: UInt8.ofNat (v / 64 % 0x40 + 0x80) ::
        UInt8.ofNat (v % 0x40 + 0x80) :: rest) = (Char.ofNat v, 3) := by
  have hb : v / 262144 % 0x08 + 0xf0 < 256 := by omega
  have hc : v / 4096 % 0x40 + 0x80 < 256 := by omega
  have hfirst : ¬ UInt8.ofNat (v / 262144 % 0x08 + 0xf0) < 0x80 :=
    fun h => absurd ((byte_lt hb).mp h) (show ¬ v / 262144 % 0x08 + 0xf0 < 0x80 by omega)
  have htwo : ¬ (0xC2 ≤ UInt8.ofNat (v / 262144 % 0x08 + 0xf0) ∧
      UInt8.ofNat (v / 262144 % 0x08 + 0xf0) ≤ 0xDF) :=
    fun h => absurd ((byte_le hb).mp h.2) (show ¬ v / 262144 % 0x08 + 0xf0 ≤ 0xDF by omega)
  have hthree : ¬ (0xE0 ≤ UInt8.ofNat (v / 262144 % 0x08 + 0xf0) ∧
      UInt8.ofNat (v / 262144 % 0x08 + 0xf0) ≤ 0xEF) :=
    fun h => absurd ((byte_le hb).mp h.2) (show ¬ v / 262144 % 0x08 + 0xf0 ≤ 0xEF by omega)
  have hlead : 0xF0 ≤ UInt8.ofNat (v / 262144 % 0x08 + 0xf0) ∧
      UInt8.ofNat (v / 262144 % 0x08 + 0xf0) ≤ 0xF4 :=
    ⟨(le_byte hb).mpr (show 0xF0 ≤ v / 262144 % 0x08 + 0xf0 by omega),
      (byte_le hb).mpr (show v / 262144 % 0x08 + 0xf0 ≤ 0xF4 by omega)⟩
  have hsecond : (if UInt8.ofNat (v / 262144 % 0x08 + 0xf0) = 0xF0 then 0x90 else 0x80) ≤
        UInt8.ofNat (v / 4096 % 0x40 + 0x80) ∧ UInt8.ofNat (v / 4096 % 0x40 + 0x80) ≤
        (if UInt8.ofNat (v / 262144 % 0x08 + 0xf0) = 0xF4 then 0x8F else 0xBF) :=
    second_byte hb hc (by omega) (by omega) (fun h => show 0x90 ≤ v / 4096 % 0x40 + 0x80 by change _ = 0xF0 at h; omega)
      (fun h => show v / 4096 % 0x40 + 0x80 ≤ 0x8F by change _ = 0xF4 at h; omega)
  unfold decodeStep
  rw [if_neg hfirst, if_neg htwo, if_neg hthree, if_pos hlead]
  dsimp only
  rw [if_pos hsecond, if_pos (isContinuation_low (v / 64)), if_pos (isContinuation_low v), scalar]
  simp only [List.foldl, toNat_byte hb, toNat_byte hc,
    toNat_byte (show v / 64 % 0x40 + 0x80 < 256 by omega),
    toNat_byte (show v % 0x40 + 0x80 < 256 by omega)]
  rw [show (((v / 262144 % 0x08 + 0xf0 - 0xF0) * 64 + (v / 4096 % 0x40 + 0x80 - 0x80)) * 64 +
    (v / 64 % 0x40 + 0x80 - 0x80)) * 64 + (v % 0x40 + 0x80 - 0x80) = v by omega]

theorem decodeLossy_utf8EncodeChar (c : Char) (rest : Bytes) :
    decodeLossy 0 (String.utf8EncodeChar c ++ rest) = c :: decodeLossy 0 rest := by
  have hc : Char.ofNat c.val.toNat = c := Char.ofNat_toNat c
  have hvalid : c.val.toNat < 0xd800 ∨ 0xdfff < c.val.toNat ∧ c.val.toNat < 0x110000 := c.valid
  unfold String.utf8EncodeChar
  dsimp only
  split
  · next h =>
      simp only [List.cons_append, List.nil_append, decodeLossy, decodeStep_one h, hc]
  · split
    · next h₁ h₂ =>
        simp only [List.cons_append, List.nil_append, decodeLossy,
          decodeStep_two (Nat.not_le.mp h₁) h₂, hc]
    · split
      · next h₁ h₂ =>
          simp only [List.cons_append, List.nil_append, decodeLossy,
            decodeStep_three (Nat.not_le.mp h₁) h₂ (by omega), hc]
      · next h =>
          simp only [List.cons_append, List.nil_append, decodeLossy,
            decodeStep_four (Nat.not_le.mp h) (by omega), hc]

/-- Decoding gives back every text. -/
theorem fromUtf8Lossy_asBytes (s : String) : fromUtf8Lossy (asBytes s) = s := by
  have hlist : ∀ cs : List Char, decodeLossy 0 (cs.flatMap String.utf8EncodeChar) = cs := by
    intro cs
    induction cs with
    | nil => rfl
    | cons c cs ih => rw [List.flatMap_cons, decodeLossy_utf8EncodeChar, ih]
  rw [fromUtf8Lossy, asBytes, hlist, String.ofList_toList]

/-! ## Lines and words -/

/-- The Unicode property White_Space. -/
def isWhitespace (c : Char) : Bool :=
  let n := c.toNat
  (9 ≤ n && n ≤ 13) || n == 0x20 || n == 0x85 || n == 0xA0 || n == 0x1680 ||
    (0x2000 ≤ n && n ≤ 0x200A) || n == 0x2028 || n == 0x2029 || n == 0x202F || n == 0x205F ||
    n == 0x3000

/-- Cut after every newline; `line` is the current line so far, reversed. A
carriage return before the newline goes with it, and no line follows a final
newline. -/
def cutLines (line : List Char) : List Char → List (List Char)
  | [] => if line = [] then [] else [line.reverse]
  | c :: cs =>
      if c = '\n' then
        (if line.head? = some '\r' then line.tail else line).reverse :: cutLines [] cs
      else cutLines (c :: line) cs

def lines (s : String) : List String := (cutLines [] s.toList).map String.ofList

def trim (s : String) : String :=
  String.ofList ((s.toList.dropWhile isWhitespace).reverse.dropWhile isWhitespace).reverse

/-- The maximal runs of other characters; `word` is the current one, reversed. -/
def cutWords (word : List Char) : List Char → List (List Char)
  | [] => if word = [] then [] else [word.reverse]
  | c :: cs =>
      if isWhitespace c then
        if word = [] then cutWords [] cs else word.reverse :: cutWords [] cs
      else cutWords (c :: word) cs

def splitWhitespace (s : String) : List String := (cutWords [] s.toList).map String.ofList

example : (lines " a b\r\n\nc").map splitWhitespace = [["a", "b"], [], ["c"]] := by decide

/-! ## Searching text -/

def trimEndMatches (c : Char) (s : String) : String :=
  String.ofList (s.toList.reverse.dropWhile (· = c)).reverse

def trimStartMatches (c : Char) (s : String) : String := String.ofList (s.toList.dropWhile (· = c))

/-- What follows the first occurrence of `needle`, if there is one. -/
def afterFirst (needle : List Char) : List Char → Option (List Char)
  | [] => if needle = [] then some [] else none
  | c :: cs =>
      if needle.isPrefixOf (c :: cs) then some ((c :: cs).drop needle.length)
      else afterFirst needle cs

def containsText (s needle : String) : Bool := (afterFirst needle.toList s.toList).isSome

/-- A decimal number of 64 bits; a plus sign may stand before it. -/
def parseU64 (s : List Char) : Option ℕ :=
  let digits := if s.head? = some '+' then s.tail else s
  if digits ≠ [] ∧ digits.all Char.isDigit then
    let n := Nat.ofDigitChars 10 digits 0
    if n < 2 ^ 64 then some n else none
  else none

example : parseU64 "+042".toList = some 42 ∧ parseU64 "".toList = none := by decide

end Pinhead.ByteStrings
