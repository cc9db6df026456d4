import Pinhead.ByteStrings

/-!
# Bits and base64

A number below a power of two is a row of bits, the highest one first. Base64 cuts the
bits of a byte string into groups of six, fills the last group up with zeros and writes
each group as a character; up to two padding characters make the length a multiple of
four.
-/
namespace Pinhead.Base64Texts
open ByteStrings

/-! ## Bits -/

/-- The low bits of a number. -/
def bitRow : ℕ → ℕ → List Bool
  | 0, _ => []
  | width + 1, n => n.testBit width :: bitRow width n

@[simp] theorem bitRow_length (width n : ℕ) : (bitRow width n).length = width := by
  induction width with
  | zero => rfl
  | succ width ih => rw [bitRow, List.length_cons, ih]

/-- Only the low bits count. -/
theorem bitRow_congr {width m n : ℕ} (h : m % 2 ^ width = n % 2 ^ width) :
    bitRow width m = bitRow width n := by
  have hlow : ∀ k ≤ width, bitRow k m = bitRow k n := by
    intro k hk
    induction k with
    | zero => rfl
    | succ k ih =>
        have hbit : m.testBit k = n.testBit k := by
          have hm := Nat.testBit_mod_two_pow m width k
          have hn := Nat.testBit_mod_two_pow n width k
          rw [decide_eq_true (show k < width by omega), Bool.true_and] at hm hn
          rw [← hm, ← hn, h]
        rw [bitRow, bitRow, hbit, ih (by omega)]
  exact hlow width le_rfl

/-- A wide number is its high bits followed by its low ones. -/
theorem bitRow_add (a b n : ℕ) : bitRow (a + b) n = bitRow a (n / 2 ^ b) ++ bitRow b n := by
  induction a with
  | zero => simp [bitRow]
  | succ a ih => rw [Nat.succ_add, bitRow, bitRow, ih, Nat.testBit_div_two_pow, List.cons_append]

theorem testBit_of_bitRow {width m n : ℕ} (h : bitRow width m = bitRow width n) {i : ℕ}
    (hi : i < width) : m.testBit i = n.testBit i := by
  induction width with
  | zero => exact absurd hi (Nat.not_lt_zero i)
  | succ width ih =>
      obtain ⟨hbit, hrest⟩ := List.cons.inj h
      rcases Nat.lt_succ_iff_lt_or_eq.mp hi with hlt | rfl
      · exact ih hrest hlt
      · exact hbit

theorem bitRow_injective {width m n : ℕ} (hm : m < 2 ^ width) (hn : n < 2 ^ width)
    (h : bitRow width m = bitRow width n) : m = n := by
  apply Nat.eq_of_testBit_eq
  intro i
  by_cases hi : i < width
  · exact testBit_of_bitRow h hi
  · have hpow : 2 ^ width ≤ 2 ^ i := Nat.pow_le_pow_right (by omega) (by omega)
    rw [Nat.testBit_lt_two_pow (hm.trans_le hpow), Nat.testBit_lt_two_pow (hn.trans_le hpow)]

/-! ## Bytes -/

def byteBits (bs : Bytes) : List Bool := bs.flatMap fun b => bitRow 8 b.toNat

theorem byteBits_append (as bs : Bytes) : byteBits (as ++ bs) = byteBits as ++ byteBits bs :=
  List.flatMap_append

@[simp] theorem byteBits_length (bs : Bytes) : (byteBits bs).length = 8 * bs.length := by
  induction bs with
  | nil => rfl
  | cons b bs ih =>
      rw [byteBits, List.flatMap_cons, List.length_append, bitRow_length]
      change 8 + (byteBits bs).length = _
      rw [ih, List.length_cons]
      omega

/-- The bytes in front of less than a byte of bits are determined. -/
theorem byteBits_injective {as bs : Bytes} {x y : List Bool}
    (h : byteBits as ++ x = byteBits bs ++ y) (hx : x.length < 8) (hy : y.length < 8) :
    as = bs := by
  induction as generalizing bs with
  | nil =>
      cases bs with
      | nil => rfl
      | cons b bs =>
          have hlength := congrArg List.length h
          simp only [List.length_append, byteBits_length, List.length_cons, List.length_nil] at hlength
          omega
  | cons a as ih =>
      cases bs with
      | nil =>
          have hlength := congrArg List.length h
          simp only [List.length_append, byteBits_length, List.length_cons, List.length_nil] at hlength
          omega
      | cons b bs =>
          simp only [byteBits, List.flatMap_cons, List.append_assoc] at h
          obtain ⟨hbyte, hrest⟩ := List.append_inj h (by simp)
          have hab : a = b := UInt8.toNat_inj.mp (bitRow_injective a.toNat_lt b.toNat_lt hbyte)
          rw [hab, ih hrest]

/-! ## Groups of six bits -/

def sextets : Bytes → List ℕ
  | a :: b :: c :: rest =>
      a.toNat / 4 :: (a.toNat % 4 * 16 + b.toNat / 16) :: (b.toNat % 16 * 4 + c.toNat / 64) ::
        c.toNat % 64 :: sextets rest
  | [a, b] => [a.toNat / 4, a.toNat % 4 * 16 + b.toNat / 16, b.toNat % 16 * 4]
  | [a] => [a.toNat / 4, a.toNat % 4 * 16]
  | [] => []

def sextetBits (vs : List ℕ) : List Bool := vs.flatMap (bitRow 6)

theorem sextets_lt (bs : Bytes) : ∀ v ∈ sextets bs, v < 64 := by
  fun_induction sextets bs with
  | case1 a b c rest ih =>
      have ha := a.toNat_lt
      have hb := b.toNat_lt
      have hc := c.toNat_lt
      simp only [List.forall_mem_cons]
      exact ⟨by omega, by omega, by omega, by omega, ih⟩
  | case2 a b =>
      have ha := a.toNat_lt
      have hb := b.toNat_lt
      simp only [List.forall_mem_cons]
      exact ⟨by omega, by omega, by omega, nofun⟩
  | case3 a =>
      have ha := a.toNat_lt
      simp only [List.forall_mem_cons]
      exact ⟨by omega, by omega, nofun⟩
  | case4 => nofun

/-- Four groups of six bits and three of eight are the same row of bits. -/
theorem bitRow_regroup (n : ℕ) : bitRow 6 (n / 2 ^ 18) ++ (bitRow 6 (n / 2 ^ 12) ++ (bitRow 6 (n / 2 ^ 6) ++
    bitRow 6 n)) = bitRow 8 (n / 2 ^ 16) ++ (bitRow 8 (n / 2 ^ 8) ++ bitRow 8 n) := by
  have hsix : bitRow (6 + (6 + (6 + 6))) n = _ := bitRow_add 6 18 n
  have height : bitRow (8 + (8 + 8)) n = _ := bitRow_add 8 16 n
  rw [bitRow_add 6 12, bitRow_add 6 6] at hsix
  rw [bitRow_add 8 8] at height
  rw [← hsix, ← height]

theorem bitRow_group (a : ℕ) {b c : ℕ} (hb : b < 256) (hc : c < 256) :
    bitRow 6 (a / 4) ++ (bitRow 6 (a % 4 * 16 + b / 16) ++ (bitRow 6 (b % 16 * 4 + c / 64) ++
      bitRow 6 (c % 64))) = bitRow 8 a ++ (bitRow 8 b ++ bitRow 8 c) := by
  have hgroup := bitRow_regroup (a * 65536 + b * 256 + c)
  rw [bitRow_congr (m := (a * 65536 + b * 256 + c) / 2 ^ 18) (n := a / 4) (by omega),
    bitRow_congr (m := (a * 65536 + b * 256 + c) / 2 ^ 12) (n := a % 4 * 16 + b / 16) (by omega),
    bitRow_congr (m := (a * 65536 + b * 256 + c) / 2 ^ 6) (n := b % 16 * 4 + c / 64) (by omega),
    @bitRow_congr 6 (a * 65536 + b * 256 + c) (c % 64) (by omega),
    bitRow_congr (m := (a * 65536 + b * 256 + c) / 2 ^ 16) (n := a) (by omega),
    bitRow_congr (m := (a * 65536 + b * 256 + c) / 2 ^ 8) (n := b) (by omega),
    @bitRow_congr 8 (a * 65536 + b * 256 + c) c (by omega)] at hgroup
  exact hgroup

theorem bitRow_zero (width : ℕ) : bitRow width 0 = List.replicate width false := by
  induction width with
  | zero => rfl
  | succ width ih => rw [bitRow, ih, Nat.zero_testBit, List.replicate_succ]

/-- The groups hold the bits of the bytes and then less than a byte of zeros. -/
theorem sextetBits_sextets (bs : Bytes) :
    ∃ k < 8, sextetBits (sextets bs) = byteBits bs ++ List.replicate k false := by
  fun_induction sextets bs with
  | case1 a b c rest ih =>
      obtain ⟨k, hk, hrest⟩ := ih
      refine ⟨k, hk, ?_⟩
      have hgroup := bitRow_group a.toNat b.toNat_lt c.toNat_lt
      change bitRow 6 _ ++ (bitRow 6 _ ++ (bitRow 6 _ ++ (bitRow 6 _ ++ sextetBits (sextets rest)))) =
        (bitRow 8 a.toNat ++ (bitRow 8 b.toNat ++ (bitRow 8 c.toNat ++ byteBits rest))) ++ _
      rw [hrest]
      simp only [← List.append_assoc] at hgroup ⊢
      rw [hgroup]
  | case2 a b =>
      refine ⟨2, by omega, ?_⟩
      have hgroup := bitRow_group a.toNat b.toNat_lt (show 0 < 256 by omega)
      rw [Nat.zero_div, Nat.zero_mod, bitRow_zero, bitRow_zero,
        show List.replicate 8 false = List.replicate 2 false ++ List.replicate 6 false from rfl] at hgroup
      simp only [← List.append_assoc] at hgroup
      have hfront := List.append_cancel_right hgroup
      simpa [sextetBits, byteBits] using hfront
  | case3 a =>
      refine ⟨4, by omega, ?_⟩
      have hgroup := bitRow_group a.toNat (show 0 < 256 by omega) (show 0 < 256 by omega)
      simp only [Nat.zero_div, Nat.zero_mod, Nat.zero_mul, Nat.add_zero, bitRow_zero] at hgroup
      have hfront : bitRow 6 (a.toNat / 4) ++ bitRow 6 (a.toNat % 4 * 16) ++ List.replicate 12 false =
          bitRow 8 a.toNat ++ List.replicate 4 false ++ List.replicate 12 false := by
        simpa using hgroup
      simpa [sextetBits, byteBits] using List.append_cancel_right hfront
  | case4 => exact ⟨0, by omega, rfl⟩

/-! ## Texts -/

def alphabet : List Char :=
  ['A', 'B', 'C', 'D', 'E', 'F', 'G', 'H', 'I', 'J', 'K', 'L', 'M', 'N', 'O', 'P',
    'Q', 'R', 'S', 'T', 'U', 'V', 'W', 'X', 'Y', 'Z', 'a', 'b', 'c', 'd', 'e', 'f',
    'g', 'h', 'i', 'j', 'k', 'l', 'm', 'n', 'o', 'p', 'q', 'r', 's', 't', 'u', 'v',
    'w', 'x', 'y', 'z', '0', '1', '2', '3', '4', '5', '6', '7', '8', '9', '+', '/']

/-- The character of a group. -/
def symbol (v : ℕ) : Char := alphabet.getD v '='

def encode (bs : Bytes) : String := String.ofList ((sextets bs).map symbol)

def padding (bs : Bytes) : String :=
  String.ofList (List.replicate ((3 - bs.length % 3) % 3) '=')

def encodePadded (bs : Bytes) : String := encode bs ++ padding bs

example : encodePadded [0x50, 0x69, 0x6E, 0x68] = "UGluaA==" := by decide

end Pinhead.Base64Texts
