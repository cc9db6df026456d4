import Pinhead.Base64Texts
import Pinhead.SshAuth

/-!
# The base64 decoder

The decoder collects six bits for each character in a 32-bit buffer and takes a byte out
of it as soon as there are eight. The bits of the characters so far are at every point
those of the bytes written followed by those in the buffer, of which there are less than
eight; so none is lost, and what the decoder writes is the byte string that was encoded.
-/
namespace Pinhead.Base64Decoding
open ByteStrings Base64Texts SshAuth

/-! ## The loop -/

structure Decoder where
  result : Bytes
  buf : UInt32
  bits : ℕ
  deriving DecidableEq, Repr

def Decoder.new : Decoder := ⟨[], 0, 0⟩

/-- One character, by its place in the alphabet. -/
def Decoder.push (d : Decoder) (val : UInt32) : Decoder :=
  let buf := d.buf <<< 6 ||| val
  let bits := d.bits + 6
  if bits ≥ 8 then
    let bits := bits - 8
    ⟨d.result ++ [(buf >>> UInt32.ofNat bits).toUInt8], buf &&& ((1 <<< UInt32.ofNat bits) - 1), bits⟩
  else ⟨d.result, buf, bits⟩

/-- Stops at the first padding character. -/
def decodeLoop (d : Decoder) : Bytes → Except String Decoder
  | [] => .ok d
  | c :: cs =>
      if c = 61 then .ok d
      else
        match base64Alphabet.idxOf? c with
        | none => .error "invalid base64"
        | some val => decodeLoop (d.push (UInt32.ofNat val)) cs

def simpleBase64Decode (input : String) : Except String Bytes :=
  (decodeLoop .new (asBytes input)).map Decoder.result

/-! ## One character -/

/-- The buffer holds the bits that have not been written out yet. -/
structure Decoder.Sound (d : Decoder) : Prop where
  bits_lt : d.bits < 8
  buf_lt : d.buf.toNat < 2 ^ d.bits

/-- The bits of the bytes written and of the buffer. -/
def Decoder.row (d : Decoder) : List Bool := byteBits d.result ++ bitRow d.bits d.buf.toNat

theorem sound_new : Decoder.new.Sound := ⟨by decide, by decide⟩

section
variable {d : Decoder} {val : ℕ}

theorem Decoder.Sound.buf_small (hd : d.Sound) : d.buf.toNat < 128 :=
  hd.buf_lt.trans_le (Nat.pow_le_pow_right (by omega) (Nat.le_of_lt_succ hd.bits_lt))

/-- Nothing leaves the buffer on the left. -/
theorem Decoder.Sound.shifted (hd : d.Sound) (hval : val < 64) :
    (d.buf <<< 6 ||| UInt32.ofNat val).toNat = d.buf.toNat * 64 + val := by
  have hsmall := hd.buf_small
  have hval' : (UInt32.ofNat val).toNat = val := by
    rw [UInt32.toNat_ofNat', Nat.mod_eq_of_lt (by omega)]
  have hshift : (d.buf <<< 6).toNat = d.buf.toNat <<< 6 := by
    rw [UInt32.toNat_shiftLeft]
    change d.buf.toNat <<< 6 % 2 ^ 32 = _
    rw [Nat.shiftLeft_eq, Nat.mod_eq_of_lt (by omega)]
  rw [UInt32.toNat_or, hshift, hval', ← Nat.shiftLeft_add_eq_or_of_lt (i := 6) hval, Nat.shiftLeft_eq]

theorem mask_toNat {k : ℕ} (hk : k < 8) : ((1 : UInt32) <<< UInt32.ofNat k - 1).toNat = 2 ^ k - 1 := by
  have hpow : 2 ^ k < 2 ^ 8 := Nat.pow_lt_pow_right (by omega) hk
  have hpos : 0 < 2 ^ k := Nat.two_pow_pos k
  have hshift : ((1 : UInt32) <<< UInt32.ofNat k).toNat = 2 ^ k := by
    rw [UInt32.toNat_shiftLeft, UInt32.toNat_ofNat', Nat.mod_eq_of_lt (show k < 2 ^ 32 by omega),
      Nat.mod_eq_of_lt (show k < 32 by omega), Nat.shiftLeft_eq]
    change 1 * 2 ^ k % 2 ^ 32 = _
    omega
  rw [UInt32.toNat_sub_of_le, hshift]
  · rfl
  · rw [UInt32.le_iff_toNat_le, hshift]
    exact hpos

theorem shiftRight_toNat (n : UInt32) {k : ℕ} (hk : k < 8) :
    (n >>> UInt32.ofNat k).toNat = n.toNat / 2 ^ k := by
  rw [UInt32.toNat_shiftRight, UInt32.toNat_ofNat', Nat.mod_eq_of_lt (show k < 2 ^ 32 by omega),
    Nat.mod_eq_of_lt (show k < 32 by omega), Nat.shiftRight_eq_div_pow]

/-- With eight bits or more the highest ones make a byte. -/
theorem push_full (hd : d.Sound) (hval : val < 64) (hfull : 8 ≤ d.bits + 6) :
    ∃ buf : UInt32, buf.toNat = (d.buf.toNat * 64 + val) % 2 ^ (d.bits + 6 - 8) ∧
      d.push (UInt32.ofNat val) = ⟨d.result ++
        [UInt8.ofNat ((d.buf.toNat * 64 + val) / 2 ^ (d.bits + 6 - 8))], buf, d.bits + 6 - 8⟩ := by
  have hshifted := hd.shifted hval
  have hbits := hd.bits_lt
  have hfew : d.bits + 6 - 8 < 8 := by omega
  refine ⟨(d.buf <<< 6 ||| UInt32.ofNat val) &&& (1 <<< UInt32.ofNat (d.bits + 6 - 8) - 1), ?_, ?_⟩
  · rw [UInt32.toNat_and, mask_toNat hfew, hshifted, Nat.and_two_pow_sub_one_eq_mod]
  · have hbyte : ((d.buf <<< 6 ||| UInt32.ofNat val) >>> UInt32.ofNat (d.bits + 6 - 8)).toUInt8 =
        UInt8.ofNat ((d.buf.toNat * 64 + val) / 2 ^ (d.bits + 6 - 8)) := by
      apply UInt8.toNat_inj.mp
      rw [UInt32.toNat_toUInt8, shiftRight_toNat _ hfew, hshifted, UInt8.toNat_ofNat']
    unfold Decoder.push
    dsimp only
    rw [if_pos hfull, hbyte]

theorem push_partial (hd : d.Sound) (hval : val < 64) (hfew : ¬ 8 ≤ d.bits + 6) :
    ∃ buf : UInt32, buf.toNat = d.buf.toNat * 64 + val ∧
      d.push (UInt32.ofNat val) = ⟨d.result, buf, d.bits + 6⟩ := by
  refine ⟨d.buf <<< 6 ||| UInt32.ofNat val, hd.shifted hval, ?_⟩
  unfold Decoder.push
  exact if_neg hfew

/-- A character adds its six bits to the row. -/
theorem push_spec (hd : d.Sound) (hval : val < 64) :
    (d.push (UInt32.ofNat val)).Sound ∧
      (d.push (UInt32.ofNat val)).row = d.row ++ bitRow 6 val := by
  have hbits := hd.bits_lt
  have hrow : bitRow (d.bits + 6) (d.buf.toNat * 64 + val) =
      bitRow d.bits d.buf.toNat ++ bitRow 6 val := by
    rw [bitRow_add, show (d.buf.toNat * 64 + val) / 2 ^ 6 = d.buf.toNat by omega,
      @bitRow_congr 6 (d.buf.toNat * 64 + val) val (by omega)]
  by_cases hfull : 8 ≤ d.bits + 6
  · obtain ⟨buf, hbuf, hpush⟩ := push_full hd hval hfull
    rw [hpush]
    refine ⟨⟨show d.bits + 6 - 8 < 8 by omega, ?_⟩, ?_⟩
    · dsimp only
      rw [hbuf]
      exact Nat.mod_lt _ (Nat.two_pow_pos _)
    · have hsplit := bitRow_add 8 (d.bits + 6 - 8) (d.buf.toNat * 64 + val)
      rw [show 8 + (d.bits + 6 - 8) = d.bits + 6 by omega, hrow] at hsplit
      unfold Decoder.row
      dsimp only
      rw [List.append_assoc, hsplit, byteBits_append, List.append_assoc, hbuf,
        bitRow_congr (Nat.mod_mod _ _)]
      simp only [byteBits, List.flatMap_singleton, UInt8.toNat_ofNat']
      rw [@bitRow_congr 8 _ _ (Nat.mod_mod _ _)]
  · obtain ⟨buf, hbuf, hpush⟩ := push_partial hd hval hfull
    have hlt := hd.buf_lt
    rw [hpush]
    refine ⟨⟨show d.bits + 6 < 8 by omega, ?_⟩, ?_⟩
    · dsimp only
      rw [hbuf, Nat.pow_add]
      omega
    · unfold Decoder.row
      dsimp only
      rw [hbuf, hrow, List.append_assoc]

/-! ## The whole text -/

/-- The places in the alphabet of the characters before the padding. -/
def places (cs : Bytes) : List ℕ :=
  (cs.takeWhile (· ≠ 61)).map fun c => base64Alphabet.idxOf c

theorem decodeLoop_push {c : UInt8} (hc : c ≠ 61) (h : c ∈ base64Alphabet) (cs : Bytes) :
    decodeLoop d (c :: cs) = decodeLoop (d.push (UInt32.ofNat (base64Alphabet.idxOf c))) cs := by
  rw [decodeLoop, if_neg hc, idxOf?_of_mem h]

theorem decodeLoop_refused {c : UInt8} (hc : c ≠ 61) (h : c ∉ base64Alphabet) (cs : Bytes) :
    decodeLoop d (c :: cs) = .error "invalid base64" := by
  rw [decodeLoop, if_neg hc, List.idxOf?_eq_none_iff.mpr h]

theorem place_lt {c : UInt8} (h : c ∈ base64Alphabet) : base64Alphabet.idxOf c < 64 :=
  List.idxOf_lt_length_of_mem h

/-- The row holds the bits of all characters so far, and no character is outside the
alphabet. -/
theorem decodeLoop_spec (hd : d.Sound) {cs : Bytes} {d' : Decoder} (h : decodeLoop d cs = .ok d') :
    d'.Sound ∧ d'.row = d.row ++ sextetBits (places cs) ∧
      ∀ c ∈ cs.takeWhile (· ≠ 61), c ∈ base64Alphabet := by
  induction cs generalizing d with
  | nil =>
      obtain rfl := Except.ok.inj h
      exact ⟨hd, (List.append_nil _).symm, nofun⟩
  | cons c cs ih =>
      by_cases hc : c = 61
      · subst hc
        obtain rfl := Except.ok.inj h
        exact ⟨hd, (List.append_nil _).symm, nofun⟩
      · by_cases hmem : c ∈ base64Alphabet
        · rw [decodeLoop_push hc hmem] at h
          obtain ⟨hpush, hrow⟩ := push_spec hd (place_lt hmem)
          obtain ⟨hd', hrow', hall⟩ := ih hpush h
          have htake : (c :: cs).takeWhile (· ≠ 61) = c :: cs.takeWhile (· ≠ 61) := by
            simp [hc]
          refine ⟨hd', ?_, ?_⟩
          · rw [hrow', hrow, List.append_assoc, show places (c :: cs) = base64Alphabet.idxOf c :: places cs by
              rw [places, htake, List.map_cons, places]]
            rfl
          · rw [htake]
            exact List.forall_mem_cons.mpr ⟨hmem, hall⟩
        · rw [decodeLoop_refused hc hmem] at h
          cases h

end

/-! ## Texts -/

def byteOf (c : Char) : UInt8 := UInt8.ofNat c.toNat

theorem alphabet_ascii : ∀ c ∈ alphabet, c.toNat < 128 := by
  have hall : (alphabet.all fun c => c.toNat < 128) = true := by decide
  intro c hc
  simpa using List.all_eq_true.mp hall c hc

theorem alphabet_nodup : alphabet.Nodup := by decide

theorem base64Alphabet_eq : base64Alphabet = alphabet.map byteOf := by
  have htext : "ABCDEFGHIJKLMNOPQRSTUVWXYZabcdefghijklmnopqrstuvwxyz0123456789+/" =
      String.ofList alphabet := rfl
  exact (congrArg asBytes htext).trans (asBytes_ascii alphabet_ascii)

theorem byteOf_injective {c c' : Char} (hc : c.toNat < 128) (hc' : c'.toNat < 128)
    (h : byteOf c = byteOf c') : c = c' := by
  have hbyte := congrArg UInt8.toNat h
  rw [byteOf, byteOf, toNat_byte (by omega), toNat_byte (by omega)] at hbyte
  exact Char.toNat_inj.mp hbyte

theorem byteOf_mem {c : Char} (hc : c.toNat < 128) : byteOf c ∈ base64Alphabet ↔ c ∈ alphabet := by
  rw [base64Alphabet_eq, List.mem_map]
  constructor
  · rintro ⟨c', hc', heq⟩
    exact byteOf_injective (alphabet_ascii c' hc') hc heq ▸ hc'
  · exact fun h => ⟨c, h, rfl⟩

/-- A character outside the alphabet is refused. -/
theorem decodeLoop_invalid {cs : List Char} {c : Char} (hc : c ∈ cs.takeWhile (· ≠ '='))
    (hout : c ∉ alphabet) (d : Decoder) :
    decodeLoop d (cs.flatMap String.utf8EncodeChar) = .error "invalid base64" := by
  induction cs generalizing d with
  | nil => cases hc
  | cons x cs ih =>
      have hx : x ≠ '=' := by
        rintro rfl
        simp at hc
      rw [List.takeWhile_cons, if_pos (by simpa using hx), List.mem_cons] at hc
      rw [List.flatMap_cons]
      by_cases hascii : x.toNat < 128
      · have hbyte : byteOf x ≠ 61 := fun h => hx (byteOf_injective hascii (by decide) h)
        rw [utf8EncodeChar_ascii hascii, List.singleton_append]
        change decodeLoop d (byteOf x :: _) = _
        by_cases hmem : x ∈ alphabet
        · rw [decodeLoop_push hbyte ((byteOf_mem hascii).mpr hmem)]
          refine ih (hc.resolve_left ?_) _
          rintro rfl
          exact hout hmem
        · exact decodeLoop_refused hbyte (fun h => hmem ((byteOf_mem hascii).mp h)) _
      · obtain ⟨b, bs, hencode, hwide⟩ := utf8EncodeChar_wide (not_lt.mp hascii)
        have hlow : ∀ b' ∈ base64Alphabet, b'.toNat < 128 := by
          rw [base64Alphabet_eq, List.forall_mem_map]
          intro c' hc'
          have hc' := alphabet_ascii c' hc'
          rwa [byteOf, toNat_byte (by omega)]
        rw [hencode, List.cons_append]
        refine decodeLoop_refused ?_ (fun h => absurd (hlow b h) (by omega)) _
        rintro rfl
        exact absurd hwide (by decide)

/-- What the decoder reads of the character of a group. -/
theorem place_symbol {v : ℕ} (hv : v < 64) :
    symbol v ∈ alphabet ∧ base64Alphabet.idxOf (byteOf (symbol v)) = v := by
  have hv' : v < alphabet.length := hv
  have hsymbol : symbol v = alphabet[v] := by
    rw [symbol, List.getD_eq_getElem?_getD, List.getElem?_eq_getElem hv', Option.getD_some]
  have hnodup : (alphabet.map byteOf).Nodup := alphabet_nodup.map_on fun c hc c' hc' =>
    byteOf_injective (alphabet_ascii c hc) (alphabet_ascii c' hc')
  refine ⟨hsymbol ▸ List.getElem_mem hv', ?_⟩
  have hplace := hnodup.idxOf_getElem v (by simpa using hv')
  rwa [List.getElem_map, ← hsymbol, ← base64Alphabet_eq] at hplace

/-! ## There and back -/

theorem asBytes_encode (bs : Bytes) :
    asBytes (encode bs) = (sextets bs).map fun v => byteOf (symbol v) := by
  have hascii : ∀ c ∈ (sextets bs).map symbol, c.toNat < 128 := by
    intro c hc
    obtain ⟨v, hv, rfl⟩ := List.mem_map.mp hc
    exact alphabet_ascii _ (place_symbol (sextets_lt bs v hv)).1
  rw [encode, asBytes_ascii hascii, List.map_map]
  rfl

/-- The characters of the groups add the bits of the groups. -/
theorem decodeLoop_groups {d : Decoder} (hd : d.Sound) {vs : List ℕ} (hvs : ∀ v ∈ vs, v < 64)
    (rest : Bytes) : ∃ d', d'.Sound ∧ d'.row = d.row ++ sextetBits vs ∧
      decodeLoop d (vs.map (fun v => byteOf (symbol v)) ++ rest) = decodeLoop d' rest := by
  induction vs generalizing d with
  | nil => exact ⟨d, hd, (List.append_nil _).symm, rfl⟩
  | cons v vs ih =>
      obtain ⟨hv, hrest⟩ := List.forall_mem_cons.mp hvs
      obtain ⟨hmem, hplace⟩ := place_symbol hv
      have hascii := alphabet_ascii _ hmem
      have hne : byteOf (symbol v) ≠ 61 := by
        intro h
        rw [@byteOf_injective _ '=' hascii (by decide) h] at hmem
        exact absurd hmem (by decide)
      obtain ⟨hpush, hrow⟩ := push_spec hd hv
      obtain ⟨d', hd', hrow', hloop⟩ := ih hpush hrest
      refine ⟨d', hd', ?_, ?_⟩
      · rw [hrow', hrow, List.append_assoc]
        rfl
      · rw [List.map_cons, List.cons_append, decodeLoop_push hne ((byteOf_mem hascii).mpr hmem), hplace,
          hloop]

/-- Whatever makes the loop stop after the groups, the bytes come back. -/
theorem decode_groups (bs rest : Bytes) (hrest : rest = [] ∨ ∃ cs, rest = 61 :: cs) :
    (decodeLoop .new (asBytes (encode bs) ++ rest)).map Decoder.result = .ok bs := by
  obtain ⟨d, hd, hrow, hloop⟩ := decodeLoop_groups sound_new (sextets_lt bs) rest
  have hstop : decodeLoop d rest = .ok d := by
    rcases hrest with rfl | ⟨cs, rfl⟩
    · rfl
    · rfl
  obtain ⟨k, hk, hbits⟩ := sextetBits_sextets bs
  have hresult : d.result = bs := by
    rw [hbits] at hrow
    exact byteBits_injective hrow (by simpa using hd.bits_lt) (by simpa using hk)
  rw [asBytes_encode, hloop, hstop, ← hresult]
  rfl

theorem decode_encode (bs : Bytes) : simpleBase64Decode (encode bs) = .ok bs := by
  have h := decode_groups bs [] (.inl rfl)
  rwa [List.append_nil] at h

theorem decode_encodePadded (bs : Bytes) : simpleBase64Decode (encodePadded bs) = .ok bs := by
  have hpadding : asBytes (padding bs) = List.replicate ((3 - bs.length % 3) % 3) 61 := by
    rw [padding, asBytes_ascii fun c hc => by rw [List.eq_of_mem_replicate hc]; decide,
      List.map_replicate]
    rfl
  rw [simpleBase64Decode, encodePadded, asBytes_append, hpadding]
  apply decode_groups
  cases (3 - bs.length % 3) % 3 with
  | zero => exact .inl rfl
  | succ k => exact .inr ⟨_, rfl⟩

/-- The decoder inverts the encoding, with and without padding. Whatever part `cs` of an
input it has read, its buffer keeps all bits that have not been written, and there is room
for the next six. A character outside the alphabet before the padding is refused. -/
theorem base64_inverted :
    (∀ bs, simpleBase64Decode (encode bs) = .ok bs ∧
      simpleBase64Decode (encodePadded bs) = .ok bs) ∧
    (∀ cs d, decodeLoop .new cs = .ok d → d.bits < 8 ∧ d.buf.toNat < 2 ^ d.bits ∧
      sextetBits (places cs) = byteBits d.result ++ bitRow d.bits d.buf.toNat ∧
      ∀ val < 64, (d.buf <<< 6 ||| UInt32.ofNat val).toNat = d.buf.toNat * 64 + val) ∧
    ∀ (input : String) (c : Char), c ∈ input.toList.takeWhile (· ≠ '=') → c ∉ alphabet →
      simpleBase64Decode input = .error "invalid base64" := by
  refine ⟨fun bs => ⟨decode_encode bs, decode_encodePadded bs⟩, ?_, ?_⟩
  · intro cs d h
    obtain ⟨hd, hrow, _⟩ := decodeLoop_spec sound_new h
    exact ⟨hd.bits_lt, hd.buf_lt, hrow.symm, fun val => hd.shifted⟩
  · intro input c hc hout
    rw [simpleBase64Decode, asBytes, decodeLoop_invalid hc hout]
    rfl

/-- Two characters leave four bits in the buffer; a blank is refused. -/
theorem base64_inverted_short :
    sextetBits (places (asBytes "QQ")) = byteBits [0x41] ++ bitRow 4 0 ∧
      simpleBase64Decode "QQ ==" = .error "invalid base64" :=
  ⟨(base64_inverted.2.1 (asBytes "QQ") ⟨[0x41], 0, 4⟩ (by decide)).2.2.1,
    base64_inverted.2.2 "QQ ==" ' ' (by decide) (by decide)⟩

/-! ## Without the width of the buffer -/

/-- The decoder of the key files is this one with a buffer of any width. -/
theorem decodeLoop_eq (hd : d.Sound) (cs : Bytes) : (decodeLoop d cs).map Decoder.result =
    (decodeBase64 d.buf.toNat d.bits cs).map (d.result ++ ·) := by
  induction cs generalizing d with
  | nil => exact congrArg Except.ok (List.append_nil _).symm
  | cons c cs ih =>
      by_cases hc : c = 61
      · subst hc
        exact congrArg Except.ok (List.append_nil _).symm
      · by_cases hmem : c ∈ base64Alphabet
        · have hval := place_lt hmem
          rw [decodeLoop_push hc hmem, ih (push_spec hd hval).1, decodeBase64, if_neg hc,
            idxOf?_of_mem hmem]
          dsimp only
          by_cases hfull : 8 ≤ d.bits + 6
          · obtain ⟨buf, hbuf, hpush⟩ := push_full hd hval hfull
            rw [hpush, if_pos hfull]
            dsimp only
            rw [hbuf]
            cases decodeBase64 ((d.buf.toNat * 64 + base64Alphabet.idxOf c) % 2 ^ (d.bits + 6 - 8))
                (d.bits + 6 - 8) cs with
            | error e => rfl
            | ok bs => exact congrArg Except.ok (List.append_assoc ..)
          · obtain ⟨buf, hbuf, hpush⟩ := push_partial hd hval hfull
            rw [hpush, if_neg hfull]
            dsimp only
            rw [hbuf]
        · rw [decodeLoop_refused hc hmem, decodeBase64, if_neg hc, List.idxOf?_eq_none_iff.mpr hmem]
          rfl

theorem simpleBase64Decode_eq (input : String) :
    SshAuth.simpleBase64Decode input = simpleBase64Decode input := by
  rw [simpleBase64Decode, decodeLoop_eq sound_new, SshAuth.simpleBase64Decode]
  change _ = (decodeBase64 0 0 (asBytes input)).map id
  cases decodeBase64 0 0 (asBytes input) with
  | error e => rfl
  | ok bs => rfl

end Pinhead.Base64Decoding
