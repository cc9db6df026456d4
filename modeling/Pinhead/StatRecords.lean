import Pinhead.NinepScripts

/-!
# Stat records and a reader of their grammar

A stat record is a 2-byte size, the fixed fields type, dev, qid, mode, atime,
mtime and length, and four counted strings. The reader below follows that grammar
literally: the size counts the bytes after it, a counted string is a 2-byte length
and that many bytes, and every record has to be consumed to its last byte.

The encoder announces two bytes for each of uid, gid and muid and writes one. The
record size is still that of the bytes written, so the fault shows inside the
record: the reader falls two bytes behind at gid and finds no room for it.
-/
namespace Pinhead.StatRecords
open ByteStrings NinepHandlers NinepDatagrams

/-! ## Readers -/

/-- A value and the input after it, or nothing when the input is too short. -/
abbrev Reader (A : Type) := Bytes → Option (A × Bytes)

def takeBytes (n : ℕ) : Reader Bytes := fun bs =>
  if n ≤ bs.length then some (bs.take n, bs.drop n) else none

def readInt (width : ℕ) : Reader ℕ := fun bs =>
  (takeBytes width bs).map fun x => (leValue x.1, x.2)

/-- A 2-byte length and that many bytes. -/
def readCounted : Reader Bytes := fun bs =>
  (readInt 2 bs).bind fun x => takeBytes x.1 x.2

theorem takeBytes_append (bs rest : Bytes) : takeBytes bs.length (bs ++ rest) = some (bs, rest) := by
  simp [takeBytes]

theorem readInt_append (width n : ℕ) (rest : Bytes) :
    readInt width (leBytes width n ++ rest) = some (n % 256 ^ width, rest) := by
  have htake := takeBytes_append (leBytes width n) rest
  rw [leBytes_length] at htake
  rw [readInt, htake]
  simp [leValue_leBytes]

theorem readCounted_append {bs : Bytes} (h : bs.length < 65536) (rest : Bytes) :
    readCounted (leBytes 2 bs.length ++ (bs ++ rest)) = some (bs, rest) := by
  have hmod : bs.length % 256 ^ 2 = bs.length := Nat.mod_eq_of_lt h
  rw [readCounted, readInt_append, hmod]
  exact takeBytes_append bs rest

theorem takeBytes_length {n : ℕ} {bs rest : Bytes} {x : Bytes} (h : takeBytes n bs = some (x, rest)) :
    x.length = n ∧ x.length + rest.length = bs.length := by
  unfold takeBytes at h
  split at h
  · obtain ⟨rfl, rfl⟩ := Prod.mk.inj (Option.some.inj h)
    rw [List.length_take, List.length_drop]
    omega
  · cases h

theorem readInt_length {width n : ℕ} {bs rest : Bytes} (h : readInt width bs = some (n, rest)) :
    n < 256 ^ width ∧ width + rest.length = bs.length := by
  obtain ⟨⟨x, rest'⟩, htake, hx⟩ := Option.map_eq_some_iff.mp h
  obtain ⟨rfl, rfl⟩ := Prod.mk.inj hx
  obtain ⟨hwidth, hlength⟩ := takeBytes_length htake
  have hlt := leValue_lt x
  rw [hwidth] at hlt hlength
  exact ⟨hlt, hlength⟩

theorem readCounted_length {bs rest : Bytes} {x : Bytes} (h : readCounted bs = some (x, rest)) :
    x.length < 65536 ∧ 2 + x.length + rest.length = bs.length := by
  obtain ⟨⟨n, rest'⟩, hn, hx⟩ := Option.bind_eq_some_iff.mp h
  obtain ⟨hlt, hint⟩ := readInt_length hn
  obtain ⟨hlength, htake⟩ := takeBytes_length hx
  dsimp only at hlength htake
  omega

/-! ## The grammar -/

/-- What a record says of a file: its name as bytes, its qid, its length and
whether the mode marks a directory. -/
structure Described where
  name : Bytes
  qid : Qid
  length : ℕ
  isDir : Bool
  deriving DecidableEq

def readQid : Reader Qid := fun bs => do
  let (ty, bs) ← readInt 1 bs
  let (version, bs) ← readInt 4 bs
  let (path, bs) ← readInt 8 bs
  some (⟨UInt8.ofNat ty, version, path⟩, bs)

/-- type[2] dev[4] qid[13] mode[4] atime[4] mtime[4] length[8] name[s] uid[s]
gid[s] muid[s], and nothing after it. -/
def readFields (bs : Bytes) : Option Described := do
  let (_, bs) ← readInt 2 bs
  let (_, bs) ← readInt 4 bs
  let (qid, bs) ← readQid bs
  let (mode, bs) ← readInt 4 bs
  let (_, bs) ← readInt 4 bs
  let (_, bs) ← readInt 4 bs
  let (length, bs) ← readInt 8 bs
  let (name, bs) ← readCounted bs
  let (_, bs) ← readCounted bs
  let (_, bs) ← readCounted bs
  let (_, bs) ← readCounted bs
  if bs = [] then some ⟨name, qid, length, mode.testBit 31⟩ else none

def readStat : Reader Described := fun bs => do
  let (size, bs) ← readInt 2 bs
  let (record, bs) ← takeBytes size bs
  let d ← readFields record
  some (d, bs)

/-- Records up to the end of the input; `fuel` bounds their number. -/
def readRecords : ℕ → Bytes → Option (List Described)
  | _, [] => some []
  | 0, _ :: _ => none
  | fuel + 1, b :: bs => do
      let (d, rest) ← readStat (b :: bs)
      let ds ← readRecords fuel rest
      some (d :: ds)

/-- A record takes at least its two size bytes, so the input bounds their number. -/
def readStats (bs : Bytes) : Option (List Described) := readRecords bs.length bs

/-! ## What the encoder writes -/

structure Entry where
  name : String
  qid : Qid
  length : ℕ
  isDir : Bool

def Entry.described (e : Entry) : Described := ⟨asBytes e.name, e.qid, e.length, e.isDir⟩

/-- One record, written at clock time `now`. -/
def Entry.encode (now : ℕ) (e : Entry) : Bytes := statBytes now e.name e.qid e.length e.isDir

/-- The fixed fields of a record. -/
def fixedFields (now : ℕ) (qid : Qid) (length : ℕ) (isDir : Bool) : Bytes :=
  leBytes 2 0 ++ leBytes 4 0 ++ encodeQid qid ++ leBytes 4 (if isDir then 0x800001ed else 0x1ed) ++
    leBytes 4 now ++ leBytes 4 now ++ leBytes 8 length

/-- The name field and the three owner fields as they are written. -/
def nameField (name : String) : Bytes := leBytes 2 (asBytes name).length ++ asBytes name

def ownerFields : Bytes :=
  leBytes 2 2 ++ asBytes "0" ++ leBytes 2 2 ++ asBytes "0" ++ leBytes 2 2 ++ asBytes "0"

theorem fixedFields_length (now : ℕ) (qid : Qid) (length : ℕ) (isDir : Bool) :
    (fixedFields now qid length isDir).length = 39 := by
  simp [fixedFields, encodeQid]

theorem ownerFields_eq : ownerFields = [2, 0, 0x30, 2, 0, 0x30, 2, 0, 0x30] := by decide

theorem written_length (now : ℕ) (name : String) (qid : Qid) (length : ℕ) (isDir : Bool) :
    (fixedFields now qid length isDir ++ (nameField name ++ ownerFields)).length =
      50 + (asBytes name).length := by
  rw [List.length_append, List.length_append, fixedFields_length, ownerFields_eq, nameField,
    List.length_append, leBytes_length]
  simp only [List.length_cons, List.length_nil]
  omega

theorem statBytes_eq (now : ℕ) (name : String) (qid : Qid) (length : ℕ) (isDir : Bool) :
    statBytes now name qid length isDir = leBytes 2 (50 + (asBytes name).length) ++
      (fixedFields now qid length isDir ++ (nameField name ++ ownerFields)) := by
  have hbody : leBytes 2 0 ++ leBytes 4 0 ++ encodeQid qid ++
      leBytes 4 (if isDir then 0x800001ed else 0x1ed) ++ leBytes 4 now ++ leBytes 4 now ++
      leBytes 8 length ++ leBytes 2 (asBytes name).length ++ asBytes name ++ leBytes 2 2 ++
      asBytes "0" ++ leBytes 2 2 ++ asBytes "0" ++ leBytes 2 2 ++ asBytes "0" =
      fixedFields now qid length isDir ++ (nameField name ++ ownerFields) := by
    simp only [fixedFields, nameField, ownerFields, List.append_assoc]
  unfold statBytes
  dsimp only
  rw [hbody, written_length]

theorem statBytes_length (now : ℕ) (name : String) (qid : Qid) (length : ℕ) (isDir : Bool) :
    (statBytes now name qid length isDir).length = 52 + (asBytes name).length := by
  rw [statBytes_eq, List.length_append, leBytes_length, written_length]
  omega

/-- The two bytes before the name field are the upper end of the length. -/
theorem statBytes_high (now : ℕ) (name : String) (qid : Qid) (length : ℕ) (isDir : Bool) :
    ∃ head tail, head.length = 39 ∧ statBytes now name qid length isDir =
      head ++ (leBytes 2 (length / 256 ^ 6) ++ tail) := by
  have hsplit : leBytes 8 length = leBytes 6 length ++ leBytes 2 (length / 256 ^ 6) :=
    leBytes_add 6 2 length
  refine ⟨leBytes 2 (50 + (asBytes name).length) ++ (leBytes 2 0 ++ leBytes 4 0 ++ encodeQid qid ++
    leBytes 4 (if isDir then 0x800001ed else 0x1ed) ++ leBytes 4 now ++ leBytes 4 now ++
    leBytes 6 length), nameField name ++ ownerFields, by simp [encodeQid], ?_⟩
  rw [statBytes_eq, fixedFields, hsplit]
  simp only [List.append_assoc]

/-- Where the name field would be without the size, the length ends. -/
theorem uintAt_high (now : ℕ) (name : String) (qid : Qid) (length : ℕ) (isDir : Bool) :
    uintAt 2 (statBytes now name qid length isDir) 39 = length / 256 ^ 6 % 256 ^ 2 := by
  obtain ⟨head, tail, hhead, hsplit⟩ := statBytes_high now name qid length isDir
  rw [hsplit, uintAt, List.drop_left' hhead, List.take_left' (leBytes_length 2 _), leValue_leBytes]

theorem uintAt_early (now : ℕ) (name : String) (qid : Qid) {length : ℕ} (isDir : Bool)
    (h : length < 2 ^ 48) : uintAt 2 (statBytes now name qid length isDir) 39 = 0 := by
  have hdiv : length / 256 ^ 6 = 0 := Nat.div_eq_of_lt (by simpa using h)
  rw [uintAt_high, hdiv, Nat.zero_mod]

/-! ## Reading back what was written -/

theorem readQid_append (q : Qid) (rest : Bytes) : readQid (encodeQid q ++ rest) =
    some (⟨q.ty, q.version % 256 ^ 4, q.path % 256 ^ 8⟩, rest) := by
  have hty : leBytes 1 q.ty.toNat = [q.ty] := by simp [leBytes]
  have hencode : encodeQid q ++ rest =
      leBytes 1 q.ty.toNat ++ (leBytes 4 q.version ++ (leBytes 8 q.path ++ rest)) := by
    rw [hty]
    simp [encodeQid]
  have hbyte : q.ty.toNat % 256 ^ 1 = q.ty.toNat := Nat.mod_eq_of_lt q.ty.toNat_lt
  rw [hencode]
  simp only [readQid, readInt_append, hbyte, Option.bind_eq_bind, Option.bind_some,
    UInt8.ofNat_toNat]

theorem readFields_fixed (now : ℕ) (qid : Qid) (length : ℕ) (isDir : Bool) (rest : Bytes) :
    ∃ q l mode, readFields (fixedFields now qid length isDir ++ rest) = (do
      let (name, bs) ← readCounted rest
      let (_, bs) ← readCounted bs
      let (_, bs) ← readCounted bs
      let (_, bs) ← readCounted bs
      if bs = [] then some ⟨name, q, l, mode⟩ else none) := by
  refine ⟨⟨qid.ty, qid.version % 256 ^ 4, qid.path % 256 ^ 8⟩, length % 256 ^ 8,
    Nat.testBit ((if isDir then 0x800001ed else 0x1ed) % 256 ^ 4) 31, ?_⟩
  simp only [readFields, fixedFields, List.append_assoc, readInt_append, readQid_append,
    Option.bind_eq_bind, Option.bind_some]

/-- The owner fields as written do not parse: after a uid of two bytes the next
length field reads 0x3000. -/
theorem readCounted_owner : ∃ uid rest, readCounted ownerFields = some (uid, rest) ∧
    readCounted rest = none :=
  ⟨[0x30, 2], [0, 0x30, 2, 0, 0x30], by decide, by decide⟩

theorem readFields_written (now : ℕ) (name : String) (qid : Qid) (length : ℕ) (isDir : Bool)
    (h : (asBytes name).length < 65536) :
    readFields (fixedFields now qid length isDir ++ (nameField name ++ ownerFields)) = none := by
  obtain ⟨q, l, mode, hfixed⟩ :=
    readFields_fixed now qid length isDir (nameField name ++ ownerFields)
  obtain ⟨uid, rest, huid, hgid⟩ := readCounted_owner
  have hname : readCounted (nameField name ++ ownerFields) = some (asBytes name, ownerFields) := by
    rw [nameField, List.append_assoc]
    exact readCounted_append h ownerFields
  rw [hfixed, hname]
  simp only [Option.bind_eq_bind, Option.bind_some, huid, hgid, Option.bind_none]

theorem readFields_length {bs : Bytes} {d : Described} (h : readFields bs = some d) :
    d.name.length < 65536 ∧ 47 + d.name.length ≤ bs.length := by
  simp only [readFields, readQid, Option.bind_eq_bind, Option.bind_eq_some_iff] at h
  obtain ⟨⟨_, b₁⟩, h₁, ⟨_, b₂⟩, h₂, ⟨_, b₅⟩, ⟨⟨_, b₃⟩, h₃, ⟨_, b₄⟩, h₄, ⟨_, b₅'⟩, h₅, hq⟩,
    ⟨_, b₆⟩, h₆, ⟨_, b₇⟩, h₇, ⟨_, b₈⟩, h₈, ⟨_, b₉⟩, h₉, ⟨name, b₁₀⟩, h₁₀, ⟨_, b₁₁⟩, h₁₁,
    ⟨_, b₁₂⟩, h₁₂, ⟨_, b₁₃⟩, h₁₃, hend⟩ := h
  obtain ⟨_, rfl⟩ := Prod.mk.inj (Option.some.inj hq)
  have l₁ := (readInt_length h₁).2
  have l₂ := (readInt_length h₂).2
  have l₃ := (readInt_length h₃).2
  have l₄ := (readInt_length h₄).2
  have l₅ := (readInt_length h₅).2
  have l₆ := (readInt_length h₆).2
  have l₇ := (readInt_length h₇).2
  have l₈ := (readInt_length h₈).2
  have l₉ := (readInt_length h₉).2
  obtain ⟨hshort, l₁₀⟩ := readCounted_length h₁₀
  have l₁₁ := (readCounted_length h₁₁).2
  have l₁₂ := (readCounted_length h₁₂).2
  have l₁₃ := (readCounted_length h₁₃).2
  split at hend
  · have hd := Option.some.inj hend
    subst d
    dsimp only at *
    exact ⟨hshort, by omega⟩
  · cases hend

/-- No record that the encoder writes reads back as the entry it was written for. -/
theorem readStat_written (now : ℕ) (e : Entry) (rest rest' : Bytes) :
    readStat (e.encode now ++ rest) ≠ some (e.described, rest') := by
  intro hread
  rw [Entry.encode, statBytes_eq, List.append_assoc] at hread
  simp only [readStat, readInt_append, Option.bind_eq_bind, Option.bind_some,
    Option.bind_eq_some_iff] at hread
  obtain ⟨⟨record, left⟩, htake, d, hfields, hd⟩ := hread
  obtain ⟨rfl, _⟩ := Prod.mk.inj (Option.some.inj hd)
  obtain ⟨hshort, hroom⟩ := readFields_length hfields
  obtain ⟨hsize, _⟩ := takeBytes_length htake
  simp only [Entry.described] at hshort hroom hfields
  -- A size that wrapped around would leave no room for the name.
  have hfits : 50 + (asBytes e.name).length < 65536 := by
    by_contra hwrap
    norm_num at hsize
    omega
  have hexact : (50 + (asBytes e.name).length) % 256 ^ 2 =
      (fixedFields now e.qid e.length e.isDir ++ (nameField e.name ++ ownerFields)).length := by
    rw [written_length]
    exact Nat.mod_eq_of_lt hfits
  rw [hexact, takeBytes_append] at htake
  obtain ⟨rfl, _⟩ := Prod.mk.inj (Option.some.inj htake)
  rw [readFields_written now e.name e.qid e.length e.isDir (by omega)] at hfields
  cases hfields

/-- A listing of any number of entries, each with its own clock reading, reads
back as its entries only when there are none. -/
theorem stat_records_read_back_iff (l : List (ℕ × Entry)) :
    readStats (l.flatMap fun x => x.2.encode x.1) = some (l.map fun x => x.2.described) ↔
      l = [] := by
  constructor
  · intro hread
    cases l with
    | nil => rfl
    | cons x xs =>
        obtain ⟨now, e⟩ := x
        generalize hrest : (xs.flatMap fun x => x.2.encode x.1) = rest at hread
        have hcons : ∃ b bs, e.encode now ++ rest = b :: bs :=
          ⟨_, _, by rw [Entry.encode, statBytes_eq]; rfl⟩
        obtain ⟨b, bs, hb⟩ := hcons
        rw [List.flatMap_cons, hrest, hb] at hread
        simp only [readStats, List.length_cons, readRecords, Option.bind_eq_bind,
          Option.bind_eq_some_iff] at hread
        obtain ⟨⟨d, left⟩, hstat, ds, _, hlist⟩ := hread
        have hhead : d = e.described := (List.cons.inj (Option.some.inj hlist)).1
        rw [hhead, ← hb] at hstat
        exact (readStat_written now e rest left hstat).elim
  · rintro rfl
    rfl

/-- A single entry named `a` is already not read back. -/
theorem one_record_not_read_back :
    ¬ ∀ l : List (ℕ × Entry), readStats (l.flatMap fun x => x.2.encode x.1) =
      some (l.map fun x => x.2.described) := by
  intro h
  have hone : readStats (statBytes 0 "a" ⟨0, 0, 1⟩ 0 false) = none := by decide +kernel
  have hread := h [(0, ⟨"a", ⟨0, 0, 1⟩, 0, false⟩)]
  simp only [List.flatMap_cons, List.flatMap_nil, List.append_nil, Entry.encode] at hread
  rw [hone] at hread
  cases hread

end Pinhead.StatRecords
