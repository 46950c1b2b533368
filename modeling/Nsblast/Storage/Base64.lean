import Nsblast.Storage.Narrowing

/-!
# Data that are given in base 64

`base64Decode` takes four characters at a time and computes three bytes with shifts. It
does not check the characters: one that is not in the alphabet, which includes the padding,
is found at `npos`, and a byte is left out if its last character is. Missing characters at
the end are taken as padding, apart from the second one of a group.

The meaning of the format does not mention the shifts: a group of characters is a number
in base 64, and its bytes are those of that number. No other text is refused.

`Base64Encode` reads the second and the third byte of a group as signed numbers. The masks
leave nothing of the sign, so that the data have their bytes back after both functions.
-/

namespace Nsblast.Base64

open Labels

/-- `base64_chars`. -/
def alphabet : List UInt8 :=
  "ABCDEFGHIJKLMNOPQRSTUVWXYZabcdefghijklmnopqrstuvwxyz0123456789+/".toList.map
    fun ch => UInt8.ofNat ch.toNat

/-- `=`. -/
def padding : UInt8 := 0x3D

/-- `std::string_view::npos`. -/
def npos : Nat := 2 ^ 64 - 1

/-- `base64_chars.find`. -/
def find (ch : UInt8) : Nat := (alphabet.idxOf? ch).getD npos

/-- The bytes of four characters. They are narrowed to `char` when they are appended, so
that the bits which a shift of 64 bits loses are not among them. -/
def decodeGroup (index1 index2 index3 index4 : Nat) : List UInt8 :=
  let a := (index1 <<< 2) ||| (index2 >>> 4)
  let b := ((index2 &&& 0xf) <<< 4) ||| (index3 >>> 2)
  let c := ((index3 &&& 0x3) <<< 6) ||| index4
  UInt8.ofNat a :: ((if index3 ≠ npos then [UInt8.ofNat b] else []) ++
    if index4 ≠ npos then [UInt8.ofNat c] else [])

/-- `base64Decode`. The second character of a group is read without a check. -/
def base64Decode : Text → Run (List UInt8)
  | [] => .ok []
  | [_] => .outOfBounds
  | [ch1, ch2] => .ok (decodeGroup (find ch1) (find ch2) (find padding) (find padding))
  | [ch1, ch2, ch3] => .ok (decodeGroup (find ch1) (find ch2) (find ch3) (find padding))
  | ch1 :: ch2 :: ch3 :: ch4 :: rest => do
      let later ← base64Decode rest
      .ok (decodeGroup (find ch1) (find ch2) (find ch3) (find ch4) ++ later)

section meaning

/-- The character of a digit in base 64. -/
def char (digit : Fin 64) : UInt8 := alphabet.get (digit.cast (by decide))

/-- The bytes of a number, the highest first. -/
def bytesOf : Nat → Nat → List UInt8
  | 0, _ => []
  | count + 1, value => UInt8.ofNat (value / 256 ^ count) :: bytesOf count value

/-- A text and the data it stands for: groups of four digits with 24 bits, and a last one
that may have two or three digits, of which the lowest bits are left out. -/
inductive Encodes : Text → List UInt8 → Prop where
  | done : Encodes [] []
  | one (d1 d2 : Fin 64) :
      Encodes [char d1, char d2, padding, padding] (bytesOf 1 ((d1 * 64 + d2 : Nat) / 16))
  | two (d1 d2 d3 : Fin 64) :
      Encodes [char d1, char d2, char d3, padding] (bytesOf 2 (((d1 * 64 + d2) * 64 + d3 : Nat) / 4))
  | three (d1 d2 d3 d4 : Fin 64) {rest : Text} {data : List UInt8} (later : Encodes rest data) :
      Encodes (char d1 :: char d2 :: char d3 :: char d4 :: rest)
        (bytesOf 3 (((d1 * 64 + d2) * 64 + d3) * 64 + d4) ++ data)

end meaning

section decoding

variable (digit d1 d2 d3 d4 : Fin 64)

theorem find_char : find (char digit) = digit := by
  revert digit
  decide +kernel

theorem find_padding : find padding = npos := by decide +kernel

/-- The bits of two numbers side by side. -/
theorem shiftLeft_or (high : Nat) {low bits : Nat} (small : low < 2 ^ bits) :
    (high <<< bits) ||| low = high * 2 ^ bits + low := by
  rw [← Nat.shiftLeft_add_eq_or_of_lt small, Nat.shiftLeft_eq]

/-- The first byte of a group. -/
theorem first_byte :
    ((d1 : Nat) <<< 2) ||| ((d2 : Nat) >>> 4) = (d1 * 64 + d2) / 16 := by
  rw [Nat.shiftRight_eq_div_pow, shiftLeft_or _ (by omega)]
  omega

/-- The second byte of a group. -/
theorem second_byte :
    (((d2 : Nat) &&& 0xf) <<< 4) ||| ((d3 : Nat) >>> 2) = d2 % 16 * 16 + d3 / 4 := by
  have low : (d2 : Nat) &&& 0xf = d2 % 16 := Nat.and_two_pow_sub_one_eq_mod d2 4
  rw [Nat.shiftRight_eq_div_pow, low, shiftLeft_or _ (by omega)]
  omega

/-- The third byte of a group. -/
theorem third_byte :
    (((d3 : Nat) &&& 0x3) <<< 6) ||| (d4 : Nat) = d3 % 4 * 64 + d4 := by
  have low : (d3 : Nat) &&& 0x3 = d3 % 4 := Nat.and_two_pow_sub_one_eq_mod d3 2
  rw [low, shiftLeft_or _ (by omega)]
  omega

theorem ofNat_congr {first second : Nat} (same : first % 256 = second % 256) :
    UInt8.ofNat first = UInt8.ofNat second := by
  rw [← UInt8.toNat_inj, UInt8.toNat_ofNat', UInt8.toNat_ofNat']
  exact same

theorem digit_ne_npos : (digit : Nat) ≠ npos := by
  simp only [npos]
  omega

theorem decodeGroup_one :
    decodeGroup d1 d2 npos npos = bytesOf 1 ((d1 * 64 + d2 : Nat) / 16) := by
  simp [decodeGroup, first_byte, bytesOf]

theorem decodeGroup_two :
    decodeGroup d1 d2 d3 npos = bytesOf 2 (((d1 * 64 + d2) * 64 + d3 : Nat) / 4) := by
  simp only [decodeGroup, first_byte, second_byte, if_pos (digit_ne_npos d3), ne_eq, not_true_eq_false,
    if_false, List.append_nil, bytesOf, List.cons.injEq, and_true]
  exact ⟨ofNat_congr (by omega), ofNat_congr (by omega)⟩

theorem decodeGroup_three :
    decodeGroup d1 d2 d3 d4 = bytesOf 3 (((d1 * 64 + d2) * 64 + d3) * 64 + d4) := by
  simp only [decodeGroup, first_byte, second_byte, third_byte, if_pos (digit_ne_npos d3),
    if_pos (digit_ne_npos d4), List.cons_append, List.nil_append, bytesOf, List.cons.injEq, and_true]
  exact ⟨ofNat_congr (by omega), ofNat_congr (by omega), ofNat_congr (by omega)⟩

/-- A text in base 64 is decoded to the data it stands for. -/
theorem base64Decode_of_encodes {text : Text} {data : List UInt8} (encodes : Encodes text data) :
    base64Decode text = .ok data := by
  induction encodes with
  | done => rfl
  | one d1 d2 =>
    simp [base64Decode, find_char, find_padding, decodeGroup_one]
  | two d1 d2 d3 =>
    simp [base64Decode, find_char, find_padding, decodeGroup_two]
  | three d1 d2 d3 d4 later ih =>
    simp [base64Decode, find_char, decodeGroup_three, ih]

/-- `AQIDBA==`. -/
example : base64Decode [0x41, 0x51, 0x49, 0x44, 0x42, 0x41, 0x3D, 0x3D] = .ok [1, 2, 3, 4] := by
  decide +kernel

end decoding

section encoding

/-- A `char` as an `int`: it is signed. -/
def int (byte : UInt8) : BitVec 32 := byte.toBitVec.signExtend 32

/-- `base64_chars` at an index. -/
def charAt (index : BitVec 32) : Run UInt8 :=
  match alphabet[index.toNat]? with
  | some ch => .ok ch
  | none => .outOfBounds

/-- The characters of up to three bytes. The first byte is made unsigned, the others are
not. -/
def encodeGroup (first : UInt8) (second third : Option UInt8) : Run Text := do
  let a := first.toBitVec.setWidth 32
  let b := (second.map int).getD 0
  let c := (third.map int).getD 0
  let ch1 ← charAt (a.sshiftRight 2 &&& 0x3f)
  let ch2 ← charAt (((a &&& 0x3) <<< 4) ||| (b.sshiftRight 4 &&& 0xf))
  let ch3 ← if second.isSome then charAt (((b &&& 0xf) <<< 2) ||| (c.sshiftRight 6 &&& 0x3))
    else .ok padding
  let ch4 ← if third.isSome then charAt (c &&& 0x3f) else .ok padding
  .ok [ch1, ch2, ch3, ch4]

/-- `Base64Encode`. -/
def base64Encode : List UInt8 → Run Text
  | [] => .ok []
  | [first] => encodeGroup first none none
  | [first, second] => encodeGroup first (some second) none
  | first :: second :: third :: rest => do
      let group ← encodeGroup first (some second) (some third)
      let later ← base64Encode rest
      .ok (group ++ later)

theorem charAt_eq (digit : Fin 64) {index : BitVec 32} (same : index.toNat = digit) :
    charAt index = .ok (char digit) := by
  rw [charAt, same, List.getElem?_eq_getElem (by exact digit.isLt)]
  rfl

/-- The bits of a byte that the indices are made of; the sign of the byte is not among them. -/
theorem bits_of_byte (byte : UInt8) :
    ((byte.toBitVec.setWidth 32).sshiftRight 2 &&& 0x3f).toNat = byte.toNat / 4 ∧
    ((byte.toBitVec.setWidth 32 &&& 0x3) <<< 4).toNat = (byte.toNat % 4) <<< 4 ∧
    ((int byte).sshiftRight 4 &&& 0xf).toNat = byte.toNat / 16 ∧
    ((int byte &&& 0xf) <<< 2).toNat = (byte.toNat % 16) <<< 2 ∧
    ((int byte).sshiftRight 6 &&& 0x3).toNat = byte.toNat / 64 ∧
    (int byte &&& 0x3f).toNat = byte.toNat % 64 := by
  obtain ⟨bits⟩ := byte
  revert bits
  decide +kernel

/-- The digits of a group are the bits of its bytes, six at a time. -/
theorem encodeGroup_eq (first : UInt8) (second third : Option UInt8) :
    ∃ d1 d2 d3 d4 : Fin 64, (d1 : Nat) = first.toNat / 4 ∧
      (d2 : Nat) = first.toNat % 4 * 16 + (second.getD 0).toNat / 16 ∧
      (d3 : Nat) = (second.getD 0).toNat % 16 * 4 + (third.getD 0).toNat / 64 ∧
      (d4 : Nat) = (third.getD 0).toNat % 64 ∧
      encodeGroup first second third = .ok [char d1, char d2,
        if second.isSome then char d3 else padding, if third.isSome then char d4 else padding] := by
  have int_getD (byte : Option UInt8) : (byte.map int).getD 0 = int (byte.getD 0) := by
    cases byte <;> rfl
  rw [encodeGroup, int_getD, int_getD]
  generalize second.getD 0 = y, third.getD 0 = z
  obtain ⟨index1, high2, _⟩ := bits_of_byte first
  obtain ⟨_, _, low2, high3, _⟩ := bits_of_byte y
  obtain ⟨_, _, _, _, low3, index4⟩ := bits_of_byte z
  have lessX := first.toNat_lt
  have lessY := y.toNat_lt
  have lessZ := z.toNat_lt
  have index2 := BitVec.toNat_or ((first.toBitVec.setWidth 32 &&& 0x3) <<< 4)
    ((int y).sshiftRight 4 &&& 0xf)
  rw [high2, low2, shiftLeft_or _ (by omega)] at index2
  have index3 := BitVec.toNat_or ((int y &&& 0xf) <<< 2) ((int z).sshiftRight 6 &&& 0x3)
  rw [high3, low3, shiftLeft_or _ (by omega)] at index3
  have digit {value : Nat} (small : value < 64) : ∃ d : Fin 64, (d : Nat) = value := ⟨⟨_, small⟩, rfl⟩
  obtain ⟨d1, is1⟩ := digit (by omega : first.toNat / 4 < 64)
  obtain ⟨d2, is2⟩ := digit (by omega : first.toNat % 4 * 16 + y.toNat / 16 < 64)
  obtain ⟨d3, is3⟩ := digit (by omega : y.toNat % 16 * 4 + z.toNat / 64 < 64)
  obtain ⟨d4, is4⟩ := digit (by omega : z.toNat % 64 < 64)
  refine ⟨d1, d2, d3, d4, is1, is2, is3, is4, ?_⟩
  rw [charAt_eq d1 (index1.trans is1.symm), Run.bind_ok, charAt_eq d2 (index2.trans is2.symm),
    Run.bind_ok, charAt_eq d3 (index3.trans is3.symm), charAt_eq d4 (index4.trans is4.symm)]
  cases second <;> cases third <;> rfl

theorem base64Encode_encodes (data : List UInt8) :
    ∃ text, base64Encode data = .ok text ∧ Encodes text data := by
  have byte {value : Nat} (x : UInt8) (same : value % 256 = x.toNat % 256) : UInt8.ofNat value = x :=
    (ofNat_congr same).trans UInt8.ofNat_toNat
  have zero : ((none : Option UInt8).getD 0).toNat = 0 := rfl
  induction data using base64Encode.induct with
  | case1 => exact ⟨[], rfl, .done⟩
  | case2 x =>
    obtain ⟨d1, d2, _, _, is1, is2, _, _, encoded⟩ := encodeGroup_eq x none none
    have isData : bytesOf 1 ((d1 * 64 + d2 : Nat) / 16) = [x] := by
      rw [bytesOf, bytesOf, byte x (by omega)]
    exact ⟨_, encoded, isData ▸ .one d1 d2⟩
  | case3 x y =>
    obtain ⟨d1, d2, d3, _, is1, is2, is3, _, encoded⟩ := encodeGroup_eq x (some y) none
    rw [Option.getD_some] at is2 is3
    have lessY := y.toNat_lt
    have isData : bytesOf 2 (((d1 * 64 + d2) * 64 + d3 : Nat) / 4) = [x, y] := by
      rw [bytesOf, bytesOf, bytesOf, byte x (by omega), byte y (by omega)]
    exact ⟨_, encoded, isData ▸ .two d1 d2 d3⟩
  | case4 x y z rest ih =>
    obtain ⟨d1, d2, d3, d4, is1, is2, is3, is4, encoded⟩ := encodeGroup_eq x (some y) (some z)
    simp only [Option.getD_some] at is2 is3 is4
    have lessY := y.toNat_lt
    have lessZ := z.toNat_lt
    obtain ⟨text, isText, encodes⟩ := ih
    have isData : bytesOf 3 (((d1 * 64 + d2) * 64 + d3) * 64 + d4) = [x, y, z] := by
      rw [bytesOf, bytesOf, bytesOf, bytesOf, byte x (by omega), byte y (by omega), byte z (by omega)]
    have isText : base64Encode (x :: y :: z :: rest) =
        .ok (char d1 :: char d2 :: char d3 :: char d4 :: text) := by
      rw [base64Encode, encoded, Run.bind_ok, isText]
      rfl
    have encodes := Encodes.three d1 d2 d3 d4 encodes
    rw [isData] at encodes
    exact ⟨_, isText, encodes⟩

/-- What was encoded is decoded to the same bytes. -/
theorem base64_round_trip (data : List UInt8) : (base64Encode data >>= base64Decode) = .ok data := by
  obtain ⟨text, encoded, encodes⟩ := base64Encode_encodes data
  rw [encoded, Run.bind_ok, base64Decode_of_encodes encodes]

end encoding

end Nsblast.Base64

namespace Nsblast.Wire.Narrow

open Labels

/-- `createBase64`. -/
def createBase64 (builder : StorageBuilder) (fqdn : Name) (type : UInt16) (ttl : UInt32)
    (base64EncodedBlob : Text) : Run StorageBuilder := do
  let rdata ← Base64.base64Decode base64EncodedBlob
  createRr builder fqdn type ttl rdata true

end Nsblast.Wire.Narrow

namespace Nsblast.Base64

open Labels Wire.Narrow

/-- Only the text is read, and what is no text in base 64 is refused: there are no bytes for
it, and no record is made of it. -/
structure SafeAndStrict (text : Text) : Prop where
  inside : base64Decode text ≠ .outOfBounds
  refused : (¬ ∃ data, Encodes text data) → (∀ data, base64Decode text ≠ .ok data) ∧
    ∀ builder fqdn type ttl next, createBase64 builder fqdn type ttl text ≠ .ok next

/-- A text of any kind is decoded to some bytes, or is read behind its end. -/
theorem base64Decode_total (text : Text) :
    base64Decode text = .outOfBounds ∨ ∃ data, base64Decode text = .ok data := by
  induction text using base64Decode.induct with
  | case1 => exact .inr ⟨[], rfl⟩
  | case2 => exact .inl rfl
  | case3 => exact .inr ⟨_, rfl⟩
  | case4 => exact .inr ⟨_, rfl⟩
  | case5 ch1 ch2 ch3 ch4 rest ih =>
    rw [base64Decode]
    rcases ih with outside | ⟨later, decoded⟩
    · rw [outside]
      exact .inl rfl
    · rw [decoded]
      exact .inr ⟨_, rfl⟩

/-- Decoding is safe and strict for the texts in base 64 only: no other text is refused. -/
theorem safe_and_strict_iff (text : Text) : SafeAndStrict text ↔ ∃ data, Encodes text data := by
  constructor
  · intro strict
    by_contra invalid
    rcases base64Decode_total text with outside | ⟨data, decoded⟩
    · exact strict.inside outside
    · exact (strict.refused invalid).1 data decoded
  · rintro ⟨data, encodes⟩
    refine ⟨?_, fun invalid => absurd ⟨data, encodes⟩ invalid⟩
    rw [base64Decode_of_encodes encodes]
    exact nofun

/-- The characters of a text in base 64 are found in the alphabet, the first one at least. -/
theorem find_head {ch : UInt8} {rest : Text} {data : List UInt8}
    (encodes : Encodes (ch :: rest) data) : find ch ≠ npos := by
  generalize isText : ch :: rest = text at encodes
  cases encodes with
  | done => cases isText
  | one d1 | two d1 | three d1 =>
    cases isText
    rw [find_char]
    exact digit_ne_npos d1

/-- A single character is read behind its end, and `!!!!` is stored as a record. -/
theorem foreign_text_is_stored :
    base64Decode [0x41] = .outOfBounds ∧ (¬ ∃ data, Encodes [0x21, 0x21, 0x21, 0x21] data) ∧
      ∃ next, createBase64 {} [0x61] 61 300 [0x21, 0x21, 0x21, 0x21] = .ok next := by
  refine ⟨rfl, ?_, (Run.isOk_iff _).mp (by decide +kernel)⟩
  rintro ⟨data, encodes⟩
  exact find_head encodes (by decide +kernel)

end Nsblast.Base64
