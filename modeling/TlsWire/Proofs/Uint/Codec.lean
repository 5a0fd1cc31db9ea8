import TlsWire.Proofs.Encode.Ordered
import TlsWire.Proofs.Encode.Verdict

/-!
# The fixed-width codec

A machine has its numbers in words of eight bytes. It shifts a word down and cuts it off to get at
one of its bytes, and it shifts a word up to make room for the next byte. As long as a width is no
more than eight bytes, nothing is lost in this way (`Uint.drop_wordBytes`,
`Uint.toNat_wordOfBytes`), so that words come to the same as numbers without a bound. Eight bytes
are a case of their own for the largest number only, where the shift would move the one bit out of
the word.
-/

namespace TlsWire

namespace Uint

/-! ## Words -/

/-- The largest number that `width` bytes of a word hold. -/
def maxWord (width : Nat) : UInt64 :=
  if 8 ≤ width then ~~~0 else (1 <<< UInt64.ofNat (width * 8)) - 1

/-- The bytes of a word, most significant first. -/
def wordBytes (n : UInt64) : Bytes :=
  [56, 48, 40, 32, 24, 16, 8, 0].map fun shift : UInt64 => (n >>> shift).toUInt8

/-- The word with one more byte at its lower end. -/
def pushByte (n : UInt64) (b : UInt8) : UInt64 := (n <<< 8) ||| b.toUInt64

/-- The word that the bytes make up. -/
def wordOfBytes (bytes : Bytes) : UInt64 := bytes.foldl pushByte 0

/-- Reads a word of exactly `width` bytes. -/
def decodeWord (width : Nat) (c : Cursor) : Except Truncated (UInt64 × Cursor) := do
  let (bytes, c) ← c.take width
  return (wordOfBytes bytes, c)

end Uint

/-- Appends the low `width` bytes of a word that has no others. -/
def Encoder.uintOfWord (width : Nat) (n : UInt64) : Encoder Unit :=
  let max := Uint.maxWord width
  if max < n then throw (.overflow ⟨n.toNat, max.toNat⟩)
  else append ((Uint.wordBytes n).drop (8 - width))

namespace Uint

variable {width m n : Nat} {b b' s : Bytes} {c : Cursor}

/-- The largest number of a width is found with one shift, up to eight bytes. -/
theorem toNat_maxWord (width : Nat) : (maxWord width).toNat = max width := by
  unfold maxWord max
  split
  case isTrue h =>
    rw [Nat.min_eq_right h]
    decide
  case isFalse h =>
    -- Below eight there are few widths, and each of them can be looked at.
    have hall : ∀ w < 8, ((1 <<< UInt64.ofNat (w * 8) : UInt64) - 1).toNat =
        byteRange (min w 8) - 1 := by decide
    exact hall width (by omega)

/-- A byte of a word is what is left of it after the bytes below it have been shifted out. -/
theorem toUInt8_shiftRight (n : UInt64) {k : Nat} (hk : k < 8) :
    (n >>> UInt64.ofNat (8 * k)).toUInt8 = UInt8.ofNat (n.toNat / byteRange k) := by
  have hshift : (UInt64.ofNat (8 * k)).toNat % 64 = 8 * k := by
    rw [UInt64.toNat_ofNat']
    omega
  -- To shift a word down by bytes is to divide by powers of 256, and the cast cuts off the rest.
  apply UInt8.toNat_inj.mp
  rw [UInt64.toNat_toUInt8, UInt64.toNat_shiftRight, hshift, Nat.shiftRight_eq_div_pow,
    ← byteRange_eq_two_pow, UInt8.toNat_ofNat']

/-- The bytes of a word are those of its value. -/
theorem wordBytes_eq (n : UInt64) : wordBytes n = bigEndian 8 n.toNat := by
  -- The shifts count whole bytes, from the most significant one down.
  have hshifts : ([56, 48, 40, 32, 24, 16, 8, 0] : List UInt64) =
      [7, 6, 5, 4, 3, 2, 1, 0].map fun k => UInt64.ofNat (8 * k) := by decide
  have hform : bigEndian 8 n.toNat =
      [7, 6, 5, 4, 3, 2, 1, 0].map fun k => UInt8.ofNat (n.toNat / byteRange k) := rfl
  rw [wordBytes, hshifts, hform, List.map_map]
  apply List.map_congr_left
  intro k hk
  have hlt : k < 8 := by
    simp only [List.mem_cons, List.not_mem_nil, or_false] at hk
    omega
  exact toUInt8_shiftRight n hlt

/-- The bytes of a word that are left after the upper ones have been dropped. -/
theorem drop_wordBytes (h : width ≤ 8) (n : UInt64) :
    (wordBytes n).drop (8 - width) = bigEndian width n.toNat := by
  have hsplit : 8 - width + width = 8 := Nat.sub_add_cancel h
  rw [wordBytes_eq, ← drop_bigEndian (8 - width) width, hsplit]

/-- There is room for one more byte in a word that has only seven. -/
theorem toNat_pushByte {n : UInt64} (h : n.toNat < byteRange 7) (b : UInt8) :
    (pushByte n b).toNat = n.toNat * 256 + b.toNat := by
  have hb : b.toNat < 2 ^ 8 := b.toNat_lt
  have hroom : n.toNat <<< 8 < 2 ^ 64 := by
    rw [Nat.shiftLeft_eq]
    have : byteRange 7 = 2 ^ 56 := by decide
    omega
  -- The shift leaves the lowest byte empty, so setting bits in it is adding to it.
  rw [pushByte, UInt64.toNat_or, UInt64.toNat_shiftLeft, UInt8.toNat_toUInt64]
  show n.toNat <<< 8 % 2 ^ 64 ||| b.toNat = _
  rw [Nat.mod_eq_of_lt hroom, ← Nat.shiftLeft_add_eq_or_of_lt hb, Nat.shiftLeft_eq]

/-- A word does not overflow while the bytes that it is made of and those to come are at most
eight. -/
theorem toNat_foldl_pushByte (bytes : Bytes) {k : Nat} {n : UInt64} (hn : n.toNat < byteRange k)
    (hle : k + bytes.length ≤ 8) :
    (bytes.foldl pushByte n).toNat = bytes.foldl (fun n b => n * 256 + b.toNat) n.toNat := by
  -- By induction on the bytes to come: `k` of them are in the word, and one more fits while there
  -- are bytes to come.
  induction bytes generalizing k n with
  | nil => rfl
  | cons b bytes ih =>
    rw [List.length_cons] at hle
    have hseven : byteRange k ≤ byteRange 7 := byteRange_le (by omega)
    have hpush : (pushByte n b).toNat = n.toNat * 256 + b.toNat :=
      toNat_pushByte (Nat.lt_of_lt_of_le hn hseven) b
    have hb : b.toNat < 256 := b.toNat_lt
    have hnext : (pushByte n b).toNat < byteRange (k + 1) := by
      rw [hpush, byteRange]
      omega
    rw [List.foldl_cons, List.foldl_cons, ih hnext (by omega), hpush]

theorem toNat_wordOfBytes (h : b.length ≤ 8) : (wordOfBytes b).toNat = ofBigEndian b :=
  toNat_foldl_pushByte b (k := 0) (by decide) (by omega)

/-- Words are read as numbers are, as long as they hold what is read. -/
theorem decodeWord_eq (h : width ≤ 8) (c : Cursor) :
    (decodeWord width c).map (fun r => (r.1.toNat, r.2)) = decode width c := by
  unfold decodeWord decode
  cases htake : c.take width with
  | error t => rfl
  | ok r =>
    obtain ⟨bytes, after⟩ := r
    obtain ⟨_, hlength⟩ := Cursor.take_ok.mp htake
    show Except.ok ((wordOfBytes bytes).toNat, after) = .ok (ofBigEndian bytes, after)
    rw [toNat_wordOfBytes (by omega)]

/-! ## The codec -/

theorem max_eq (h : width ≤ 8) : max width = 2 ^ (8 * width) - 1 := by
  rw [max, Nat.min_eq_left h, byteRange_eq_two_pow]

theorem lt_byteRange_of_encode (h : encode width n = .ok b) : n < byteRange width :=
  Nat.lt_of_le_of_lt (encode_eq_ok.mp h).1 (max_lt width)

/-- What is written is read back, and nothing behind it. -/
theorem decode_of_encode (h : encode width n = .ok b) {t : Bytes} (hrest : c.rest = b ++ t) :
    ∃ c', decode width c = .ok (n, c') ∧ c.Advances b c' ∧ c'.rest = t := by
  obtain ⟨_, rfl⟩ := encode_eq_ok.mp h
  obtain ⟨c', hadv, hc'⟩ := Cursor.exists_advances hrest
  exact ⟨c', decode_ok.mpr ⟨lt_byteRange_of_encode h, hadv⟩, hadv, hc'⟩

/-- All bytes of a width are the form of a number. -/
theorem encode_ofBigEndian (h : s.length ≤ 8) : encode s.length (ofBigEndian s) = .ok s := by
  rw [encode_of_lt h (ofBigEndian_lt s), bigEndian_ofBigEndian]

/-- Whatever is read is written in the bytes that it has been read from. -/
theorem encode_of_decode (h : s.length ≤ 8) {t : Bytes} (hrest : c.rest = s ++ t) :
    ∃ n c', decode s.length c = .ok (n, c') ∧ c'.rest = t ∧ encode s.length n = .ok s := by
  have hencode := encode_ofBigEndian h
  obtain ⟨c', hdecode, _, hc'⟩ := decode_of_encode hencode hrest
  exact ⟨ofBigEndian s, c', hdecode, hc', hencode⟩

/-- Forms of one width are in the order of the numbers. -/
theorem lt_iff_of_encode (hm : encode width m = .ok b) (hn : encode width n = .ok b') :
    m < n ↔ b < b' := by
  -- Of the same length, the first byte that differs decides about the numbers too.
  have hcompare := compareBytes_bigEndian (lt_byteRange_of_encode hm) (lt_byteRange_of_encode hn)
    [] []
  obtain ⟨_, rfl⟩ := encode_eq_ok.mp hm
  obtain ⟨_, rfl⟩ := encode_eq_ok.mp hn
  have hnil : compareBytes [] [] = .eq := rfl
  rw [List.append_nil, List.append_nil, hnil, Ordering.then_eq] at hcompare
  rw [← compareBytes_eq_lt, hcompare, Nat.compare_eq_lt]

end Uint

namespace Encoder

variable {width n : Nat}

/-- A number that there is room for is appended. -/
theorem uint_of_le (h : n ≤ Uint.max width) (dst : Buffer) :
    uint width n dst = .ok () (dst ++ (bigEndian width n).toArray) := by
  rw [uint, Uint.encode_eq_ok.mpr ⟨h, rfl⟩]
  rfl

/-- A number that is too large is refused, and the buffer is as it was. -/
theorem uint_of_lt (h : Uint.max width < n) (dst : Buffer) :
    uint width n dst = .error (.overflow ⟨n, Uint.max width⟩) dst := by
  rw [uint, Uint.encode_eq_error.mpr ⟨h, rfl⟩]
  rfl

/-- Shifts and casts lay a word out as its value is laid out. -/
theorem uintOfWord_eq (h : width ≤ 8) (n : UInt64) (dst : Buffer) :
    uintOfWord width n dst = uint width n.toNat dst := by
  unfold uintOfWord
  simp only [UInt64.lt_iff_toNat_lt, Uint.toNat_maxWord, Uint.drop_wordBytes h]
  split
  case isTrue hlt =>
    rw [uint_of_lt hlt]
    rfl
  case isFalse hle =>
    rw [uint_of_le (Nat.le_of_not_lt hle)]
    rfl

end Encoder

/-- **The fixed-width codec.** In up to eight bytes there is room for the numbers up to
`2 ^ (8 * width) - 1`. Such a number is appended in exactly `width` bytes; of a larger one the
overflow is reported, and the buffer is left as it was.

The bytes are read back whatever follows, and nothing behind them is touched. All bytes of the width
are those of a number, which is written in the same bytes again, and they are in the order of the
numbers. Machine words that are shifted and cut off come to the same, in writing and reading. -/
theorem Uint.fixedWidth_codec (width : Nat) (hwidth : width ≤ 8) :
    (max width = 2 ^ (8 * width) - 1 ∧ (maxWord width).toNat = max width) ∧
    (∀ n dst,
      (n ≤ max width → ∃ b, encode width n = .ok b ∧ b.length = width ∧
        Encoder.uint width n dst = .ok () (dst ++ b.toArray)) ∧
      (max width < n → Encoder.uint width n dst = .error (.overflow ⟨n, max width⟩) dst)) ∧
    (∀ n b, encode width n = .ok b → ∀ (c : Cursor) t, c.rest = b ++ t →
      ∃ c', decode width c = .ok (n, c') ∧ c.Advances b c' ∧ c'.rest = t) ∧
    (∀ s : Bytes, s.length = width → ∀ (c : Cursor) t, c.rest = s ++ t →
      ∃ n c', decode width c = .ok (n, c') ∧ c'.rest = t ∧ encode width n = .ok s) ∧
    (∀ m n b b', encode width m = .ok b → encode width n = .ok b' → (m < n ↔ b < b')) ∧
    (∀ n dst, Encoder.uintOfWord width n dst = Encoder.uint width n.toNat dst) ∧
    (∀ c, (decodeWord width c).map (fun r => (r.1.toNat, r.2)) = decode width c) := by
  refine ⟨⟨max_eq hwidth, toNat_maxWord width⟩, fun n dst => ⟨fun hn => ?_, fun hn => ?_⟩, ?_, ?_,
    ?_, ?_, ?_⟩
  · exact ⟨bigEndian width n, encode_eq_ok.mpr ⟨hn, rfl⟩, length_bigEndian width n,
      Encoder.uint_of_le hn dst⟩
  · exact Encoder.uint_of_lt hn dst
  · intro n b h c t hrest
    exact decode_of_encode h hrest
  · rintro s rfl c t hrest
    exact encode_of_decode hwidth hrest
  · intro m n b b' hm hn
    exact lt_iff_of_encode hm hn
  · exact Encoder.uintOfWord_eq hwidth
  · exact decodeWord_eq hwidth

/-- The largest word goes through eight bytes, where no shift can find the largest number; the least
number that needs four bytes does not go into three; and three bytes are read as they stand, leading
zeros included. -/
theorem Uint.fixedWidth_codec_full_word :
    (maxWord 8).toNat = 2 ^ 64 - 1 ∧
    (∃ b, encode 8 (2 ^ 64 - 1) = .ok b ∧ b.length = 8 ∧
      Encoder.uintOfWord 8 0xFFFFFFFFFFFFFFFF #[1] = .ok () (#[1] ++ b.toArray)) ∧
    Encoder.uintOfWord 3 0x1000000 #[1] = .error (.overflow ⟨0x1000000, 0xFFFFFF⟩) #[1] ∧
    (∃ n c', decode 3 (.ofBytes [0, 2, 0, 9]) = .ok (n, c') ∧ c'.rest = [9] ∧
      encode 3 n = .ok [0, 2, 0]) ∧
    (encode 3 511 = .ok [0, 1, 255] ∧ encode 3 512 = .ok [0, 2, 0] ∧
      ([0, 1, 255] : Bytes) < [0, 2, 0]) := by
  obtain ⟨⟨hmax, hword⟩, hwrite, _, _, _, hwords, _⟩ := fixedWidth_codec 8 (Nat.le_refl 8)
  obtain ⟨_, hwrite', _, hback, horder, hwords', _⟩ := fixedWidth_codec 3 (by decide)
  refine ⟨hword.trans hmax, ?_, ?_, hback [0, 2, 0] rfl _ [9] rfl, rfl, rfl,
    (horder 511 512 _ _ rfl rfl).mp (by decide)⟩
  · obtain ⟨b, hencode, hlength, happend⟩ := (hwrite (2 ^ 64 - 1) #[1]).1 (Nat.le_of_eq hmax.symm)
    exact ⟨b, hencode, hlength, (hwords 0xFFFFFFFFFFFFFFFF #[1]).trans happend⟩
  · exact (hwords' 0x1000000 #[1]).trans ((hwrite' 0x1000000 #[1]).2 (by decide))

end TlsWire
