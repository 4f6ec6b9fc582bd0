import Mathlib.Tactic.Ring

/-!
# Little-endian byte strings

`encode w n` is `n` in `w` bytes, low byte first; `decode` is the number a byte
string denotes. The two are inverse on the numbers below `256 ^ w` and the
strings of length `w`. `encode_four` and `decode_four` identify them with the
shift-and-mask idiom on 32-bit words.
-/

namespace LittleEndian

/-- `n` in `w` bytes, low byte first. -/
def encode : Nat → Nat → List UInt8
  | 0, _ => []
  | w + 1, n => UInt8.ofNat n :: encode w (n / 256)

/-- The number a byte string denotes, low byte first. -/
def decode : List UInt8 → Nat
  | [] => 0
  | b :: bs => b.toNat + 256 * decode bs

@[simp] theorem length_encode (w n : Nat) : (encode w n).length = w := by
  induction w generalizing n with
  | zero => rfl
  | succ w ih => simp [encode, ih]

theorem decode_lt (bs : List UInt8) : decode bs < 256 ^ bs.length := by
  induction bs with
  | nil => simp [decode]
  | cons b bs ih =>
    have hb := b.toNat_lt
    simp only [decode, List.length_cons, Nat.pow_succ]
    omega

theorem decode_encode_mod (w n : Nat) : decode (encode w n) = n % 256 ^ w := by
  induction w generalizing n with
  | zero => simp [encode, decode, Nat.mod_one]
  | succ w ih =>
    have hmod : n % 256 ^ (w + 1) = n % 256 + 256 * (n / 256 % 256 ^ w) := by
      rw [Nat.pow_succ, Nat.mul_comm, Nat.mod_mul]
    rw [encode, decode, ih, UInt8.toNat_ofNat', hmod]

theorem decode_encode {w n : Nat} (h : n < 256 ^ w) : decode (encode w n) = n := by
  rw [decode_encode_mod, Nat.mod_eq_of_lt h]

theorem encode_decode (bs : List UInt8) : encode bs.length (decode bs) = bs := by
  induction bs with
  | nil => rfl
  | cons b bs ih =>
    have hb := b.toNat_lt
    have hlow : UInt8.ofNat (b.toNat + 256 * decode bs) = b := by
      apply UInt8.toNat_inj.mp
      rw [UInt8.toNat_ofNat']
      omega
    have hhigh : (b.toNat + 256 * decode bs) / 256 = decode bs := by omega
    simp only [List.length_cons, decode, encode, hlow, hhigh, ih]

theorem decode_inj {xs ys : List UInt8} (hl : xs.length = ys.length)
    (h : decode xs = decode ys) : xs = ys := by
  rw [← encode_decode xs, ← encode_decode ys, hl, h]

theorem encode_mod (w n : Nat) : encode w (n % 256 ^ w) = encode w n := by
  apply decode_inj (by rw [length_encode, length_encode])
  rw [decode_encode_mod, decode_encode_mod, Nat.mod_mod]

/-! ## The shift-and-mask idiom -/

/-- Masking and shifting a 32-bit word out, byte by byte. -/
theorem encode_four (n : UInt32) :
    encode 4 n.toNat = [(n &&& 0xFF).toUInt8, ((n >>> 8) &&& 0xFF).toUInt8,
      ((n >>> 16) &&& 0xFF).toUInt8, ((n >>> 24) &&& 0xFF).toUInt8] := by
  have mask : ∀ m : UInt32, (m &&& 0xFF).toUInt8 = UInt8.ofNat m.toNat := by
    intro m
    apply UInt8.toNat_inj.mp
    have hm : m.toNat &&& 255 = m.toNat % 256 := Nat.and_two_pow_sub_one_eq_mod m.toNat 8
    rw [UInt32.toNat_toUInt8, UInt32.toNat_and, show (0xFF : UInt32).toNat = 255 from rfl, hm,
      UInt8.toNat_ofNat', Nat.mod_mod]
  simp only [encode, mask, UInt32.toNat_shiftRight]
  simp [Nat.shiftRight_eq_div_pow, Nat.div_div_eq_div_mul]

/-- Bits below and bits above position `i` do not overlap. -/
theorem or_shiftLeft {a i : Nat} (h : a < 2 ^ i) (b : Nat) : a ||| b <<< i = a + b <<< i := by
  rw [Nat.or_comm, ← Nat.shiftLeft_add_eq_or_of_lt h, Nat.add_comm]

/-- Shifting four bytes into a 32-bit word. -/
theorem decode_four (b0 b1 b2 b3 : UInt8) :
    (b0.toUInt32 ||| (b1.toUInt32 <<< 8) ||| (b2.toUInt32 <<< 16) ||| (b3.toUInt32 <<< 24)).toNat
      = decode [b0, b1, b2, b3] := by
  have h0 := b0.toNat_lt
  have h1 := b1.toNat_lt
  have h2 := b2.toNat_lt
  have h3 := b3.toNat_lt
  have s1 : (b1.toUInt32 <<< 8).toNat = b1.toNat <<< 8 := by
    simp [Nat.shiftLeft_eq]; omega
  have s2 : (b2.toUInt32 <<< 16).toNat = b2.toNat <<< 16 := by
    simp [Nat.shiftLeft_eq]; omega
  have s3 : (b3.toUInt32 <<< 24).toNat = b3.toNat <<< 24 := by
    simp [Nat.shiftLeft_eq]; omega
  have e1 := or_shiftLeft (i := 8) h0 b1.toNat
  have e2 := or_shiftLeft (a := b0.toNat + b1.toNat <<< 8) (i := 16)
    (by rw [Nat.shiftLeft_eq]; omega) b2.toNat
  have e3 := or_shiftLeft (a := b0.toNat + b1.toNat <<< 8 + b2.toNat <<< 16) (i := 24)
    (by simp only [Nat.shiftLeft_eq]; omega) b3.toNat
  rw [UInt32.toNat_or, UInt32.toNat_or, UInt32.toNat_or, s1, s2, s3, UInt8.toNat_toUInt32, e1, e2,
    e3]
  simp only [decode, Nat.shiftLeft_eq]
  omega

end LittleEndian
