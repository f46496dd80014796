import Mathlib.Tactic.Ring

/-!
# Fixed-width big-endian numbers

`encode w n` is the `w`-byte big-endian form of `n` (of `n` modulo `256 ^ w`),
`decode` reads any byte string back. On strings of the right width the two are
inverse to each other, so a fixed-width field has exactly one encoding.
-/

namespace Lib.BigEndian

/-- The `w` low bytes of `n`, most significant first. -/
def encode : Nat → Nat → List UInt8
  | 0, _ => []
  | w + 1, n => UInt8.ofNat (n / 256 ^ w) :: encode w n

def decode (bs : List UInt8) : Nat :=
  bs.foldl (fun acc b => acc * 256 + b.toNat) 0

@[simp] theorem length_encode (w n : Nat) : (encode w n).length = w := by
  induction w with
  | zero => rfl
  | succ w ih => simp [encode, ih]

theorem foldl_decode (bs : List UInt8) (acc : Nat) :
    bs.foldl (fun acc b => acc * 256 + b.toNat) acc = acc * 256 ^ bs.length + decode bs := by
  induction bs generalizing acc with
  | nil => simp [decode]
  | cons b bs ih =>
    simp only [decode, List.foldl_cons, List.length_cons, Nat.zero_mul, Nat.zero_add]
    rw [ih, ih b.toNat]
    ring

theorem decode_cons (b : UInt8) (bs : List UInt8) :
    decode (b :: bs) = b.toNat * 256 ^ bs.length + decode bs := by
  have h := foldl_decode bs b.toNat
  simpa [decode] using h

theorem decode_lt (bs : List UInt8) : decode bs < 256 ^ bs.length := by
  induction bs with
  | nil => simp [decode]
  | cons b bs ih =>
    have hb : b.toNat < 256 := b.toNat_lt
    have hmul : (b.toNat + 1) * 256 ^ bs.length ≤ 256 * 256 ^ bs.length :=
      Nat.mul_le_mul_right _ hb
    rw [decode_cons, List.length_cons]
    have hsplit : (b.toNat + 1) * 256 ^ bs.length = b.toNat * 256 ^ bs.length + 256 ^ bs.length := by
      ring
    omega

theorem decode_encode (w n : Nat) : decode (encode w n) = n % 256 ^ w := by
  induction w with
  | zero => simp [encode, decode, Nat.mod_one]
  | succ w ih =>
    have hbyte : (UInt8.ofNat (n / 256 ^ w)).toNat = n / 256 ^ w % 256 := by simp
    rw [encode, decode_cons, length_encode, ih, hbyte, pow_succ, Nat.mod_mul]
    ring

theorem decode_encode_of_lt {w n : Nat} (h : n < 256 ^ w) : decode (encode w n) = n := by
  rw [decode_encode, Nat.mod_eq_of_lt h]

/-- Only the low `w` bytes count. -/
theorem encode_add_mul (w n m : Nat) : encode w (m * 256 ^ w + n) = encode w n := by
  induction w generalizing m with
  | zero => rfl
  | succ w ih =>
    have hpow : m * 256 ^ (w + 1) + n = m * 256 * 256 ^ w + n := by
      ring
    have hdiv : (m * 256 * 256 ^ w + n) / 256 ^ w = m * 256 + n / 256 ^ w := by
      rw [Nat.add_comm, Nat.add_mul_div_right _ _ (Nat.pow_pos (by omega)), Nat.add_comm]
    have hbyte : UInt8.ofNat (m * 256 + n / 256 ^ w) = UInt8.ofNat (n / 256 ^ w) := by
      apply UInt8.toNat_inj.mp
      simp only [UInt8.toNat_ofNat']
      omega
    rw [encode, encode, hpow, hdiv, hbyte, ih (m * 256)]

theorem encode_decode (bs : List UInt8) : encode bs.length (decode bs) = bs := by
  induction bs with
  | nil => rfl
  | cons b bs ih =>
    have hdiv : (b.toNat * 256 ^ bs.length + decode bs) / 256 ^ bs.length = b.toNat := by
      rw [Nat.add_comm, Nat.add_mul_div_right _ _ (Nat.pow_pos (by omega)),
        Nat.div_eq_of_lt (decode_lt bs), Nat.zero_add]
    rw [List.length_cons, encode, decode_cons, hdiv, encode_add_mul, ih]
    simp

end Lib.BigEndian
