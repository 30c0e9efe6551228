import Mathlib.Algebra.Order.Group.Nat

/-!
# Words as byte strings

`encodeLE w n` is the low `w` bytes of `n`, least significant first; `decodeLE` reads a byte
string back. A word of `w` bytes survives the round trip (`decodeLE_encodeLE_of_lt`).
-/

namespace Lib

def encodeLE : Nat → Nat → List UInt8
  | 0, _ => []
  | w + 1, n => UInt8.ofNat n :: encodeLE w (n / 256)

def decodeLE : List UInt8 → Nat
  | [] => 0
  | b :: bs => b.toNat + 256 * decodeLE bs

@[simp] theorem length_encodeLE : ∀ (w n : Nat), (encodeLE w n).length = w
  | 0, _ => rfl
  | w + 1, n => by simp [encodeLE, length_encodeLE w]

theorem decodeLE_encodeLE : ∀ (w n : Nat), decodeLE (encodeLE w n) = n % 256 ^ w
  | 0, n => by simp [encodeLE, decodeLE, Nat.mod_one]
  | w + 1, n => by
    have hb : (UInt8.ofNat n).toNat = n % 256 := UInt8.toNat_ofNat'
    rw [encodeLE, decodeLE, decodeLE_encodeLE w, hb, Nat.pow_succ, Nat.mul_comm (256 ^ w),
      Nat.mod_mul]

theorem decodeLE_encodeLE_of_lt {w n : Nat} (h : n < 256 ^ w) : decodeLE (encodeLE w n) = n := by
  rw [decodeLE_encodeLE, Nat.mod_eq_of_lt h]

theorem decodeLE_lt : ∀ bs : List UInt8, decodeLE bs < 256 ^ bs.length
  | [] => by simp [decodeLE]
  | b :: bs => by
    have hb : b.toNat < 256 := UInt8.toNat_lt b
    have hbs := decodeLE_lt bs
    rw [decodeLE, List.length_cons, Nat.pow_succ]
    omega

end Lib
