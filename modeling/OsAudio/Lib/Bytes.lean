import Mathlib.Data.Nat.ModEq
import Mathlib.Tactic.Common
import Mathlib.Tactic.Ring

/-!
# Byte arrays

Byte arrays as total functions: an access beyond the end of the C array has no meaning
and is never relied on.  Little-endian numbers and single bits are read and stored in
place, with the rules for reading back what was stored and for what stays untouched.
-/
namespace OsAudio.Lib

abbrev Byte := BitVec 8
abbrev Bytes := Nat → Byte

namespace Bytes

/-- The little-endian number in the first `n` bytes. -/
def le (f : Bytes) : Nat → Nat
  | 0 => 0
  | n + 1 => le f n + 256 ^ n * (f n).toNat

/-- Byte `k` of the little-endian representation of `v`. -/
def leByte (v : Nat) : Bytes := fun k => BitVec.ofNat 8 (v / 256 ^ k)

def get (b : Bytes) (off n : Nat) : Nat := le (fun i => b (off + i)) n

/-- `memmove (b + off, src, n)`. -/
def copy (b : Bytes) (off n : Nat) (src : Bytes) : Bytes :=
  fun i => if off ≤ i ∧ i < off + n then src (i - off) else b i

def put (b : Bytes) (off n v : Nat) : Bytes := copy b off n (leByte v)

def zero : Bytes := fun _ => 0

def testBit (b : Bytes) (k : Nat) : Bool := (b (k / 8)).getLsbD (k % 8)

def setBit (b : Bytes) (k : Nat) : Bytes :=
  Function.update b (k / 8) (b (k / 8) ||| (1#8 <<< (k % 8)))

def clearBit (b : Bytes) (k : Nat) : Bytes :=
  Function.update b (k / 8) (b (k / 8) &&& ~~~(1#8 <<< (k % 8)))

/-! ## Numbers -/

theorem le_lt (f : Bytes) (n : Nat) : le f n < 256 ^ n := by
  induction n with
  | zero => simp [le]
  | succ n ih =>
    have byte := (f n).isLt
    calc le f n + 256 ^ n * (f n).toNat < 256 ^ n + 256 ^ n * (f n).toNat :=
          Nat.add_lt_add_right ih _
      _ = (1 + (f n).toNat) * 256 ^ n := by ring
      _ ≤ 256 * 256 ^ n := Nat.mul_le_mul_right _ (by omega)
      _ = 256 ^ (n + 1) := by ring

variable {n v off o m : Nat} {b src : Bytes}

theorem le_congr {f g : Bytes} (same : ∀ i, i < n → f i = g i) : le f n = le g n := by
  induction n with
  | zero => rfl
  | succ n ih => simp only [le, same n (by omega), ih fun i below => same i (by omega)]

theorem le_leByte_mod (v n : Nat) : le (leByte v) n = v % 256 ^ n := by
  induction n with
  | zero => simp [le, Nat.mod_one]
  | succ n ih =>
    have split := @Nat.mod_pow_succ v 256 n
    simp only [le, ih, leByte, BitVec.toNat_ofNat]
    rw [split]

theorem le_leByte (small : v < 256 ^ n) : le (leByte v) n = v := by
  rw [le_leByte_mod, Nat.mod_eq_of_lt small]

theorem le_zero (n : Nat) : le zero n = 0 := by
  induction n with
  | zero => rfl
  | succ n ih => simp [le, ih, zero]

theorem get_lt (b : Bytes) (off n : Nat) : get b off n < 256 ^ n := le_lt _ n

theorem get_congr {c : Bytes} (same : ∀ i, off ≤ i → i < off + n → b i = c i) :
    get b off n = get c off n :=
  le_congr fun i below => same (off + i) (by omega) (by omega)

@[simp] theorem get_zero (off n : Nat) : get zero off n = 0 := le_zero n

/-! ## Storing -/

theorem copy_inside {i : Nat} (low : off ≤ i) (high : i < off + n) :
    copy b off n src i = src (i - off) := if_pos ⟨low, high⟩

theorem copy_outside {i : Nat} (outside : i < off ∨ off + n ≤ i) :
    copy b off n src i = b i := if_neg (by omega)

/-- A number inside the stored range is read from the source. -/
theorem get_copy_inside (low : off ≤ o) (high : o + m ≤ off + n) :
    get (copy b off n src) o m = get src (o - off) m := by
  apply le_congr
  intro i below
  rw [copy_inside (by omega) (by omega)]
  congr 1
  omega

theorem get_copy_outside (apart : o + m ≤ off ∨ off + n ≤ o) :
    get (copy b off n src) o m = get b o m := by
  apply get_congr
  intro i low high
  exact copy_outside (by omega)

theorem get_put (small : v < 256 ^ n) : get (put b off n v) off n = v := by
  rw [put, get_copy_inside (Nat.le_refl _) (Nat.le_refl _)]
  simpa [get] using le_leByte small

theorem get_put_outside (apart : o + m ≤ off ∨ off + n ≤ o) :
    get (put b off n v) o m = get b o m := get_copy_outside apart

/-! ## Bits -/

/-- The mask has one bit. -/
theorem getLsbD_mask {j k : Nat} (byte : j / 8 = k / 8) :
    (1#8 <<< (k % 8)).getLsbD (j % 8) = decide (j = k) := by
  have bit : j % 8 < 8 := by omega
  rw [BitVec.getLsbD_shiftLeft]
  by_cases same : j = k
  · subst same
    simp [bit]
  · by_cases low : j % 8 < k % 8
    · simp [same, low]
    · have shifted : j % 8 - k % 8 ≠ 0 := by omega
      simp [same, low, bit, shifted]

theorem testBit_setBit (b : Bytes) (k j : Nat) :
    testBit (setBit b k) j = (decide (j = k) || testBit b j) := by
  unfold testBit setBit
  by_cases byte : j / 8 = k / 8
  · rw [byte, Function.update_self, BitVec.getLsbD_or, getLsbD_mask byte, Bool.or_comm]
  · have different : j ≠ k := fun same => byte (by rw [same])
    rw [Function.update_of_ne byte]
    simp [different]

theorem testBit_clearBit (b : Bytes) (k j : Nat) :
    testBit (clearBit b k) j = (!decide (j = k) && testBit b j) := by
  unfold testBit clearBit
  by_cases byte : j / 8 = k / 8
  · have bit : j % 8 < 8 := by omega
    rw [byte, Function.update_self, BitVec.getLsbD_and, BitVec.getLsbD_not, getLsbD_mask byte,
      decide_eq_true bit, Bool.true_and, Bool.and_comm]
  · have different : j ≠ k := fun same => byte (by rw [same])
    rw [Function.update_of_ne byte]
    simp [different]

end Bytes

end OsAudio.Lib
