import Mathlib.Data.Nat.Digits.Lemmas
import OsAudio.Lib.Bytes
import OsAudio.Lib.CInt

/-!
# Number printing

`printnum` of `kern/lib/printfmt.c`: a number at a width, in any base up to 16.
-/
namespace OsAudio.Libc
open OsAudio.Lib

def ord (c : Char) : Byte := BitVec.ofNat 8 c.toNat

/-- `"0123456789abcdef"[d]` -/
def digit (d : Nat) : Int := (("0123456789abcdef".toList.map ord).getD d 0).toInt

/-- `printnum`: the characters passed to `putch`. -/
def printnum (base : Nat) (two : 2 ≤ base) (num : Nat) (width padc : Int) : List Int :=
  (if more : num ≥ base then printnum base two (num / base) (int32 (width - 1)) padc
    -- `while (--width > 0)`
    else List.replicate (int32 (width - 1)).toNat padc) ++ [digit (num % base)]
termination_by num
decreasing_by exact Nat.div_lt_self (by omega) two

/-- The digits of a number, the first one not zero unless it is the only one. -/
def numeral (base num : Nat) : List Nat := if num = 0 then [0] else (Nat.digits base num).reverse

theorem numeral_small {base num : Nat} (small : num < base) : numeral base num = [num] := by
  unfold numeral
  split
  · next zero => rw [zero]
  · next some => rw [Nat.digits_of_lt base num some small, List.reverse_singleton]

theorem numeral_large {base num : Nat} (two : 2 ≤ base) (large : base ≤ num) :
    numeral base num = numeral base (num / base) ++ [num % base] := by
  have positive : 0 < num / base := Nat.div_pos large (by omega)
  rw [numeral, numeral, if_neg (by omega), if_neg positive.ne', Nat.digits_eq_cons_digits_div two (by omega),
    List.reverse_cons]

theorem printnum_eq {base num k : Nat} {width : Int} (two : 2 ≤ base) (padc : Int) (small : num < 2 ^ k)
    (low : -2147483648 + k < width) (high : width < 2147483648) :
    printnum base two num width padc = List.replicate (width - (numeral base num).length).toNat padc ++
      (numeral base num).map digit := by
  have less : int32 (width - 1) = width - 1 := int32_of_range (by omega) (by omega)
  induction k generalizing num width with
  | zero =>
    obtain rfl : num = 0 := by omega
    rw [printnum, dif_neg (by omega), numeral_small (by omega), less]
    simp
  | succ k ih =>
    rw [printnum, less]
    split
    · next more =>
      have half : num / base < 2 ^ k := by
        rw [Nat.div_lt_iff_lt_mul (by omega)]
        calc num < 2 ^ k * 2 := small
          _ ≤ 2 ^ k * base := Nat.mul_le_mul_left _ two
      have rest := @ih (num / base) (width - 1) half (by omega) (by omega) (int32_of_range (by omega) (by omega))
      rw [rest, numeral_large two more, List.map_append, ← List.append_assoc]
      congr 4
      rw [List.length_append, List.length_singleton]
      omega
    · next less =>
      rw [numeral_small (by omega), Nat.mod_eq_of_lt (by omega)]
      simp

/-- `printnum` pads to the width and prints the digits, from which the number is read back. -/
theorem printnum_correct {base num : Nat} {width : Int} (padc : Int) (two : 2 ≤ base) (sixteen : base ≤ 16)
    (number : num < 2 ^ 64) (low : -2 ^ 30 ≤ width) (high : width < 2 ^ 31) :
    printnum base two num width padc = List.replicate (max (width - (numeral base num).length) 0).toNat padc ++
        (numeral base num).map digit ∧
      Nat.ofDigits base (numeral base num).reverse = num ∧ (∀ d ∈ numeral base num, d < base) ∧
      (num ≠ 0 → (numeral base num).head? ≠ some 0) := by
  refine ⟨?_, ?_, ?_, ?_⟩
  · rw [printnum_eq two padc number (by omega) (by omega)]
    congr 2
    omega
  · unfold numeral
    split
    · next zero => simp [zero]
    · rw [List.reverse_reverse, Nat.ofDigits_digits]
  · unfold numeral
    split
    · simp
      omega
    · intro d member
      exact Nat.digits_lt_base two (List.mem_reverse.mp member)
  · intro some
    rw [numeral, if_neg some, List.head?_reverse, List.getLast?_eq_some_getLast (Nat.digits_ne_nil_iff_ne_zero.mpr some)]
    simpa using Nat.getLast_digit_ne_zero base some

theorem printnum_correct_padded :
    printnum 16 (by decide) 255 5 0x30 = [0x30, 0x30, 0x30, 0x66, 0x66] := by
  have digits : numeral 16 255 = [15, 15] := by simp [numeral]
  rw [(printnum_correct 0x30 (by decide) (by decide) (by decide) (by decide) (by decide)).1, digits]
  decide

end OsAudio.Libc
