import Mathlib.Data.Int.Notation

/-! Conversions between the 32-bit integer types of C. A value of type `int` is
kept as an `Int`, one of type `unsigned int` as a `Nat`; an assignment that crosses
the two types goes through `int32` or `uint32`. -/
namespace OsAudio.Lib

/-- Two's complement value of the low 32 bits. -/
def int32 (x : Int) : Int := (x + 2147483648) % 4294967296 - 2147483648

/-- The low 32 bits, read as an unsigned number. -/
def uint32 (x : Int) : Nat := (x % 4294967296).toNat

theorem int32_of_range {x : Int} (lower : -2147483648 ≤ x) (upper : x < 2147483648) :
    int32 x = x := by
  unfold int32
  omega

theorem uint32_of_range {x : Int} (lower : 0 ≤ x) (upper : x < 4294967296) :
    (uint32 x : Int) = x := by
  unfold uint32
  omega

theorem uint32_natCast {n : Nat} (small : n < 4294967296) : uint32 (n : Int) = n := by
  unfold uint32
  omega

theorem uint32_lt (x : Int) : uint32 x < 4294967296 := by
  unfold uint32
  omega

end OsAudio.Lib
