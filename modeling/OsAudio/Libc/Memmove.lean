import OsAudio.Lib.Bytes
import OsAudio.Lib.CInt

/-!
# `memmove`

`kern/lib/string.c` and, word for word, `user/lib/string.c`: the string instructions of the
processor, and the choice of a direction and a width in `memmove`.  Addresses and sizes are
numbers below 2^32, and the arithmetic on them wraps around.
-/
namespace OsAudio.Libc
open OsAudio.Lib

/-- `rep movsb` or `rep movsl`: `width` bytes are read at `esi` and then stored at `edi`, and both
registers go on by `step`. -/
def repMovs (width : Nat) (step : Int) : (ecx edi esi : Nat) → Bytes → Bytes
  | 0, _, _, m => m
  | ecx + 1, edi, esi, m => repMovs width step ecx (uint32 (edi + step)) (uint32 (esi + step))
      (m.copy edi width fun i => m (esi + i))

/-- `(int) p % 4 == 0` -/
def aligned (p : Nat) : Bool := (int32 p).tmod 4 = 0

/-- Downwards from the last byte or word. -/
def moveDown (width dst src n : Nat) (m : Bytes) : Bytes :=
  repMovs width (-width) (n / width) (uint32 (dst + n - width)) (uint32 (src + n - width)) m

def moveUp (width dst src n : Nat) (m : Bytes) : Bytes := repMovs width width (n / width) dst src m

def memmove (dst src n : Nat) (m : Bytes) : Bytes :=
  if src < dst ∧ uint32 (src + n) > dst then
    if aligned (uint32 (src + n)) ∧ aligned (uint32 (dst + n)) ∧ n % 4 = 0 then moveDown 4 dst src n m
    else moveDown 1 dst src n m
  else if aligned src ∧ aligned dst ∧ n % 4 = 0 then moveUp 4 dst src n m
  else moveUp 1 dst src n m

def memcpy (dst src n : Nat) (m : Bytes) : Bytes := memmove dst src n m

/-- The bytes from `lo` to `hi` are moved, as they were before. -/
def moved (dst src lo hi : Nat) (m : Bytes) : Bytes :=
  fun a => if dst + lo ≤ a ∧ a < dst + hi then m (src + (a - dst)) else m a

section Paths
variable {dst src n width : Nat}

/-- One more piece is moved, below or above the others, that has not been overwritten. -/
theorem copy_moved {lo hi low high o : Nat} (m : Bytes) (order : lo ≤ hi)
    (piece : o = hi ∧ low = lo ∧ high = hi + width ∨ o + width = lo ∧ low = o ∧ high = hi)
    (apart : ∀ x y, lo ≤ x → x < hi → o ≤ y → y < o + width → dst + x ≠ src + y) :
    (moved dst src lo hi m).copy (dst + o) width (fun i => moved dst src lo hi m (src + o + i)) =
      moved dst src low high m := by
  funext a
  by_cases inside : dst + o ≤ a ∧ a < dst + o + width
  · have kept : ¬ (dst + lo ≤ src + (a - dst) ∧ src + (a - dst) < dst + hi) := fun overlap =>
      apart (src + (a - dst) - dst) (a - dst) (by omega) (by omega) (by omega) (by omega) (by omega)
    have place : src + o + (a - (dst + o)) = src + (a - dst) := by omega
    rw [Bytes.copy_inside inside.1 inside.2, place, moved, moved, if_neg kept, if_pos (by omega)]
  · have same : dst + lo ≤ a ∧ a < dst + hi ↔ dst + low ≤ a ∧ a < dst + high := by omega
    rw [Bytes.copy_outside (by omega), moved, moved, if_congr same rfl rfl]

/-- Upwards, with `lo` bytes moved. -/
theorem repMovs_up {ecx lo : Nat} (m : Bytes) (wide : 0 < width) (all : lo + ecx * width = n)
    (target : dst + n ≤ 4294967296) (source : src + n ≤ 4294967296) (apart : dst ≤ src ∨ src + n ≤ dst) :
    repMovs width width ecx (uint32 (dst + lo)) (uint32 (src + lo)) (moved dst src 0 lo m) =
      moved dst src 0 n m := by
  induction ecx generalizing lo with
  | zero =>
    obtain rfl : lo = n := by omega
    rfl
  | succ ecx ih =>
    rw [Nat.succ_mul] at all
    have place : ∀ p, p + n ≤ 4294967296 → uint32 (p + lo) = p + lo := by
      intro p fits
      unfold uint32
      omega
    have next : ∀ p : Nat, uint32 ((p + lo : Nat) + width) = uint32 (p + (lo + width : Nat)) := by
      intro p
      unfold uint32
      omega
    rw [repMovs, place dst target, place src source, next, next,
      copy_moved m (Nat.zero_le _) (.inl ⟨rfl, rfl, rfl⟩) (by omega)]
    exact ih (by omega)

/-- Downwards, with the bytes from `hi` on moved. -/
theorem repMovs_down {ecx hi : Nat} (m : Bytes) (wide : 0 < width) (rest : hi = ecx * width) (below : hi ≤ n)
    (target : dst + n ≤ 4294967296) (source : src + n ≤ 4294967296) (apart : src ≤ dst) :
    repMovs width (-width) ecx (uint32 (dst + hi - width)) (uint32 (src + hi - width))
      (moved dst src hi n m) = moved dst src 0 n m := by
  induction ecx generalizing hi with
  | zero =>
    obtain rfl : hi = 0 := by omega
    rfl
  | succ ecx ih =>
    rw [Nat.succ_mul] at rest
    obtain ⟨lo, rfl⟩ : ∃ lo, hi = lo + width := ⟨ecx * width, rest⟩
    have place : ∀ p : Nat, p + n ≤ 4294967296 → uint32 (p + (lo + width : Nat) - width) = p + lo := by
      intro p fits
      unfold uint32
      omega
    have next : ∀ p : Nat, uint32 ((p + lo : Nat) + (-width)) = uint32 (p + lo - width) := by
      intro p
      unfold uint32
      omega
    rw [repMovs, place dst target, place src source, next, next,
      copy_moved m below (.inr ⟨rfl, rfl, rfl⟩) (by omega)]
    exact ih (by omega) (by omega)

theorem moveUp_eq (m : Bytes) (wide : 0 < width) (whole : width ∣ n) (target : dst + n ≤ 4294967296)
    (source : src + n ≤ 4294967296) (apart : dst ≤ src ∨ src + n ≤ dst) :
    moveUp width dst src n m = moved dst src 0 n m := by
  rcases Nat.eq_zero_or_pos n with rfl | some
  · funext a
    simp [moveUp, repMovs, moved]
  have up := @repMovs_up dst src n width (n / width) 0 m wide
    (by rw [Nat.zero_add, Nat.div_mul_cancel whole]) target source apart
  have none : moved dst src 0 0 m = m := by
    funext a
    exact if_neg (by omega)
  rwa [none, Int.natCast_zero, Int.add_zero, Int.add_zero, uint32_natCast (by omega), uint32_natCast (by omega)] at up

theorem moveDown_eq (m : Bytes) (wide : 0 < width) (whole : width ∣ n) (target : dst + n ≤ 4294967296)
    (source : src + n ≤ 4294967296) (apart : src ≤ dst) :
    moveDown width dst src n m = moved dst src 0 n m := by
  have none : moved dst src n n m = m := by
    funext a
    exact if_neg (by omega)
  have down := repMovs_down m wide (Nat.div_mul_cancel whole).symm (Nat.le_refl n) target source apart
  rwa [none] at down

end Paths

theorem overlap_iff {dst src n : Nat} (target : dst + n ≤ 4294967296) (source : src + n ≤ 4294967296) :
    src < dst ∧ uint32 (src + n) > dst ↔ src < dst ∧ dst < src + n := by
  unfold uint32
  omega

theorem memmove_eq {dst src n : Nat} (m : Bytes) (target : dst + n ≤ 4294967296)
    (source : src + n ≤ 4294967296) : memmove dst src n m = moved dst src 0 n m := by
  unfold memmove
  rw [if_congr (overlap_iff target source) rfl rfl]
  split_ifs with overlap words words
  · exact moveDown_eq m (by decide) (Nat.dvd_of_mod_eq_zero words.2.2) target source overlap.1.le
  · exact moveDown_eq m (by decide) (Nat.one_dvd n) target source overlap.1.le
  · exact moveUp_eq m (by decide) (Nat.dvd_of_mod_eq_zero words.2.2) target source (by omega)
  · exact moveUp_eq m (by decide) (Nat.one_dvd n) target source (by omega)

/-- `memmove` moves the bytes as they were and leaves all others alone.  On either side of the test
for an overlap, words and bytes give the same. -/
theorem memmove_correct {dst src n : Nat} (m : Bytes) (target : dst + n ≤ 4294967296)
    (source : src + n ≤ 4294967296) :
    (∀ i, i < n → memmove dst src n m (dst + i) = m (src + i)) ∧
    (∀ a, a < dst ∨ dst + n ≤ a → memmove dst src n m a = m a) ∧
    (n % 4 = 0 → if src < dst ∧ uint32 (src + n) > dst then moveDown 4 dst src n m = moveDown 1 dst src n m
      else moveUp 4 dst src n m = moveUp 1 dst src n m) := by
  rw [memmove_eq m target source]
  refine ⟨fun i below => ?_, fun a outside => if_neg (by omega), fun words => ?_⟩
  · rw [moved, if_pos (by omega), Nat.add_sub_cancel_left]
  have four := Nat.dvd_of_mod_eq_zero words
  rw [if_congr (overlap_iff target source) rfl rfl]
  split_ifs with overlap
  · rw [moveDown_eq m (by decide) four target source overlap.1.le,
      moveDown_eq m (by decide) (Nat.one_dvd n) target source overlap.1.le]
  · rw [moveUp_eq m (by decide) four target source (by omega),
      moveUp_eq m (by decide) (Nat.one_dvd n) target source (by omega)]

theorem memmove_correct_overlap :
    memmove 4 0 8 (fun a => BitVec.ofNat 8 a) (4 + 6) = BitVec.ofNat 8 (0 + 6) :=
  (memmove_correct _ (by decide) (by decide)).1 6 (by decide)

end OsAudio.Libc
