import Mathlib

/-!
# C integer conversions and error numbers

The conversions C applies when a `size_t` is stored in an `int` and an `int` is
passed as a `size_t`, on a target with 32-bit `int` and 64-bit `size_t`: the
first wraps modulo 2^32 into `[-2^31, 2^31)` (`intOfNat`), the second reads
the value modulo 2^64 (`sizeOfInt`). Both are the identity on the values each
type can hold (`intOfNat_of_lt`, `sizeOfInt_natCast`), and a `size_t` between
2^31 and 2^32 that goes through an `int` comes back near 2^64
(`sizeOfInt_intOfNat_of_ge`).
-/

namespace CLib

/-- `EINVAL` of `errno.h`. -/
def EINVAL : Int := 22

/-- `ENOMEM` of `errno.h`. -/
def ENOMEM : Int := 12

/-- `ENOENT` of `errno.h`. -/
def ENOENT : Int := 2

/-- A byte read as a `char` and passed as an `int`, where `char` is signed. -/
def signedChar (b : UInt8) : Int := if b.toNat < 128 then b.toNat else (b.toNat : Int) - 256

/-- A `size_t` value stored in an `int`: its residue modulo 2^32, read as a
negative number from 2^31 on. -/
def intOfNat (n : Nat) : Int :=
  if n % 2 ^ 32 < 2 ^ 31 then (n % 2 ^ 32 : Nat) else ((n % 2 ^ 32 : Nat) : Int) - 2 ^ 32

/-- An `int` value passed as a `size_t`. -/
def sizeOfInt (i : Int) : Nat := (i % 2 ^ 64).toNat

theorem intOfNat_of_lt {n : Nat} (h : n < 2 ^ 31) : intOfNat n = n := by
  have hmod : n % 2 ^ 32 = n := Nat.mod_eq_of_lt (by omega)
  rw [intOfNat, hmod, if_pos h]

@[simp] theorem intOfNat_zero : intOfNat 0 = 0 := intOfNat_of_lt (by norm_num)

theorem sizeOfInt_natCast {n : Nat} (h : n < 2 ^ 64) : sizeOfInt n = n := by
  unfold sizeOfInt
  omega

/-- A value `int` holds goes through both conversions unchanged. -/
theorem sizeOfInt_intOfNat {n : Nat} (h : n < 2 ^ 31) : sizeOfInt (intOfNat n) = n := by
  rw [intOfNat_of_lt h, sizeOfInt_natCast (by omega)]

/-- Between 2^31 and 2^32 the stored `int` is negative, and passed back as a
`size_t` it is at least `2^64 - 2^31`. -/
theorem sizeOfInt_intOfNat_of_ge {n : Nat} (h1 : 2 ^ 31 ≤ n) (h2 : n < 2 ^ 32) :
    sizeOfInt (intOfNat n) = 2 ^ 64 - 2 ^ 32 + n := by
  have hmod : n % 2 ^ 32 = n := Nat.mod_eq_of_lt h2
  rw [intOfNat, hmod, if_neg (by omega), sizeOfInt]
  omega

end CLib
