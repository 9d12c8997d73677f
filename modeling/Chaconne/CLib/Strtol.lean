import Chaconne.CLib.CString

/-!
# Decimal conversions: `strtol` and `strtoul`

`strtol(s, NULL, 10)` and `strtoul(s, NULL, 10)` of the C library with a
64-bit `long`: white space, an optional sign, then the longest run of decimal
digits. A value out of range saturates (with `ERANGE`), and `strtoul` negates
a minus-signed value modulo 2^64. The classes `isdigit` and `isgraph` of the C locale are here as well.
-/

namespace CLib

/-- `LONG_MIN` of a 64-bit `long`. -/
def LONG_MIN : Int := -2 ^ 63

/-- `LONG_MAX` of a 64-bit `long`. -/
def LONG_MAX : Int := 2 ^ 63 - 1

/-- `ULONG_MAX` of a 64-bit `unsigned long`. -/
def ULONG_MAX : Nat := 2 ^ 64 - 1

/-- `isdigit` in the C locale. -/
def isdigit (c : UInt8) : Bool :=
  48 ≤ c && c ≤ 57

/-- `isgraph` in the C locale: the printable bytes but space. A byte from 128
on, read through a signed `char`, is negative and not one. -/
def isgraph (c : UInt8) : Bool :=
  33 ≤ c && c ≤ 126

/-- The value of a run of decimal digits, most significant first. -/
def decimalValue (ds : List UInt8) : Nat :=
  ds.foldl (fun n d => 10 * n + (d.toNat - 48)) 0

/-- The sign the conversions read, and the rest of the string. -/
def readSign : List UInt8 → Bool × List UInt8
  | 45 :: s => (true, s)
  | 43 :: s => (false, s)
  | s => (false, s)

/-- `strtol(s, NULL, 10)`. -/
def strtol (s : List UInt8) : Int :=
  let (neg, s) := readSign (s.dropWhile isspace)
  let v : Int := decimalValue (s.takeWhile isdigit)
  if neg then max (-v) LONG_MIN else min v LONG_MAX

/-- `strtoul(s, NULL, 10)`. -/
def strtoul (s : List UInt8) : Nat :=
  let (neg, s) := readSign (s.dropWhile isspace)
  let v := decimalValue (s.takeWhile isdigit)
  if ULONG_MAX < v then ULONG_MAX else if neg then (2 ^ 64 - v) % 2 ^ 64 else v

end CLib
