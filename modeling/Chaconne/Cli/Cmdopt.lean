import Chaconne.Hashtable.Map
import Chaconne.Cli.Tree

/-!
# `struct cmdopt`: the arguments a command receives

A command function receives the words the matcher kept (`argv[0..argc)`) and
the keyword table `kpairs`, a hash table from `cli-term.c`'s `cmdopt_create`
keyed by C strings with `string_hash` and `strcmp`.
-/

namespace Chaconne.Cli

open CLib Hashtable

/-- A `char` as `string_hash` adds it: `char` is signed on the targets, so a
byte from 128 up is negative, and the `size_t` sum wraps modulo 2^64. -/
def charValue (c : UInt8) : Nat :=
  if c < 128 then c.toNat else 2 ^ 64 - 256 + c.toNat

/-- `string_hash`: `hash * 31 + c` over the bytes before the NUL, in `size_t`. -/
def stringHash (s : List UInt8) : Nat :=
  (untilNul s).foldl (fun h c => (h * 31 + charValue c) % 2 ^ 64) 0

/-- `string_compare`. -/
def stringCompare (a b : List UInt8) : Int :=
  strcmp a b

/-- The attributes `cmdopt_create` builds the keyword table with: keys and values
are stored as the caller's pointers. -/
def kpairsAttr : Kpattr (List UInt8) :=
  ⟨true, true, 0, 0, some stringHash, some stringCompare⟩

/-- `struct cmdopt`: `argv[0..argc)` and the keyword table. -/
structure CmdOpt where
  argv : List (List UInt8)
  kpairs : Hashtable (List UInt8) (List UInt8)

/-- `cmdopt_create`: no arguments and a keyword table of 32 buckets. -/
def cmdoptCreate : Option CmdOpt :=
  (hashtableCreate 32 kpairsAttr).map fun h => ⟨[], h⟩

/-- `cmdopt_clear`: the table emptied and `argc` reset. -/
def cmdoptClear (opt : CmdOpt) : CmdOpt :=
  ⟨[], hashtableClear opt.kpairs⟩

end Chaconne.Cli
