import Chaconne.Regexp.CharRange

/-!
# `libregexp.c`: the character instructions

What `re_emit_range` writes for a character class, and what the
character-matching cases of `lre_exec_backtrack` (`REOP_char`,
`REOP_char32`, `REOP_range`, `REOP_range32`) do with the character `c` that
`GET_CHAR` has read. The program runs `lre_exec` with `cbuf_type` 0, so `c` is
one byte, and without `ignore_case`.

Numbers in the byte code are stored in the byte order of the machine
(`dbuf_put_u16`, `get_u16`); the model stores them low byte first.
-/

namespace Chaconne.Regexp

/-! ## Numbers in the byte code -/

/-- `dbuf_put_u16`: the value as a `uint16_t`, low byte first. -/
def putU16 (v : UInt32) : List UInt8 := [UInt8.ofNat v.toNat, UInt8.ofNat (v.toNat / 256)]

/-- `dbuf_put_u32`. -/
def putU32 (v : UInt32) : List UInt8 :=
  [UInt8.ofNat v.toNat, UInt8.ofNat (v.toNat / 256), UInt8.ofNat (v.toNat / 65536),
    UInt8.ofNat (v.toNat / 16777216)]

/-- `get_u16(buf + pos)`. -/
def getU16 (buf : List UInt8) (pos : Nat) : UInt32 :=
  UInt32.ofNat ((buf.getD pos 0).toNat + 256 * (buf.getD (pos + 1) 0).toNat)

/-- `get_u32(buf + pos)`. -/
def getU32 (buf : List UInt8) (pos : Nat) : UInt32 :=
  UInt32.ofNat ((buf.getD pos 0).toNat + 256 * (buf.getD (pos + 1) 0).toNat +
    65536 * (buf.getD (pos + 2) 0).toNat + 16777216 * (buf.getD (pos + 3) 0).toNat)

/-! ## Emitting -/

/-- The opcodes of `libregexp-opcode.h` that test one character. -/
def REOP_char : UInt8 := 1
def REOP_char32 : UInt8 := 2
def REOP_range : UInt8 := 21
def REOP_range32 : UInt8 := 22

/-- `re_emit_op_u16(s, op, val)`. -/
def reEmitOpU16 (op : UInt8) (val : UInt32) : List UInt8 := op :: putU16 val

/-- `re_emit_op_u32(s, op, val)`. -/
def reEmitOpU32 (op : UInt8) (val : UInt32) : List UInt8 := op :: putU32 val

/-- The loop of `re_emit_range` for 16-bit ranges: `points[i]` and
`points[i + 1] - 1`, the end `UINT32_MAX - 1` written as `0xffff`. -/
def emitRange16 : List UInt32 → List UInt8
  | lo :: hi :: r =>
    putU16 lo ++ putU16 (if hi - 1 = UINT32_MAX - 1 then 0xffff else hi - 1) ++ emitRange16 r
  | _ => []

/-- The loop of `re_emit_range` for 32-bit ranges. -/
def emitRange32 : List UInt32 → List UInt8
  | lo :: hi :: r => putU32 lo ++ putU32 (hi - 1) ++ emitRange32 r
  | _ => []

/-- `re_emit_range(s, cr)`: the bytes appended to `s->byte_code`, or the
error message. An empty range becomes `REOP_char32` of `-1`, which no
character equals; 16-bit ranges are used when every point but an infinite
end fits in 16 bits. -/
def reEmitRange (cr : CharRange) : Except String (List UInt8) :=
  let len := cr.points.length / 2
  if len ≥ 65535 then .error "too many ranges"
  else if len = 0 then .ok (reEmitOpU32 REOP_char32 UINT32_MAX)
  else
    let high := cr.points.getD (cr.points.length - 1) 0
    let high := if high = UINT32_MAX then cr.points.getD (cr.points.length - 2) 0 else high
    if high ≤ 0xffff then .ok (reEmitOpU16 REOP_range (UInt32.ofNat len) ++ emitRange16 cr.points)
    else .ok (reEmitOpU16 REOP_range32 (UInt32.ofNat len) ++ emitRange32 cr.points)

/-! ## Matching one character -/

/-- The `while (idx_min <= idx_max)` search of `REOP_range` and
`REOP_range32` over the entries `low idx` to `high idx`, on fuel: `true` for
`goto range_match`. -/
def rangeLoop (low high : UInt32 → UInt32) (c : UInt32) : Nat → UInt32 → UInt32 → Bool
  | 0, _, _ => false
  | fuel + 1, idxMin, idxMax =>
    if idxMin ≤ idxMax then
      let idx := (idxMin + idxMax) / 2
      if c < low idx then rangeLoop low high c fuel idxMin (idx - 1)
      else if c > high idx then rangeLoop low high c fuel (idx + 1) idxMax
      else true
    else false

/-- `case REOP_range:` with `pc` just after the opcode: the `pc` after the
table on a match, `none` for `goto no_match`. `n` entries of `low` and
`high`, four bytes each; `0xffff` as the last `high` stands for infinity.
Each round of the search drops an entry, so `n` rounds are enough. -/
def execRange (bc : List UInt8) (pc : Nat) (c : UInt32) : Option Nat :=
  let n := getU16 bc pc
  let pc := pc + 2
  if c < getU16 bc pc then none
  else
    let idxMax := n - 1
    let high := getU16 bc (pc + idxMax.toNat * 4 + 2)
    if c ≥ 0xffff ∧ high = 0xffff then some (pc + 4 * n.toNat)
    else if c > high then none
    else if rangeLoop (fun idx => getU16 bc (pc + idx.toNat * 4))
        (fun idx => getU16 bc (pc + idx.toNat * 4 + 2)) c n.toNat 0 idxMax then
      some (pc + 4 * n.toNat)
    else none

/-- `case REOP_range32:`, eight bytes an entry and no infinite end. -/
def execRange32 (bc : List UInt8) (pc : Nat) (c : UInt32) : Option Nat :=
  let n := getU16 bc pc
  let pc := pc + 2
  if c < getU32 bc pc then none
  else
    let idxMax := n - 1
    let high := getU32 bc (pc + idxMax.toNat * 8 + 4)
    if c > high then none
    else if rangeLoop (fun idx => getU32 bc (pc + idx.toNat * 8))
        (fun idx => getU32 bc (pc + idx.toNat * 8 + 4)) c n.toNat 0 idxMax then
      some (pc + 8 * n.toNat)
    else none

/-- `case REOP_char:`, the value in 16 bits. -/
def execChar (bc : List UInt8) (pc : Nat) (c : UInt32) : Option Nat :=
  if getU16 bc pc ≠ c then none else some (pc + 2)

/-- `case REOP_char32:`. -/
def execChar32 (bc : List UInt8) (pc : Nat) (c : UInt32) : Option Nat :=
  if getU32 bc pc ≠ c then none else some (pc + 4)

/-- The `switch (opcode)` of `lre_exec_backtrack` on the instructions that
test one character; the other opcodes are not modelled. -/
def execCharOp (bc : List UInt8) (c : UInt32) : Option Nat :=
  let op := bc.getD 0 0
  if op = REOP_char then execChar bc 1 c
  else if op = REOP_char32 then execChar32 bc 1 c
  else if op = REOP_range then execRange bc 1 c
  else if op = REOP_range32 then execRange32 bc 1 c
  else none

end Chaconne.Regexp
