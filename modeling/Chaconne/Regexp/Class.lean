import Chaconne.Regexp.Bytecode
import Chaconne.Cutils.Utf8

/-!
# `libregexp.c`: character classes

How `re_parse_char_class` compiles `[...]`: `get_class_atom` reads one
character or class escape (`\d`, `\s`, `\w` and their complements, built by
`cr_init_char_range`), escapes go through `lre_parse_escape`, two atoms around
a `-` make an interval, and the union of all of them, complemented after `^`,
is written by `re_emit_range`.

The program compiles its pattern with `lre_compile(..., 0, NULL)`: `is_utf16`
and `ignore_case` are false, so `lre_parse_escape` is called with
`allow_utf16 = 0`, the `\p` properties are not parsed and `cr_canonicalize`
does not run. The pattern is `buf[0..buf_end)`, followed by the `'\0'` that a
read past its end gives (`byteAt`).
-/

namespace Chaconne.Regexp

open Chaconne.Cutils

/-- `p[i]`, as an `int`: past the end of the pattern, the `'\0'` behind it. -/
def byteAt (buf : List UInt8) (i : Nat) : Nat := (buf.getD i 0).toNat

/-- `is_digit(c)`. -/
def isDigit (c : Nat) : Bool := '0'.toNat ≤ c && c ≤ '9'.toNat

/-- `is_word_char(c)`, the test of `\b`. -/
def isWordChar (c : Nat) : Bool :=
  ('0'.toNat ≤ c && c ≤ '9'.toNat) || ('a'.toNat ≤ c && c ≤ 'z'.toNat) ||
    ('A'.toNat ≤ c && c ≤ 'Z'.toNat) || c == '_'.toNat

/-! ## `lre_parse_escape` -/

/-- `from_hex(c)`: `none` for `-1`. -/
def fromHex (c : Nat) : Option Nat :=
  if '0'.toNat ≤ c ∧ c ≤ '9'.toNat then some (c - '0'.toNat)
  else if 'A'.toNat ≤ c ∧ c ≤ 'F'.toNat then some (c - 'A'.toNat + 10)
  else if 'a'.toNat ≤ c ∧ c ≤ 'f'.toNat then some (c - 'a'.toNat + 10)
  else none

/-- What `lre_parse_escape` returns: the character and the new `*pp`, `-1`
for a malformed escape, `-2` for a character it does not know. -/
inductive Escape
  | char (c : Nat) (p : Nat)
  | malformed
  | unknown
deriving DecidableEq, Repr

/-- The `for (i = 0; i < n; i++)` loops over `n` hexadecimal digits from
`p`: `c = (c << 4) | h`, or `none` at a byte that is not a digit. -/
def hexDigits (buf : List UInt8) : Nat → Nat → Nat → Option Nat
  | 0, _, c => some c
  | n + 1, p, c =>
    match fromHex (byteAt buf p) with
    | none => none
    | some h => hexDigits buf n (p + 1) ((c <<< 4) ||| h)

/-- The loop of `\u{...}`: digits until the closing brace, whose position is
returned, and `-1` past `0x10FFFF`. It stops at the `'\0'` behind the pattern,
so one round more than the bytes left is enough fuel. -/
def hexBraced (buf : List UInt8) : Nat → Nat → Nat → Option (Nat × Nat)
  | 0, _, _ => none
  | fuel + 1, p, c =>
    match fromHex (byteAt buf p) with
    | none => none
    | some h =>
      let c := (c <<< 4) ||| h
      if c > 0x10FFFF then none
      else if byteAt buf (p + 1) = 0x7d then some (c, p + 1)
      else hexBraced buf fuel (p + 1) c

/-- The legacy octal escape after its first digit `c`: a second digit, and a
third while `c < 32`. `v = *p - '0'` is a `uint32_t`, so `v > 7` also holds
below `'0'`. -/
def octalTail (buf : List UInt8) (p c : Nat) : Nat × Nat :=
  let v := byteAt buf p
  if v < '0'.toNat ∨ v - '0'.toNat > 7 then (c, p)
  else
    let c := (c <<< 3) ||| (v - '0'.toNat)
    let p := p + 1
    if c ≥ 32 then (c, p)
    else
      let v := byteAt buf p
      if v < '0'.toNat ∨ v - '0'.toNat > 7 then (c, p)
      else ((c <<< 3) ||| (v - '0'.toNat), p + 1)

/-- `lre_parse_escape(&p, allow_utf16)` with `p` just after the `\`. -/
def lreParseEscape (buf : List UInt8) (p : Nat) (allowUtf16 : Nat) : Escape :=
  let c := byteAt buf p
  let p := p + 1
  -- `\b \f \n \r \t \v`
  if c = 'b'.toNat then .char 8 p
  else if c = 'f'.toNat then .char 12 p
  else if c = 'n'.toNat then .char 10 p
  else if c = 'r'.toNat then .char 13 p
  else if c = 't'.toNat then .char 9 p
  else if c = 'v'.toNat then .char 11 p
  else if c = 'x'.toNat ∨ c = 'u'.toNat then
    if byteAt buf p = 0x7b ∧ allowUtf16 ≠ 0 then
      match hexBraced buf (buf.length + 1) (p + 1) 0 with
      | none => .malformed
      | some (c, p) => .char c (p + 1)
    else
      let n := if c = 'x'.toNat then 2 else 4
      match hexDigits buf n p 0 with
      | none => .malformed
      | some c =>
        let p := p + n
        -- an escaped surrogate pair becomes one character
        if 0xd800 ≤ c ∧ c < 0xdc00 ∧ allowUtf16 = 2 ∧ byteAt buf p = '\\'.toNat ∧
            byteAt buf (p + 1) = 'u'.toNat then
          match hexDigits buf 4 (p + 2) 0 with
          | some c1 =>
            if 0xdc00 ≤ c1 ∧ c1 < 0xe000 then
              .char ((((c &&& 0x3ff) <<< 10) ||| (c1 &&& 0x3ff)) + 0x10000) (p + 6)
            else .char c p
          | none => .char c p
        else .char c p
  else if '0'.toNat ≤ c ∧ c ≤ '7'.toNat then
    let c := c - '0'.toNat
    if allowUtf16 = 2 then
      -- only `\0` not followed by a digit
      if c ≠ 0 ∨ isDigit (byteAt buf p) then .malformed else .char c p
    else
      let r := octalTail buf p c
      .char r.1 r.2
  else .unknown

/-! ## `cr_init_char_range` and `lre_is_space` -/

/-- `char_range_d`: the number of intervals, then their points. -/
def charRangeD : List Nat := [1, 0x0030, 0x0039 + 1]

/-- `char_range_s`, the intervals of `Zs`, `Zl` and `Zp` and the other
spaces of `\s`. -/
def charRangeS : List Nat :=
  [10, 0x0009, 0x000D + 1, 0x0020, 0x0020 + 1, 0x00A0, 0x00A0 + 1, 0x1680, 0x1680 + 1,
    0x2000, 0x200A + 1, 0x2028, 0x2029 + 1, 0x202F, 0x202F + 1, 0x205F, 0x205F + 1,
    0x3000, 0x3000 + 1, 0xFEFF, 0xFEFF + 1]

/-- `char_range_w`. -/
def charRangeW : List Nat :=
  [4, 0x0030, 0x0039 + 1, 0x0041, 0x005A + 1, 0x005F, 0x005F + 1, 0x0061, 0x007A + 1]

/-- `char_range_table`. -/
def charRangeTable : List (List Nat) := [charRangeD, charRangeS, charRangeW]

/-- `CharRangeEnum`: a table and, in the low bit, whether it is inverted. -/
def CHAR_RANGE_d : Nat := 0
def CHAR_RANGE_D : Nat := 1
def CHAR_RANGE_s : Nat := 2
def CHAR_RANGE_S : Nat := 3
def CHAR_RANGE_w : Nat := 4
def CHAR_RANGE_W : Nat := 5

/-- `cr_init_char_range(s, cr, c)`: the points of table `c >> 1` added one by
one, then inverted when `c & 1`. -/
def crInitCharRange (c : Nat) : CharRange :=
  let invert := c &&& 1 ≠ 0
  let cPt := charRangeTable.getD (c >>> 1) []
  let len := cPt.headD 0
  let cr := ((cPt.drop 1).take (len * 2)).foldl (fun cr v => crAddPoint cr (UInt32.ofNat v)) crInit
  if invert then crInvert cr else cr

/-- The loop of `lre_is_space` from interval `i`, on fuel: `FALSE` below the
interval, `TRUE` inside it. -/
def isSpaceLoop (c : Nat) : Nat → Nat → Bool
  | 0, _ => false
  | fuel + 1, i =>
    if c < charRangeS.getD (2 * i + 1) 0 then false
    else if c < charRangeS.getD (2 * i + 2) 0 then true
    else isSpaceLoop c fuel (i + 1)

/-- `lre_is_space(c)`: `n = (countof(char_range_s) - 1) / 2` intervals. -/
def lreIsSpace (c : Nat) : Bool := isSpaceLoop c ((charRangeS.length - 1) / 2) 0

/-! ## `get_class_atom` -/

/-- `CLASS_RANGE_BASE`: what `get_class_atom` returns for a class escape. -/
def CLASS_RANGE_BASE : UInt32 := 0x40000000

/-- `UTF8_CHAR_LEN_MAX`. -/
def UTF8_CHAR_LEN_MAX : Int := 6

/-- The class escapes of `get_class_atom` and their `CharRangeEnum` value. -/
def classEscape (c : Nat) : Option Nat :=
  if c = 'd'.toNat then some CHAR_RANGE_d
  else if c = 'D'.toNat then some CHAR_RANGE_D
  else if c = 's'.toNat then some CHAR_RANGE_s
  else if c = 'S'.toNat then some CHAR_RANGE_S
  else if c = 'w'.toNat then some CHAR_RANGE_w
  else if c = 'W'.toNat then some CHAR_RANGE_W
  else none

/-- `normal_char:` at `p`: a byte below 128 is the character; from 128 on,
`unicode_from_utf8` reads one, and a failure (`-1`) or a character above
`0xffff` is refused. `cr` is returned untouched. -/
def normalChar (buf : List UInt8) (cr : CharRange) (p : Nat) :
    Except String (UInt32 × CharRange × Nat) :=
  if byteAt buf p ≥ 128 then
    match unicodeFromUtf8 (buf.drop p) UTF8_CHAR_LEN_MAX with
    | some (v, n) => if v > 0xffff then .error "malformed unicode char" else .ok (UInt32.ofNat v, cr, p + n)
    | none => .error "malformed unicode char"
  else .ok (UInt32.ofNat (byteAt buf p), cr, p + 1)

/-- `get_class_atom(s, cr, &p, inclass)`: the character, or
`CLASS_RANGE_BASE` with the class put in `cr`, and the new `p`; the message of
`re_parse_error` for `-1`. Without `is_utf16`, an escape that
`lre_parse_escape` refuses is the escaped character itself. -/
def getClassAtom (buf : List UInt8) (cr : CharRange) (p : Nat) (inclass : Bool) :
    Except String (UInt32 × CharRange × Nat) :=
  if byteAt buf p = '\\'.toNat then
    let p := p + 1
    if p ≥ buf.length then .error "unexpected end"
    else
      let c := byteAt buf p
      let p := p + 1
      match classEscape c with
      | some k => .ok (CLASS_RANGE_BASE, crInitCharRange k, p)
      | none =>
        if c = 'c'.toNat then
          let c := byteAt buf p
          if ('a'.toNat ≤ c ∧ c ≤ 'z'.toNat) ∨ ('A'.toNat ≤ c ∧ c ≤ 'Z'.toNat) ∨
              ((('0'.toNat ≤ c ∧ c ≤ '9'.toNat) ∨ c = '_'.toNat) ∧ inclass) then
            .ok (UInt32.ofNat (c &&& 0x1f), cr, p + 1)
          -- otherwise `\` alone, and `c` is read again
          else .ok (UInt32.ofNat '\\'.toNat, cr, p - 1)
        else
          match lreParseEscape buf (p - 1) 0 with
          | .char c p => .ok (UInt32.ofNat c, cr, p)
          | _ => normalChar buf cr (p - 1)
  else if byteAt buf p = 0 ∧ p ≥ buf.length then .error "unexpected end"
  else normalChar buf cr p

/-! ## `re_parse_char_class` -/

/-- `class_atom:`: a class escape adds its range, a character itself. -/
def classAtom (cr : CharRange) (c1 : UInt32) (cr1 : CharRange) : CharRange :=
  if c1 ≥ CLASS_RANGE_BASE then crUnion1 cr cr1.points else crUnionInterval cr c1 c1

/-- One round of the loop of `re_parse_char_class` at `p`, not at `]`: the
class so far `cr`, the atom range `cr1`, and the new `p`. A `-` not before
`]` makes an interval, unless an end of it is a class escape (Annex B: then
the `-` is read as a character next round). -/
def classStep (buf : List UInt8) (cr cr1 : CharRange) (p : Nat) :
    Except String (CharRange × CharRange × Nat) :=
  match getClassAtom buf cr1 p true with
  | .error e => .error e
  | .ok (c1, cr1, p) =>
    if byteAt buf p = '-'.toNat ∧ byteAt buf (p + 1) ≠ ']'.toNat then
      if c1 ≥ CLASS_RANGE_BASE then .ok (classAtom cr c1 cr1, cr1, p)
      else
        match getClassAtom buf cr1 (p + 1) true with
        | .error e => .error e
        | .ok (c2, cr1, p0) =>
          if c2 ≥ CLASS_RANGE_BASE then .ok (classAtom cr c1 cr1, cr1, p)
          else if c2 < c1 then .error "invalid class range"
          else .ok (crUnionInterval cr c1 c2, cr1, p0)
    else .ok (classAtom cr c1 cr1, cr1, p)

/-- The `for (;;)` loop of `re_parse_char_class` on fuel, until `]`. -/
def classLoop (buf : List UInt8) : Nat → CharRange → CharRange → Nat → Except String (CharRange × Nat)
  | 0, cr, _, p => .ok (cr, p)
  | fuel + 1, cr, cr1, p =>
    if byteAt buf p = ']'.toNat then .ok (cr, p)
    else
      match classStep buf cr cr1 p with
      | .error e => .error e
      | .ok (cr, cr1, p) => classLoop buf fuel cr cr1 p

/-- The end of `re_parse_char_class` after its loop: the class complemented
after `^`, written by `re_emit_range`, and `p` moved past the `]`. -/
def classEnd (invert : Bool) : Except String (CharRange × Nat) → Except String (List UInt8 × Nat)
  | .error e => .error e
  | .ok (cr, p) =>
    let cr := if invert then crInvert cr else cr
    match reEmitRange cr with
    | .error e => .error e
    | .ok bc => .ok (bc, p + 1)

/-- `re_parse_char_class(s, &p)` at the `[`: the bytes `re_emit_range` appends
and the `p` after the `]`, or the error message. Every round reads a byte at
least, and the `'\0'` past the end stops the loop, so `buf_end + 1` rounds are
enough. -/
def reParseCharClass (buf : List UInt8) (p : Nat) : Except String (List UInt8 × Nat) :=
  let p := p + 1
  let invert := byteAt buf p == '^'.toNat
  let p := if invert then p + 1 else p
  classEnd invert (classLoop buf (buf.length + 1) crInit crInit p)

end Chaconne.Regexp
