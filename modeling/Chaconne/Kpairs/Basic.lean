import Chaconne.CLib.CString

/-!
# `str-kpairs.c`: key/value strings packed in one buffer

A `struct str_kpairs` keeps its pairs as `key\0value\0` one after another in
`buf[0..last)`, with `end = buf + 8192`. The model keeps the bytes
`buf[0..last)`; a pointer into them is an offset, and the string at an offset
is read up to its NUL (`cstrAt`). Keys passed in are C strings, read up to
their first NUL; a value is a C string of the caller's or a pointer into the
buffer itself (`KpValue`), read where the code reads it.

* `strKpairsGet` walks the pairs and stops at the first byte 0 where a key
  should start;
* `strKpairsSet` rewrites a found value in place (moving the rest of the buffer
  when the length changes, after a capacity check when it grows), or appends a
  new pair after a capacity check; it takes the value's length before the move
  and copies its bytes after it;
* `strKpairsDelete` closes the gap a pair leaves.
-/

namespace Chaconne

open CLib

/-- `STR_KPAIRS_BUFLEN`. -/
def STR_KPAIRS_BUFLEN : Nat := 8192

/-- `struct str_kpairs`: the bytes `buf[0..last)`. -/
structure StrKpairs where
  data : List UInt8
deriving DecidableEq

/-- `str_kpairs_init`: no pairs (`last = buf`). -/
def strKpairsInit : StrKpairs := ⟨[]⟩

/-- The C string at an offset of the buffer. -/
def cstrAt (data : List UInt8) (off : Nat) : List UInt8 :=
  untilNul (data.drop off)

/-- The walk of `str_kpairs_get` over the rest of the buffer from `ptr`: the
offset, within that rest, of the value of `key`. It stops at the end, or at a
pair whose key is empty. -/
def kpairsWalk (key : List UInt8) : Nat → List UInt8 → Option Nat
  | 0, _ => none
  | _ + 1, [] => none
  | fuel + 1, c :: cs =>
    if c = 0 then none
    else
      let k := untilNul (c :: cs)
      if strcmp key k = 0 then some (k.length + 1)
      else
        let r := (c :: cs).drop (k.length + 1)
        let v := untilNul r
        (kpairsWalk key fuel (r.drop (v.length + 1))).map (· + (k.length + 1 + (v.length + 1)))

/-- `str_kpairs_get`: the offset of the value of `key`, or `NULL`. -/
def strKpairsGet (kps : StrKpairs) (key : List UInt8) : Option Nat :=
  kpairsWalk (untilNul key) (kps.data.length + 1) kps.data

/-- The `value` argument of `str_kpairs_set`: a C string of the caller's, or a
pointer to the C string at an offset of the store's own buffer (what
`str_kpairs_get` returns). -/
inductive KpValue
  | ext (s : List UInt8)
  | buf (off : Nat)
deriving DecidableEq

/-- The C string a value points to, read from the buffer as it is then. -/
def KpValue.read (b : List UInt8) : KpValue → List UInt8
  | .ext s => untilNul s
  | .buf off => cstrAt b off

/-- `str_kpairs_set`: `0`, or `-1` with the store unchanged when the new
serialisation does not fit. A found value is rewritten in place: `strlen(value)`
is taken before the `memmove` that makes room or closes the gap, and `strcpy`
copies the value after it. -/
def strKpairsSet (kps : StrKpairs) (key : List UInt8) (value : KpValue) : Int × StrKpairs :=
  let key := untilNul key
  match strKpairsGet kps key with
  | some val =>
    let len := (value.read kps.data).length + 1
    let valLen := (cstrAt kps.data val).length + 1
    let next := val + valLen
    let last := kps.data.length
    if len = valLen then (0, ⟨strcpy kps.data val (value.read kps.data)⟩)
    else if len > valLen then
      let delta := len - valLen
      if last + delta > STR_KPAIRS_BUFLEN then (-1, kps)
      else
        let b := memmove kps.data (next + delta) next (last - next)
        (0, ⟨(strcpy b val (value.read b)).take (last + delta)⟩)
    else
      let delta := valLen - len
      let b := memmove kps.data (next - delta) next (last - next)
      (0, ⟨(strcpy b val (value.read b)).take (last - delta)⟩)
  | none =>
    let value := value.read kps.data
    let total := key.length + 1 + (value.length + 1)
    if total > STR_KPAIRS_BUFLEN - kps.data.length then (-1, kps)
    else (0, ⟨kps.data ++ key ++ 0 :: value ++ [0]⟩)

/-- `str_kpairs_delete`: the pair of `key` cut out, when there is one. -/
def strKpairsDelete (kps : StrKpairs) (key : List UInt8) : StrKpairs :=
  match strKpairsGet kps key with
  | none => kps
  | some val =>
    let keyLen := (untilNul key).length + 1
    let valLen := (cstrAt kps.data val).length + 1
    ⟨kps.data.take (val - keyLen) ++ kps.data.drop (val + valLen)⟩

end Chaconne
