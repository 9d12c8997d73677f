import Chaconne.CLib.PointSet

/-!
# `libunicode.c`: character ranges

A `CharRange` keeps the boundary points of a set of code points,
`points[0..len)` in increasing order: the set is
`[points[0], points[1]) ∪ [points[2], points[3]) ∪ …` (`CLib.PointSet`).

* `cr_op` merges two point arrays in increasing order and adds a point exactly
  when the membership the operation gives changes (`crOpLoop`), then
  compresses;
* `cr_compress` drops the empty intervals and joins the touching ones, in
  place: a read index `i` and a write index `k ≤ i` (`compressLoop`);
* `cr_invert` puts `0` in front and `UINT32_MAX` behind, and compresses;
* `cr_union1` and `cr_union_interval` are unions through `cr_op`.

The allocated `size` only decides when `cr_realloc` runs; reallocation is taken
to succeed here, as the other allocations of the model, so every function
returns `0` and the model returns the range alone.
-/

namespace Chaconne.Regexp

/-- `CharRange`: the points in use, `points[0..len)`. -/
structure CharRange where
  points : List UInt32
deriving DecidableEq, Repr

/-- `UINT32_MAX`. -/
def UINT32_MAX : UInt32 := 0xFFFFFFFF

/-- `cr_init`: no points. -/
def crInit : CharRange := ⟨[]⟩

/-- `cr_add_point`: `points[len++] = v`. -/
def crAddPoint (cr : CharRange) (v : UInt32) : CharRange := ⟨cr.points ++ [v]⟩

/-! ## `cr_compress` -/

/-- The inner loop of `cr_compress`:
`while ((j + 3) < len && pt[j + 1] == pt[j + 2]) j += 2;`, on fuel. -/
def compressJoin (pt : List UInt32) (len : Nat) : Nat → Nat → Nat
  | 0, j => j
  | fuel + 1, j =>
    if j + 3 < len ∧ pt.getD (j + 1) 0 = pt.getD (j + 2) 0 then compressJoin pt len fuel (j + 2)
    else j

/-- The outer loop of `cr_compress` from the read index `i` and the write index
`k`, on fuel: an empty interval is skipped, otherwise the interval from `pt[i]`
is joined with the ones touching it and written at `k`. -/
def compressLoop (len : Nat) : Nat → List UInt32 → Nat → Nat → List UInt32 × Nat
  | 0, pt, _, k => (pt, k)
  | fuel + 1, pt, i, k =>
    if i + 1 < len then
      if pt.getD i 0 = pt.getD (i + 1) 0 then compressLoop len fuel pt (i + 2) k
      else
        let j := compressJoin pt len len i
        let pt₁ := pt.set k (pt.getD i 0)
        let pt₂ := pt₁.set (k + 1) (pt₁.getD (j + 1) 0)
        compressLoop len fuel pt₂ (j + 2) (k + 2)
    else (pt, k)

/-- `cr_compress`: `len = k` after the loop. Each round moves `i` on by two at
least, so `len` rounds are enough. -/
def crCompress (cr : CharRange) : CharRange :=
  let r := compressLoop cr.points.length cr.points.length cr.points 0 0
  ⟨r.1.take r.2⟩

/-! ## `cr_op` -/

/-- `CR_OP_UNION`, `CR_OP_INTER` and `CR_OP_XOR`. -/
inductive CrOp
  | union
  | inter
  | xor
deriving DecidableEq, Repr

/-- What the operation makes of the parities `a_idx & 1` and `b_idx & 1`. -/
def CrOp.isIn : CrOp → Bool → Bool → Bool
  | .union, a, b => a || b
  | .inter, a, b => a && b
  | .xor, a, b => a ^^ b

/-- The next point of the merge in increasing order, with the indices after
it: from `a` when it is smaller, from both when they are equal. -/
def crOpNext (a b : List UInt32) (ai bi : Nat) : Option (UInt32 × Nat × Nat) :=
  if ai < a.length ∧ bi < b.length then
    if a.getD ai 0 < b.getD bi 0 then some (a.getD ai 0, ai + 1, bi)
    else if a.getD ai 0 = b.getD bi 0 then some (a.getD ai 0, ai + 1, bi + 1)
    else some (b.getD bi 0, ai, bi + 1)
  else if ai < a.length then some (a.getD ai 0, ai + 1, bi)
  else if bi < b.length then some (b.getD bi 0, ai, bi + 1)
  else none

/-- The `for (;;)` loop of `cr_op` on fuel: the point is added when the
in/out status changes. -/
def crOpLoop (op : CrOp) (a b : List UInt32) : Nat → Nat → Nat → CharRange → CharRange
  | 0, _, _, cr => cr
  | fuel + 1, ai, bi, cr =>
    match crOpNext a b ai bi with
    | none => cr
    | some (v, ai', bi') =>
      let isIn := op.isIn (ai' % 2 == 1) (bi' % 2 == 1)
      let cr' := if isIn != (cr.points.length % 2 == 1) then crAddPoint cr v else cr
      crOpLoop op a b fuel ai' bi' cr'

/-- `cr_op(cr, a_pt, a_len, b_pt, b_len, op)`: every round takes a point, so
`a_len + b_len` rounds are enough. -/
def crOp (cr : CharRange) (a b : List UInt32) (op : CrOp) : CharRange :=
  crCompress (crOpLoop op a b (a.length + b.length) 0 0 cr)

/-- `cr_union1`: the range is emptied and the union of its old points and `b`
written into it. -/
def crUnion1 (cr : CharRange) (b : List UInt32) : CharRange :=
  crOp crInit cr.points b .union

/-- `cr_union_interval(cr, c1, c2)`: the union with `[c1, c2 + 1)`. -/
def crUnionInterval (cr : CharRange) (c1 c2 : UInt32) : CharRange :=
  crUnion1 cr [c1, c2 + 1]

/-- `cr_invert`: the points moved up by one, `0` in front, `UINT32_MAX` behind,
and compressed. -/
def crInvert (cr : CharRange) : CharRange :=
  crCompress ⟨0 :: cr.points ++ [UINT32_MAX]⟩

/-! ## The set of a range -/

/-- The code points a range holds. -/
def CharRange.mem (cr : CharRange) (c : Nat) : Bool :=
  CLib.PointSet.mem (cr.points.map UInt32.toNat) c

/-- What `libunicode.h` says of `points`: "sorted by increasing value", and
the length "always even". -/
structure PointsSorted (l : List UInt32) : Prop where
  sorted : (l.map UInt32.toNat).Pairwise (· ≤ ·)
  even : l.length % 2 = 0

/-- The same, strictly: no empty and no touching intervals. -/
structure CharRange.Canonical (cr : CharRange) : Prop where
  strict : (cr.points.map UInt32.toNat).Pairwise (· < ·)
  even : cr.points.length % 2 = 0

end Chaconne.Regexp
