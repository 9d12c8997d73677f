import Chaconne.CLib.ByteArray
import Chaconne.CLib.CInt

/-!
# `heap.c`: a binary heap in a fixed array

`struct heap` keeps `count` elements in an array of `alloc` slots, ordered by
the caller's `compare` (which also receives `h->arg`; it is folded into
`compare` here). `heapify` sifts an element down, `heap_update_key` sifts one
up; both exchange two slots through the scratch bytes `h->buf` and then call
`h->update` on the two slots. Elements are values: the scratch holds one as
long as the element size is at most `sizeof(size_t)`, which is what
`heap_create` reserves.

The slots from `count` on are never read and are not modelled: the array is
the list of the `count` elements in use. What `h->update` is handed is kept as
a list of calls, each the element in the slot passed and the position passed.
The loops run on fuel: a round of `heapify` moves to a child, a round of
`heap_update_key` to the parent, so `count` and the start position are
enough.

The arithmetic is C's: `heap_create` asks `malloc` for `alloc * size` bytes,
a `size_t` product (`bytes`); positions are `int`s, so `left(i)` and
`right(i)` are computed in `int` and compared with the `size_t` count, and
`heap_insert` stores `h->count` in `int i` and copies the element to the byte
offset `i * h->size`. The model records that offset (`stored`); where it does
not lie within `bytes`, the write is outside the array, and the model keeps
the element at the end of the list all the same.
-/

namespace Chaconne

open CLib

/-- `struct heap`: the capacity `alloc`, the element size `size`, the bytes
`bytes` of the array `malloc` returned, and the elements `array[0..count)`. -/
structure Heap (α : Type) where
  alloc : Nat
  size : Nat
  bytes : Nat
  array : List α

namespace Heap

/-- `left(i)` for the `int i` of `heapify`, as the `size_t` it is compared
with the count as and scaled by the element size as. -/
def left (i : Nat) : Nat := sizeOfInt (intOfNat (2 * i + 1))

/-- `right(i)`, likewise. -/
def right (i : Nat) : Nat := sizeOfInt (intOfNat (2 * i + 2))

/-- `parent(i)`. -/
def parent (i : Nat) : Nat := if i > 0 then (i - 1) / 2 else 0

end Heap

variable {α : Type} [Inhabited α]

/-- `heap_create(alloc, size, compare, update, arg)`, when its allocations
succeed: the array is `malloc(alloc * size)`, the product a `size_t`. -/
def heapCreate (alloc size : Nat) : Heap α := ⟨alloc, size, alloc * size % 2 ^ 64, []⟩

/-- The two calls of `h->update` after the slots `i` and `j` were exchanged:
`update(ip, j)` and then `update(jp, i)`. -/
def swapCalls (a : List α) (i j : Nat) : List (α × Nat) :=
  [(a.getD i default, j), (a.getD j default, i)]

/-! ## `heapify` -/

/-- The `m` one round of `heapify` at `i` picks: `left(i)` if `a[i]` is after
it, then `right(i)` if `a[m]` is after that. -/
def heapifyPick (compare : α → α → Int) (a : List α) (i : Nat) : Nat :=
  let m := if Heap.left i < a.length ∧ compare (a.getD i default) (a.getD (Heap.left i) default) > 0
    then Heap.left i else i
  if Heap.right i < a.length ∧ compare (a.getD m default) (a.getD (Heap.right i) default) > 0
  then Heap.right i else m

/-- The loop of `heapify` from `i`, for at most `fuel` rounds, with the calls
of `h->update` so far. -/
def heapifyLoop (compare : α → α → Int) :
    Nat → Nat → List α × List (α × Nat) → List α × List (α × Nat)
  | 0, _, st => st
  | fuel + 1, i, (a, calls) =>
    if i < a.length then
      let m := heapifyPick compare a i
      if i ≠ m then
        let a' := exchange a i m
        heapifyLoop compare fuel m (a', calls ++ swapCalls a' i m)
      else (a, calls)
    else (a, calls)

/-- `heapify(h, pos)`. -/
def heapify (compare : α → α → Int) (a : List α) (calls : List (α × Nat)) (pos : Nat) :
    List α × List (α × Nat) :=
  heapifyLoop compare a.length pos (a, calls)

/-! ## `heap_update_key` -/

/-- The loop of `heap_update_key` from `i`, for at most `fuel` rounds. -/
def updateKeyLoop (compare : α → α → Int) :
    Nat → Nat → List α × List (α × Nat) → List α × List (α × Nat)
  | 0, _, st => st
  | fuel + 1, i, (a, calls) =>
    if i > 0 then
      let p := Heap.parent i
      if compare (a.getD p default) (a.getD i default) ≤ 0 then (a, calls)
      else
        let a' := exchange a i p
        updateKeyLoop compare fuel p (a', calls ++ swapCalls a' i p)
    else (a, calls)

/-- `heap_update_key(h, pos)`. -/
def heapUpdateKey (compare : α → α → Int) (a : List α) (calls : List (α × Nat)) (pos : Nat) :
    List α × List (α × Nat) :=
  updateKeyLoop compare pos pos (a, calls)

/-! ## The operations -/

/-- What a heap operation leaves: its return value, the element it copied out,
the heap, the calls of `h->update`, and the byte offset from `h->array` that
`heap_insert` copied its element to. -/
structure HeapResult (α : Type) where
  ret : Int
  out : Option α
  heap : Heap α
  calls : List (α × Nat)
  stored : Option Nat

/-- `heap_insert(h, elem)`. -/
def heapInsert (compare : α → α → Int) (h : Heap α) (elem : α) : HeapResult α :=
  if h.array.length = h.alloc then ⟨-ENOMEM, none, h, [], none⟩
  else
    -- `i = h->count`, an `int`; a negative `i` skips the loop of `heap_update_key`
    let i := intOfNat h.array.length
    let r := heapUpdateKey compare (h.array ++ [elem]) [] i.toNat
    ⟨0, none, { h with array := r.1 }, r.2, some (sizeOfInt i * h.size % 2 ^ 64)⟩

theorem heapInsert_of_full (compare : α → α → Int) {h : Heap α} (elem : α)
    (hfull : h.array.length = h.alloc) : heapInsert compare h elem = ⟨-ENOMEM, none, h, [], none⟩ := by
  simp [heapInsert, hfull]

theorem heapInsert_of_ne (compare : α → α → Int) {h : Heap α} (elem : α)
    (hne : h.array.length ≠ h.alloc) :
    heapInsert compare h elem =
      ⟨0, none,
        { h with array := (heapUpdateKey compare (h.array ++ [elem]) [] (intOfNat h.array.length).toNat).1 },
        (heapUpdateKey compare (h.array ++ [elem]) [] (intOfNat h.array.length).toNat).2,
        some (sizeOfInt (intOfNat h.array.length) * h.size % 2 ^ 64)⟩ := by
  rw [heapInsert, if_neg hne]

/-- `heap_extract(h, ret)`: the root is copied out, the last element moves to
the root and sifts down. -/
def heapExtract (compare : α → α → Int) (h : Heap α) : HeapResult α :=
  if h.array.length = 0 then ⟨-ENOENT, none, h, [], none⟩
  else
    let count := h.array.length - 1
    let a := (h.array.set 0 (h.array.getD count default)).take count
    let (a, calls) := heapify compare a [] 0
    ⟨0, some (h.array.getD 0 default), { h with array := a }, calls, none⟩

theorem heapExtract_of_empty (compare : α → α → Int) {h : Heap α} (hempty : h.array.length = 0) :
    heapExtract compare h = ⟨-ENOENT, none, h, [], none⟩ := by
  simp [heapExtract, hempty]

theorem heapExtract_of_ne (compare : α → α → Int) {h : Heap α} (hne : h.array.length ≠ 0) :
    let a := (h.array.set 0 (h.array.getD (h.array.length - 1) default)).take (h.array.length - 1)
    heapExtract compare h =
      ⟨0, some (h.array.getD 0 default), { h with array := (heapify compare a [] 0).1 },
        (heapify compare a [] 0).2, none⟩ := by
  simp [heapExtract, hne]

/-- `heap_update(h, pos)`: sift up, then sift down from `pos`. -/
def heapUpdate (compare : α → α → Int) (h : Heap α) (pos : Nat) : HeapResult α :=
  let (a, calls) := heapUpdateKey compare h.array [] pos
  let (a, calls) := heapify compare a calls pos
  ⟨0, none, { h with array := a }, calls, none⟩

/-- A call on a heap. An update first gives the element at `pos` the value
`key` (the caller's change of its key) and then calls `heap_update`. -/
inductive HeapOp (α : Type)
  | insert (elem : α)
  | extract
  | update (pos : Nat) (key : α)

/-- One call on a heap. -/
def heapStep (compare : α → α → Int) (h : Heap α) : HeapOp α → HeapResult α
  | .insert elem => heapInsert compare h elem
  | .extract => heapExtract compare h
  | .update pos key => heapUpdate compare { h with array := h.array.set pos key } pos

/-- The heap after a sequence of calls. -/
def heapRun (compare : α → α → Int) (h : Heap α) (ops : List (HeapOp α)) : Heap α :=
  ops.foldl (fun h op => (heapStep compare h op).heap) h

end Chaconne
