import Chaconne.CLib.CInt

/-!
# `stream.c`: the output stream

A `struct stream` is a chain of nodes of `BUFSIZE` bytes each, from `first` to
`last`, and a byte `count`. A node holds `data[tail..head)`: `stream_put`
writes at the `head` of the last node and links new nodes after it, and
`stream_consume` moves the `tail` of the first nodes and frees each node it
empties completely (`tail == BUFSIZE`).

The chain is the list `nodes` from `first`, and `last` is the position of the
node `s->last` points to (`none` for `NULL`). A node keeps the bytes written
into it so far, so its `head` is their number. Memory is given by `avail`, the
number of `malloc` calls that succeed in `stream_put`, and by whether the
`malloc` of `stream_iovec` succeeds; `writev` by the number of bytes it reports
written, or `none` when it fails.

`stream_vputs` and `stream_puts` (printf formatting), `stream_dump` and
`stream_flush_regexp` are not modelled.
-/

namespace Chaconne

open CLib

/-- `BUFSIZE`: the bytes a node holds. -/
def BUFSIZE : Nat := 4096

/-- `struct stream_node`: the bytes `data[0..head)` written so far and the
offset `tail` of the first one not consumed. -/
structure StreamNode where
  data : List UInt8
  tail : Nat
deriving DecidableEq, Repr

/-- `head`: the number of bytes written into the node. -/
def StreamNode.head (n : StreamNode) : Nat := n.data.length

/-- A node as `stream_put` allocates it: `tail = head = 0`. -/
def StreamNode.fresh : StreamNode := ⟨[], 0⟩

/-- `struct stream`. -/
structure Stream where
  nodes : List StreamNode
  last : Option Nat
  count : Nat
deriving DecidableEq, Repr

/-- `stream_new`: `calloc` of a stream. -/
def streamNew : Stream := ⟨[], none, 0⟩

/-! ## `stream_put` -/

/-- The node count of `stream_put`, computed in `size_t`:
`((c - cap) + (BUFSIZE - 1)) / BUFSIZE`. -/
def putNodeCount (c cap : UInt64) : UInt64 :=
  ((c - cap) + (4096 - 1)) / 4096

/-- The `while (c)` loop of `stream_put`: copy `data` into the node at `last`,
first moving `last` to the next node when that one is full. -/
def putFill : Nat → List StreamNode → Nat → List UInt8 → List StreamNode × Nat
  | 0, nodes, last, _ => (nodes, last)
  | _ + 1, nodes, last, [] => (nodes, last)
  | fuel + 1, nodes, last, b :: bs =>
    let cap := BUFSIZE - (nodes.getD last StreamNode.fresh).head
    let last' := if cap = 0 then last + 1 else last
    let block := min (b :: bs).length (if cap = 0 then BUFSIZE else cap)
    putFill fuel (nodes.modify last' fun n => { n with data := n.data ++ (b :: bs).take block })
      last' ((b :: bs).drop block)

/-- `cap` of `stream_put`: the room left in the last node, 0 without one. -/
def putCap (s : Stream) : Nat :=
  match s.last with
  | some i => BUFSIZE - (s.nodes.getD i StreamNode.fresh).head
  | none => 0

/-- `stream_put`: the return value and the stream. -/
def streamPut (s : Stream) (avail : Nat) (data : List UInt8) : Int × Stream :=
  let c := data.length
  if c = 0 then (0, s)
  else
    let cap := putCap s
    let num := (putNodeCount (UInt64.ofNat c) (UInt64.ofNat cap)).toNat
    -- a failed `malloc` frees the nodes allocated so far
    if avail < num then (-ENOMEM, s)
    else
      let fresh := List.replicate num StreamNode.fresh
      -- `new` is linked after `s->last`, or becomes the whole chain
      let linked : List StreamNode × Option Nat :=
        if num = 0 then (s.nodes, s.last)
        else match s.last with
          | some i => (s.nodes.take (i + 1) ++ fresh, some i)
          | none => (fresh, some 0)
      let filled := putFill c linked.1 (linked.2.getD 0) data
      (0, ⟨filled.1, some filled.2, s.count + c⟩)

/-- `stream_putc`: the byte `(char) c`. -/
def streamPutc (s : Stream) (avail : Nat) (c : Int) : Int × Stream :=
  streamPut s avail [UInt8.ofNat (c % 256).toNat]

/-- `stream_putstrn`: the first `n` bytes of `str`. -/
def streamPutstrn (s : Stream) (avail : Nat) (str : List UInt8) (n : Nat) : Int × Stream :=
  streamPut s avail (str.take n)

/-! ## Reading -/

/-- The loop of `stream_consume` over the chain from `first`, for `c` bytes:
what is left of the chain from `s->first`, and whether a node was freed. A
freed node moves `s->first` to its successor. -/
def consumeLoop : Nat → List StreamNode → List StreamNode × Bool
  | 0, nodes => (nodes, false)
  | _ + 1, [] => ([], false)
  | c + 1, n :: nodes =>
    let block := min (c + 1) (n.head - n.tail)
    let n' := { n with tail := n.tail + block }
    let rest := consumeLoop (c + 1 - block) nodes
    -- a later free moves `s->first` past this node too
    if rest.2 || n'.tail = BUFSIZE then (rest.1, true) else (n' :: rest.1, false)

/-- `stream_consume`. -/
def streamConsume (s : Stream) (c : Nat) : Stream :=
  let c := min c s.count
  let rest := (consumeLoop c s.nodes).1
  -- `s->last` keeps pointing to its node, now `dropped` places nearer the front
  let dropped := s.nodes.length - rest.length
  { nodes := rest
    last := if rest = [] then none else s.last.map (· - dropped)
    count := s.count - c }

/-- `stream_ndata`. -/
def streamNdata (s : Stream) : Nat := s.count

/-- The copy loop of `stream_get`: the bytes written to `buf` for `c` bytes. -/
def getLoop : Nat → List StreamNode → List UInt8
  | 0, _ => []
  | _ + 1, [] => []
  | c + 1, n :: nodes =>
    if n.tail = BUFSIZE then getLoop (c + 1) nodes
    else
      let block := min (c + 1) (n.head - n.tail)
      (n.data.drop n.tail).take block ++ getLoop (c + 1 - block) nodes

/-- `stream_get`: the return value, the bytes written to `buf`, and the stream. -/
def streamGet (s : Stream) (c : Nat) : Int × List UInt8 × Stream :=
  if s.count = 0 then (0, [], s)
  else
    let c := min c s.count
    let ret := intOfNat c
    (ret, getLoop c s.nodes, streamConsume s (sizeOfInt ret))

/-- `stream_iovec`: the node count, counted in an `int`, and the bytes each
iovec covers; `ok` says whether the `malloc` of the iovec array succeeds. -/
def streamIovec (s : Stream) (ok : Bool) : Int × List (List UInt8) :=
  let count := intOfNat s.nodes.length
  if count = 0 then (0, [])
  else if ok then (count, s.nodes.map fun n => n.data.drop n.tail)
  else (-ENOMEM, [])

/-- `stream_flush`: `ok` is the `malloc` of `stream_iovec`, `written` what
`writev` returns (`none` for `-1`). -/
def streamFlush (s : Stream) (ok : Bool) (written : Option Nat) : Int × Stream :=
  let count := (streamIovec s ok).1
  if count ≤ 0 then (count, s)
  else match written with
    | none => (-1, s)
    | some n =>
      let count := intOfNat n
      if count > 0 then (count, streamConsume s (sizeOfInt count)) else (count, s)

end Chaconne
