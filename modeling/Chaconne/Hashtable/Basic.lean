import Chaconne.CLib.Refine
import Chaconne.CLib.CInt

/-!
# `hashtable.c`: a chained hash table

The table is an array of buckets (`struct node`), each a count and a chain of
elements (`struct elem`) that store their key's hash. Keys and values are the
abstract values the callbacks see: `keyptr`/`valueptr` hand `compare` and the
caller either the stored pointer (`key_is_ptr`) or a pointer to the stored
bytes, and the model keeps that value itself.

* `hashtableSet` updates an equal key in place or appends to the end of the
  chain, then grows the table once the count passes `factor`% of the buckets;
* `hashtableGrow` rehashes by the stored hash into twice the buckets, pushing
  each element onto the front of its new chain (so chains reverse); the new
  index is stored in an `int`, so past `2^31` buckets it wraps;
* `hashtableClear` empties every chain but leaves the bucket counts as they
  were, so a bucket's count is only an upper bound of its chain's length; its
  loop counter is an `int`, so it reaches no bucket past `2^31 - 1`;
* `hashtableGet` trusts a bucket count of 0 and skips the walk.

Memory management (`free_key`, `free_value`, the element layout and its
alignment) has no observable effect on the map and is not modelled.
-/

namespace Chaconne

open CLib

variable {K V : Type}

/-- `struct kpattr`: the callbacks and sizes a table is created with. A NULL
callback is `none`. -/
structure Kpattr (K : Type) where
  keyIsPtr : Bool
  valueIsPtr : Bool
  keySize : Nat
  valueSize : Nat
  hash : Option (K → Nat)
  compare : Option (K → K → Int)

/-- `struct elem`: a chained entry and the hash stored with it. -/
structure Hashtable.Elem (K V : Type) where
  hash : Nat
  key : K
  value : V

/-- `struct node`: a bucket's count and its chain (the `next` links in order). -/
structure Hashtable.Bucket (K V : Type) where
  count : Nat
  chain : List (Hashtable.Elem K V)

/-- `struct hashtable`, with the callbacks of the `attr` copy that
`hashtable_create` accepted. -/
structure Hashtable (K V : Type) where
  hash : K → Nat
  compare : K → K → Int
  bucketSize : Nat
  node : List (Hashtable.Bucket K V)
  count : Nat
  factor : Nat

namespace Hashtable

/-- `attr_ok`: both callbacks are set, and a key or value stored by copy has a
size. -/
def attrOk (attr : Kpattr K) : Bool :=
  attr.hash.isSome && attr.compare.isSome && (attr.keyIsPtr || attr.keySize != 0) &&
    (attr.valueIsPtr || attr.valueSize != 0)

/-- `hashtable_create`: `bucket_size` empty buckets and a growth factor of 80,
or NULL when `attr_ok` rejects `attr`. -/
def hashtableCreate (bucketSize : Nat) (attr : Kpattr K) : Option (Hashtable K V) :=
  if attrOk attr then
    match attr.hash, attr.compare with
    | some hash, some compare =>
      some { hash, compare, bucketSize, node := List.replicate bucketSize ⟨0, []⟩,
             count := 0, factor := 80 }
    | _, _ => none
  else none

/-- `h->node + i`; an index past the array reads an empty bucket (never
reached: every index is reduced modulo `bucket_size`). -/
def bucketAt (h : Hashtable K V) (i : Nat) : Bucket K V :=
  h.node.getD i ⟨0, []⟩

/-- The bucket index of a key: `hash % bucket_size`. -/
def index (h : Hashtable K V) (key : K) : Nat :=
  h.hash key % h.bucketSize

/-- The chain walk of `hashtable_get`: the value of the first element whose key
compares equal. -/
def chainFind (compare : K → K → Int) (key : K) : List (Elem K V) → Option V
  | [] => none
  | e :: rest => if compare e.key key = 0 then some e.value else chainFind compare key rest

/-- `hashtable_get`: NULL on a bucket whose count is 0, else the chain walk. -/
def hashtableGet (h : Hashtable K V) (key : K) : Option V :=
  let node := h.bucketAt (h.index key)
  if node.count = 0 then none else chainFind h.compare key node.chain

/-- One element of `hashtable_grow`'s rehash: pushed onto the front of the chain
its stored hash selects among `bs` buckets. -/
def growInsert (bs : Nat) (node : List (Bucket K V)) (e : Elem K V) : List (Bucket K V) :=
  -- `int index = e->hash % bs`: a remainder past `INT_MAX` wraps, and a
  -- negative index points outside the array, where no chain of the table is
  let index := intOfNat (e.hash % bs)
  node.modify (sizeOfInt index) fun b => ⟨b.count + 1, e :: b.chain⟩

/-- `hashtable_grow`: every chain, bucket by bucket and front to back, rehashed
into `2 * bucket_size` fresh buckets. -/
def hashtableGrow (h : Hashtable K V) : Hashtable K V :=
  let bs := h.bucketSize * 2
  let node := h.node.foldl (fun acc b => b.chain.foldl (growInsert bs) acc)
    (List.replicate bs ⟨0, []⟩)
  { h with node, bucketSize := bs }

/-- The chain walk of `hashtable_set`: the first element whose key compares
equal takes the new value (its key stays); past the end the new element is
linked in. The flag says whether it was. -/
def chainSet (compare : K → K → Int) (new : Elem K V) :
    List (Elem K V) → List (Elem K V) × Bool
  | [] => ([new], true)
  | e :: rest =>
    if compare e.key new.key = 0 then ({ e with value := new.value } :: rest, false)
    else
      let r := chainSet compare new rest
      (e :: r.1, r.2)

/-- `hashtable_set`: update in place, or append and count the new element, and
grow once `count > factor * bucket_size / 100`. -/
def hashtableSet (h : Hashtable K V) (key : K) (data : V) : Hashtable K V :=
  let hash := h.hash key
  let i := hash % h.bucketSize
  let node := h.bucketAt i
  let r := chainSet h.compare ⟨hash, key, data⟩ node.chain
  if r.2 then
    let h' := { h with node := h.node.set i ⟨node.count + 1, r.1⟩, count := h.count + 1 }
    if h'.count > h'.factor * h'.bucketSize / 100 then hashtableGrow h' else h'
  else { h with node := h.node.set i ⟨node.count, r.1⟩ }

/-- The chain walk of `hashtable_delete`: the chain without its first element
whose key compares equal, or `none` when there is none. -/
def chainDelete (compare : K → K → Int) (key : K) : List (Elem K V) → Option (List (Elem K V))
  | [] => none
  | e :: rest =>
    if compare e.key key = 0 then some rest
    else (chainDelete compare key rest).map (e :: ·)

/-- `hashtable_delete`: unlink the first equal element and decrement both
counts. (Under the table invariant neither count is 0 here, so the `size_t`
decrements do not wrap.) -/
def hashtableDelete (h : Hashtable K V) (key : K) : Hashtable K V :=
  let i := h.index key
  let node := h.bucketAt i
  match chainDelete h.compare key node.chain with
  | none => h
  | some chain => { h with node := h.node.set i ⟨node.count - 1, chain⟩, count := h.count - 1 }

/-- `hashtable_travel`: the key/value pairs visited, bucket by bucket and each
chain front to back. -/
def hashtableTravel (h : Hashtable K V) : List (K × V) :=
  h.node.flatMap fun b => b.chain.map fun e => (e.key, e.value)

/-- The loop of `hashtable_clear`, from the pass `j` on with `fuel` passes
left. Its counter is an `int`: the `j`-th pass has `i = (int) j`, compared with
`bucket_size` as a `size_t`, so after `INT_MAX` the loop meets
`(size_t) INT_MIN` and stops. -/
def clearLoop (bucketSize : Nat) : Nat → Nat → List (Bucket K V) → List (Bucket K V)
  | 0, _, node => node
  | fuel + 1, j, node =>
    let i := sizeOfInt (intOfNat j)
    if i < bucketSize then
      clearLoop bucketSize fuel (j + 1) (node.modify i fun b => ⟨b.count, []⟩)
    else node

/-- `hashtable_clear`: the chains the loop reaches emptied and the table count
reset; the bucket counts are left as they were. -/
def hashtableClear (h : Hashtable K V) : Hashtable K V :=
  { h with node := clearLoop h.bucketSize h.bucketSize 0 h.node, count := 0 }

/-- `hashtable_count`. -/
def hashtableCount (h : Hashtable K V) : Nat := h.count

/-- The operations that change a table. -/
inductive Op (K V : Type)
  | set (key : K) (data : V)
  | delete (key : K)
  | clear

/-- One operation applied to a table. -/
def step (h : Hashtable K V) : Op K V → Hashtable K V
  | .set key data => hashtableSet h key data
  | .delete key => hashtableDelete h key
  | .clear => hashtableClear h

end Hashtable

end Chaconne
