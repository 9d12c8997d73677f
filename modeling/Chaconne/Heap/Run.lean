import Chaconne.Heap.Spec

/-!
# Runs of heap calls

Each call from a well-formed heap leaves a well-formed heap and moves its
elements, as a multiset, the way `HeapSpec` allows (`heapStep_spec`). By the
refinement rule of `CLib` for state-dependent side conditions, a run of calls
from `heap_create` whose updates name positions in use keeps the heap order,
and its multiset went through a run of `HeapSpec` (`heap_order_and_contents`).

What a call shows of the elements (`heapEvent`) names them: an extract the
element it copied out, an update the element at its position. The run's
multiset goes through `HeapSpec` along those events.

What the calls of `h->update` are handed is another matter: after an exchange
each element is passed the position it had before it, and an element that
does not move is passed nothing (`heap_update_positions_stale`).

`heap_create` multiplies `alloc * size` in `size_t` and `heap_insert` stores
the count in an `int`: with `2^61 + 1` slots of 8 bytes the array has room for
one element, and at a count of `2^31` the element is written before the array
(`heap_create_size_wraps`). Below `2^30` slots of at most 8 bytes neither
happens.
-/

namespace Chaconne

open CLib

variable {α : Type} [Inhabited α]

/-- The elements of a heap, as a multiset. -/
def Heap.elems (h : Heap α) : Multiset α := h.array

omit [Inhabited α] in
/-- An element written over position `pos`: one element replaced by `key`. -/
theorem elems_set {a : List α} {pos : Nat} (hpos : pos < a.length) (key : α) :
    (a : Multiset α) = a[pos] ::ₘ ((a.take pos ++ a.drop (pos + 1) : List α) : Multiset α) ∧
      ((a.set pos key : List α) : Multiset α) =
        key ::ₘ ((a.take pos ++ a.drop (pos + 1) : List α) : Multiset α) := by
  have hsplit : a = a.take pos ++ a[pos] :: a.drop (pos + 1) := by
    rw [← List.drop_eq_getElem_cons hpos, List.take_append_drop]
  have hset : a.set pos key = a.take pos ++ key :: a.drop (pos + 1) := by
    rw [List.set_eq_take_append_cons_drop, if_pos hpos]
  constructor
  · conv_lhs => rw [hsplit]
    rw [Multiset.cons_coe, Multiset.coe_eq_coe]
    exact List.perm_middle
  · rw [hset, Multiset.cons_coe, Multiset.coe_eq_coe]
    exact List.perm_middle

/-- The events a run of calls shows, each read from the heap its call meets. -/
def heapEvents (compare : α → α → Int) (h : Heap α) (ops : List (HeapOp α)) : List (HeapEvent α) :=
  runLabels (fun h op => (heapStep compare h op).heap) (heapEvent compare) h ops

/-- A call changes nothing of a heap but its array. -/
theorem heapStep_frame (compare : α → α → Int) (h : Heap α) (op : HeapOp α) :
    ∃ a, (heapStep compare h op).heap = { h with array := a } := by
  cases op with
  | insert e =>
    by_cases hlen : h.array.length = h.alloc
    · exact ⟨h.array, by rw [heapStep, heapInsert_of_full compare e hlen]⟩
    · exact ⟨_, by rw [heapStep, heapInsert_of_ne compare e hlen]⟩
  | extract =>
    by_cases hlen : h.array.length = 0
    · exact ⟨h.array, by rw [heapStep, heapExtract_of_empty compare hlen]⟩
    · exact ⟨_, by rw [heapStep, heapExtract_of_ne compare hlen]⟩
  | update pos key => exact ⟨_, rfl⟩

section Step

variable {compare : α → α → Int}

/-- **Step lemma.** A call the specification covers keeps a well-formed heap
of the same capacity and moves its elements as `HeapSpec` says of its event. -/
theorem heapStep_spec (hc : CmpPreorder compare) {h : Heap α} (hw : HeapWf compare h)
    {op : HeapOp α} (hop : op.InRange h) :
    HeapWf compare (heapStep compare h op).heap ∧ (heapStep compare h op).heap.alloc = h.alloc ∧
      HeapSpec compare h.alloc h.elems (heapEvent compare h op) (heapStep compare h op).heap.elems := by
  cases op with
  | insert e =>
    obtain ⟨-, hfull, hadd⟩ := heapInsert_spec hc hw e
    by_cases hlen : h.array.length = h.alloc
    · rw [heapStep, hfull hlen]
      exact ⟨hw, rfl, .inr ⟨by simp [Heap.elems, hlen], rfl⟩⟩
    · obtain ⟨hw', halloc, hperm, -⟩ := hadd (lt_of_le_of_ne hw.bound hlen)
      refine ⟨hw', halloc, .inl ⟨by simpa [Heap.elems] using lt_of_le_of_ne hw.bound hlen, ?_⟩⟩
      rw [heapStep, Heap.elems, Heap.elems, Multiset.cons_coe, Multiset.coe_eq_coe]
      exact hperm.trans (List.perm_append_singleton e h.array)
  | extract =>
    obtain ⟨-, hempty, hout⟩ := heapExtract_spec hc hw
    by_cases hlen : h.array.length = 0
    · -- nothing copied out, nothing left
      have hnil : h.array = [] := List.eq_nil_of_length_eq_zero hlen
      rw [heapEvent, heapStep, hempty hlen]
      exact ⟨hw, rfl, by simp [Heap.elems, hnil], by simp [Heap.elems, hnil]⟩
    · -- the root is copied out, and the array is the root and the rest
      obtain ⟨hsome, hroot, hw', halloc, hperm⟩ := hout (Nat.pos_of_ne_zero hlen)
      rw [heapEvent, hsome]
      refine ⟨hw', halloc, fun y hy => hroot y hy, ?_⟩
      obtain ⟨x, rest, hxs⟩ := List.exists_cons_of_ne_nil (List.ne_nil_of_length_pos
        (Nat.pos_of_ne_zero hlen))
      rw [heapStep, Heap.elems, Heap.elems, Multiset.cons_coe, Multiset.coe_eq_coe]
      rw [hxs] at hperm ⊢
      exact (List.Perm.cons x hperm).symm
  | update pos key =>
    -- the element at `pos` is the one replaced
    obtain ⟨hw', halloc, hperm⟩ := heapUpdate_spec hc hw hop key
    obtain ⟨hold, hnew⟩ := elems_set hop key
    refine ⟨hw', halloc, ((h.array.take pos ++ h.array.drop (pos + 1) : List α) : Multiset α), ?_, ?_⟩
    · rw [List.getD_eq_getElem _ _ hop]
      exact hold
    · rw [heapStep, Heap.elems, ← hnew, Multiset.coe_eq_coe]
      exact hperm

end Step

/-- From `heap_create(alloc, size)` with fewer than `2^30` slots of at most
`sizeof(size_t)` bytes, any calls whose updates name positions in use: every
element is at or after its parent, the heap is within its capacity, and its
elements went through a run of `HeapSpec` along the events of the calls (each
extract removes the element it copied out, each update replaces the element at
its position), so are the inserted elements less the extracted ones, with
updated keys; from there, every covered call moves them as `HeapSpec` says, an
extract fails with `-ENOENT` exactly on an empty heap and else copies out a
least element, an insert fails with `-ENOMEM` exactly on a full heap and then
changes nothing, and else copies its element to the slot `count`, within the
array. -/
theorem heap_order_and_contents (compare : α → α → Int) (hc : CmpPreorder compare) (alloc size : Nat)
    (hsmall : alloc < 2 ^ 30) (hsize : size ≤ 8) (ops : List (HeapOp α))
    (hops : RunAdmitted (fun h op => (heapStep compare h op).heap) HeapOp.InRange
      (heapCreate alloc size) ops) :
    let h := heapRun compare (heapCreate alloc size) ops
    (∀ i, 0 < i → i < h.array.length →
        compare (h.array.getD ((i - 1) / 2) default) (h.array.getD i default) ≤ 0) ∧
      h.array.length ≤ alloc ∧
      RelRun (HeapSpec compare alloc) 0 (heapEvents compare (heapCreate alloc size) ops) h.elems ∧
      (∀ op, op.InRange h →
        HeapSpec compare alloc h.elems (heapEvent compare h op) (heapStep compare h op).heap.elems) ∧
      ((heapExtract compare h).ret = -ENOENT ↔ h.array.length = 0) ∧
      (0 < h.array.length → ∃ x, (heapExtract compare h).out = some x ∧ x ∈ h.array ∧
        ∀ y ∈ h.array, compare x y ≤ 0) ∧
      (∀ e, (heapInsert compare h e).ret = -ENOMEM ↔ h.array.length = alloc) ∧
      (∀ e, h.array.length = alloc → (heapInsert compare h e).heap = h) ∧
      (∀ e, h.array.length < alloc → (heapInsert compare h e).stored = some (h.array.length * size) ∧
        (h.array.length + 1) * size ≤ h.bytes) := by
  intro h
  -- the invariant carried along the run: a well-formed heap of the created
  -- capacity and element size
  have hinv : ∀ (s : Heap α) (op : HeapOp α), op.InRange s →
      HeapWf compare s ∧ s.alloc = alloc ∧ s.size = size →
      HeapWf compare (heapStep compare s op).heap ∧ (heapStep compare s op).heap.alloc = alloc ∧
        (heapStep compare s op).heap.size = size := by
    intro s op hop hs
    obtain ⟨a, ha⟩ := heapStep_frame compare s op
    obtain ⟨hw', halloc', -⟩ := heapStep_spec hc hs.1 hop
    exact ⟨hw', halloc'.trans hs.2.1, by rw [ha]; exact hs.2.2⟩
  have hsim : ∀ (s : Heap α) (op : HeapOp α), op.InRange s →
      HeapWf compare s ∧ s.alloc = alloc ∧ s.size = size →
      HeapSpec compare alloc s.elems (heapEvent compare s op) (heapStep compare s op).heap.elems :=
    fun s op hop hs => hs.2.1 ▸ (heapStep_spec hc hs.1 hop).2.2
  -- `alloc * size` fits a `size_t`, so `malloc` got all of it
  have hprod : alloc * size < 2 ^ 33 :=
    lt_of_le_of_lt (Nat.mul_le_mul_left alloc hsize) (by omega)
  have hcreate : HeapWf compare (heapCreate alloc size : Heap α) ∧
      (heapCreate alloc size : Heap α).alloc = alloc ∧ (heapCreate alloc size : Heap α).size = size :=
    ⟨⟨fun i hi0 hi => absurd hi (by simp [heapCreate]), by simp [heapCreate], hsmall,
      Nat.mod_eq_of_lt (by omega), by simp only [heapCreate]; omega⟩, rfl, rfl⟩
  have hfold := foldl_refines_labelled hinv hsim ops _ hops hcreate
  have hw : HeapWf compare h := hfold.1.1
  have halloc : h.alloc = alloc := hfold.1.2.1
  have hsz : h.size = size := hfold.1.2.2
  have hrun : RelRun (HeapSpec compare alloc) 0 (heapEvents compare (heapCreate alloc size) ops) h.elems :=
    hfold.2
  obtain ⟨hret, -, hout⟩ := heapExtract_spec hc hw
  have hins := fun e => heapInsert_spec hc hw e
  refine ⟨fun i hi0 hi => hw.ordered i hi0 hi, halloc ▸ hw.bound, hrun,
    fun op hop => hsim h op hop ⟨hw, halloc, hsz⟩, hret, fun hpos => ?_, fun e => halloc ▸ (hins e).1,
    fun e hlen => ?_, fun e hlt => ?_⟩
  · obtain ⟨hsome, hroot, -⟩ := hout hpos
    exact ⟨_, hsome, List.getD_eq_getElem _ _ hpos ▸ List.getElem_mem hpos, hroot⟩
  · rw [(hins e).2.1 (hlen.trans halloc.symm)]
  · obtain ⟨-, -, -, hstored, hroom⟩ := (hins e).2.2 (halloc ▸ hlt)
    exact ⟨hsz ▸ hstored, hsz ▸ hroom⟩

theorem heap_order_and_contents_int :
    let compare := fun a b : Int => a - b
    let ops := [HeapOp.insert 5, .insert 2, .insert 7, .update 2 1, .extract]
    let h := heapRun compare (heapCreate 4 8) ops
    CmpPreorder compare ∧ 4 < 2 ^ 30 ∧ 8 ≤ 8 ∧
      RunAdmitted (fun h op => (heapStep compare h op).heap) HeapOp.InRange (heapCreate 4 8) ops ∧
      ((∀ i, 0 < i → i < h.array.length →
          compare (h.array.getD ((i - 1) / 2) default) (h.array.getD i default) ≤ 0) ∧
        h.array.length ≤ 4 ∧
        RelRun (HeapSpec compare 4) 0 (heapEvents compare (heapCreate 4 8) ops) h.elems ∧
        (∀ op, op.InRange h →
          HeapSpec compare 4 h.elems (heapEvent compare h op) (heapStep compare h op).heap.elems) ∧
        ((heapExtract compare h).ret = -ENOENT ↔ h.array.length = 0) ∧
        (0 < h.array.length → ∃ x, (heapExtract compare h).out = some x ∧ x ∈ h.array ∧
          ∀ y ∈ h.array, compare x y ≤ 0) ∧
        (∀ e, (heapInsert compare h e).ret = -ENOMEM ↔ h.array.length = 4) ∧
        (∀ e, h.array.length = 4 → (heapInsert compare h e).heap = h) ∧
        (∀ e, h.array.length < 4 → (heapInsert compare h e).stored = some (h.array.length * 8) ∧
          (h.array.length + 1) * 8 ≤ h.bytes)) := by
  intro compare ops h
  have hc : CmpPreorder compare :=
    ⟨fun a b => show a - b ≤ 0 ∨ b - a ≤ 0 by omega,
      fun a b c (h1 : a - b ≤ 0) (h2 : b - c ≤ 0) => show a - c ≤ 0 by omega⟩
  have hops : RunAdmitted (fun h op => (heapStep compare h op).heap) HeapOp.InRange
      (heapCreate 4 8) ops := by decide
  exact ⟨hc, by norm_num, le_rfl, hops, heap_order_and_contents compare hc 4 8 (by norm_num) le_rfl ops hops⟩

/-- `heap_create(2^61 + 1, 8, ...)`: the `size_t` product `alloc * size` wraps
to 8, so `malloc` returns room for one element while the heap takes `2^61 + 1`,
and the second `heap_insert` copies its element to bytes 8 to 16, past the
array. And once the count is `2^31`, `int i = h->count` is `-2^31`: the element
goes `2^31` slots before the array. -/
theorem heap_create_size_wraps :
    let h0 : Heap Int := heapCreate (2 ^ 61 + 1) 8
    let r1 := heapInsert (fun a b : Int => a - b) h0 5
    let r2 := heapInsert (fun a b : Int => a - b) r1.heap 7
    h0.bytes = 8 ∧ r1.ret = 0 ∧ r1.stored = some 0 ∧ r2.ret = 0 ∧ r2.stored = some 8 ∧
      ∀ (h : Heap Int) (e : Int), h.array.length = 2 ^ 31 → h.alloc ≠ 2 ^ 31 →
        (heapInsert (fun a b : Int => a - b) h e).ret = 0 ∧
        (heapInsert (fun a b : Int => a - b) h e).stored = some ((2 ^ 64 - 2 ^ 31) * h.size % 2 ^ 64) := by
  refine ⟨by decide, by decide, by decide, by decide, by decide, fun h e hlen hne => ?_⟩
  have hwrap : sizeOfInt (intOfNat h.array.length) = 2 ^ 64 - 2 ^ 31 := by
    rw [hlen]
    decide
  rw [heapInsert_of_ne _ e (by rw [hlen]; exact Ne.symm hne), hwrap]
  exact ⟨rfl, rfl⟩

/-- Inserting `2` and then `1` into a heap ordered by difference: the first
insert calls `h->update` not at all, the second moves `1` to the root and `2`
to position 1, but tells the callback `2` is at 0 and `1` at 1. -/
theorem heap_update_positions_stale :
    let r1 : HeapResult Int := heapInsert (fun a b : Int => a - b) (heapCreate 4 8) 2
    let r2 : HeapResult Int := heapInsert (fun a b : Int => a - b) r1.heap 1
    r1.heap.array = [2] ∧ r1.calls = [] ∧ r2.heap.array = [1, 2] ∧ r2.calls = [(2, 0), (1, 1)] := by
  decide

end Chaconne
