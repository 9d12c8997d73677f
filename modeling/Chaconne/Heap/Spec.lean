import Chaconne.Heap.Basic
import Chaconne.CLib.BinaryHeap
import Chaconne.CLib.Refine

/-!
# The heap keeps heap order and its elements

For a `compare` whose `compare a b ≤ 0` is a total preorder (`CmpPreorder`),
the sifts of `heap.c` are the sifts of `CLib.BinaryHeap`: a round of
`heapify` exchanges with a least of the position and its children
(`heapifyPick_le`), a round of `heap_update_key` with a parent that is after
the position. So `heapify` from `DownOrder` and `heap_update_key` from
`UpOrder` end in a heap with the same elements (`heapifyLoop_spec`,
`updateKeyLoop_spec`), and each call keeps a heap with its capacity
(`HeapWf`) while its elements move as a multiset must (`HeapSpec`):

* `heap_insert` adds the element, or fails with `-ENOMEM` and no change
  exactly when the heap is full;
* `heap_extract` fails with `-ENOENT` exactly when the heap is empty, and else
  removes and copies out a least element, the root;
* `heap_update` after a key change replaces one element by the new key, from
  either side: a key now before its parent sifts up and the sift down from
  `pos` then finds a heap (`heapifyLoop_of_ordered`), any other key sifts
  down.
-/

namespace Chaconne

open CLib

variable {α : Type} [Inhabited α]

@[simp] theorem Heap.parent_eq (i : Nat) : Heap.parent i = (i - 1) / 2 := by
  unfold Heap.parent
  split <;> omega

/-- While `right(i)` fits an `int`, `left(i)` is `2i + 1`. -/
theorem Heap.left_of_lt {i : Nat} (hi : 2 * i + 2 < 2 ^ 31) : Heap.left i = 2 * i + 1 := by
  rw [Heap.left, intOfNat_of_lt (by omega), sizeOfInt_natCast (by omega)]

/-- While `right(i)` fits an `int`, it is `2i + 2`. -/
theorem Heap.right_of_lt {i : Nat} (hi : 2 * i + 2 < 2 ^ 31) : Heap.right i = 2 * i + 2 := by
  rw [Heap.right, intOfNat_of_lt hi, sizeOfInt_natCast (by omega)]

/-- `a` is at or before `b` for `compare`. -/
def CmpLe (compare : α → α → Int) (a b : α) : Prop := compare a b ≤ 0

/-- `compare a b ≤ 0` is a total preorder. -/
structure CmpPreorder (compare : α → α → Int) : Prop where
  total : ∀ a b, compare a b ≤ 0 ∨ compare b a ≤ 0
  trans : ∀ a b c, compare a b ≤ 0 → compare b c ≤ 0 → compare a c ≤ 0

omit [Inhabited α] in
theorem CmpPreorder.toTotal {compare : α → α → Int} (hc : CmpPreorder compare) :
    Std.Total (CmpLe compare) :=
  ⟨hc.total⟩

omit [Inhabited α] in
theorem CmpPreorder.toTrans {compare : α → α → Int} (hc : CmpPreorder compare) :
    IsTrans α (CmpLe compare) :=
  ⟨hc.trans⟩

/-- A heap `heap_create` and the calls keep: in heap order, within capacity,
with fewer than `2^30` slots (so that every position and child position is an
`int`) and an array of `alloc * size` bytes (the product did not wrap). -/
structure HeapWf (compare : α → α → Int) (h : Heap α) : Prop where
  ordered : HeapOrdered (CmpLe compare) h.array
  bound : h.array.length ≤ h.alloc
  small : h.alloc < 2 ^ 30
  bytes : h.bytes = h.alloc * h.size
  fits : h.alloc * h.size < 2 ^ 64

/-! ## One round of `heapify` -/

section Pick

variable (compare : α → α → Int) (a : List α) (i : Nat)

/-- `heapify` picks `i` or one of its children in the array. -/
theorem heapifyPick_cases (hi : 2 * i + 2 < 2 ^ 31) :
    heapifyPick compare a i = i ∨
      (IsChild (heapifyPick compare a i) i ∧ heapifyPick compare a i < a.length) := by
  unfold heapifyPick IsChild
  rw [Heap.left_of_lt hi, Heap.right_of_lt hi]
  dsimp only
  split_ifs <;> omega

/-- In a heap, `heapify` picks `i`: it is at or before its children. -/
theorem heapifyPick_of_ordered (hi : 2 * i + 2 < 2 ^ 31) (h : HeapOrdered (CmpLe compare) a) :
    heapifyPick compare a i = i := by
  have hchild : ∀ c, c = 2 * i + 1 ∨ c = 2 * i + 2 → c < a.length →
      ¬ compare (a.getD i default) (a.getD c default) > 0 := by
    intro c hc hcn
    have hord := h c (by omega) hcn
    unfold InOrder CmpLe at hord
    rw [show (c - 1) / 2 = i by omega] at hord
    omega
  have hl : ¬ (Heap.left i < a.length ∧
      compare (a.getD i default) (a.getD (Heap.left i) default) > 0) :=
    fun hl => hchild _ (.inl (Heap.left_of_lt hi)) hl.1 hl.2
  have hr : ¬ (Heap.right i < a.length ∧
      compare (a.getD i default) (a.getD (Heap.right i) default) > 0) :=
    fun hr => hchild _ (.inr (Heap.right_of_lt hi)) hr.1 hr.2
  unfold heapifyPick
  dsimp only
  rw [if_neg hl, if_neg hr]

variable {compare}

/-- The pick is at or before `i` and its children: the two comparisons keep
the least so far. -/
theorem heapifyPick_le (hc : CmpPreorder compare) (hi : 2 * i + 2 < 2 ^ 31) :
    CmpLe compare ((a.getD (heapifyPick compare a i) default)) (a.getD i default) ∧
      ∀ c, IsChild c i → c < a.length →
        CmpLe compare (a.getD (heapifyPick compare a i) default) (a.getD c default) := by
  have := hc.toTotal
  have := hc.toTrans
  -- the first comparison, between `i` and its left child
  set m := if Heap.left i < a.length ∧
    compare (a.getD i default) (a.getD (Heap.left i) default) > 0 then Heap.left i else i with hm
  have hm_i : CmpLe compare (a.getD m default) (a.getD i default) := by
    rw [hm]
    split_ifs with hl
    · exact le_of_not_le (by unfold CmpLe; omega)
    · exact le_rfl_of_total _
  have hm_l : Heap.left i < a.length →
      CmpLe compare (a.getD m default) (a.getD (Heap.left i) default) := by
    intro hln
    rw [hm]
    split_ifs with hl
    · exact le_rfl_of_total _
    · unfold CmpLe
      omega
  have hchild : ∀ c, IsChild c i → c = Heap.left i ∨ c = Heap.right i := by
    intro c hc
    obtain ⟨h0, hp⟩ := hc
    rw [Heap.left_of_lt hi, Heap.right_of_lt hi]
    omega
  -- the second comparison, between the pick so far and the right child
  unfold heapifyPick
  dsimp only
  rw [← hm]
  split_ifs with hr
  · have hr_m : CmpLe compare (a.getD (Heap.right i) default) (a.getD m default) :=
      le_of_not_le (by unfold CmpLe; omega)
    refine ⟨IsTrans.trans _ _ _ hr_m hm_i, ?_⟩
    intro c hc hcn
    rcases hchild c hc with hcl | hcr
    · rw [hcl] at hcn ⊢
      exact IsTrans.trans _ _ _ hr_m (hm_l hcn)
    · rw [hcr]
      exact le_rfl_of_total _
  · refine ⟨hm_i, ?_⟩
    intro c hc hcn
    rcases hchild c hc with hcl | hcr
    · rw [hcl] at hcn ⊢
      exact hm_l hcn
    · rw [hcr] at hcn ⊢
      unfold CmpLe
      omega

end Pick

/-! ## The loops -/

section Loops

variable {compare : α → α → Int}

/-- **`heapify`.** From a heap out of order only below `i`, with fuel for the
positions left, the loop ends in a heap with the same elements. -/
theorem heapifyLoop_spec (hc : CmpPreorder compare) :
    ∀ (fuel i : Nat) (a : List α) (calls : List (α × Nat)),
      DownOrder (CmpLe compare) a i → a.length ≤ i + fuel → a.length < 2 ^ 30 →
      HeapOrdered (CmpLe compare) (heapifyLoop compare fuel i (a, calls)).1 ∧
        (heapifyLoop compare fuel i (a, calls)).1.Perm a := by
  have := hc.toTotal
  intro fuel
  induction fuel with
  | zero =>
    -- out of fuel only past the end, where `i` has no children
    intro i a calls o hlen _
    refine ⟨o.finish fun c hc hcn => absurd hcn (by have := hc.lt; omega), List.Perm.refl _⟩
  | succ fuel ih =>
    intro i a calls o hlen hsmall
    unfold heapifyLoop
    dsimp only
    split_ifs with hin hne
    · -- an exchange with the picked child, and the loop goes on from there
      have hi : 2 * i + 2 < 2 ^ 31 := by omega
      have hpick := heapifyPick_le a i hc hi
      have hm : IsChild (heapifyPick compare a i) i ∧ heapifyPick compare a i < a.length :=
        (heapifyPick_cases compare a i hi).resolve_left (Ne.symm hne)
      have hmi := hm.1.lt
      obtain ⟨hord, hperm⟩ := ih _ _ _ (o.move hm.1 hm.2 hpick.1 hpick.2) (by simp; omega)
        (by simpa using hsmall)
      exact ⟨hord, hperm.trans (exchange_perm hin hm.2)⟩
    · -- `i` is at or before its children
      have hpick := heapifyPick_le a i hc (by omega)
      refine ⟨o.finish fun c hc hcn => ?_, List.Perm.refl _⟩
      have h2 := hpick.2 c hc hcn
      rwa [show heapifyPick compare a i = i from (not_not.mp hne).symm] at h2
    · exact ⟨o.finish fun c hc hcn => absurd hcn (by have := hc.lt; omega), List.Perm.refl _⟩

/-- `heapify` leaves a heap as it is. -/
theorem heapifyLoop_of_ordered {a : List α} (h : HeapOrdered (CmpLe compare) a)
    (hsmall : a.length < 2 ^ 30) :
    ∀ (fuel i : Nat) (calls : List (α × Nat)), heapifyLoop compare fuel i (a, calls) = (a, calls) := by
  intro fuel i calls
  cases fuel with
  | zero => rfl
  | succ fuel =>
    unfold heapifyLoop
    by_cases hin : i < a.length
    · rw [heapifyPick_of_ordered compare a i (by omega) h]
      simp
    · simp [hin]

/-- **`heap_update_key`.** From a heap out of order only above `i`, with fuel
for the levels above, the loop ends in a heap with the same elements. -/
theorem updateKeyLoop_spec (hc : CmpPreorder compare) :
    ∀ (fuel i : Nat) (a : List α) (calls : List (α × Nat)),
      UpOrder (CmpLe compare) a i → i < a.length → i ≤ fuel →
      HeapOrdered (CmpLe compare) (updateKeyLoop compare fuel i (a, calls)).1 ∧
        (updateKeyLoop compare fuel i (a, calls)).1.Perm a := by
  have := hc.toTotal
  have := hc.toTrans
  intro fuel
  induction fuel with
  | zero =>
    -- out of fuel only at the root
    intro i a calls o _ hi
    exact ⟨o.finish fun hi0 _ => absurd hi0 (by omega), List.Perm.refl _⟩
  | succ fuel ih =>
    intro i a calls o hin hi
    unfold updateKeyLoop
    simp only [Heap.parent_eq]
    split_ifs with hi0 hle
    · exact ⟨o.finish fun _ _ => hle, List.Perm.refl _⟩
    · -- an exchange with the parent, and the loop goes on from there
      have hp : (i - 1) / 2 < i := by omega
      obtain ⟨hord, hperm⟩ := ih _ _ _ (o.move hi0 hin hle) (by simp; omega) (by omega)
      exact ⟨hord, hperm.trans (exchange_perm hin (by omega))⟩
    · exact ⟨o.finish fun h0 _ => absurd h0 hi0, List.Perm.refl _⟩

/-- `heap_update_key` stops at once at the root or below a parent at or
before the position. -/
theorem updateKeyLoop_stop {a : List α} {i : Nat}
    (h : i = 0 ∨ CmpLe compare (a.getD ((i - 1) / 2) default) (a.getD i default)) :
    ∀ (fuel : Nat) (calls : List (α × Nat)), updateKeyLoop compare fuel i (a, calls) = (a, calls) := by
  intro fuel calls
  cases fuel with
  | zero => rfl
  | succ fuel =>
    unfold updateKeyLoop
    simp only [Heap.parent_eq]
    rcases h with rfl | hle
    · simp
    · unfold CmpLe at hle
      split_ifs <;> rfl

end Loops

/-! ## The operations -/

/-- What a call shows of the elements it moves: the element an insert is
given, the element an extract copies out (`none` when it copies none), and for
an update the element at `pos` and the key it now has. -/
inductive HeapEvent (α : Type)
  | insert (e : α)
  | extract (out : Option α)
  | update (old key : α)

/-- The event of a call on a heap. -/
def heapEvent (compare : α → α → Int) (h : Heap α) : HeapOp α → HeapEvent α
  | .insert e => .insert e
  | .extract => .extract (heapExtract compare h).out
  | .update pos key => .update (h.array.getD pos default) key

/-- **What a call does to the elements.** An insert adds its element, or
changes nothing when the heap is full; an extract that copies out `x` removes
`x`, a least element, and one that copies out nothing finds the heap empty; an
update replaces the element it names by its new key. -/
def HeapSpec (compare : α → α → Int) (alloc : Nat) :
    Multiset α → HeapEvent α → Multiset α → Prop
  | M, .insert e, M' => (M.card < alloc ∧ M' = e ::ₘ M) ∨ (M.card = alloc ∧ M' = M)
  | M, .extract none, M' => M = 0 ∧ M' = 0
  | M, .extract (some x), M' => (∀ y ∈ M, compare x y ≤ 0) ∧ M = x ::ₘ M'
  | M, .update old key, M' => ∃ R, M = old ::ₘ R ∧ M' = key ::ₘ R

/-- The calls the specification covers in a heap: an update names a position
in use. -/
def HeapOp.InRange (h : Heap α) : HeapOp α → Prop
  | .update pos _ => pos < h.array.length
  | _ => True

instance (h : Heap α) : DecidablePred (HeapOp.InRange h) := fun op => by
  cases op <;> unfold HeapOp.InRange <;> infer_instance

section Ops

variable {compare : α → α → Int}

/-- `heap_insert`: full exactly when it returns `-ENOMEM`, and then unchanged;
else the element is added and the heap sifted, and the element was copied to
the slot `count`, inside the array. -/
theorem heapInsert_spec (hc : CmpPreorder compare) {h : Heap α} (hw : HeapWf compare h) (e : α) :
    ((heapInsert compare h e).ret = -ENOMEM ↔ h.array.length = h.alloc) ∧
      (h.array.length = h.alloc → heapInsert compare h e = ⟨-ENOMEM, none, h, [], none⟩) ∧
      (h.array.length < h.alloc →
        HeapWf compare (heapInsert compare h e).heap ∧ (heapInsert compare h e).heap.alloc = h.alloc ∧
          (heapInsert compare h e).heap.array.Perm (h.array ++ [e]) ∧
          (heapInsert compare h e).stored = some (h.array.length * h.size) ∧
          (h.array.length + 1) * h.size ≤ h.bytes) := by
  by_cases hlen : h.array.length = h.alloc
  · refine ⟨?_, heapInsert_of_full compare e, fun hlt => absurd hlen (Nat.ne_of_lt hlt)⟩
    simp [heapInsert_of_full compare e hlen, hlen]
  · -- `int i = h->count` holds the count, and the element sifts up from there
    have hlt : h.array.length < h.alloc := lt_of_le_of_ne hw.bound hlen
    have hsmall := hw.small
    have hi : (intOfNat h.array.length).toNat = h.array.length := by
      rw [intOfNat_of_lt (by omega), Int.toNat_natCast]
    have hup := updateKeyLoop_spec hc h.array.length h.array.length (h.array ++ [e]) []
      (hw.ordered.upOrder_append e) (by simp) le_rfl
    -- the slot `count` ends within the `alloc * size` bytes
    have hslot : (h.array.length + 1) * h.size ≤ h.alloc * h.size := Nat.mul_le_mul_right _ hlt
    have hfits := hw.fits
    rw [heapInsert_of_ne compare e hlen, hi]
    refine ⟨?_, fun h' => absurd h' hlen, fun _ => ⟨⟨hup.1, ?_, hw.small, hw.bytes, hw.fits⟩, rfl, hup.2, ?_,
      hw.bytes ▸ hslot⟩⟩
    · show (0 : Int) = -ENOMEM ↔ h.array.length = h.alloc
      simp [ENOMEM, hlen]
    · show (heapUpdateKey compare (h.array ++ [e]) [] h.array.length).1.length ≤ h.alloc
      rw [heapUpdateKey, hup.2.length_eq, List.length_append, List.length_singleton]
      omega
    · show some (sizeOfInt (intOfNat h.array.length) * h.size % 2 ^ 64) = some (h.array.length * h.size)
      have hlt' : h.array.length * h.size < 2 ^ 64 :=
        lt_of_le_of_lt (Nat.mul_le_mul_right _ hlt.le) hfits
      rw [intOfNat_of_lt (by omega), sizeOfInt_natCast (by omega), Nat.mod_eq_of_lt hlt']

/-- `heap_extract`: empty exactly when it returns `-ENOENT`; else it copies out
the root, a least element, and keeps a heap of the others. -/
theorem heapExtract_spec (hc : CmpPreorder compare) {h : Heap α} (hw : HeapWf compare h) :
    ((heapExtract compare h).ret = -ENOENT ↔ h.array.length = 0) ∧
      (h.array.length = 0 → heapExtract compare h = ⟨-ENOENT, none, h, [], none⟩) ∧
      (0 < h.array.length →
        (heapExtract compare h).out = some (h.array.getD 0 default) ∧
        (∀ y ∈ h.array, compare (h.array.getD 0 default) y ≤ 0) ∧
        HeapWf compare (heapExtract compare h).heap ∧ (heapExtract compare h).heap.alloc = h.alloc ∧
          (heapExtract compare h).heap.array.Perm h.array.tail) := by
  have := hc.toTotal
  have := hc.toTrans
  by_cases hlen : h.array.length = 0
  · refine ⟨?_, heapExtract_of_empty compare, fun hpos => absurd hlen (Nat.ne_of_gt hpos)⟩
    simp [heapExtract_of_empty compare hlen, hlen]
  · -- the last element over the root, the array one shorter, a sift down
    set a := (h.array.set 0 (h.array.getD (h.array.length - 1) default)).take (h.array.length - 1)
      with ha
    have hdown : DownOrder (CmpLe compare) a 0 :=
      (hw.ordered.downOrder_set (by omega) (fun h0 => absurd h0 (lt_irrefl 0))).take _
    have hsmall : a.length < 2 ^ 30 := by
      rw [ha, List.length_take, List.length_set]
      have := hw.bound
      have := hw.small
      omega
    have hsift := heapifyLoop_spec hc a.length 0 a [] hdown (by omega) hsmall
    have hroot : ∀ y ∈ h.array, compare (h.array.getD 0 default) y ≤ 0 := by
      intro y hy
      obtain ⟨j, hj, rfl⟩ := List.getElem_of_mem hy
      have := hw.ordered.root_le j hj
      rwa [List.getD_eq_getElem _ _ hj] at this
    have hlen' : a.length ≤ h.alloc := by
      rw [ha, List.length_take, List.length_set]
      have := hw.bound
      omega
    rw [heapExtract_of_ne compare hlen]
    refine ⟨?_, fun h' => absurd h' hlen, fun _ => ⟨rfl, hroot, ⟨hsift.1, ?_, hw.small, hw.bytes, hw.fits⟩, rfl,
      hsift.2.trans (take_set_zero_last_perm h.array)⟩⟩
    · simp [ENOENT, hlen]
    · rw [heapify, hsift.2.length_eq]
      exact hlen'

/-- `heap_update` after the element at `pos` got the key `key`: a heap again,
with the same elements but for that one. -/
theorem heapUpdate_spec (hc : CmpPreorder compare) {h : Heap α} (hw : HeapWf compare h) {pos : Nat}
    (hpos : pos < h.array.length) (key : α) :
    let r := heapUpdate compare { h with array := h.array.set pos key } pos
    HeapWf compare r.heap ∧ r.heap.alloc = h.alloc ∧ r.heap.array.Perm (h.array.set pos key) := by
  have := hc.toTotal
  have := hc.toTrans
  intro r
  have hbound : (h.array.set pos key).length ≤ h.alloc := by simpa using hw.bound
  have hsmall : (h.array.set pos key).length < 2 ^ 30 := by
    have := hw.small
    omega
  have hset := getD_set_of_lt key hpos
  by_cases hup : 0 < pos ∧ ¬ CmpLe compare (h.array.getD ((pos - 1) / 2) default) key
  · -- the new key is before its parent: it sifts up, and the sift down from
    -- `pos` then finds a heap
    have o := hw.ordered.upOrder_set hup.1 hpos (le_of_not_le hup.2)
    obtain ⟨hord, hperm⟩ := updateKeyLoop_spec hc pos pos _ [] o (by simpa using hpos) le_rfl
    have hr : r.heap = { h with array := (updateKeyLoop compare pos pos (h.array.set pos key, [])).1 } := by
      simp only [r, heapUpdate, heapUpdateKey, heapify]
      rw [heapifyLoop_of_ordered hord (by rw [hperm.length_eq]; exact hsmall)]
    rw [hr]
    exact ⟨⟨hord, by rw [hperm.length_eq]; exact hbound, hw.small, hw.bytes, hw.fits⟩, rfl, hperm⟩
  · -- the new key is at or after its parent: no sift up, a sift down from `pos`
    have hstay : pos = 0 ∨ CmpLe compare ((h.array.set pos key).getD ((pos - 1) / 2) default)
        ((h.array.set pos key).getD pos default) := by
      by_cases hpos0 : pos = 0
      · exact .inl hpos0
      · right
        rw [hset, hset, if_neg (by omega), if_pos rfl]
        exact not_not.mp (not_and.mp hup (by omega))
    have hv : 0 < pos → CmpLe compare (h.array.getD ((pos - 1) / 2) default) key := by
      intro hpos0
      exact not_not.mp (not_and.mp hup hpos0)
    have o := hw.ordered.downOrder_set hpos hv
    obtain ⟨hord, hperm⟩ := heapifyLoop_spec hc (h.array.set pos key).length pos _ [] o (by omega) hsmall
    have hr : r.heap = { h with array := (heapifyLoop compare (h.array.set pos key).length pos
        (h.array.set pos key, [])).1 } := by
      simp only [r, heapUpdate, heapUpdateKey, heapify]
      rw [updateKeyLoop_stop hstay]
    rw [hr]
    exact ⟨⟨hord, by rw [hperm.length_eq]; exact hbound, hw.small, hw.bytes, hw.fits⟩, rfl, hperm⟩

end Ops

end Chaconne
