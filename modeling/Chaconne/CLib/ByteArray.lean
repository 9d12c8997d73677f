import Mathlib

/-!
# Fixed arrays as lists: `memcpy` and the shifting loops

An array is a list of fixed length, written element by element with `set`. The
three writes C code does to a buffer by hand:

* `memcpyAt buf off src` — `memcpy(&buf[off], src, |src|)`;
* `moveUp lo hi` — `for (i = hi; i > lo; i--) buf[i] = buf[i - 1];`
* `moveDown i k` — `k` rounds of `buf[i - 1] = buf[i]; i++`;
* `exchange buf i j` — two cells trade places through a scratch cell.

Each is described element by element (`getElem?_moveUp`, `getElem?_moveDown`,
`getD_exchange`) and, within bounds, as a splice of the list (`memcpyAt_eq`,
`take_set_moveUp`, `take_moveDown`); an exchange permutes the array
(`exchange_perm`), and so does moving the last element to the front
(`take_set_zero_last_perm`).
-/

namespace CLib

variable {α : Type}

/-- `memcpy(&buf[off], src, |src|)`. -/
def memcpyAt (buf : List α) (off : Nat) : List α → List α
  | [] => buf
  | b :: bs => memcpyAt (buf.set off b) (off + 1) bs

/-- `for (i = hi; i > lo; i--) buf[i] = buf[i - 1];` -/
def moveUp [Inhabited α] (lo : Nat) : Nat → List α → List α
  | 0, buf => buf
  | i + 1, buf => if lo < i + 1 then moveUp lo i (buf.set (i + 1) (buf.getD i default)) else buf

/-- `k` rounds of `buf[i - 1] = buf[i]; i++`. -/
def moveDown [Inhabited α] : Nat → Nat → List α → List α
  | _, 0, buf => buf
  | i, k + 1, buf => moveDown (i + 1) k (buf.set (i - 1) (buf.getD i default))

/-- `memcpy(tmp, &buf[j]); memcpy(&buf[j], &buf[i]); memcpy(&buf[i], tmp)`. -/
def exchange [Inhabited α] (buf : List α) (i j : Nat) : List α :=
  (buf.set j (buf.getD i default)).set i (buf.getD j default)

@[simp] theorem length_memcpyAt (buf : List α) (off : Nat) (src : List α) :
    (memcpyAt buf off src).length = buf.length := by
  induction src generalizing buf off with
  | nil => rfl
  | cons b bs ih => simp [memcpyAt, ih]

@[simp] theorem length_moveUp [Inhabited α] (lo hi : Nat) (buf : List α) :
    (moveUp lo hi buf).length = buf.length := by
  induction hi generalizing buf with
  | zero => rfl
  | succ i ih =>
    unfold moveUp
    split <;> simp [ih]

@[simp] theorem length_moveDown [Inhabited α] (i k : Nat) (buf : List α) :
    (moveDown i k buf).length = buf.length := by
  induction k generalizing i buf with
  | zero => rfl
  | succ k ih => simp [moveDown, ih]

@[simp] theorem length_exchange [Inhabited α] (buf : List α) (i j : Nat) :
    (exchange buf i j).length = buf.length := by
  simp [exchange]

/-- A cell of a list after one write, within bounds. -/
theorem getD_set_of_lt {buf : List α} {k : Nat} (v : α) (hk : k < buf.length) (j : Nat) (d : α) :
    (buf.set k v).getD j d = if j = k then v else buf.getD j d := by
  simp only [List.getD_eq_getElem?_getD, List.getElem?_set]
  by_cases hj : j = k
  · simp [hj, hk]
  · simp [Ne.symm hj, hj]

/-- Each cell after an exchange within bounds. -/
theorem getD_exchange [Inhabited α] {buf : List α} {i j : Nat} (hi : i < buf.length)
    (hj : j < buf.length) (k : Nat) :
    (exchange buf i j).getD k default =
      if k = i then buf.getD j default else if k = j then buf.getD i default
      else buf.getD k default := by
  unfold exchange
  rw [getD_set_of_lt _ (by simpa using hi), getD_set_of_lt _ hj]

theorem exchange_perm [Inhabited α] {buf : List α} {i j : Nat} (hi : i < buf.length)
    (hj : j < buf.length) : (exchange buf i j).Perm buf := by
  unfold exchange
  rw [List.getD_eq_getElem _ _ hi, List.getD_eq_getElem _ _ hj]
  exact List.set_set_perm hj hi

/-- The last element written over the first and the array shortened by one:
the elements after the first, in another order. -/
theorem take_set_zero_last_perm [Inhabited α] (buf : List α) :
    ((buf.set 0 (buf.getD (buf.length - 1) default)).take (buf.length - 1)).Perm buf.tail := by
  match buf with
  | [] => simp
  | x :: rest =>
    cases rest with
    | nil => simp
    | cons y ys =>
      -- the tail is its front and its last element
      have hne : y :: ys ≠ [] := List.cons_ne_nil y ys
      have hlast : (x :: y :: ys).getD ((x :: y :: ys).length - 1) default =
          (y :: ys).getLast hne := by
        simp [List.getLast_eq_getElem, List.getD_eq_getElem?_getD]
      have htake : ((y :: ys).getLast hne :: y :: ys).take (y :: ys).length =
          (y :: ys).getLast hne :: (y :: ys).dropLast := by
        rw [List.dropLast_eq_take, List.length_cons, List.take_succ_cons]
        simp
      rw [hlast, List.set_cons_zero, List.length_cons, Nat.add_sub_cancel, htake, List.tail_cons]
      calc ((y :: ys).getLast hne :: (y :: ys).dropLast).Perm
            ((y :: ys).dropLast ++ [(y :: ys).getLast hne]) :=
            (List.perm_append_singleton _ _).symm
        _ = y :: ys := List.dropLast_append_getLast hne

/-- The prefix up to a written element. -/
theorem take_succ_set {buf : List α} {off : Nat} (b : α) (h : off < buf.length) :
    (buf.set off b).take (off + 1) = buf.take off ++ [b] := by
  rw [List.take_set, List.take_add_one, List.getElem?_eq_getElem h, Option.toList_some,
    List.set_append_right _ _ (by simp)]
  simp [Nat.min_eq_left h.le]

/-- Within bounds, `memcpy` splices the source into the array. -/
theorem memcpyAt_eq {buf : List α} {off : Nat} {src : List α} (h : off + src.length ≤ buf.length) :
    memcpyAt buf off src = buf.take off ++ src ++ buf.drop (off + src.length) := by
  induction src generalizing buf off with
  | nil => simp [memcpyAt]
  | cons b bs ih =>
    simp only [List.length_cons] at h
    have hoff : off < buf.length := by omega
    rw [memcpyAt, ih (by simp; omega), take_succ_set b hoff, List.drop_set_of_lt (by omega)]
    simp [Nat.add_comm, Nat.add_left_comm]

/-- Each element after `moveUp lo hi`: those in `(lo, hi]` come from one place
lower, the others stay. -/
theorem getElem?_moveUp [Inhabited α] (lo hi : Nat) (buf : List α) (hhi : hi < buf.length)
    (j : Nat) :
    (moveUp lo hi buf)[j]? = if lo < j ∧ j ≤ hi then buf[j - 1]? else buf[j]? := by
  induction hi generalizing buf with
  | zero => simp [moveUp]; omega
  | succ i ih =>
    unfold moveUp
    split_ifs with hlo h1
    · -- the round that writes `buf[i + 1]`
      rw [ih _ (by simp; omega)]
      have hi : i < buf.length := by omega
      split_ifs with h3
      · rw [List.getElem?_set_ne (by omega)]
      · by_cases hj : j = i + 1
        · subst hj
          simp [List.getElem?_set_self (by omega : i + 1 < buf.length), List.getD_eq_getElem?_getD,
            List.getElem?_eq_getElem hi]
        · omega
    · rw [ih _ (by simp; omega)]
      split_ifs with h3
      · omega
      · rw [List.getElem?_set_ne (by omega)]
    · omega
    · rfl

/-- Each element after `moveDown i k` (from `i ≥ 1`): those in `[i - 1, i - 1 + k)`
come from one place higher, the others stay. -/
theorem getElem?_moveDown [Inhabited α] (i k : Nat) (buf : List α) (hi : 1 ≤ i)
    (hk : i + k ≤ buf.length) (j : Nat) :
    (moveDown i k buf)[j]? = if i - 1 ≤ j ∧ j < i - 1 + k then buf[j + 1]? else buf[j]? := by
  induction k generalizing i buf with
  | zero => simp [moveDown]
  | succ k ih =>
    rw [moveDown, ih (i + 1) _ (by omega) (by simp; omega), Nat.add_sub_cancel]
    have hin : i < buf.length := by omega
    by_cases hj : j = i - 1
    · -- the element written in this round
      subst hj
      rw [if_neg (by omega), if_pos (by omega), List.getElem?_set_self (by omega)]
      simp [List.getElem?_eq_getElem hin, Nat.sub_add_cancel hi]
    · by_cases hr : i ≤ j ∧ j < i + k
      · rw [if_pos hr, if_pos (by omega), List.getElem?_set_ne (by omega)]
      · rw [if_neg hr, if_neg (by omega), List.getElem?_set_ne (by omega)]

/-! ## The shifted prefixes -/

/-- An insertion at `lo`: after `moveUp lo hi` and a write at `lo`, the prefix
before `hi` holds `buf[0..lo)`, the new element and `buf[lo..hi - 1)`. -/
theorem take_set_moveUp [Inhabited α] {lo hi : Nat} {buf : List α} (c : α) (hlo : lo < hi)
    (hhi : hi < buf.length) :
    ((moveUp lo hi buf).set lo c).take hi = buf.take lo ++ c :: (buf.drop lo).take (hi - 1 - lo) := by
  apply List.ext_getElem?
  intro j
  rw [List.getElem?_take, List.getElem?_set, getElem?_moveUp lo hi buf hhi, List.getElem?_append,
    List.getElem?_cons]
  simp only [List.length_take, List.getElem?_take, List.getElem?_drop, length_moveUp]
  -- every case is an index comparison
  split_ifs <;> first | rfl | omega | (congr 1; omega)

/-- After `moveDown i k`, the prefix through the last element written holds
`buf[0..i - 1)` and then `buf[i..i + k)`: the element at `i - 1` is gone. -/
theorem take_moveDown [Inhabited α] (i k : Nat) (buf : List α) (hi : 1 ≤ i)
    (hk : i + k ≤ buf.length) :
    (moveDown i k buf).take (i - 1 + k) = buf.take (i - 1) ++ (buf.drop i).take k := by
  apply List.ext_getElem?
  intro j
  rw [List.getElem?_take, getElem?_moveDown i k buf hi hk, List.getElem?_append]
  simp only [List.length_take, List.getElem?_take, List.getElem?_drop]
  split_ifs <;> first | rfl | omega | (congr 1; omega)

end CLib
