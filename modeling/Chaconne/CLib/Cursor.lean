import Mathlib

/-!
# A cursor in a list

A position `k` in a list `s` (`0 ≤ k ≤ |s|`) moved over the elements that
satisfy a test: to the left over those just before it (`backOver`), to the
right over those from it on (`fwdOver`). The one-step lemmas are what a loop
that moves by one element at a time needs; `backOver_append`,
`fwdOver_cut` say that the result depends only on the part of the list the
cursor crosses.
-/

namespace CLib

variable {α : Type} (p : α → Bool)

/-- The position reached from `k` stepping left over elements that satisfy `p`. -/
def backOver (s : List α) (k : Nat) : Nat :=
  ((s.take k).reverse.dropWhile p).length

/-- The position reached from `k` stepping right over elements that satisfy `p`. -/
def fwdOver (s : List α) (k : Nat) : Nat :=
  k + ((s.drop k).takeWhile p).length

@[simp] theorem backOver_zero (s : List α) : backOver p s 0 = 0 := by
  simp [backOver]

theorem backOver_succ_of_pos {s : List α} {k : Nat} (hk : k < s.length) (h : p s[k] = true) :
    backOver p s (k + 1) = backOver p s k := by
  unfold backOver
  rw [List.take_add_one, List.getElem?_eq_getElem hk, Option.toList_some, List.reverse_append,
    List.reverse_singleton, List.singleton_append, List.dropWhile_cons_of_pos h]

theorem backOver_succ_of_neg {s : List α} {k : Nat} (hk : k < s.length) (h : p s[k] = false) :
    backOver p s (k + 1) = k + 1 := by
  unfold backOver
  rw [List.take_add_one, List.getElem?_eq_getElem hk, Option.toList_some, List.reverse_append,
    List.reverse_singleton, List.singleton_append, List.dropWhile_cons_of_neg (by simp [h])]
  simp [Nat.min_eq_left hk.le]

theorem backOver_le (s : List α) (k : Nat) : backOver p s k ≤ k := by
  unfold backOver
  calc ((s.take k).reverse.dropWhile p).length ≤ (s.take k).reverse.length :=
        (List.dropWhile_sublist p).length_le
    _ ≤ k := by simp

/-- Stepping left from `j` sees only the first `j` elements. -/
theorem backOver_append {s : List α} {j : Nat} (hj : j ≤ s.length) (t : List α) :
    backOver p (s.take j ++ t) j = backOver p s j := by
  unfold backOver
  rw [List.take_append_of_le_length (by simp; omega), List.take_take, min_self]

/-- Stepping left from the end over a last run `t` that passes `p`: the walk
stops where `s` ends, at an element that fails `p`. -/
theorem backOver_append_length {s t : List α} (ht : ∀ x ∈ t, p x = true)
    (hs : ∀ x ∈ s.getLast?, p x = false) : backOver p (s ++ t) (s ++ t).length = s.length := by
  unfold backOver
  rw [List.take_length, List.reverse_append,
    List.dropWhile_append_of_pos (fun x hx => ht x (List.mem_reverse.mp hx))]
  induction s using List.reverseRecOn with
  | nil => rfl
  | append_singleton s x _ =>
    have hx : p x = false := hs x (by simp)
    rw [List.reverse_append, List.reverse_singleton, List.singleton_append,
      List.dropWhile_cons_of_neg (by simp [hx])]
    simp

theorem fwdOver_of_pos {s : List α} {k : Nat} (hk : k < s.length) (h : p s[k] = true) :
    fwdOver p s k = fwdOver p s (k + 1) := by
  unfold fwdOver
  rw [List.drop_eq_getElem_cons hk, List.takeWhile_cons_of_pos h]
  simp only [List.length_cons]
  omega

theorem fwdOver_of_neg {s : List α} {k : Nat} (hk : k < s.length) (h : p s[k] = false) :
    fwdOver p s k = k := by
  unfold fwdOver
  rw [List.drop_eq_getElem_cons hk, List.takeWhile_cons_of_neg (by simp [h])]
  simp

theorem fwdOver_of_length_le {s : List α} {k : Nat} (hk : s.length ≤ k) : fwdOver p s k = k := by
  simp [fwdOver, List.drop_eq_nil_of_le hk]

theorem le_fwdOver (s : List α) (k : Nat) : k ≤ fwdOver p s k := by
  simp [fwdOver]

theorem fwdOver_le {s : List α} {k : Nat} (hk : k ≤ s.length) : fwdOver p s k ≤ s.length := by
  unfold fwdOver
  have := (List.takeWhile_sublist p (l := s.drop k)).length_le
  simp only [List.length_drop] at this
  omega

/-- Stepping right from `k` after the elements in `[k, j)` are cut out. -/
theorem fwdOver_cut {s : List α} {k j : Nat} (hkj : k ≤ j) (hj : j ≤ s.length) :
    fwdOver p (s.take k ++ s.drop j) k = k + (fwdOver p s j - j) := by
  unfold fwdOver
  rw [List.drop_append_of_le_length (by simp only [List.length_take]; omega),
    List.drop_eq_nil_of_le (by simp only [List.length_take]; omega), List.nil_append]
  omega

end CLib
