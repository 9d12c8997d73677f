import Mathlib

/-!
# Arrays of lists

An array of chains (buckets, sibling lists) is a `List` of records each holding
a list; the flattened contents are its `flatMap`. Updating one record in place
changes the flattened contents by a permutation: the record's old list is
replaced by its new one and the other records keep theirs.

A ring of the last entries of a list is read back by walking positions in
reverse (`flatten_map_range_reverse`). Of a list split at separators, a prefix
without one joins the first part (`splitOnP_append_of_forall`).
-/

namespace CLib

variable {α β : Type}

/-- `modify` at an index in range is `set` to the modified element. -/
theorem modify_eq_set_getElem {l : List α} {i : Nat} (f : α → α) (h : i < l.length) :
    l.modify i f = l.set i (f l[i]) := by
  apply List.ext_getElem
  · simp
  · intro j h1 h2
    rw [List.getElem_modify, List.getElem_set]
    split <;> simp_all

/-- The contents of an array of lists, split at one index. -/
theorem perm_flatMap_getElem {l : List α} {i : Nat} (f : α → List β) (h : i < l.length) :
    (l.flatMap f).Perm (f l[i] ++ (l.eraseIdx i).flatMap f) := by
  have hp := (List.getElem_cons_eraseIdx_perm h).flatMap_right f
  rw [List.flatMap_cons] at hp
  exact hp.symm

/-- Setting one element replaces its list in the contents, up to order. -/
theorem perm_flatMap_set {l : List α} {i : Nat} (f : α → List β) (a : α) (h : i < l.length) :
    ((l.set i a).flatMap f).Perm (f a ++ (l.eraseIdx i).flatMap f) := by
  have hi : i < (l.set i a).length := by simpa using h
  have hp := perm_flatMap_getElem f hi
  rwa [List.getElem_set_self, List.eraseIdx_set_eq] at hp

/-- Pushing one item onto the list of one element adds it to the contents. -/
theorem perm_flatMap_modify_cons {l : List α} {i : Nat} (f : α → List β) (g : α → α) (b : β)
    (hg : ∀ a, f (g a) = b :: f a) (h : i < l.length) :
    ((l.modify i g).flatMap f).Perm (b :: l.flatMap f) := by
  rw [modify_eq_set_getElem g h]
  refine (perm_flatMap_set f (g l[i]) h).trans ?_
  rw [hg]
  exact ((perm_flatMap_getElem f h).cons b).symm

/-- `modify` at the position right after a prefix changes the element there. -/
theorem modify_append_length (pre post : List α) (a : α) (f : α → α) :
    (pre ++ a :: post).modify pre.length f = pre ++ f a :: post := by
  induction pre with
  | nil => simp
  | cons x pre ih => simp [ih]

/-- The element right after a prefix. -/
theorem getD_append_length (pre post : List α) (a d : α) : (pre ++ a :: post).getD pre.length d = a := by
  simp

/-- Walking back over the last `k` places of a list, most recent last, sees
its last `k` elements in order (the places before its start see nothing). -/
theorem flatten_map_range_reverse {γ : Type} (L : List α) (f : Option α → List γ)
    (hf : f none = []) (k : Nat) :
    ((List.range k).reverse.map fun a => f L.reverse[a]?).flatten =
      (L.drop (L.length - k)).flatMap fun l => f (some l) := by
  induction k with
  | zero => simp
  | succ k ih =>
    rw [List.range_succ, List.reverse_append, List.reverse_singleton, List.singleton_append,
      List.map_cons, List.flatten_cons, ih]
    by_cases hk : k < L.length
    · -- the element `k` places back is the one before the last `k`
      have hdrop : L.drop (L.length - (k + 1)) = L[L.length - 1 - k] :: L.drop (L.length - k) := by
        rw [List.drop_eq_getElem_cons (by omega)]
        congr 2 <;> omega
      rw [List.getElem?_reverse hk, hdrop, List.flatMap_cons,
        List.getElem?_eq_getElem (by omega)]
    · rw [List.getElem?_eq_none (by simpa using hk), hf, List.nil_append,
        show L.length - (k + 1) = L.length - k by omega]

/-- A prefix without separators joins the first part. -/
theorem splitOnP_append_of_forall (p : α → Bool) {xs : List α} (ys : List α)
    (hxs : ∀ x ∈ xs, p x = false) :
    (xs ++ ys).splitOnP p = (ys.splitOnP p).modifyHead (xs ++ ·) := by
  induction xs with
  | nil =>
    obtain ⟨y, ys', hys⟩ := List.exists_cons_of_ne_nil (List.splitOnP_ne_nil p ys)
    rw [List.nil_append, hys, List.modifyHead_cons, List.nil_append]
  | cons x xs ih =>
    rw [List.cons_append, List.splitOnP_cons_eq_if_modifyHead, if_neg (by simp [hxs x (by simp)]),
      ih fun y hy => hxs y (List.mem_cons_of_mem x hy), List.modifyHead_modifyHead]
    rfl

/-- The length of the longest list of a list of lists. -/
def maxLength (ls : List (List α)) : Nat :=
  (ls.map List.length).foldr max 0

@[simp] theorem maxLength_nil : maxLength ([] : List (List α)) = 0 := rfl

@[simp] theorem maxLength_cons (l : List α) (ls : List (List α)) :
    maxLength (l :: ls) = max l.length (maxLength ls) := rfl

end CLib
