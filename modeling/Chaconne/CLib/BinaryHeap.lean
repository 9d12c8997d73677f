import Chaconne.CLib.ByteArray

/-!
# Binary heaps in an array

An array `a` is read as a binary tree: the parent of a position `i > 0` is
`(i - 1) / 2`. It is a heap for a total preorder `le` when every element is at
or after its parent (`HeapOrdered`). A sift repairs a heap with one position
out of place by exchanges along a path:

* `UpOrder a k` — only the pair of `k` and its parent may be out of order,
  and `k`'s parent is at or before `k`'s children. An exchange of `k` with a
  parent it is before keeps it one level up (`UpOrder.move`); once `k` is at
  or after its parent, `a` is a heap (`UpOrder.finish`).
* `DownOrder a k` — only the pairs of `k` and its children may be out of
  order, and `k`'s parent is at or before them. An exchange of `k` with a
  least of `k` and its children keeps it one level down (`DownOrder.move`);
  once `k` is at or before its children, `a` is a heap (`DownOrder.finish`).

The starts the heap operations set up: an element added at the end
(`HeapOrdered.upOrder_append`), an element replaced
(`HeapOrdered.upOrder_set`, `HeapOrdered.downOrder_set`), a prefix
(`DownOrder.take`). The root of a heap is at or before every element
(`HeapOrdered.root_le`).
-/

namespace CLib

/-- `c` is a child of `p` in an array read as a binary tree. -/
def IsChild (c p : Nat) : Prop := 0 < c ∧ (c - 1) / 2 = p

theorem IsChild.lt {c p : Nat} (h : IsChild c p) : p < c := by
  obtain ⟨h0, hp⟩ := h
  omega

variable {α : Type} [Inhabited α] (le : α → α → Prop)

/-- Position `i` is at or after its parent. -/
def InOrder (a : List α) (i : Nat) : Prop :=
  le (a.getD ((i - 1) / 2) default) (a.getD i default)

/-- Every element is at or after its parent. -/
def HeapOrdered (a : List α) : Prop :=
  ∀ i, 0 < i → i < a.length → InOrder le a i

/-- A heap but for the pair of `k` and its parent; `k`'s parent is at or
before `k`'s children. -/
structure UpOrder (a : List α) (k : Nat) : Prop where
  except : ∀ i, 0 < i → i < a.length → i ≠ k → InOrder le a i
  grand : 0 < k → ∀ c, IsChild c k → c < a.length →
    le (a.getD ((k - 1) / 2) default) (a.getD c default)

/-- A heap but for the pairs of `k` and its children; `k`'s parent is at or
before `k`'s children. -/
structure DownOrder (a : List α) (k : Nat) : Prop where
  except : ∀ i, 0 < i → i < a.length → (i - 1) / 2 ≠ k → InOrder le a i
  grand : 0 < k → ∀ c, IsChild c k → c < a.length →
    le (a.getD ((k - 1) / 2) default) (a.getD c default)

variable {le}

/-! ## The exits of the sifts -/

/-- The exit of a sift up: `k` is at or after its parent. -/
theorem UpOrder.finish {a : List α} {k : Nat} (o : UpOrder le a k)
    (hstop : 0 < k → k < a.length → InOrder le a k) : HeapOrdered le a := by
  intro i hi0 hin
  by_cases hik : i = k
  · subst hik
    exact hstop hi0 hin
  · exact o.except i hi0 hin hik

/-- The exit of a sift down: `k` is at or before its children. -/
theorem DownOrder.finish {a : List α} {k : Nat} (o : DownOrder le a k)
    (hstop : ∀ c, IsChild c k → c < a.length → le (a.getD k default) (a.getD c default)) :
    HeapOrdered le a := by
  intro i hi0 hin
  by_cases hck : (i - 1) / 2 = k
  · unfold InOrder
    rw [hck]
    exact hstop i ⟨hi0, hck⟩ hin
  · exact o.except i hi0 hin hck

/-- A prefix keeps the order of the positions it keeps. -/
theorem DownOrder.take {a : List α} {k : Nat} (o : DownOrder le a k) (n : Nat) :
    DownOrder le (a.take n) k := by
  have hget : ∀ j, j < (a.take n).length → (a.take n).getD j default = a.getD j default := by
    intro j hj
    rw [List.length_take] at hj
    simp only [List.getD_eq_getElem?_getD, List.getElem?_take, if_pos (show j < n by omega)]
  constructor
  · intro i hi0 hin hpk
    unfold InOrder
    rw [hget i hin, hget _ (by omega)]
    exact o.except i hi0 (by simp at hin; omega) hpk
  · intro hk c hc hcn
    have hkc := hc.lt
    rw [hget c hcn, hget _ (by omega)]
    exact o.grand hk c hc (by simp at hcn; omega)

/-! ## Sifting down -/

/-- One exchange of `k` with a child `m` that is at or before `k` and all of
`k`'s children. -/
theorem DownOrder.move {a : List α} {k m : Nat} (o : DownOrder le a k) (hm : IsChild m k)
    (hmn : m < a.length) (hmk : le (a.getD m default) (a.getD k default))
    (hmin : ∀ c, IsChild c k → c < a.length → le (a.getD m default) (a.getD c default)) :
    DownOrder le (exchange a k m) m := by
  have hkm := hm.lt
  have hx := getD_exchange (show k < a.length by omega) hmn
  constructor
  · intro i hi0 hin hpm
    rw [length_exchange] at hin
    unfold InOrder
    rw [hx, hx]
    by_cases him : i = m
    · -- the exchanged pair
      subst him
      simp only [hm.2, if_neg (Nat.ne_of_gt hkm)]
      exact hmk
    · by_cases hik : i = k
      · -- `k` now holds `m`'s element, under `k`'s parent
        subst hik
        have hpk : (i - 1) / 2 < i := by omega
        simp only [if_neg (Nat.ne_of_lt hpk), if_neg (by omega : (i - 1) / 2 ≠ m)]
        exact o.grand hi0 m hm hmn
      · by_cases hck : (i - 1) / 2 = k
        · -- a child of `k` now sits under `m`'s element
          simp only [hck, if_neg hik, if_neg him]
          exact hmin i ⟨hi0, hck⟩ hin
        · simp only [if_neg hck, if_neg hpm, if_neg hik, if_neg him]
          exact o.except i hi0 hin hck
  · intro _ c hc hcn
    rw [length_exchange] at hcn
    have hmc := hc.lt
    have hold := o.except c hc.1 hcn (by rw [hc.2]; exact Nat.ne_of_gt hkm)
    unfold InOrder at hold
    rw [hc.2] at hold
    rw [hx, hx, hm.2, if_pos rfl, if_neg (by omega), if_neg (by omega)]
    exact hold

/-! ## Where the sifts start -/

/-- An element added at the end is the only one that may be out of order. -/
theorem HeapOrdered.upOrder_append {a : List α} (h : HeapOrdered le a) (e : α) :
    UpOrder le (a ++ [e]) a.length := by
  have hget : ∀ j, j < a.length → (a ++ [e]).getD j default = a.getD j default := by
    intro j hj
    simp only [List.getD_eq_getElem?_getD, List.getElem?_append_left hj]
  constructor
  · intro i hi0 hin hik
    rw [List.length_append, List.length_singleton] at hin
    unfold InOrder
    rw [hget i (by omega), hget _ (by omega)]
    exact h i hi0 (by omega)
  · intro _ c hc hcn
    have := hc.2
    simp at hcn
    omega

variable [IsTrans α le]

/-- An element replaced by one at or after its parent may only be out of order
with its children. -/
theorem HeapOrdered.downOrder_set {a : List α} (h : HeapOrdered le a) {k : Nat}
    (hk : k < a.length) {v : α} (hv : 0 < k → le (a.getD ((k - 1) / 2) default) v) :
    DownOrder le (a.set k v) k := by
  have hx := getD_set_of_lt v hk
  constructor
  · intro i hi0 hin hpk
    rw [List.length_set] at hin
    unfold InOrder
    rw [hx, hx, if_neg hpk]
    by_cases hik : i = k
    · subst hik
      rw [if_pos rfl]
      exact hv hi0
    · rw [if_neg hik]
      exact h i hi0 hin
  · intro hk0 c hc hcn
    rw [List.length_set] at hcn
    have hkc := hc.lt
    have hup := h k hk0 hk
    have hdown := h c hc.1 hcn
    unfold InOrder at hup hdown
    rw [hc.2] at hdown
    rw [hx, hx, if_neg (by omega), if_neg (by omega)]
    exact IsTrans.trans _ _ _ hup hdown

/-- An element replaced by one before its parent may only be out of order with
its parent. -/
theorem HeapOrdered.upOrder_set {a : List α} (h : HeapOrdered le a) {k : Nat} (hk0 : 0 < k)
    (hk : k < a.length) {v : α} (hv : le v (a.getD ((k - 1) / 2) default)) :
    UpOrder le (a.set k v) k := by
  have hx := getD_set_of_lt v hk
  have hup := h k hk0 hk
  unfold InOrder at hup
  constructor
  · intro i hi0 hin hik
    rw [List.length_set] at hin
    unfold InOrder
    rw [hx, hx, if_neg hik]
    have hdown := h i hi0 hin
    unfold InOrder at hdown
    by_cases hck : (i - 1) / 2 = k
    · -- a child of `k`: `v` is at or before `k`'s parent, hence before the child
      rw [if_pos hck]
      rw [hck] at hdown
      exact IsTrans.trans _ _ _ hv (IsTrans.trans _ _ _ hup hdown)
    · rw [if_neg hck]
      exact hdown
  · intro _ c hc hcn
    rw [List.length_set] at hcn
    have hkc := hc.lt
    have hdown := h c hc.1 hcn
    unfold InOrder at hdown
    rw [hc.2] at hdown
    rw [hx, hx, if_neg (by omega), if_neg (by omega)]
    exact IsTrans.trans _ _ _ hup hdown

variable [Std.Total le]

omit [Inhabited α] [IsTrans α le] in
theorem le_rfl_of_total (x : α) : le x x :=
  (Std.Total.total x x).elim id id

omit [Inhabited α] [IsTrans α le] in
theorem le_of_not_le {x y : α} (h : ¬ le x y) : le y x :=
  (Std.Total.total x y).resolve_left h

/-! ## Sifting up -/

/-- One exchange of `k` with its parent, when `k` is before it. -/
theorem UpOrder.move {a : List α} {k : Nat} (o : UpOrder le a k) (hk : 0 < k)
    (hkn : k < a.length) (hb : ¬ le (a.getD ((k - 1) / 2) default) (a.getD k default)) :
    UpOrder le (exchange a k ((k - 1) / 2)) ((k - 1) / 2) := by
  set p := (k - 1) / 2 with hp
  have hpk : p < k := by omega
  have hkp : le (a.getD k default) (a.getD p default) := le_of_not_le hb
  have hx := getD_exchange hkn (show p < a.length by omega)
  constructor
  · intro i hi0 hin hip
    rw [length_exchange] at hin
    unfold InOrder
    rw [hx, hx]
    by_cases hik : i = k
    · -- the exchanged pair
      subst hik
      simp only [← hp, if_neg (Nat.ne_of_lt hpk)]
      exact hkp
    · have hipk : i ≠ p := hip
      by_cases hck : (i - 1) / 2 = k
      · -- a child of `k` now sits under `k`'s old parent
        simp only [hck, if_neg hik, if_neg hipk]
        exact o.grand hk i ⟨hi0, hck⟩ hin
      · have hold := o.except i hi0 hin hik
        unfold InOrder at hold
        by_cases hcp : (i - 1) / 2 = p
        · -- a sibling of `k` now sits under `k`'s element
          simp only [hcp, if_neg hik, if_neg hipk, if_neg (Nat.ne_of_lt hpk)] at hold ⊢
          exact IsTrans.trans _ _ _ hkp hold
        · simp only [if_neg hck, if_neg hcp, if_neg hik, if_neg hipk]
          exact hold
  · intro hp0 c hc hcn
    rw [length_exchange] at hcn
    have hpp : (p - 1) / 2 < p := by omega
    have hedge := o.except p hp0 (by omega) (Nat.ne_of_lt hpk)
    unfold InOrder at hedge
    rw [hx, hx, if_neg (by omega), if_neg (by omega)]
    by_cases hck : c = k
    · rw [if_pos hck]
      exact hedge
    · have hold := o.except c hc.1 hcn hck
      unfold InOrder at hold
      rw [hc.2] at hold
      rw [if_neg hck, if_neg (Nat.ne_of_gt hc.lt)]
      exact IsTrans.trans _ _ _ hedge hold

/-- The root of a heap is at or before every element. -/
theorem HeapOrdered.root_le {a : List α} (h : HeapOrdered le a) :
    ∀ i, i < a.length → le (a.getD 0 default) (a.getD i default) := by
  intro i
  induction i using Nat.strong_induction_on with
  | _ i ih =>
    intro hi
    by_cases hi0 : i = 0
    · subst hi0
      exact le_rfl_of_total _
    · -- through the parent
      have hp : (i - 1) / 2 < i := by omega
      exact IsTrans.trans _ _ _ (ih _ hp (by omega)) (h i (by omega) hi)

end CLib
