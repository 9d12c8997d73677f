import Mathlib

/-!
# Scanning for the first best element

A linear scan that keeps a best-so-far element and replaces it only when a
later element ranks strictly higher ends with the *first* element of the
highest rank, provided that rank is positive; rank `0` means "no match" and
never wins.

`firstBest_eq_some_iff`: the element found splits the list into a prefix of
strictly lower rank and a suffix of rank at most its own.
-/

namespace CLib

variable {α : Type}

/-- One step of the scan: a strictly higher rank replaces the best so far. -/
def bestStep (rank : α → Nat) (acc : Nat × Option α) (a : α) : Nat × Option α :=
  if acc.1 < rank a then (rank a, some a) else acc

/-- The first element of the highest positive rank. -/
def firstBest (rank : α → Nat) (l : List α) : Option α :=
  (l.foldl (bestStep rank) (0, none)).2

variable {rank : α → Nat}

/-- Elements that do not beat the best so far leave it in place. -/
theorem foldl_bestStep_of_le {l : List α} {acc : Nat × Option α}
    (h : ∀ b ∈ l, rank b ≤ acc.1) : l.foldl (bestStep rank) acc = acc := by
  induction l generalizing acc with
  | nil => rfl
  | cons x xs ih =>
    have hx : ¬ acc.1 < rank x := Nat.not_lt.mpr (h x (List.mem_cons_self ..))
    rw [List.foldl_cons, bestStep, if_neg hx]
    exact ih fun b hb => h b (List.mem_cons_of_mem x hb)

/-- A scan over elements all below `k`, from a best below `k`, stays below `k`. -/
theorem foldl_bestStep_lt {l : List α} {acc : Nat × Option α} {k : Nat}
    (h : ∀ b ∈ l, rank b < k) (hacc : acc.1 < k) : (l.foldl (bestStep rank) acc).1 < k := by
  induction l generalizing acc with
  | nil => exact hacc
  | cons x xs ih =>
    rw [List.foldl_cons]
    apply ih fun b hb => h b (List.mem_cons_of_mem x hb)
    unfold bestStep
    split
    · exact h x (List.mem_cons_self ..)
    · exact hacc

/-- What a scan from any best-so-far ends with: that best, when nothing beats
it, or the first element of the highest rank, above it. -/
theorem foldl_bestStep_eq_some {l : List α} {acc : Nat × Option α} {a : α}
    (h : (l.foldl (bestStep rank) acc).2 = some a) :
    (acc.2 = some a ∧ ∀ b ∈ l, rank b ≤ acc.1) ∨
      ∃ pre post, l = pre ++ a :: post ∧ acc.1 < rank a ∧
        (∀ b ∈ pre, rank b < rank a) ∧ ∀ b ∈ post, rank b ≤ rank a := by
  induction l generalizing acc with
  | nil => exact .inl ⟨h, fun b hb => absurd hb List.not_mem_nil⟩
  | cons x xs ih =>
    rw [List.foldl_cons] at h
    by_cases hx : acc.1 < rank x
    · -- `x` becomes the best so far
      rw [bestStep, if_pos hx] at h
      rcases ih h with ⟨hxa, hle⟩ | ⟨pre, post, rfl, hlt, hpre, hpost⟩
      · cases hxa
        exact .inr ⟨[], xs, rfl, hx, fun b hb => absurd hb List.not_mem_nil, hle⟩
      · refine .inr ⟨x :: pre, post, rfl, Nat.lt_trans hx hlt, ?_, hpost⟩
        intro b hb
        rcases List.mem_cons.mp hb with rfl | hb
        · exact hlt
        · exact hpre b hb
    · -- `x` does not beat the best so far
      rw [bestStep, if_neg hx] at h
      have hx' : rank x ≤ acc.1 := Nat.not_lt.mp hx
      rcases ih h with ⟨hacc, hle⟩ | ⟨pre, post, rfl, hlt, hpre, hpost⟩
      · refine .inl ⟨hacc, fun b hb => ?_⟩
        rcases List.mem_cons.mp hb with rfl | hb
        · exact hx'
        · exact hle b hb
      · refine .inr ⟨x :: pre, post, rfl, hlt, ?_, hpost⟩
        intro b hb
        rcases List.mem_cons.mp hb with rfl | hb
        · exact Nat.lt_of_le_of_lt hx' hlt
        · exact hpre b hb

/-- The scan finds `a` exactly when `a` is the first element of the highest
rank and that rank is positive. -/
theorem firstBest_eq_some_iff {l : List α} {a : α} :
    firstBest rank l = some a ↔
      ∃ pre post, l = pre ++ a :: post ∧ 0 < rank a ∧
        (∀ b ∈ pre, rank b < rank a) ∧ ∀ b ∈ post, rank b ≤ rank a := by
  constructor
  · intro h
    rcases foldl_bestStep_eq_some h with ⟨hnone, -⟩ | hsplit
    · cases hnone
    · exact hsplit
  · rintro ⟨pre, post, rfl, hpos, hpre, hpost⟩
    have hlt : (pre.foldl (bestStep rank) (0, none)).1 < rank a := foldl_bestStep_lt hpre hpos
    unfold firstBest
    rw [List.foldl_append, List.foldl_cons]
    rw [bestStep, if_pos hlt]
    rw [foldl_bestStep_of_le hpost]

/-- The rank of the element found is the highest rank of the list. -/
theorem firstBest_spec {l : List α} {a : α} (h : firstBest rank l = some a) :
    a ∈ l ∧ 0 < rank a ∧ ∀ b ∈ l, rank b ≤ rank a := by
  obtain ⟨pre, post, rfl, hpos, hpre, hpost⟩ := firstBest_eq_some_iff.mp h
  refine ⟨by simp, hpos, fun b hb => ?_⟩
  rcases List.mem_append.mp hb with hb | hb
  · exact Nat.le_of_lt (hpre b hb)
  · rcases List.mem_cons.mp hb with rfl | hb
    · exact le_rfl
    · exact hpost b hb

end CLib
