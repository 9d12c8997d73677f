import Mathlib.Tactic.Common

/-!
# Binary search in a table of intervals

A table of `n` closed intervals `[lo i, hi i]`, each above the one before
(`Table`). `search` looks for the interval holding `c` between the entries
`a` (included) and `b` (excluded), halving at `(a + (b - 1)) / 2` as a search
over `idx_min ≤ idx_max` does with `idx_max = b - 1`. It finds an interval
exactly when one holds `c` (`search_eq_true_iff`).
-/

namespace CLib.IntervalSearch

variable (lo hi : Nat → Nat) (c : Nat)

/-- Entries `a ≤ i < b` are candidates; `fuel` bounds the rounds. -/
def search : Nat → Nat → Nat → Bool
  | 0, _, _ => false
  | fuel + 1, a, b =>
    if a < b then
      if c < lo ((a + (b - 1)) / 2) then search fuel a ((a + (b - 1)) / 2)
      else if hi ((a + (b - 1)) / 2) < c then search fuel ((a + (b - 1)) / 2 + 1) b
      else true
    else false

/-- The intervals are nonempty and each lies above the one before. -/
structure Table (n : Nat) : Prop where
  le : ∀ i < n, lo i ≤ hi i
  lt_next : ∀ i, i + 1 < n → hi i < lo (i + 1)

variable {lo hi c}

/-- A later interval starts above where an earlier one ends. -/
theorem Table.hi_lt_lo {n : Nat} (ht : Table lo hi n) {i j : Nat} (hij : i < j) (hj : j < n) :
    hi i < lo j := by
  induction j with
  | zero => omega
  | succ j ih =>
    rcases Nat.lt_succ_iff_lt_or_eq.mp hij with hlt | rfl
    · exact Nat.lt_of_lt_of_le (ih hlt (by omega))
        (Nat.le_trans (ht.le j (by omega)) (Nat.le_of_lt (ht.lt_next j hj)))
    · exact ht.lt_next i hj

theorem Table.hi_le_hi {n : Nat} (ht : Table lo hi n) {i j : Nat} (hij : i ≤ j) (hj : j < n) :
    hi i ≤ hi j := by
  rcases Nat.lt_or_eq_of_le hij with hlt | rfl
  · exact Nat.le_of_lt (Nat.lt_of_lt_of_le (ht.hi_lt_lo hlt hj) (ht.le j hj))
  · exact Nat.le_refl _

theorem Table.lo_le_lo {n : Nat} (ht : Table lo hi n) {i j : Nat} (hij : i ≤ j) (hj : j < n) :
    lo i ≤ lo j := by
  rcases Nat.lt_or_eq_of_le hij with hlt | rfl
  · exact Nat.le_of_lt (Nat.lt_of_le_of_lt (ht.le i (by omega)) (ht.hi_lt_lo hlt hj))
  · exact Nat.le_refl _

/-- Below the first interval or above the last, no interval holds `c`: the
checks made before a search. -/
theorem Table.not_covered {n : Nat} (ht : Table lo hi n) (hc : c < lo 0 ∨ hi (n - 1) < c) :
    ¬∃ i < n, lo i ≤ c ∧ c ≤ hi i := by
  rintro ⟨i, hi, h1, h2⟩
  rcases hc with hc | hc
  · have := ht.lo_le_lo (Nat.zero_le i) hi
    omega
  · have := ht.hi_le_hi (show i ≤ n - 1 by omega) (by omega)
    omega

/-- What `search` finds holds `c`. -/
theorem search_sound : ∀ (fuel a b : Nat), search lo hi c fuel a b = true →
    ∃ i, a ≤ i ∧ i < b ∧ lo i ≤ c ∧ c ≤ hi i := by
  intro fuel
  induction fuel with
  | zero => intro a b h; simp [search] at h
  | succ fuel ih =>
    intro a b h
    unfold search at h
    split_ifs at h with hab hlo hhi
    · obtain ⟨i, h1, h2, h3⟩ := ih _ _ h
      exact ⟨i, h1, by omega, h3⟩
    · obtain ⟨i, h1, h2, h3⟩ := ih _ _ h
      exact ⟨i, by omega, h2, h3⟩
    · exact ⟨(a + (b - 1)) / 2, by omega, by omega, by omega, by omega⟩

/-- With enough rounds, `search` finds an interval holding `c` whenever every
such interval is among the candidates. -/
theorem search_complete {n : Nat} (ht : Table lo hi n) : ∀ (fuel a b : Nat), b ≤ n → b - a ≤ fuel →
    (∃ i, a ≤ i ∧ i < b ∧ lo i ≤ c ∧ c ≤ hi i) → search lo hi c fuel a b = true := by
  intro fuel
  induction fuel with
  | zero => intro a b _ hfuel ⟨i, h1, h2, _⟩; omega
  | succ fuel ih =>
    intro a b hb hfuel ⟨i, h1, h2, h3, h4⟩
    have hab : a < b := by omega
    unfold search
    rw [if_pos hab]
    set m := (a + (b - 1)) / 2 with hm
    split_ifs with hlo hhi
    · -- `c` is below entry `m`, so its interval comes before `m`
      have him : i < m := by
        by_contra him
        rcases Nat.lt_or_eq_of_le (Nat.le_of_not_lt him) with hlt | rfl
        · have := ht.hi_lt_lo hlt (by omega)
          have := ht.le m (by omega)
          omega
        · omega
      exact ih a m (by omega) (by omega) ⟨i, h1, him, h3, h4⟩
    · -- `c` is above entry `m`, so its interval comes after `m`
      have him : m < i := by
        by_contra him
        rcases Nat.lt_or_eq_of_le (Nat.le_of_not_lt him) with hlt | rfl
        · have := ht.hi_lt_lo hlt (by omega)
          have := ht.le i (by omega)
          omega
        · omega
      exact ih (m + 1) b hb (by omega) ⟨i, by omega, h2, h3, h4⟩
    · rfl

theorem search_eq_true_iff {n : Nat} (ht : Table lo hi n) {fuel : Nat} (hfuel : n ≤ fuel) :
    search lo hi c fuel 0 n = true ↔ ∃ i < n, lo i ≤ c ∧ c ≤ hi i := by
  constructor
  · intro h
    obtain ⟨i, -, h2, h3⟩ := search_sound fuel 0 n h
    exact ⟨i, h2, h3⟩
  · rintro ⟨i, hi, h⟩
    exact search_complete ht fuel 0 n (Nat.le_refl n) (by omega) ⟨i, Nat.zero_le _, hi, h⟩

end CLib.IntervalSearch
