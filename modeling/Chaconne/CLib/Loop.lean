import Mathlib

/-!
# Bounded `while` loops

`while (cond) body;` is `loopWhile cond body fuel`, which stops after `fuel`
rounds at the latest. A loop whose rounds each decrease a measure is modelled
with the measure as its fuel, and then ends by its condition.

* `loopWhile_succ`, `loopWhile_stop` — one round, and the exit;
* `loopWhile_invariant` — a property every round keeps holds after the loop;
* `loopWhile_eq_of` — a loop computes a closed form that every round keeps and
  that stops where the loop exits, given fuel above a measure every round
  decreases;
* `loopWhile_related` — two loops whose states are related, whose conditions
  agree and whose rounds keep the relation end related (a loop of an
  implementation simulates the loop of its specification).
-/

namespace CLib

variable {σ : Type}

/-- `while (cond) body;`, for at most `fuel` rounds. -/
def loopWhile (cond : σ → Bool) (body : σ → σ) : Nat → σ → σ
  | 0, s => s
  | fuel + 1, s => if cond s then loopWhile cond body fuel (body s) else s

theorem loopWhile_succ {cond : σ → Bool} {body : σ → σ} {s : σ} (n : Nat) (h : cond s = true) :
    loopWhile cond body (n + 1) s = loopWhile cond body n (body s) := by
  simp [loopWhile, h]

theorem loopWhile_stop {cond : σ → Bool} {body : σ → σ} {s : σ} (n : Nat) (h : cond s = false) :
    loopWhile cond body n s = s := by
  cases n <;> simp [loopWhile, h]

/-- A property every round keeps holds after the loop. -/
theorem loopWhile_invariant {cond : σ → Bool} {body : σ → σ} {Inv : σ → Prop}
    (hstep : ∀ s, Inv s → cond s = true → Inv (body s)) :
    ∀ (n : Nat) (s : σ), Inv s → Inv (loopWhile cond body n s) := by
  intro n
  induction n with
  | zero => intro s hs; exact hs
  | succ n ih =>
    intro s hs
    by_cases hc : cond s = true
    · rw [loopWhile_succ n hc]
      exact ih _ (hstep s hs hc)
    · rw [loopWhile_stop _ (Bool.eq_false_iff.mpr hc)]
      exact hs

/-- **Closed form of a loop.** If every round keeps `f` and decreases `v`, and
`f` stops where the loop exits, the loop computes `f` from any state whose
measure is within the fuel; `I` is what every round keeps. -/
theorem loopWhile_eq_of {cond : σ → Bool} {body : σ → σ} {f : σ → σ} {v : σ → Nat}
    {I : σ → Prop} (hinv : ∀ s, I s → cond s = true → I (body s))
    (hround : ∀ s, I s → cond s = true → f (body s) = f s ∧ v (body s) < v s)
    (hexit : ∀ s, I s → cond s = false → f s = s) :
    ∀ (n : Nat) (s : σ), I s → v s ≤ n → loopWhile cond body n s = f s := by
  intro n
  induction n with
  | zero =>
    intro s hs hv
    -- with no fuel left the measure is zero, so no round can run
    cases hc : cond s with
    | true => exact absurd (hround s hs hc).2 (by omega)
    | false => rw [loopWhile_stop _ hc, hexit s hs hc]
  | succ n ih =>
    intro s hs hv
    cases hc : cond s with
    | true =>
      obtain ⟨hf, hlt⟩ := hround s hs hc
      rw [loopWhile_succ n hc, ih (body s) (hinv s hs hc) (by omega), hf]
    | false => rw [loopWhile_stop _ hc, hexit s hs hc]

/-- **Simulation of a loop.** Related states whose conditions agree, and
rounds that keep the relation, give related results for the same fuel. -/
theorem loopWhile_related {τ : Type} {cond : σ → Bool} {body : σ → σ} {cond' : τ → Bool}
    {body' : τ → τ} {R : σ → τ → Prop} (hcond : ∀ s t, R s t → cond s = cond' t)
    (hbody : ∀ s t, R s t → cond s = true → R (body s) (body' t)) :
    ∀ (n : Nat) (s : σ) (t : τ), R s t →
      R (loopWhile cond body n s) (loopWhile cond' body' n t) := by
  intro n
  induction n with
  | zero => intro s t hst; exact hst
  | succ n ih =>
    intro s t hst
    cases hc : cond s with
    | true =>
      rw [loopWhile_succ n hc, loopWhile_succ n ((hcond s t hst).symm.trans hc)]
      exact ih _ _ (hbody s t hst hc)
    | false =>
      rw [loopWhile_stop _ hc, loopWhile_stop _ ((hcond s t hst).symm.trans hc)]
      exact hst

end CLib
