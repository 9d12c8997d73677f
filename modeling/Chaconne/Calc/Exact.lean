import Chaconne.Calc.Basic

/-!
# Integer expressions are exact exactly when no operation leaves `long`

The exact meaning of an integer `expr` (`Expr.exact`): each literal the value
`strtol` reads, each operator the exact operation on `ℤ`, `/` truncating as C's
does. `calc` computes it whenever every operation on the way has a non-zero
divisor and an exact result that is a `long` (`Expr.safe`), and stops with a
fault otherwise (`eval_of_intOnly`). The type of a result is `INTEGER` exactly
when the expression has no decimal literal (`eval_isInteger`).

Nothing keeps an expression safe: `1 / 0` divides by zero, and
`9223372036854775807 + 1` and `(-9223372036854775807 - 1) / -1` leave `long`
(`calc_integer_faults`).
-/

namespace Chaconne.Calc

open CLib

/-- A `long` value. -/
def isLong (v : Int) : Bool :=
  decide (LONG_MIN ≤ v ∧ v ≤ LONG_MAX)

/-- The exact operation of each operator on `ℤ`; `/` truncates toward zero. -/
def BinOp.exact : BinOp → Int → Int → Int
  | .plus => (· + ·)
  | .minus => (· - ·)
  | .times => (· * ·)
  | .divide => Int.tdiv

/-- An `expr` without decimal literals. -/
def Expr.intOnly : Expr → Bool
  | .integer _ => true
  | .decimal _ _ => false
  | .bin _ a b => a.intOnly && b.intOnly
  | .paren e => e.intOnly
  | .neg e => e.intOnly

/-- The exact value of an integer `expr`. -/
def Expr.exact : Expr → Int
  | .integer ds => strtol ds.bytes
  | .decimal _ _ => 0
  | .bin op a b => op.exact a.exact b.exact
  | .paren e => e.exact
  | .neg e => -e.exact

/-- Every integer operation of the evaluation has a non-zero divisor and an
exact result that is a `long`. -/
def Expr.safe : Expr → Bool
  | .integer _ => true
  | .decimal _ _ => true
  | .bin op a b =>
    a.safe && b.safe && (op != .divide || b.exact != 0) && isLong (op.exact a.exact b.exact)
  | .paren e => e.safe
  | .neg e => e.safe && isLong (-e.exact)

/-- Whether a number is an `INTEGER`. -/
def Number.isInteger : Number → Bool
  | .integer _ => true
  | .double _ => false

/-! ## `calc` on integers -/

theorem longResult_of_isLong {v : Int} (h : isLong v = true) : longResult v = .ok (.integer v) := by
  rw [longResult, if_pos (of_decide_eq_true h)]

theorem longResult_of_not_isLong {v : Int} (h : isLong v = false) :
    longResult v = .error .overflow := by
  rw [longResult, if_neg (of_decide_eq_false h)]

/-- `calc` on two integers: a fault on a zero divisor, else the exact result
if it is a `long`. -/
theorem calc_integer_bin (op : BinOp) (x y : Int) :
    «calc» op.char 2 (.integer x) (.integer y) =
      if op = .divide ∧ y = 0 then .error .divideByZero else longResult (op.exact x y) := by
  cases op with
  | plus => rfl
  | minus => rfl
  | times => rfl
  | divide =>
    show longDiv x y = _
    simp only [longDiv, BinOp.exact, true_and]

theorem calc_integer_neg (x : Int) : «calc» 45 1 (.integer x) (.integer x) = longResult (-x) := rfl

theorem longResult_isInteger {v : Int} {n : Number} (h : longResult v = .ok n) :
    n.isInteger = true := by
  unfold longResult at h
  split_ifs at h
  cases h
  rfl

/-- An operator gives an `INTEGER` exactly on two `INTEGER`s. -/
theorem calc_bin_isInteger {op : BinOp} {a b v : Number} (h : «calc» op.char 2 a b = .ok v) :
    v.isInteger = (a.isInteger && b.isInteger) := by
  match a, b with
  | .integer x, .integer y =>
    rw [calc_integer_bin] at h
    split_ifs at h
    exact longResult_isInteger h
  -- with a `double` operand every operator takes the `double` branch
  | .integer _, .double _ | .double _, .integer _ | .double _, .double _ =>
    cases op <;> simp [«calc», BinOp.char, calcBinary] at h <;> subst h <;> rfl

theorem calc_neg_isInteger {a v : Number} (h : «calc» 45 1 a a = .ok v) :
    v.isInteger = a.isInteger := by
  cases a with
  | integer x => exact longResult_isInteger h
  | double f =>
    cases h
    rfl

/-! ## Evaluation -/

/-- **Exactness.** An integer `expr` evaluates to its exact value when it is
safe, and to a fault when it is not. -/
theorem eval_of_intOnly : ∀ e : Expr, e.intOnly = true →
    (e.safe = true → e.eval = .ok (.integer e.exact)) ∧
      (e.safe = false → ∃ f, e.eval = .error f)
  | .integer ds, _ => ⟨fun _ => rfl, fun h => absurd h (by simp [Expr.safe])⟩
  | .decimal _ _, h => absurd h (by simp [Expr.intOnly])
  | .bin op a b, h => by
    simp only [Expr.intOnly, Bool.and_eq_true] at h
    obtain ⟨hasafe, hafault⟩ := eval_of_intOnly a h.1
    obtain ⟨hbsafe, hbfault⟩ := eval_of_intOnly b h.2
    constructor
    · intro hs
      simp only [Expr.safe, Bool.and_eq_true, Bool.or_eq_true, bne_iff_ne, ne_eq] at hs
      obtain ⟨⟨⟨ha, hb⟩, hdiv⟩, hlong⟩ := hs
      have hnz : ¬(op = .divide ∧ b.exact = 0) := fun ⟨hop, hz⟩ => hdiv.elim (· hop) (· hz)
      simp only [Expr.eval, hasafe ha, hbsafe hb, bind, Except.bind, calc_integer_bin, if_neg hnz,
        Expr.exact, longResult_of_isLong hlong]
    · intro hs
      -- the first operation that fails: in `a`, in `b`, or this one
      by_cases ha : a.safe = true
      · by_cases hb : b.safe = true
        · simp only [Expr.safe, ha, hb, Bool.true_and, Bool.and_eq_false_imp, Bool.or_eq_true,
            bne_iff_ne, ne_eq] at hs
          simp only [Expr.eval, hasafe ha, hbsafe hb, bind, Except.bind, calc_integer_bin]
          split_ifs with hz
          · exact ⟨_, rfl⟩
          · exact ⟨_, longResult_of_not_isLong (hs (not_and_or.mp hz))⟩
        · obtain ⟨f, hf⟩ := hbfault (by simpa using hb)
          cases hea : a.eval with
          | error f' => exact ⟨f', by simp [Expr.eval, hea, bind, Except.bind]⟩
          | ok va => exact ⟨f, by simp [Expr.eval, hea, hf, bind, Except.bind]⟩
      · obtain ⟨f, hf⟩ := hafault (by simpa using ha)
        exact ⟨f, by simp [Expr.eval, hf, bind, Except.bind]⟩
  | .paren e, h => by
    simpa only [Expr.safe, Expr.eval, Expr.exact] using eval_of_intOnly e h
  | .neg e, h => by
    obtain ⟨hsafe, hfault⟩ := eval_of_intOnly e h
    constructor
    · intro hs
      simp only [Expr.safe, Bool.and_eq_true] at hs
      simp only [Expr.eval, hsafe hs.1, bind, Except.bind, calc_integer_neg, Expr.exact,
        longResult_of_isLong hs.2]
    · intro hs
      by_cases he : e.safe = true
      · simp only [Expr.safe, he, Bool.true_and] at hs
        exact ⟨.overflow, by simp only [Expr.eval, hsafe he, bind, Except.bind, calc_integer_neg,
          longResult_of_not_isLong hs]⟩
      · obtain ⟨f, hf⟩ := hfault (by simpa using he)
        exact ⟨f, by simp [Expr.eval, hf, bind, Except.bind]⟩

theorem eval_of_intOnly_one_plus_one :
    let one : Digits := ⟨bytesOf "1", by decide +kernel, by decide +kernel⟩
    (Expr.bin .plus (.integer one) (.integer one)).intOnly = true ∧
      ((Expr.bin .plus (.integer one) (.integer one)).safe = true →
        (Expr.bin .plus (.integer one) (.integer one)).eval =
          .ok (.integer (Expr.bin .plus (.integer one) (.integer one)).exact)) ∧
      ((Expr.bin .plus (.integer one) (.integer one)).safe = false →
        ∃ f, (Expr.bin .plus (.integer one) (.integer one)).eval = .error f) := by
  intro one
  exact ⟨rfl, eval_of_intOnly _ rfl⟩

theorem bind_eq_ok {ε α β : Type} {x : Except ε α} {f : α → Except ε β} {b : β}
    (h : x >>= f = .ok b) : ∃ a, x = .ok a ∧ f a = .ok b := by
  cases x with
  | error e => cases h
  | ok a => exact ⟨a, rfl, h⟩

/-- The result of an `expr` is an `INTEGER` exactly when it has no decimal
literal. -/
theorem eval_isInteger : ∀ (e : Expr) (v : Number), e.eval = .ok v → v.isInteger = e.intOnly
  | .integer _, v, h => by
    cases h
    rfl
  | .decimal _ _, v, h => by
    cases h
    rfl
  | .bin op a b, v, h => by
    -- both operands evaluated, then `calc`
    obtain ⟨va, ha, h⟩ := bind_eq_ok h
    obtain ⟨vb, hb, h⟩ := bind_eq_ok h
    rw [calc_bin_isInteger h, eval_isInteger a va ha, eval_isInteger b vb hb, Expr.intOnly]
  | .paren e, v, h => eval_isInteger e v h
  | .neg e, v, h => by
    obtain ⟨ve, he, h⟩ := bind_eq_ok h
    rw [calc_neg_isInteger h, eval_isInteger e ve he, Expr.intOnly]

theorem eval_isInteger_one_plus_one :
    let one : Digits := ⟨bytesOf "1", by decide +kernel, by decide +kernel⟩
    (Expr.bin .plus (.integer one) (.integer one)).eval = .ok (.integer 2) ∧
      (Number.integer 2).isInteger = (Expr.bin .plus (.integer one) (.integer one)).intOnly := by
  intro one
  have h : (Expr.bin .plus (.integer one) (.integer one)).eval = .ok (.integer 2) := rfl
  exact ⟨h, eval_isInteger _ _ h⟩

/-- `1 / 0`, `9223372036854775807 + 1` and `(-9223372036854775807 - 1) / -1`,
with the literals as the scanner reads them. -/
theorem calc_integer_faults :
    let one : Digits := ⟨bytesOf "1", by decide +kernel, by decide +kernel⟩
    let zero : Digits := ⟨bytesOf "0", by decide +kernel, by decide +kernel⟩
    let max : Digits := ⟨bytesOf "9223372036854775807", by decide +kernel, by decide +kernel⟩
    (Expr.bin .divide (.integer one) (.integer zero)).eval = .error .divideByZero ∧
      (Expr.bin .plus (.integer max) (.integer one)).eval = .error .overflow ∧
      (Expr.bin .divide (.paren (.bin .minus (.neg (.integer max)) (.integer one)))
        (.neg (.integer one))).eval = .error .overflow := by
  refine ⟨rfl, rfl, rfl⟩

end Chaconne.Calc
