import Mathlib.Tactic.Ring

/-!
# Fixed-length digits, most significant first

`digits B n x` are the last `n` digits of `x` in base `B`, the way an encoder
writes them one after the other; `value B acc ds` is the number a decoder
builds from them with `acc = acc * B + d`. The two are inverse on `n` digits
(`value_digits`, `digits_value`).
-/

namespace CLib.Radix

/-- The last `n` digits of `x` in base `B`, most significant first. -/
def digits (B : Nat) : Nat → Nat → List Nat
  | 0, _ => []
  | n + 1, x => x / B ^ n % B :: digits B n x

/-- The number the digits `ds` spell after `acc`, most significant first. -/
def value (B : Nat) (acc : Nat) : List Nat → Nat
  | [] => acc
  | d :: ds => value B (acc * B + d) ds

variable {B : Nat}

@[simp] theorem length_digits (n x : Nat) : (digits B n x).length = n := by
  induction n with
  | zero => rfl
  | succ n ih => simp [digits, ih]

theorem digits_lt (hB : 0 < B) (n x : Nat) : ∀ d ∈ digits B n x, d < B := by
  induction n with
  | zero => simp [digits]
  | succ n ih =>
    intro d hd
    rcases List.mem_cons.mp hd with rfl | hd
    · exact Nat.mod_lt _ hB
    · exact ih d hd

/-- What is read before the digits is shifted past all of them. -/
theorem value_eq (acc : Nat) (ds : List Nat) : value B acc ds = acc * B ^ ds.length + value B 0 ds := by
  induction ds generalizing acc with
  | nil => simp [value]
  | cons d ds ih =>
    rw [value, value, ih, ih (0 * B + d)]
    simp only [List.length_cons, Nat.pow_succ, zero_mul, zero_add]
    ring

theorem value_lt {ds : List Nat} (h : ∀ d ∈ ds, d < B) : value B 0 ds < B ^ ds.length := by
  induction ds with
  | nil => simp [value]
  | cons d ds ih =>
    rw [value, value_eq, List.length_cons, Nat.pow_succ]
    have hd := h d List.mem_cons_self
    have hds := ih fun x hx => h x (List.mem_cons_of_mem _ hx)
    calc (0 * B + d) * B ^ ds.length + value B 0 ds
        < (d + 1) * B ^ ds.length := by rw [Nat.zero_mul, Nat.zero_add, Nat.succ_mul]; omega
      _ ≤ B * B ^ ds.length := Nat.mul_le_mul_right _ hd
      _ = B ^ ds.length * B := Nat.mul_comm _ _

/-- Reading the last `n` digits of `x` gives `x` modulo `B ^ n`. -/
theorem value_digits (acc n x : Nat) : value B acc (digits B n x) = acc * B ^ n + x % B ^ n := by
  induction n generalizing acc with
  | zero => simp [digits, value, Nat.mod_one]
  | succ n ih =>
    rw [digits, value, ih, Nat.mod_pow_succ, Nat.pow_succ]
    ring

/-- Writing what was read gives back the digits. -/
theorem digits_value (hB : 0 < B) (acc : Nat) {ds : List Nat} (h : ∀ d ∈ ds, d < B) :
    digits B ds.length (value B acc ds) = ds := by
  induction ds generalizing acc with
  | nil => rfl
  | cons d ds ih =>
    have hd := h d List.mem_cons_self
    have hds : ∀ x ∈ ds, x < B := fun x hx => h x (List.mem_cons_of_mem _ hx)
    have hpos : 0 < B ^ ds.length := Nat.pow_pos hB
    -- the leading digit: everything after it is below `B ^ ds.length`
    have hlead : value B (acc * B + d) ds / B ^ ds.length % B = d := by
      rw [value_eq, Nat.mul_comm _ (B ^ ds.length), Nat.mul_add_div hpos,
        Nat.div_eq_of_lt (value_lt hds), Nat.add_zero, Nat.mul_comm acc B, Nat.mul_add_mod,
        Nat.mod_eq_of_lt hd]
    rw [List.length_cons, digits, value, hlead, ih _ hds]

/-! ## Digits as bits -/

/-- Or-ing bits below a multiple of `2 ^ k` adds them. -/
theorem lor_eq_add {a b k : Nat} (ha : a % 2 ^ k = 0) (hb : b < 2 ^ k) : a ||| b = a + b := by
  have hdiv : a = 2 ^ k * (a / 2 ^ k) := (Nat.mul_div_cancel' (Nat.dvd_of_mod_eq_zero ha)).symm
  rw [hdiv, ← Nat.two_pow_add_eq_or_of_lt hb]

/-- `(acc << k) | d` with a digit `d` below `2 ^ k`: the digit appended. -/
theorem shiftLeft_or_of_lt {acc d k : Nat} (hd : d < 2 ^ k) : (acc <<< k) ||| d = acc * 2 ^ k + d := by
  rw [Nat.shiftLeft_eq, lor_eq_add (Nat.mul_mod_left _ _) hd]

/-- `(acc << k) | (b & (2^k - 1))`: the step of a decoder reading `k`-bit
digits. -/
theorem shiftLeft_or_and (acc b k : Nat) : (acc <<< k) ||| (b &&& (2 ^ k - 1)) = acc * 2 ^ k + b % 2 ^ k := by
  rw [Nat.and_two_pow_sub_one_eq_mod, shiftLeft_or_of_lt (Nat.mod_lt _ (Nat.two_pow_pos k))]

end CLib.Radix
