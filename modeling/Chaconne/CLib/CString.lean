import Mathlib

/-!
# C strings as byte lists

The C library functions the models read strings with, over the contents of a
string (`List UInt8`, the bytes before its terminating NUL). Each is a
definition under the libc name that follows the C locale's documented
behaviour:

* `isspace` — the six blank bytes of the C locale;
* `strcmp` — lexicographic on unsigned bytes, the terminator comparing as 0;
* `strncmp` — `strcmp` on at most `n` bytes;
* `memmove` and `strcpy` — the copies into a buffer, over its known bytes.

The lemmas say when the comparisons are `0`: `strcmp` reads a buffer only up to
its first NUL (`untilNul`), so it is an equivalence on buffers and equality on
strings without an interior NUL.
-/

namespace CLib

/-- `isspace` in the C locale: space, `\t`, `\n`, `\v`, `\f` and `\r`. -/
def isspace (c : UInt8) : Bool :=
  c == 32 || (9 ≤ c && c ≤ 13)

/-- The bytes of an ASCII string literal. -/
def bytesOf (s : String) : List UInt8 :=
  s.toList.map Char.toUInt8

/-- A string content holds no NUL byte: it is a whole C string. -/
def NulFree (s : List UInt8) : Prop := 0 ∉ s

instance (s : List UInt8) : Decidable (NulFree s) :=
  inferInstanceAs (Decidable (0 ∉ s))

/-- `strcmp`: the difference of the first differing bytes; the comparison stops
at a common NUL, and the end of a list reads as the terminator. -/
def strcmp : List UInt8 → List UInt8 → Int
  | [], [] => 0
  | [], b :: _ => -(b.toNat : Int)
  | a :: _, [] => (a.toNat : Int)
  | a :: as, b :: bs =>
    if a = b then (if a = 0 then 0 else strcmp as bs) else (a.toNat : Int) - b.toNat

/-- `strncmp`: `strcmp` on at most the first `n` bytes. -/
def strncmp : List UInt8 → List UInt8 → Nat → Int
  | _, _, 0 => 0
  | [], [], _ + 1 => 0
  | [], b :: _, _ + 1 => -(b.toNat : Int)
  | a :: _, [], _ + 1 => (a.toNat : Int)
  | a :: as, b :: bs, n + 1 =>
    if a = b then (if a = 0 then 0 else strncmp as bs n) else (a.toNat : Int) - b.toNat

@[simp] theorem nulFree_nil : NulFree [] := List.not_mem_nil

@[simp] theorem nulFree_cons {c : UInt8} {s : List UInt8} :
    NulFree (c :: s) ↔ c ≠ 0 ∧ NulFree s := by
  simp [NulFree, eq_comm]

@[simp] theorem nulFree_append {s t : List UInt8} :
    NulFree (s ++ t) ↔ NulFree s ∧ NulFree t := by
  simp [NulFree, not_or]

theorem toNat_ne_zero {c : UInt8} (h : c ≠ 0) : (c.toNat : Int) ≠ 0 := by
  have : c.toNat ≠ 0 := fun h0 => h (UInt8.toNat_inj.mp (by simpa using h0))
  omega

theorem sub_ne_zero_of_ne {a b : UInt8} (h : a ≠ b) : (a.toNat : Int) - b.toNat ≠ 0 := by
  have : a.toNat ≠ b.toNat := fun h' => h (UInt8.toNat_inj.mp h')
  omega

@[simp] theorem strcmp_self (s : List UInt8) : strcmp s s = 0 := by
  induction s with
  | nil => rfl
  | cons c s ih => simp [strcmp, ih]

/-- The C string a buffer holds: its bytes before the first NUL. -/
def untilNul (s : List UInt8) : List UInt8 :=
  s.takeWhile (· != 0)

@[simp] theorem untilNul_nil : untilNul [] = [] := rfl

@[simp] theorem untilNul_cons_zero (s : List UInt8) : untilNul (0 :: s) = [] := rfl

@[simp] theorem untilNul_cons_of_ne {c : UInt8} (s : List UInt8) (h : c ≠ 0) :
    untilNul (c :: s) = c :: untilNul s := by
  simp [untilNul, h]

theorem untilNul_of_nulFree {s : List UInt8} (h : NulFree s) : untilNul s = s := by
  induction s with
  | nil => rfl
  | cons c s ih =>
    have hc := nulFree_cons.mp h
    rw [untilNul_cons_of_ne s hc.1, ih hc.2]

/-- A C string followed by its NUL. -/
theorem untilNul_append_zero {a : List UInt8} (b : List UInt8) (h : NulFree a) :
    untilNul (a ++ 0 :: b) = a := by
  induction a with
  | nil => rfl
  | cons c a ih =>
    have hc := nulFree_cons.mp h
    rw [List.cons_append, untilNul_cons_of_ne _ hc.1, ih hc.2]


theorem untilNul_nulFree (s : List UInt8) : NulFree (untilNul s) := by
  induction s with
  | nil => exact nulFree_nil
  | cons c s ih =>
    by_cases hc : c = 0
    · subst hc
      exact nulFree_nil
    · rw [untilNul_cons_of_ne s hc]
      exact nulFree_cons.mpr ⟨hc, ih⟩

theorem untilNul_idem (s : List UInt8) : untilNul (untilNul s) = untilNul s :=
  untilNul_of_nulFree (untilNul_nulFree s)

/-- `strcmp` is `0` exactly when the two buffers hold the same C string. -/
theorem strcmp_eq_zero_iff_untilNul (s t : List UInt8) :
    strcmp s t = 0 ↔ untilNul s = untilNul t := by
  induction s generalizing t with
  | nil =>
    cases t with
    | nil => simp [strcmp]
    | cons b bs =>
      by_cases hb : b = 0
      · simp [strcmp, hb]
      · have := toNat_ne_zero hb
        simp only [strcmp, untilNul_nil, untilNul_cons_of_ne bs hb, List.nil_eq,
          reduceCtorEq, iff_false]
        omega
  | cons a as ih =>
    cases t with
    | nil =>
      by_cases ha : a = 0
      · simp [strcmp, ha]
      · simp only [strcmp, untilNul_nil, untilNul_cons_of_ne as ha, reduceCtorEq, iff_false]
        exact toNat_ne_zero ha
    | cons b bs =>
      by_cases hab : a = b
      · subst hab
        by_cases ha : a = 0
        · simp [strcmp, ha]
        · simp [strcmp, ha, ih]
      · have hne := sub_ne_zero_of_ne hab
        simp only [strcmp, if_neg hab, hne, false_iff]
        -- the buffers differ at their first byte unless one of them ends there
        by_cases ha : a = 0
        · subst ha
          simp [untilNul_cons_of_ne bs (Ne.symm hab)]
        · by_cases hb : b = 0
          · subst hb
            simp [untilNul_cons_of_ne as ha]
          · simp [untilNul_cons_of_ne as ha, untilNul_cons_of_ne bs hb, hab]

/-- Two whole C strings compare equal exactly when they are the same string. -/
theorem strcmp_eq_zero_iff {s t : List UInt8} (hs : NulFree s) (ht : NulFree t) :
    strcmp s t = 0 ↔ s = t := by
  rw [strcmp_eq_zero_iff_untilNul, untilNul_of_nulFree hs, untilNul_of_nulFree ht]

/-- `strncmp key word (strlen word) = 0` tests that `word` is a prefix of `key`,
for a whole C string `word`. -/
theorem strncmp_length_eq_zero_iff {key word : List UInt8} (hw : NulFree word) :
    strncmp key word word.length = 0 ↔ word <+: key := by
  induction word generalizing key with
  | nil => simp [strncmp]
  | cons b bs ih =>
    have hb := nulFree_cons.mp hw
    cases key with
    | nil =>
      simp only [List.length_cons, strncmp, List.prefix_nil, reduceCtorEq, iff_false]
      have := toNat_ne_zero hb.1
      omega
    | cons a as =>
      by_cases hab : a = b
      · subst hab
        simp [strncmp, hb.1, ih hb.2]
      · simp only [List.length_cons, strncmp, if_neg hab, List.cons_prefix_cons,
          Ne.symm hab, false_and, iff_false]
        exact sub_ne_zero_of_ne hab

/-- A C string that starts a buffer starts the C string the buffer holds. -/
theorem prefix_untilNul {w s : List UInt8} (hw : NulFree w) (h : w <+: s) : w <+: untilNul s := by
  obtain ⟨r, rfl⟩ := h
  induction w with
  | nil => exact List.nil_prefix
  | cons c w ih =>
    have hc := nulFree_cons.mp hw
    rw [List.cons_append, untilNul_cons_of_ne _ hc.1]
    exact List.cons_prefix_cons.mpr ⟨rfl, ih hc.2⟩

/-! ## Copies into a buffer -/

/-- `memmove(b + dst, b + src, n)` on the known bytes `b` of a buffer: the
bytes `[dst, dst + n)` get the bytes `[src, src + n)` as they were before the
copy, the others stay. A copy past the end of `b` extends it, and a gap
before it reads as 0. -/
def memmove (b : List UInt8) (dst src n : Nat) : List UInt8 :=
  let b' := b ++ List.replicate (dst + n - b.length) 0
  b'.take dst ++ (b.drop src).take n ++ b'.drop (dst + n)

/-- `strcpy(b + dst, s)`: the string `s` and its NUL written at `dst`. -/
def strcpy (b : List UInt8) (dst : Nat) (s : List UInt8) : List UInt8 :=
  b.take dst ++ s ++ 0 :: b.drop (dst + s.length + 1)

/-- A `memmove` of the tail `[src, end)` of a buffer up by `d` bytes: the bytes
before `src + d` stay (the `d` past the end read as 0), and the tail follows. -/
theorem memmove_up {b : List UInt8} {src n : Nat} (d : Nat) (hn : src + n = b.length) :
    memmove b (src + d) src n = (b ++ List.replicate d 0).take (src + d) ++ b.drop src := by
  have hpad : src + d + n - b.length = d := by omega
  have htail : (b.drop src).take n = b.drop src := List.take_of_length_le (by simp; omega)
  have hend : (b ++ List.replicate d 0).drop (src + d + n) = [] :=
    List.drop_of_length_le (by simp; omega)
  rw [memmove, hpad, htail, hend, List.append_nil]

/-- A `memmove` of the tail `[src, end)` of a buffer down by `d` bytes: the
tail follows the bytes before `src - d`, and the last `d` bytes stay after it. -/
theorem memmove_down {b : List UInt8} {src n d : Nat} (hd : d ≤ src) (hn : src + n = b.length) :
    memmove b (src - d) src n = b.take (src - d) ++ b.drop src ++ b.drop (b.length - d) := by
  have hpad : src - d + n - b.length = 0 := by omega
  have htail : (b.drop src).take n = b.drop src := List.take_of_length_le (by simp; omega)
  have hend : src - d + n = b.length - d := by omega
  rw [memmove, hpad, List.replicate_zero, List.append_nil, htail, hend]

end CLib
