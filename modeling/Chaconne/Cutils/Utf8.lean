import Chaconne.CLib.Radix
import Mathlib.Data.List.GetD
import Mathlib.Tactic.IntervalCases

/-!
# `cutils.c`: UTF-8

`unicode_to_utf8` writes a code point below `2^31` as one to six bytes;
`unicode_from_utf8` reads one back and refuses a sequence longer than needed
(`utf8_min_code`). Both are compared with `utf8Encode`, UTF-8 stated through
the six-bit digits of the code point (`CLib.Radix`):

* `unicodeToUtf8_toNat` — the encoder writes `utf8Encode`;
* `unicodeFromUtf8_utf8Encode` — the decoder reads `utf8Encode` back;
* `unicodeFromUtf8_some` — whatever the decoder accepts is `utf8Encode` of
  what it returns.

Bytes past the end of the list read as `0`, the NUL that ends the buffers the
program decodes.
-/

namespace Chaconne.Cutils

open CLib.Radix

/-! ## The encoder -/

/-- `((c >> s) & 0x3f) | 0x80`, stored into a byte; the last byte,
`(c & 0x3f) | 0x80`, is the one with `s = 0`. -/
def utf8Cont (c s : UInt32) : UInt8 := (((c >>> s) &&& 0x3f) ||| 0x80).toUInt8

/-- `unicode_to_utf8(buf, c)`: the bytes written, `q - buf` of them; nothing
for `c ≥ 0x80000000`. -/
def unicodeToUtf8 (c : UInt32) : List UInt8 :=
  if c < 0x80 then [c.toUInt8]
  else if c < 0x800 then [((c >>> 6) ||| 0xc0).toUInt8, utf8Cont c 0]
  else if c < 0x10000 then [((c >>> 12) ||| 0xe0).toUInt8, utf8Cont c 6, utf8Cont c 0]
  else if c < 0x00200000 then
    [((c >>> 18) ||| 0xf0).toUInt8, utf8Cont c 12, utf8Cont c 6, utf8Cont c 0]
  else if c < 0x04000000 then
    [((c >>> 24) ||| 0xf8).toUInt8, utf8Cont c 18, utf8Cont c 12, utf8Cont c 6, utf8Cont c 0]
  else if c < 0x80000000 then
    [((c >>> 30) ||| 0xfc).toUInt8, utf8Cont c 24, utf8Cont c 18, utf8Cont c 12, utf8Cont c 6,
      utf8Cont c 0]
  else []

/-! ## The decoder -/

/-- `utf8_min_code`. -/
def utf8MinCode : List Nat := [0x80, 0x800, 0x10000, 0x00200000, 0x04000000]

/-- `utf8_first_code_mask`. -/
def utf8FirstCodeMask : List Nat := [0x1f, 0xf, 0x7, 0x3, 0x1]

/-- The `switch` on the first byte: how many bytes follow it, or `none` for
the `default` branch. -/
def utf8SeqLen (c : Nat) : Option Nat :=
  if 0xc0 ≤ c ∧ c ≤ 0xdf then some 1
  else if 0xe0 ≤ c ∧ c ≤ 0xef then some 2
  else if 0xf0 ≤ c ∧ c ≤ 0xf7 then some 3
  else if 0xf8 ≤ c ∧ c ≤ 0xfb then some 4
  else if 0xfc ≤ c ∧ c ≤ 0xfd then some 5
  else none

/-- The `for` loop over the `l` bytes from `p[i]`: each must be `10xxxxxx`,
and its six low bits are shifted into `c`. -/
def utf8ReadCont (p : List UInt8) : Nat → Nat → Nat → Option Nat
  | 0, _, c => some c
  | l + 1, i, c =>
    let b := (p.getD i 0).toNat
    if b < 0x80 ∨ 0xc0 ≤ b then none
    else utf8ReadCont p l (i + 1) ((c <<< 6) ||| (b &&& 0x3f))

/-- `unicode_from_utf8(p, max_len, &pp)`: the code point and how far `*pp`
moves, or `none` for `-1`, when `*pp` is left alone. -/
def unicodeFromUtf8 (p : List UInt8) (maxLen : Int) : Option (Nat × Nat) :=
  let c := (p.getD 0 0).toNat
  if c < 0x80 then some (c, 1)
  else
    match utf8SeqLen c with
    | none => none
    | some l =>
      if (l : Int) > maxLen - 1 then none
      else
        match utf8ReadCont p l 1 (c &&& utf8FirstCodeMask.getD (l - 1) 0) with
        | none => none
        | some v => if v < utf8MinCode.getD (l - 1) 0 then none else some (v, l + 1)

/-! ## UTF-8 as digits -/

/-- How many bytes follow the first one in the encoding of `c`. -/
def utf8Tail (c : Nat) : Nat :=
  if c < 0x80 then 0 else if c < 0x800 then 1 else if c < 0x10000 then 2
  else if c < 0x200000 then 3 else if c < 0x4000000 then 4 else 5

/-- The fixed high bits of a first byte followed by `l` bytes. -/
def utf8Lead (l : Nat) : Nat := if l = 0 then 0 else 256 - 2 ^ (7 - l)

/-- UTF-8: the last `l` six-bit digits of `c` follow as `10xxxxxx`, and the
first byte holds what is above them under its fixed high bits. -/
def utf8Encode (c : Nat) : List Nat :=
  (utf8Lead (utf8Tail c) + c / 64 ^ utf8Tail c) :: (digits 64 (utf8Tail c) c).map (· + 0x80)

/-! ## The encoder writes `utf8Encode` -/

theorem utf8Cont_toNat (c s : UInt32) (hs : s.toNat < 32) :
    (utf8Cont c s).toNat = c.toNat / 2 ^ s.toNat % 64 + 0x80 := by
  have hlow : c.toNat / 2 ^ s.toNat % 64 < 2 ^ 7 := by omega
  simp only [utf8Cont, UInt32.toNat_toUInt8, UInt32.toNat_or, UInt32.toNat_and,
    UInt32.toNat_shiftRight, Nat.mod_eq_of_lt hs, UInt32.reduceToNat, Nat.shiftRight_eq_div_pow]
  rw [show (63 : Nat) = 2 ^ 6 - 1 from rfl, Nat.and_two_pow_sub_one_eq_mod, Nat.or_comm,
    lor_eq_add (by norm_num) hlow]
  omega

/-- A first byte `(c >> s) | P`, the bits of `c >> s` below those of `P`. -/
theorem lead_toNat (c s P : UInt32) (k : Nat) (hs : s.toNat < 32) (hc : c.toNat / 2 ^ s.toNat < 2 ^ k)
    (hP : P.toNat % 2 ^ k = 0) (h256 : P.toNat + 2 ^ k ≤ 256) :
    ((c >>> s) ||| P).toUInt8.toNat = P.toNat + c.toNat / 2 ^ s.toNat := by
  simp only [UInt32.toNat_toUInt8, UInt32.toNat_or, UInt32.toNat_shiftRight, Nat.mod_eq_of_lt hs,
    Nat.shiftRight_eq_div_pow]
  rw [Nat.or_comm, lor_eq_add hP hc]
  exact Nat.mod_eq_of_lt (by omega)

/-- `unicode_to_utf8` writes UTF-8: one case per length, the continuation
bytes by `utf8Cont_toNat` and the first by `lead_toNat`. -/
theorem unicodeToUtf8_toNat {c : UInt32} (hc : c.toNat < 0x80000000) :
    (unicodeToUtf8 c).map UInt8.toNat = utf8Encode c.toNat := by
  unfold unicodeToUtf8
  simp only [UInt32.lt_iff_toNat_lt, UInt32.reduceToNat]
  split_ifs with h1 h2 h3 h4 h5
  · simp [utf8Encode, utf8Tail, h1, utf8Lead, digits]
    omega
  · simp only [List.map_cons, List.map_nil, utf8Cont_toNat c 0 (by decide),
      lead_toNat c 6 0xc0 5 (by decide) (by simp; omega) (by decide) (by decide)]
    simp [utf8Encode, utf8Tail, h1, h2, utf8Lead, digits]
  · simp only [List.map_cons, List.map_nil, utf8Cont_toNat c 0 (by decide),
      utf8Cont_toNat c 6 (by decide),
      lead_toNat c 12 0xe0 4 (by decide) (by simp; omega) (by decide) (by decide)]
    simp [utf8Encode, utf8Tail, h1, h2, h3, utf8Lead, digits]
  · simp only [List.map_cons, List.map_nil, utf8Cont_toNat c 0 (by decide),
      utf8Cont_toNat c 6 (by decide), utf8Cont_toNat c 12 (by decide),
      lead_toNat c 18 0xf0 3 (by decide) (by simp; omega) (by decide) (by decide)]
    simp [utf8Encode, utf8Tail, h1, h2, h3, h4, utf8Lead, digits]
  · simp only [List.map_cons, List.map_nil, utf8Cont_toNat c 0 (by decide),
      utf8Cont_toNat c 6 (by decide), utf8Cont_toNat c 12 (by decide),
      utf8Cont_toNat c 18 (by decide),
      lead_toNat c 24 0xf8 2 (by decide) (by simp; omega) (by decide) (by decide)]
    simp [utf8Encode, utf8Tail, h1, h2, h3, h4, h5, utf8Lead, digits]
  · simp only [List.map_cons, List.map_nil, utf8Cont_toNat c 0 (by decide),
      utf8Cont_toNat c 6 (by decide), utf8Cont_toNat c 12 (by decide),
      utf8Cont_toNat c 18 (by decide), utf8Cont_toNat c 24 (by decide),
      lead_toNat c 30 0xfc 1 (by decide) (by simp; omega) (by decide) (by decide)]
    simp [utf8Encode, utf8Tail, h1, h2, h3, h4, h5, utf8Lead, digits]

/-! ## The tables of the decoder, length by length -/

section Lengths

variable {l : Nat}

/-- The `switch` gives `l` exactly for the first bytes `utf8Lead l` to
`utf8Lead l + 2 ^ (6 - l) - 1`. -/
theorem utf8SeqLen_eq_some {b : Nat} :
    utf8SeqLen b = some l ↔ 1 ≤ l ∧ l ≤ 5 ∧ utf8Lead l ≤ b ∧ b < utf8Lead l + 2 ^ (6 - l) := by
  constructor
  · intro h
    unfold utf8SeqLen at h
    split_ifs at h <;> cases h <;> simp [utf8Lead] <;> omega
  · rintro ⟨hl1, hl5, hb1, hb2⟩
    unfold utf8SeqLen
    interval_cases l <;> simp only [utf8Lead] at hb1 hb2 <;> norm_num at hb1 hb2 <;> split_ifs <;>
      first | rfl | omega

theorem utf8FirstCodeMask_getD (hl1 : 1 ≤ l) (hl5 : l ≤ 5) :
    utf8FirstCodeMask.getD (l - 1) 0 = 2 ^ (6 - l) - 1 := by
  interval_cases l <;> rfl

theorem utf8Lead_mod (hl1 : 1 ≤ l) (hl5 : l ≤ 5) : utf8Lead l % 2 ^ (6 - l) = 0 := by
  interval_cases l <;> rfl

/-- The lengths partition the code points below `2 ^ 31`: `l` bytes follow
from `utf8_min_code[l - 1]` on and below `2 ^ (5 * l + 6)`. -/
theorem utf8Tail_eq (hl1 : 1 ≤ l) (hl5 : l ≤ 5) {c : Nat} (h1 : utf8MinCode.getD (l - 1) 0 ≤ c)
    (h2 : c < 2 ^ (5 * l + 6)) : utf8Tail c = l := by
  unfold utf8Tail
  interval_cases l <;> simp only [utf8MinCode] at h1 <;> norm_num at h1 h2 <;> split_ifs <;> omega

theorem utf8Tail_bounds {c : Nat} (h1 : 0x80 ≤ c) (h2 : c < 0x80000000) :
    1 ≤ utf8Tail c ∧ utf8Tail c ≤ 5 ∧ utf8MinCode.getD (utf8Tail c - 1) 0 ≤ c ∧
      c < 2 ^ (5 * utf8Tail c + 6) := by
  unfold utf8Tail
  split_ifs <;> simp [utf8MinCode] <;> omega

theorem utf8Tail_eq_zero {c : Nat} (h : c < 0x80) : utf8Tail c = 0 := by
  simp [utf8Tail, h]

/-- The first byte holds the digits above the last `l`: fewer than
`2 ^ (6 - l)` of them exactly below `2 ^ (5 * l + 6)`. -/
theorem div_lt_iff_of_tail (hl5 : l ≤ 5) {c : Nat} : c / 64 ^ l < 2 ^ (6 - l) ↔ c < 2 ^ (5 * l + 6) := by
  have hpow : 2 ^ (5 * l + 6) = 2 ^ (6 - l) * 64 ^ l := by
    rw [show (64 : Nat) = 2 ^ 6 from rfl, ← Nat.pow_mul, ← Nat.pow_add]
    congr 1
    omega
  rw [Nat.div_lt_iff_lt_mul (Nat.pow_pos (by norm_num)), hpow]

/-- The first byte under its mask: what is above `utf8Lead l`. -/
theorem lead_and_mask (hl1 : 1 ≤ l) (hl5 : l ≤ 5) {y : Nat} (hy : y < 2 ^ (6 - l)) :
    (utf8Lead l + y) &&& utf8FirstCodeMask.getD (l - 1) 0 = y := by
  rw [utf8FirstCodeMask_getD hl1 hl5, Nat.and_two_pow_sub_one_eq_mod, Nat.add_mod,
    utf8Lead_mod hl1 hl5, Nat.zero_add, Nat.mod_mod, Nat.mod_eq_of_lt hy]

end Lengths

/-! ## The decoder reads `utf8Encode` -/

/-- The loop of `unicode_from_utf8`: it succeeds exactly on `l` continuation
bytes from `p[i]`, and reads their six-bit digits after `acc`. -/
theorem utf8ReadCont_eq_some (p : List UInt8) : ∀ (l i acc v : Nat),
    utf8ReadCont p l i acc = some v ↔
      (((p.drop i).take l).length = l ∧ ∀ b ∈ (p.drop i).take l, 0x80 ≤ b.toNat ∧ b.toNat < 0xc0) ∧
        v = value 64 acc (((p.drop i).take l).map fun b => b.toNat % 64) := by
  intro l
  induction l with
  | zero =>
    intro i acc v
    simp [utf8ReadCont, value, eq_comm]
  | succ l ih =>
    intro i acc v
    by_cases hi : i < p.length
    · -- the next byte is in the list
      have hdrop : (p.drop i).take (l + 1) = p.getD i 0 :: (p.drop (i + 1)).take l := by
        rw [List.getD_eq_getElem _ _ hi, List.drop_eq_getElem_cons hi, List.take_succ_cons]
      rw [utf8ReadCont, hdrop]
      split_ifs with hb
      · simp only [false_iff, List.mem_cons, forall_eq_or_imp]
        omega
      · rw [ih, show (63 : Nat) = 2 ^ 6 - 1 from rfl, shiftLeft_or_and]
        simp only [List.length_cons, List.mem_cons, forall_eq_or_imp, List.map_cons, value]
        constructor
        · rintro ⟨⟨hlen, hall⟩, rfl⟩
          exact ⟨⟨by omega, ⟨by omega, by omega⟩, hall⟩, rfl⟩
        · rintro ⟨⟨hlen, -, hall⟩, rfl⟩
          exact ⟨⟨by omega, hall⟩, rfl⟩
    · -- past the end the byte reads as `0`, which stops the loop
      have hnil : p.drop i = [] := List.drop_eq_nil_of_le (by omega)
      rw [utf8ReadCont, List.getD_eq_default _ _ (by omega)]
      simp [hnil]

/-- Six-bit digits written as continuation bytes read back as themselves. -/
theorem cont_digits (l c : Nat) :
    ((digits 64 l c).map (· + 0x80)).map (· % 64) = digits 64 l c := by
  rw [List.map_map]
  conv_rhs => rw [← List.map_id (digits 64 l c)]
  apply List.map_congr_left
  intro d hd
  have := digits_lt (by norm_num) l c d hd
  simp only [Function.comp, id]
  omega

/-- `unicode_from_utf8` reads back the UTF-8 of every code point below `2^31`,
whatever follows it. -/
theorem unicodeFromUtf8_utf8Encode {c : Nat} (hc : c < 0x80000000) {maxLen : Int} (hmax : 6 ≤ maxLen)
    {bytes : List UInt8} (hb : bytes.map UInt8.toNat = utf8Encode c) (rest : List UInt8) :
    unicodeFromUtf8 (bytes ++ rest) maxLen = some (c, bytes.length) := by
  have hlen : bytes.length = utf8Tail c + 1 := by
    rw [← List.length_map (f := UInt8.toNat), hb, utf8Encode, List.length_cons, List.length_map, length_digits]
  obtain ⟨b0, tl, rfl⟩ : ∃ b0 tl, bytes = b0 :: tl :=
    List.exists_cons_of_ne_nil (List.ne_nil_of_length_pos (by omega))
  simp only [utf8Encode, List.map_cons, List.cons.injEq] at hb
  obtain ⟨hb0, htl⟩ := hb
  have htl_len : tl.length = utf8Tail c := by simpa using hlen
  unfold unicodeFromUtf8
  simp only [List.cons_append, List.getD_cons_zero]
  by_cases hsmall : c < 0x80
  · -- one byte
    have h0 := utf8Tail_eq_zero hsmall
    rw [h0] at hb0
    have hb0' : b0.toNat = c := by simpa [utf8Lead] using hb0
    rw [hb0', if_pos hsmall, List.length_cons, htl_len, h0]
  · -- `l` bytes follow
    obtain ⟨hl1, hl5, hmin, hmax'⟩ := utf8Tail_bounds (by omega) hc
    set l := utf8Tail c with hl
    have hy := (div_lt_iff_of_tail hl5).mpr hmax'
    have hlead : 0x80 ≤ utf8Lead l := by interval_cases l <;> decide
    -- the bytes after the first are the last `l` digits of `c`
    have htake : ((tl ++ rest).drop 0).take l = tl := by
      rw [List.drop_zero, List.take_append_of_le_length (by omega), List.take_of_length_le (by omega)]
    have hread : utf8ReadCont (b0 :: (tl ++ rest)) l 1 (c / 64 ^ l) = some c := by
      rw [utf8ReadCont_eq_some, List.drop_succ_cons, htake]
      refine ⟨⟨by omega, fun b hb => ?_⟩, ?_⟩
      · have hmem : b.toNat ∈ (digits 64 l c).map (· + 0x80) := htl ▸ List.mem_map_of_mem hb
        obtain ⟨d, hd, hdb⟩ := List.mem_map.mp hmem
        have := digits_lt (by norm_num) l c d hd
        omega
      · have hmap : tl.map (fun b => b.toNat % 64) = (tl.map UInt8.toNat).map (· % 64) := by
          rw [List.map_map]
          rfl
        rw [hmap, htl, cont_digits, value_digits, Nat.mul_comm, Nat.div_add_mod]
    generalize c / 64 ^ l = y at hy hb0 hread
    rw [hb0, if_neg (by omega), utf8SeqLen_eq_some.mpr ⟨hl1, hl5, by omega, by omega⟩]
    dsimp only
    rw [if_neg (by omega), lead_and_mask hl1 hl5 hy, hread]
    dsimp only
    rw [if_neg (by omega), List.length_cons, htl_len]

/-- The first byte written for a character from `0x80` on is from `0x80` on
too: it cannot be read as an ASCII byte. -/
theorem unicodeToUtf8_head {c : UInt32} (h1 : 0x80 ≤ c.toNat) (h2 : c.toNat < 0x80000000) :
    ∃ b rest, unicodeToUtf8 c = b :: rest ∧ 0x80 ≤ b.toNat := by
  have hmap := unicodeToUtf8_toNat h2
  obtain ⟨ht1, ht5, -, -⟩ := utf8Tail_bounds h1 h2
  have hlead : 0x80 ≤ utf8Lead (utf8Tail c.toNat) := by
    generalize utf8Tail c.toNat = t at ht1 ht5 ⊢
    interval_cases t <;> decide
  cases hu : unicodeToUtf8 c with
  | nil =>
    rw [hu] at hmap
    simp [utf8Encode] at hmap
  | cons b rest =>
    rw [hu, List.map_cons, utf8Encode, List.cons.injEq] at hmap
    exact ⟨b, rest, rfl, hmap.1 ▸ Nat.le_trans hlead (Nat.le_add_right _ _)⟩

/-- The decoder moves on by a byte at least. -/
theorem unicodeFromUtf8_pos {p : List UInt8} {maxLen : Int} {v n : Nat}
    (h : unicodeFromUtf8 p maxLen = some (v, n)) : 0 < n := by
  unfold unicodeFromUtf8 at h
  dsimp only at h
  split_ifs at h
  · simp only [Option.some.injEq, Prod.mk.injEq] at h
    omega
  · split at h
    · cases h
    · split_ifs at h
      split at h
      · cases h
      · split_ifs at h
        simp only [Option.some.injEq, Prod.mk.injEq] at h
        omega

/-- Whatever `unicode_from_utf8` accepts is the UTF-8 of the code point it
returns: the `utf8_min_code` check refuses every longer spelling. -/
theorem unicodeFromUtf8_some {p : List UInt8} (hp : p ≠ []) {maxLen : Int} {v n : Nat}
    (h : unicodeFromUtf8 p maxLen = some (v, n)) :
    v < 0x80000000 ∧ (p.take n).map UInt8.toNat = utf8Encode v := by
  obtain ⟨b0, tl, rfl⟩ := List.exists_cons_of_ne_nil hp
  unfold unicodeFromUtf8 at h
  simp only [List.getD_cons_zero] at h
  split_ifs at h with hsmall
  · -- one byte
    simp only [Option.some.injEq, Prod.mk.injEq] at h
    obtain ⟨rfl, rfl⟩ := h
    refine ⟨by omega, ?_⟩
    simp [utf8Encode, utf8Tail_eq_zero hsmall, utf8Lead, digits]
  · -- the first byte says how many follow
    cases hl : utf8SeqLen b0.toNat with
    | none => simp [hl] at h
    | some l =>
      obtain ⟨hl1, hl5, hb1, hb2⟩ := utf8SeqLen_eq_some.mp hl
      simp only [hl] at h
      split_ifs at h with hmaxLen
      have hmask : b0.toNat &&& utf8FirstCodeMask.getD (l - 1) 0 = b0.toNat - utf8Lead l := by
        conv_lhs => rw [show b0.toNat = utf8Lead l + (b0.toNat - utf8Lead l) by omega]
        exact lead_and_mask hl1 hl5 (by omega)
      rw [hmask] at h
      cases hr : utf8ReadCont (b0 :: tl) l 1 (b0.toNat - utf8Lead l) with
      | none => simp [hr] at h
      | some w =>
        simp only [hr] at h
        split_ifs at h with hmin
        simp only [Option.some.injEq, Prod.mk.injEq] at h
        obtain ⟨rfl, rfl⟩ := h
        obtain ⟨⟨hlen, hcont⟩, hv⟩ := (utf8ReadCont_eq_some _ _ _ _ _).mp hr
        rw [List.drop_succ_cons, List.drop_zero] at hlen hcont hv
        set ds := (tl.take l).map fun b => b.toNat % 64 with hds_def
        have hds : ∀ d ∈ ds, d < 64 := by
          intro d hd
          obtain ⟨b, -, rfl⟩ := List.mem_map.mp hd
          exact Nat.mod_lt _ (by norm_num)
        have hdslen : ds.length = l := by rw [hds_def, List.length_map, hlen]
        -- the digits above the last `l` are those of the first byte
        have hdiv : w / 64 ^ l = b0.toNat - utf8Lead l := by
          have hlt := value_lt hds
          rw [hdslen] at hlt
          rw [hv, value_eq, hdslen, Nat.mul_comm, Nat.mul_add_div (Nat.pow_pos (by norm_num)),
            Nat.div_eq_of_lt hlt, Nat.add_zero]
        have hvlt : w < 2 ^ (5 * l + 6) := (div_lt_iff_of_tail hl5).mp (by omega)
        have htail : utf8Tail w = l := utf8Tail_eq hl1 hl5 (by omega) hvlt
        have hdig : digits 64 l w = ds := by
          rw [hv, ← hdslen]
          exact digits_value (by norm_num) _ hds
        refine ⟨?_, ?_⟩
        · have : 2 ^ (5 * l + 6) ≤ 2 ^ 31 := Nat.pow_le_pow_right (by norm_num) (by omega)
          omega
        · rw [List.take_succ_cons, List.map_cons, utf8Encode, htail, hdiv, hdig, hds_def, List.map_map]
          congr 1
          · omega
          · apply List.map_congr_left
            intro b hb
            have := hcont b hb
            simp only [Function.comp]
            omega

/-- `unicode_from_utf8` reads back what `unicode_to_utf8` writes, for every
code point it encodes and whatever follows. -/
theorem unicodeFromUtf8_unicodeToUtf8 {c : UInt32} (hc : c.toNat < 0x80000000) {maxLen : Int}
    (hmax : 6 ≤ maxLen) (rest : List UInt8) :
    unicodeFromUtf8 (unicodeToUtf8 c ++ rest) maxLen = some (c.toNat, (unicodeToUtf8 c).length) :=
  unicodeFromUtf8_utf8Encode hc hmax (unicodeToUtf8_toNat hc) rest

theorem unicodeFromUtf8_unicodeToUtf8_e9 :
    (0xe9 : UInt32).toNat < 0x80000000 ∧ (6 : Int) ≤ 6 ∧
      unicodeFromUtf8 (unicodeToUtf8 0xe9 ++ []) 6 = some ((0xe9 : UInt32).toNat, (unicodeToUtf8 0xe9).length) :=
  ⟨by decide, le_rfl, unicodeFromUtf8_unicodeToUtf8 (by decide) le_rfl []⟩

/-- What `unicode_from_utf8` accepts, `unicode_to_utf8` writes back byte for
byte: no code point has two spellings. -/
theorem unicodeToUtf8_unicodeFromUtf8 {p : List UInt8} (hp : p ≠ []) {maxLen : Int} {v n : Nat}
    (h : unicodeFromUtf8 p maxLen = some (v, n)) :
    unicodeToUtf8 (UInt32.ofNat v) = p.take n := by
  obtain ⟨hv, henc⟩ := unicodeFromUtf8_some hp h
  have hof : (UInt32.ofNat v).toNat = v := by
    rw [UInt32.toNat_ofNat']
    exact Nat.mod_eq_of_lt (by omega)
  have hmap := unicodeToUtf8_toNat (c := UInt32.ofNat v) (by omega)
  rw [hof, ← henc] at hmap
  exact (List.map_inj_right fun _ _ h => UInt8.toNat_inj.mp h).mp hmap

theorem unicodeToUtf8_unicodeFromUtf8_e9 :
    [0xc3, 0xa9] ≠ ([] : List UInt8) ∧ unicodeFromUtf8 [0xc3, 0xa9] 6 = some (0xe9, 2) ∧
      unicodeToUtf8 (UInt32.ofNat 0xe9) = [0xc3, 0xa9].take 2 :=
  ⟨by decide, by decide, @unicodeToUtf8_unicodeFromUtf8 [0xc3, 0xa9] (by decide) 6 0xe9 2 (by decide)⟩

end Chaconne.Cutils
