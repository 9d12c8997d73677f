import Chaconne.Regexp.Class
import Chaconne.Regexp.BytecodeSpec

/-!
# What `re_parse_char_class` builds

* `lreParseEscape_char` — without UTF-16 escapes an escape is a character
  below `0x10000`;
* `getClassAtom_ok` — `get_class_atom` reads a byte at least and returns a
  character below `0x10000` or one of the six class ranges, and
  `getClassAtom_error` — it fails only at the end of the pattern or on a
  character it cannot hold;
* `CharRange.Bmp` — every class the loop builds is canonical and does not
  change from `0x10000` up to `UINT32_MAX`, so it has too few intervals for
  `re_emit_range` to refuse (`CharRange.Bmp.len_lt`);
* `classLoop_bmp`, `classLoop_error`, `classLoop_ok` — over a whole run of the
  loop, which ends at a `]` when it succeeds.
-/

namespace Chaconne.Regexp

open Chaconne.Cutils CLib.PointSet CLib.Radix

/-! ## Escapes -/

theorem fromHex_lt {c h : Nat} (hh : fromHex c = some h) : h < 16 := by
  unfold fromHex at hh
  simp only [Char.reduceToNat] at hh
  split_ifs at hh <;> simp only [Option.some.injEq] at hh <;> omega

/-- `n` hexadecimal digits after `c`. -/
theorem hexDigits_lt {buf : List UInt8} : ∀ {n p c v : Nat}, hexDigits buf n p c = some v →
    v < (c + 1) * 16 ^ n
  | 0, _, _, _, h => by
    simp only [hexDigits, Option.some.injEq] at h
    omega
  | n + 1, p, c, v, h => by
    unfold hexDigits at h
    split at h
    · cases h
    · rename_i d hd
      have hstep : (c <<< 4) ||| d = c * 16 + d := shiftLeft_or_of_lt (fromHex_lt hd)
      have hv := hexDigits_lt h
      rw [hstep] at hv
      have hle : c * 16 + d + 1 ≤ (c + 1) * 16 := by
        have := fromHex_lt hd
        omega
      calc v < (c * 16 + d + 1) * 16 ^ n := hv
        _ ≤ (c + 1) * 16 * 16 ^ n := Nat.mul_le_mul_right _ hle
        _ = (c + 1) * 16 ^ (n + 1) := by rw [Nat.pow_succ, Nat.mul_comm (16 ^ n), Nat.mul_assoc]

/-- A legacy octal escape stays below `0o400`. -/
theorem octalTail_lt {buf : List UInt8} {p c : Nat} (hc : c < 8) :
    (octalTail buf p c).1 < 256 ∧ p ≤ (octalTail buf p c).2 := by
  unfold octalTail
  simp only [Char.reduceToNat]
  by_cases h1 : byteAt buf p < 48 ∨ byteAt buf p - 48 > 7
  · rw [if_pos h1]
    exact ⟨by omega, Nat.le_refl p⟩
  · rw [if_neg h1]
    -- the second digit is appended below the first
    have hs1 : (c <<< 3) ||| (byteAt buf p - 48) = c * 8 + (byteAt buf p - 48) :=
      shiftLeft_or_of_lt (by omega)
    rw [hs1]
    split_ifs with h2 h3
    · exact ⟨by omega, by omega⟩
    · exact ⟨by omega, by omega⟩
    · rw [shiftLeft_or_of_lt (k := 3) (by omega)]
      exact ⟨by omega, by omega⟩

/-- With `allow_utf16 = 0`, what `lre_parse_escape` recognises is below
`0x10000`: four hexadecimal digits at most, no `\u{...}`, no surrogate pairs. -/
theorem lreParseEscape_char {buf : List UInt8} {p c p' : Nat} (h : lreParseEscape buf p 0 = .char c p') :
    c < 0x10000 ∧ p < p' := by
  unfold lreParseEscape at h
  simp only [Char.reduceToNat, ne_eq, not_true_eq_false, and_false, false_and, ↓reduceIte,
    OfNat.zero_ne_ofNat] at h
  split_ifs at h with hb hf hn hr ht hv hxu hx hoct
  -- `\b \f \n \r \t \v`, and `-2` for the rest
  any_goals
    simp only [Escape.char.injEq] at h
    omega
  -- `\x` and `\u`: two or four digits
  iterate 2
    split at h
    · cases h
    · rename_i d hd
      simp only [Escape.char.injEq] at h
      have := hexDigits_lt hd
      omega
  · -- legacy octal
    simp only [Escape.char.injEq] at h
    have := @octalTail_lt buf (p + 1) (byteAt buf p - 48) (by omega)
    omega

/-! ## The class escapes -/

/-- `lre_is_space` reads the intervals of `char_range_s` in order and stops
early below one; so it computes the membership of the table's points, one
interval a round. -/
theorem isSpaceLoop_eq_mem (c : Nat) :
    ∀ k i, i + k = 10 → isSpaceLoop c k i = mem ((charRangeS.drop 1).drop (2 * i)) c
  | 0, i, h => by
    rw [show i = 10 by omega]
    rfl
  | k + 1, i, h => by
    have hsplit : ∀ i < 10, (charRangeS.drop 1).drop (2 * i) =
        charRangeS.getD (2 * i + 1) 0 :: charRangeS.getD (2 * i + 2) 0 ::
          (charRangeS.drop 1).drop (2 * (i + 1)) := by decide
    have hs : (charRangeS.drop 1).Pairwise (· < ·) := by decide
    have hsi := hs.drop (i := 2 * i)
    rw [hsplit i (by omega)] at hsi
    rw [isSpaceLoop, isSpaceLoop_eq_mem c k (i + 1) (by omega), hsplit i (by omega),
      mem_cons_cons_of_pairwise hsi]

/-- The points `cr_init_char_range` puts in the three tables, as numbers. -/
theorem crInitCharRange_d_points : (crInitCharRange CHAR_RANGE_d).points.map UInt32.toNat = [48, 58] := rfl

theorem crInitCharRange_s_points :
    (crInitCharRange CHAR_RANGE_s).points.map UInt32.toNat = charRangeS.drop 1 := by decide

theorem crInitCharRange_w_points :
    (crInitCharRange CHAR_RANGE_w).points.map UInt32.toNat = [48, 58, 65, 91, 95, 96, 97, 123] := rfl

theorem crInitCharRange_d_mem (c : Nat) : (crInitCharRange CHAR_RANGE_d).mem c = isDigit c := by
  rw [CharRange.mem, crInitCharRange_d_points, mem_pair (by decide)]
  simp only [isDigit, Char.reduceToNat, Bool.decide_and]
  by_cases h1 : 48 ≤ c <;> by_cases h2 : c ≤ 57 <;> simp [h1, h2] <;> omega

theorem crInitCharRange_s_mem (c : Nat) : (crInitCharRange CHAR_RANGE_s).mem c = lreIsSpace c := by
  rw [CharRange.mem, crInitCharRange_s_points, lreIsSpace, isSpaceLoop_eq_mem c _ 0 (by decide)]
  rfl

theorem crInitCharRange_w_mem (c : Nat) : (crInitCharRange CHAR_RANGE_w).mem c = isWordChar c := by
  -- the four intervals of `char_range_w`, one at a time
  rw [CharRange.mem, crInitCharRange_w_points, mem_cons_cons_of_pairwise (by decide), mem_cons_cons_of_pairwise (by decide),
    mem_cons_cons_of_pairwise (by decide), mem_cons_cons_of_pairwise (by decide), mem_nil]
  simp only [isWordChar, Char.reduceToNat]
  split_ifs <;> simp <;> omega

/-- The complemented escapes are the plain ones inverted. -/
theorem crInitCharRange_invert {k : Nat} (hk : k < 3) :
    crInitCharRange (2 * k + 1) = crInvert (crInitCharRange (2 * k)) := by
  interval_cases k <;> rfl

/-! ## Classes stay in the BMP -/

/-- What every class `re_parse_char_class` builds satisfies: canonical, and the
same for every code point from `0x10000` up to `UINT32_MAX`, as no atom
reaches past `0xffff`. -/
structure CharRange.Bmp (cr : CharRange) : Prop where
  canonical : cr.Canonical
  high : ∀ c, 0x10000 ≤ c → c < UINT32_MAX.toNat → cr.mem c = cr.mem 0x10000

section Bmp

variable {cr cr1 : CharRange}

/-- Such a class has too few intervals for `re_emit_range` to refuse. -/
theorem CharRange.Bmp.len_lt (h : cr.Bmp) : cr.points.length / 2 < 65535 := by
  have := h.canonical.length_le h.high
  omega

/-- Points up to `0x10000` only: the range is constant above them. -/
theorem CharRange.Bmp.of_le (h : cr.Canonical) (hle : ∀ x ∈ cr.points, x.toNat ≤ 0x10000) :
    cr.Bmp := by
  refine ⟨h, fun c hc _ => ?_⟩
  have hall : ∀ {d : Nat}, 0x10000 ≤ d → ∀ x ∈ nat cr.points, x ≤ d := by
    intro d hd x hx
    obtain ⟨y, hy, rfl⟩ := List.mem_map.mp hx
    exact Nat.le_trans (hle y hy) hd
  rw [CharRange.mem, CharRange.mem, mem_of_le (hall hc), mem_of_le (hall (Nat.le_refl _))]

/-- The same from the points as numbers. -/
theorem CharRange.Bmp.of_nat {l : List Nat} (hpts : cr.points.map UInt32.toNat = l)
    (hs : l.Pairwise (· < ·)) (he : l.length % 2 = 0) (hle : ∀ x ∈ l, x ≤ 0x10000) : cr.Bmp := by
  have hlen : cr.points.length = l.length := by rw [← hpts, List.length_map]
  refine CharRange.Bmp.of_le ⟨by rw [hpts]; exact hs, by rw [hlen]; exact he⟩ fun x hx => ?_
  exact hle x.toNat (hpts ▸ List.mem_map_of_mem hx)

theorem crInit_bmp : crInit.Bmp :=
  CharRange.Bmp.of_le ⟨List.Pairwise.nil, rfl⟩ (by simp [crInit])

theorem CharRange.Bmp.union1 (h : cr.Bmp) (h1 : cr1.Bmp) : (crUnion1 cr cr1.points).Bmp := by
  refine ⟨crOp_canonical h.canonical.pointsSorted h1.canonical.pointsSorted .union, fun c hc hc' => ?_⟩
  rw [crUnion1_mem h.canonical.pointsSorted h1.canonical.pointsSorted,
    crUnion1_mem h.canonical.pointsSorted h1.canonical.pointsSorted, h.high c hc hc', h1.high c hc hc']

theorem CharRange.Bmp.unionInterval (h : cr.Bmp) {c1 c2 : UInt32} (h12 : c1 ≤ c2) (h2 : c2.toNat < 0x10000) :
    (crUnionInterval cr c1 c2).Bmp := by
  have h2' : c2 < UINT32_MAX := by
    rw [UInt32.lt_iff_toNat_lt]
    simp only [UINT32_MAX, UInt32.reduceToNat]
    omega
  refine ⟨crUnionInterval_canonical h.canonical.pointsSorted h12 h2', fun c hc hc' => ?_⟩
  rw [crUnionInterval_mem h.canonical.pointsSorted h12 h2', crUnionInterval_mem h.canonical.pointsSorted h12 h2',
    h.high c hc hc']
  -- the interval ends below `0x10000`
  simp only [show ¬(c1.toNat ≤ c ∧ c ≤ c2.toNat) by omega, show ¬(c1.toNat ≤ 0x10000 ∧ 0x10000 ≤ c2.toNat) by omega,
    decide_false]

theorem CharRange.Bmp.invert (h : cr.Bmp) : (crInvert cr).Bmp := by
  refine ⟨crCompress_canonical (invert_pointsSorted h.canonical.pointsSorted), fun c hc hc' => ?_⟩
  have hmax : 0x10000 < UINT32_MAX.toNat := by decide
  rw [crInvert_mem h.canonical.pointsSorted hc', crInvert_mem h.canonical.pointsSorted hmax, h.high c hc hc']

/-- The six class escapes. -/
theorem crInitCharRange_bmp {k : Nat} (hk : k < 6) : (crInitCharRange k).Bmp := by
  -- the three tables end below `0x10000`
  have hbase : ∀ t < 3, (crInitCharRange (2 * t)).Bmp := by
    intro t ht
    interval_cases t
    · exact CharRange.Bmp.of_nat crInitCharRange_d_points (by decide) rfl (by decide)
    · exact CharRange.Bmp.of_nat crInitCharRange_s_points (by decide) rfl (by decide)
    · exact CharRange.Bmp.of_nat crInitCharRange_w_points (by decide) rfl (by decide)
  obtain ⟨t, rfl | rfl⟩ := Nat.even_or_odd' k
  · exact hbase t (by omega)
  · rw [crInitCharRange_invert (by omega)]
    exact (hbase t (by omega)).invert

end Bmp

/-! ## `get_class_atom` -/

/-- The two kinds of atom `get_class_atom` returns: a character below
`0x10000` with `cr` untouched, or `CLASS_RANGE_BASE` with one of the six class
ranges in `cr`. -/
def IsAtom (c : UInt32) (cr cr' : CharRange) : Prop :=
  (c.toNat < 0x10000 ∧ cr' = cr) ∨ (c = CLASS_RANGE_BASE ∧ ∃ k < 6, cr' = crInitCharRange k)

section Atom

variable {buf : List UInt8} {cr cr' : CharRange} {p p' : Nat} {c : UInt32} {e : String}

theorem classEscape_lt {c k : Nat} (h : classEscape c = some k) : k < 6 := by
  unfold classEscape at h
  split_ifs at h <;> simp only [Option.some.injEq] at h <;> subst h <;> decide

theorem normalChar_ok (h : normalChar buf cr p = .ok (c, cr', p')) :
    c.toNat < 0x10000 ∧ cr' = cr ∧ p < p' := by
  unfold normalChar at h
  split_ifs at h with h128
  · split at h
    · rename_i v n hv
      split_ifs at h with hbig
      simp only [Except.ok.injEq, Prod.mk.injEq] at h
      obtain ⟨rfl, rfl, rfl⟩ := h
      have hn := unicodeFromUtf8_pos hv
      exact ⟨by rw [toNat_ofNat_of_lt (by omega)]; omega, rfl, by omega⟩
    · cases h
  · simp only [Except.ok.injEq, Prod.mk.injEq] at h
    obtain ⟨rfl, rfl, rfl⟩ := h
    exact ⟨by rw [toNat_ofNat_of_lt (by omega)]; omega, rfl, by omega⟩

theorem normalChar_error (h : normalChar buf cr p = .error e) : e = "malformed unicode char" := by
  unfold normalChar at h
  split_ifs at h
  · split at h
    · split_ifs at h
      exact (Except.error.inj h).symm
    · exact (Except.error.inj h).symm

/-- `get_class_atom` reads a byte at least, and returns one of the two kinds
of atom. -/
theorem getClassAtom_ok {b : Bool} (h : getClassAtom buf cr p b = .ok (c, cr', p')) :
    p < p' ∧ IsAtom c cr cr' := by
  unfold getClassAtom at h
  dsimp only at h
  split at h
  · -- a `\`, not the last byte
    split at h
    · cases h
    split at h
    · -- a class escape
      rename_i k hk
      simp only [Except.ok.injEq, Prod.mk.injEq] at h
      obtain ⟨rfl, rfl, rfl⟩ := h
      exact ⟨by omega, .inr ⟨rfl, k, classEscape_lt hk, rfl⟩⟩
    split at h
    · split at h
      · -- `\c` and a letter: its low five bits
        simp only [Except.ok.injEq, Prod.mk.injEq] at h
        obtain ⟨rfl, rfl, rfl⟩ := h
        have hlow : byteAt buf (p + 1 + 1) &&& 31 ≤ 31 := Nat.and_le_right
        exact ⟨by omega, .inl ⟨by rw [toNat_ofNat_of_lt (by omega)]; omega, rfl⟩⟩
      · -- `\` alone
        simp only [Except.ok.injEq, Prod.mk.injEq] at h
        obtain ⟨rfl, rfl, rfl⟩ := h
        exact ⟨by omega, .inl ⟨by decide, rfl⟩⟩
    split at h
    · -- an escape `lre_parse_escape` knows
      rename_i d q hq
      simp only [Except.ok.injEq, Prod.mk.injEq] at h
      obtain ⟨rfl, rfl, rfl⟩ := h
      have hd := lreParseEscape_char hq
      exact ⟨by omega, .inl ⟨by rw [toNat_ofNat_of_lt (by omega)]; omega, rfl⟩⟩
    · -- the escaped character itself
      obtain ⟨hc, rfl, hp⟩ := normalChar_ok h
      exact ⟨by omega, .inl ⟨hc, rfl⟩⟩
  split at h
  · cases h
  · obtain ⟨hc, rfl, hp⟩ := normalChar_ok h
    exact ⟨hp, .inl ⟨hc, rfl⟩⟩

/-- It fails only at the end of the pattern, or on a character it cannot
hold. -/
theorem getClassAtom_error {b : Bool} (h : getClassAtom buf cr p b = .error e) :
    e = "unexpected end" ∨ e = "malformed unicode char" := by
  unfold getClassAtom at h
  dsimp only at h
  split at h
  · split at h
    · exact .inl (Except.error.inj h).symm
    split at h
    · cases h
    split at h
    · split at h <;> cases h
    split at h
    · cases h
    · exact .inr (normalChar_error h)
  split at h
  · exact .inl (Except.error.inj h).symm
  · exact .inr (normalChar_error h)

end Atom

/-! ## The loop of `re_parse_char_class` -/

section Loop

variable {buf : List UInt8} {cr cr1 cr' cr1' : CharRange} {p p' : Nat} {e : String}

/-- `class_atom:` keeps a class in the BMP, for a character as for a class
escape. -/
theorem classAtom_bmp {c1 : UInt32} (h : cr.Bmp)
    (ha : c1.toNat < 0x10000 ∨ (c1 = CLASS_RANGE_BASE ∧ ∃ k < 6, cr1 = crInitCharRange k)) :
    (classAtom cr c1 cr1).Bmp := by
  unfold classAtom
  rcases ha with hc | ⟨rfl, k, hk, rfl⟩
  · have hlt : ¬c1 ≥ CLASS_RANGE_BASE := by
      rw [ge_iff_le, UInt32.le_iff_toNat_le]
      simp only [CLASS_RANGE_BASE, UInt32.reduceToNat]
      omega
    rw [if_neg hlt]
    exact h.unionInterval (Nat.le_refl _ |> UInt32.le_iff_toNat_le.mpr) hc
  · rw [if_pos (Nat.le_refl _ |> UInt32.le_iff_toNat_le.mpr)]
    exact h.union1 (crInitCharRange_bmp hk)

/-- A character is below `CLASS_RANGE_BASE`. -/
theorem not_base_le_of_lt {c : UInt32} (hc : c.toNat < 0x10000) : ¬c ≥ CLASS_RANGE_BASE := by
  rw [ge_iff_le, UInt32.le_iff_toNat_le]
  simp only [CLASS_RANGE_BASE, UInt32.reduceToNat]
  omega

/-- One round reads a byte at least and keeps the class in the BMP. -/
theorem classStep_ok (h : classStep buf cr cr1 p = .ok (cr', cr1', p')) :
    p < p' ∧ (cr.Bmp → cr'.Bmp) := by
  unfold classStep at h
  split at h
  · cases h
  rename_i c1 cr1a q hq
  obtain ⟨hpq, ha⟩ := getClassAtom_ok hq
  have ha' : c1.toNat < 0x10000 ∨ (c1 = CLASS_RANGE_BASE ∧ ∃ k < 6, cr1a = crInitCharRange k) :=
    ha.imp And.left id
  split at h
  · split at h
    · -- Annex B: a class escape before `-` is added alone
      simp only [Except.ok.injEq, Prod.mk.injEq] at h
      obtain ⟨rfl, rfl, rfl⟩ := h
      exact ⟨hpq, fun hcr => classAtom_bmp hcr ha'⟩
    rename_i hbase
    -- `c1` is a character: read the other end
    have hc1 : c1.toNat < 0x10000 := by
      rcases ha with ⟨hc, -⟩ | ⟨rfl, -⟩
      · exact hc
      · exact absurd (Nat.le_refl _ |> UInt32.le_iff_toNat_le.mpr) hbase
    split at h
    · cases h
    rename_i c2 cr1b q0 hq0
    obtain ⟨hq0', ha2⟩ := getClassAtom_ok hq0
    split at h
    · -- a class escape after `-`: `c1` alone, and `-` next round
      simp only [Except.ok.injEq, Prod.mk.injEq] at h
      obtain ⟨rfl, rfl, rfl⟩ := h
      exact ⟨hpq, fun hcr => classAtom_bmp hcr (.inl hc1)⟩
    rename_i hbase2
    have hc2 : c2.toNat < 0x10000 := by
      rcases ha2 with ⟨hc, -⟩ | ⟨rfl, -⟩
      · exact hc
      · exact absurd (Nat.le_refl _ |> UInt32.le_iff_toNat_le.mpr) hbase2
    split at h
    · cases h
    · -- the interval from `c1` to `c2`
      rename_i hlt
      simp only [Except.ok.injEq, Prod.mk.injEq] at h
      obtain ⟨rfl, rfl, rfl⟩ := h
      have h12 : c1 ≤ c2 := by
        rw [UInt32.le_iff_toNat_le]
        rw [UInt32.lt_iff_toNat_lt] at hlt
        omega
      exact ⟨by omega, fun hcr => hcr.unionInterval h12 hc2⟩
  · simp only [Except.ok.injEq, Prod.mk.injEq] at h
    obtain ⟨rfl, rfl, rfl⟩ := h
    exact ⟨hpq, fun hcr => classAtom_bmp hcr ha'⟩

theorem classStep_error (h : classStep buf cr cr1 p = .error e) :
    e = "unexpected end" ∨ e = "malformed unicode char" ∨ e = "invalid class range" := by
  unfold classStep at h
  split at h
  · rename_i e' he
    cases h
    exact (getClassAtom_error he).imp_right .inl
  split at h
  · split at h
    · cases h
    split at h
    · rename_i e' he
      cases h
      exact (getClassAtom_error he).imp_right .inl
    split at h
    · cases h
    split at h
    · exact .inr (.inr (Except.error.inj h).symm)
    · cases h
  · cases h

/-- Past the end of the pattern only its `'\0'` is left. -/
theorem classStep_of_end (hp : buf.length ≤ p) : classStep buf cr cr1 p = .error "unexpected end" := by
  have h0 : byteAt buf p = 0 := by
    unfold byteAt
    rw [List.getD_eq_default _ _ hp]
    rfl
  unfold classStep getClassAtom
  simp only [h0, Char.reduceToNat, OfNat.zero_ne_ofNat, ↓reduceIte, hp, and_self]

/-- The loop keeps the class in the BMP over a whole run. -/
theorem classLoop_bmp : ∀ fuel cr cr1 p, classLoop buf fuel cr cr1 p = .ok (cr', p') → cr.Bmp → cr'.Bmp := by
  intro fuel
  induction fuel with
  | zero =>
    intro cr cr1 p h hcr
    simp only [classLoop, Except.ok.injEq, Prod.mk.injEq] at h
    exact h.1 ▸ hcr
  | succ fuel ih =>
    intro cr cr1 p h hcr
    unfold classLoop at h
    split at h
    · simp only [Except.ok.injEq, Prod.mk.injEq] at h
      exact h.1 ▸ hcr
    split at h
    · cases h
    · rename_i cr₁ cr1₁ p₁ hs
      exact ih cr₁ cr1₁ p₁ h ((classStep_ok hs).2 hcr)

theorem classLoop_error : ∀ fuel cr cr1 p, classLoop buf fuel cr cr1 p = .error e →
    e = "unexpected end" ∨ e = "malformed unicode char" ∨ e = "invalid class range" := by
  intro fuel
  induction fuel with
  | zero => intro cr cr1 p h; cases h
  | succ fuel ih =>
    intro cr cr1 p h
    unfold classLoop at h
    split at h
    · cases h
    split at h
    · rename_i e' he
      cases h
      exact classStep_error he
    · exact ih _ _ _ h

/-- With more rounds than bytes left, the loop succeeds only at a `]`: every
round reads a byte, and past the end the `'\0'` stops it. -/
theorem classLoop_ok : ∀ fuel cr cr1 p, buf.length - p < fuel →
    classLoop buf fuel cr cr1 p = .ok (cr', p') → byteAt buf p' = ']'.toNat ∧ p ≤ p' := by
  intro fuel
  induction fuel with
  | zero => intro cr cr1 p hf; omega
  | succ fuel ih =>
    intro cr cr1 p hf h
    unfold classLoop at h
    split at h
    · rename_i hclose
      simp only [Except.ok.injEq, Prod.mk.injEq] at h
      obtain ⟨-, rfl⟩ := h
      exact ⟨hclose, Nat.le_refl _⟩
    split at h
    · cases h
    rename_i cr₁ cr1₁ p₁ hs
    -- a round that succeeds starts inside the pattern
    have hin : p < buf.length := by
      by_contra hend
      rw [classStep_of_end (by omega)] at hs
      cases hs
    have hp₁ := (classStep_ok hs).1
    have := ih cr₁ cr1₁ p₁ (by omega) h
    exact ⟨this.1, by omega⟩

end Loop

/-! ## `re_parse_char_class` -/

section Parse

variable {buf : List UInt8} {p p' : Nat} {e : String}

/-- `re_emit_range` accepts every class in the BMP. -/
theorem reEmitRange_of_bmp {cr : CharRange} (h : cr.Bmp) : ∃ bc, reEmitRange cr = .ok bc := by
  obtain ⟨bc, hbc, -⟩ := reEmitRange_exec h.canonical h.len_lt (c := 0) (by decide)
  exact ⟨bc, hbc⟩

/-- The class after the loop, complemented after `^`, is in the BMP. -/
theorem invert_bmp {cr : CharRange} (h : cr.Bmp) (invert : Bool) :
    (if invert then crInvert cr else cr).Bmp := by
  cases invert
  · exact h
  · exact h.invert

/-- `re_parse_char_class` fails only at the end of the pattern, on a character
it cannot hold or on an interval given backwards: never with "too many
ranges", as a class of BMP characters has fewer than `0x8002` intervals. -/
theorem reParseCharClass_error (h : reParseCharClass buf p = .error e) :
    e = "unexpected end" ∨ e = "malformed unicode char" ∨ e = "invalid class range" := by
  unfold reParseCharClass at h
  dsimp only at h
  generalize hloop : classLoop _ _ _ _ _ = r at h
  cases r with
  | error e' =>
    cases h
    exact classLoop_error _ _ _ _ hloop
  | ok res =>
    obtain ⟨cr, q⟩ := res
    obtain ⟨bc, hbc⟩ := reEmitRange_of_bmp (invert_bmp (classLoop_bmp _ _ _ _ hloop crInit_bmp)
      (byteAt buf (p + 1) == '^'.toNat))
    simp only [classEnd, hbc] at h
    cases h

theorem reParseCharClass_error_b_a :
    reParseCharClass [0x5b, 0x62, 0x2d, 0x61, 0x5d] 0 = .error "invalid class range" ∧
      ("invalid class range" = "unexpected end" ∨ "invalid class range" = "malformed unicode char" ∨
        "invalid class range" = "invalid class range") := by
  have h : reParseCharClass [0x5b, 0x62, 0x2d, 0x61, 0x5d] 0 = .error "invalid class range" := by
    decide
  exact ⟨h, reParseCharClass_error h⟩

/-- What `re_parse_char_class` accepts ends at a `]`, and the instruction it
emits tests membership in a canonical class of BMP characters. -/
theorem reParseCharClass_ok {bc : List UInt8} (h : reParseCharClass buf p = .ok (bc, p')) :
    p < p' ∧ byteAt buf (p' - 1) = ']'.toNat ∧ ∃ cr : CharRange, cr.Bmp ∧
      ∀ c : UInt32, c.toNat < UINT32_MAX.toNat → (execCharOp bc c).isSome = cr.mem c.toNat := by
  unfold reParseCharClass at h
  dsimp only at h
  generalize hinv : (byteAt buf (p + 1) == '^'.toNat) = invert at h
  generalize hloop : classLoop _ _ _ _ _ = r at h
  cases r with
  | error e' => cases h
  | ok res =>
    obtain ⟨cr, q⟩ := res
    have hend := classLoop_ok (buf.length + 1) _ _ _ (by split_ifs <;> omega) hloop
    have hbmp := invert_bmp (classLoop_bmp _ _ _ _ hloop crInit_bmp) invert
    obtain ⟨bc', hbc⟩ := reEmitRange_of_bmp hbmp
    simp only [classEnd, hbc, Except.ok.injEq, Prod.mk.injEq] at h
    obtain ⟨rfl, rfl⟩ := h
    refine ⟨by split_ifs at hend <;> omega, by simpa using hend.1, _, hbmp, fun c hc => ?_⟩
    obtain ⟨bc'', hbc'', hmem⟩ := reEmitRange_exec hbmp.canonical hbmp.len_lt hc
    rw [hbc] at hbc''
    cases hbc''
    exact hmem

theorem reParseCharClass_ok_a :
    reParseCharClass [0x5b, 0x61, 0x5d] 0 = .ok ([21, 1, 0, 97, 0, 97, 0], 3) ∧
      0 < 3 ∧ byteAt [0x5b, 0x61, 0x5d] (3 - 1) = ']'.toNat ∧ ∃ cr : CharRange, cr.Bmp ∧
        ∀ c : UInt32, c.toNat < UINT32_MAX.toNat →
          (execCharOp [21, 1, 0, 97, 0, 97, 0] c).isSome = cr.mem c.toNat := by
  have h : reParseCharClass [0x5b, 0x61, 0x5d] 0 = .ok ([21, 1, 0, 97, 0, 97, 0], 3) := by decide
  exact ⟨h, reParseCharClass_ok h⟩

end Parse

end Chaconne.Regexp
