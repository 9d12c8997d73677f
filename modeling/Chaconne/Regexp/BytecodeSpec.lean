import Chaconne.Regexp.Bytecode
import Chaconne.Regexp.CharRangeSpec
import Chaconne.CLib.IntervalSearch

/-!
# The instruction of a class matches the class

`re_emit_range` writes the intervals of a canonical range as a table, and the
search of `REOP_range` / `REOP_range32` over that table finds the interval
holding a character exactly when the range holds it:

* `getU16_of_drop`, `getU32_of_drop`, `drop_emitRange16`, `drop_emitRange32`
  — the entries read back are the intervals written;
* `rangeLoop_eq_search` — the search on `uint32_t` indices is
  `CLib.IntervalSearch.search`: `idx_max = idx - 1` never wraps, since the
  character was checked against the first entry;
* `reEmitRange_exec` — the emitted instruction matches a character exactly
  when the range holds it.
-/

namespace Chaconne.Regexp

open CLib.PointSet CLib.IntervalSearch

/-! ## Reading the byte code back -/

theorem getD_of_drop {bc xs post : List UInt8} {pos : Nat} (h : bc.drop pos = xs ++ post) {k : Nat}
    (hk : k < xs.length) : bc.getD (pos + k) 0 = xs.getD k 0 := by
  have hdrop : (bc.drop pos).getD k 0 = bc.getD (pos + k) 0 := by
    simp only [List.getD_eq_getElem?_getD, List.getElem?_drop]
  rw [← hdrop, h, List.getD_append _ _ _ _ hk]

theorem getU16_of_drop {bc post : List UInt8} {pos : Nat} {v : UInt32} (h : bc.drop pos = putU16 v ++ post) :
    (getU16 bc pos).toNat = v.toNat % 65536 := by
  have h0 := getD_of_drop h (k := 0) (by simp [putU16])
  rw [Nat.add_zero] at h0
  unfold getU16
  rw [h0, getD_of_drop h (k := 1) (by simp [putU16])]
  simp only [putU16, List.getD_cons_zero, List.getD_cons_succ, UInt8.toNat_ofNat', UInt32.toNat_ofNat']
  omega

theorem getU32_of_drop {bc post : List UInt8} {pos : Nat} {v : UInt32} (h : bc.drop pos = putU32 v ++ post) :
    getU32 bc pos = v := by
  have hv := v.toNat_lt
  have h0 := getD_of_drop h (k := 0) (by simp [putU32])
  rw [Nat.add_zero] at h0
  unfold getU32
  rw [h0, getD_of_drop h (k := 1) (by simp [putU32]),
    getD_of_drop h (k := 2) (by simp [putU32]), getD_of_drop h (k := 3) (by simp [putU32])]
  apply UInt32.toNat_inj.mp
  simp only [putU32, List.getD_cons_zero, List.getD_cons_succ, UInt8.toNat_ofNat', UInt32.toNat_ofNat']
  omega

/-- Dropping `i` blocks of `m` bytes from a list written block by block. -/
theorem drop_flatMap_of_length {α β : Type} {l : List α} {f : α → List β} {m : Nat}
    (hf : ∀ x, (f x).length = m) {i : Nat} (hi : i < l.length) :
    (l.flatMap f).drop (m * i) = f l[i] ++ (l.drop (i + 1)).flatMap f := by
  have hlen : ((l.take i).flatMap f).length = m * i := by
    rw [List.length_flatMap, List.map_congr_left (fun x _ => hf x), List.map_const', List.sum_replicate,
      List.length_take, Nat.min_eq_left hi.le, smul_eq_mul, Nat.mul_comm]
  conv_lhs => rw [← List.take_append_drop i l, List.drop_eq_getElem_cons hi]
  rw [List.flatMap_append, List.flatMap_cons, ← hlen, List.drop_left]

/-! ## The table `re_emit_range` writes -/

/-- One entry of a 16-bit table: `low`, then `high` with `0xffff` for an
infinite end. -/
def entry16 (p : UInt32 × UInt32) : List UInt8 :=
  putU16 p.1 ++ putU16 (if p.2 - 1 = UINT32_MAX - 1 then 0xffff else p.2 - 1)

/-- One entry of a 32-bit table. -/
def entry32 (p : UInt32 × UInt32) : List UInt8 := putU32 p.1 ++ putU32 (p.2 - 1)

theorem emitRange16_eq : ∀ l : List UInt32, emitRange16 l = (pairs l).flatMap entry16
  | [] => rfl
  | [_] => rfl
  | lo :: hi :: r => by
    rw [emitRange16, pairs, List.flatMap_cons, emitRange16_eq r]
    rfl

theorem emitRange32_eq : ∀ l : List UInt32, emitRange32 l = (pairs l).flatMap entry32
  | [] => rfl
  | [_] => rfl
  | lo :: hi :: r => by
    rw [emitRange32, pairs, List.flatMap_cons, emitRange32_eq r]
    rfl

/-- Entry `i` of an instruction: after the opcode and the count, `i` entries
of `m` bytes. -/
theorem drop_entry {op : UInt8} {k : UInt32} {l : List UInt32} {f : UInt32 × UInt32 → List UInt8} {m : Nat}
    (hf : ∀ x, (f x).length = m) {i : Nat} (hi : i < (pairs l).length) :
    (reEmitOpU16 op k ++ (pairs l).flatMap f).drop (1 + 2 + i * m) =
      f (pairs l)[i] ++ ((pairs l).drop (i + 1)).flatMap f := by
  have hlen : (reEmitOpU16 op k).length = 3 := rfl
  rw [List.drop_append, List.drop_eq_nil_of_le (by omega), List.nil_append, hlen,
    show 1 + 2 + i * m - 3 = m * i by rw [Nat.mul_comm]; omega, drop_flatMap_of_length hf hi]

/-- The `low` of entry `i` of a 16-bit table. -/
def low16 (l : List UInt32) (i : Nat) : Nat := ((pairs l).getD i (0, 0)).1.toNat % 65536

/-- The `high` of entry `i` of a 16-bit table. -/
def high16 (l : List UInt32) (i : Nat) : Nat :=
  (if ((pairs l).getD i (0, 0)).2 - 1 = UINT32_MAX - 1 then 0xffff
    else ((pairs l).getD i (0, 0)).2 - 1).toNat % 65536

theorem read_low16 {op : UInt8} {k : UInt32} {l : List UInt32} {i : Nat} (hi : i < (pairs l).length) :
    (getU16 (reEmitOpU16 op k ++ emitRange16 l) (1 + 2 + i * 4)).toNat = low16 l i := by
  rw [emitRange16_eq]
  have h := @drop_entry op k l entry16 4 (fun _ => rfl) i hi
  rw [entry16, List.append_assoc] at h
  rw [getU16_of_drop h, low16, List.getD_eq_getElem _ _ hi]

theorem read_high16 {op : UInt8} {k : UInt32} {l : List UInt32} {i : Nat} (hi : i < (pairs l).length) :
    (getU16 (reEmitOpU16 op k ++ emitRange16 l) (1 + 2 + i * 4 + 2)).toNat = high16 l i := by
  rw [emitRange16_eq]
  have h := @drop_entry op k l entry16 4 (fun _ => rfl) i hi
  rw [entry16, List.append_assoc] at h
  have h2 := congrArg (List.drop 2) h
  rw [List.drop_drop, List.drop_left' (show (putU16 (pairs l)[i].1).length = 2 from rfl)] at h2
  rw [getU16_of_drop h2, high16, List.getD_eq_getElem _ _ hi]

/-- The `low` of entry `i` of a 32-bit table. -/
def low32 (l : List UInt32) (i : Nat) : Nat := ((pairs l).getD i (0, 0)).1.toNat

/-- The `high` of entry `i` of a 32-bit table. -/
def high32 (l : List UInt32) (i : Nat) : Nat := (((pairs l).getD i (0, 0)).2 - 1).toNat

theorem read_low32 {op : UInt8} {k : UInt32} {l : List UInt32} {i : Nat} (hi : i < (pairs l).length) :
    (getU32 (reEmitOpU16 op k ++ emitRange32 l) (1 + 2 + i * 8)).toNat = low32 l i := by
  rw [emitRange32_eq]
  have h := @drop_entry op k l entry32 8 (fun _ => rfl) i hi
  rw [entry32, List.append_assoc] at h
  rw [getU32_of_drop h, low32, List.getD_eq_getElem _ _ hi]

theorem read_high32 {op : UInt8} {k : UInt32} {l : List UInt32} {i : Nat} (hi : i < (pairs l).length) :
    (getU32 (reEmitOpU16 op k ++ emitRange32 l) (1 + 2 + i * 8 + 4)).toNat = high32 l i := by
  rw [emitRange32_eq]
  have h := @drop_entry op k l entry32 8 (fun _ => rfl) i hi
  rw [entry32, List.append_assoc] at h
  have h2 := congrArg (List.drop 4) h
  rw [List.drop_drop, List.drop_left' (show (putU32 (pairs l)[i].1).length = 4 from rfl)] at h2
  rw [getU32_of_drop h2, high32, List.getD_eq_getElem _ _ hi]

theorem read_count {op : UInt8} {k : UInt32} {rest : List UInt8} (hk : k.toNat < 65536) :
    getU16 (reEmitOpU16 op k ++ rest) 1 = k := by
  apply UInt32.toNat_inj.mp
  rw [@getU16_of_drop (reEmitOpU16 op k ++ rest) rest 1 k rfl, Nat.mod_eq_of_lt hk]

/-! ## The search on `uint32_t` indices -/

theorem toNat_ofNat_of_lt {a : Nat} (h : a < 2 ^ 32) : (UInt32.ofNat a).toNat = a := by
  rw [UInt32.toNat_ofNat']
  exact Nat.mod_eq_of_lt h

section Search

variable {low high : UInt32 → UInt32} {lo hi : Nat → Nat} {c : UInt32} {n : Nat}

/-- With `c` at or above the first `low`, the loop on `uint32_t` indices is
`search` over the candidates `[idx_min, idx_max + 1)`: `idx_max = idx - 1`
never wraps, as `idx = 0` with `c < low[0]` cannot happen. -/
theorem rangeLoop_eq_search (hn : n < 65536) (hlow : ∀ i < n, (low (UInt32.ofNat i)).toNat = lo i)
    (hhigh : ∀ i < n, (high (UInt32.ofNat i)).toNat = hi i) (hc0 : lo 0 ≤ c.toNat) :
    ∀ fuel a b, 1 ≤ b → b ≤ n → a ≤ b →
      rangeLoop low high c fuel (UInt32.ofNat a) (UInt32.ofNat (b - 1)) = search lo hi c.toNat fuel a b := by
  intro fuel
  induction fuel with
  | zero => intro a b _ _ _; rfl
  | succ fuel ih =>
    intro a b hb1 hbn hab
    have ha' := toNat_ofNat_of_lt (a := a) (by omega)
    have hb' := toNat_ofNat_of_lt (a := b - 1) (by omega)
    have hle : UInt32.ofNat a ≤ UInt32.ofNat (b - 1) ↔ a < b := by
      rw [UInt32.le_iff_toNat_le, ha', hb']
      omega
    -- `idx` is the middle candidate
    have hidx : (UInt32.ofNat a + UInt32.ofNat (b - 1)) / 2 = UInt32.ofNat ((a + (b - 1)) / 2) := by
      apply UInt32.toNat_inj.mp
      rw [UInt32.toNat_div, UInt32.toNat_add, ha', hb', toNat_ofNat_of_lt (by omega),
        Nat.mod_eq_of_lt (by omega)]
      rfl
    unfold rangeLoop search
    by_cases hab' : a < b
    · rw [if_pos (hle.mpr hab'), if_pos hab']
      dsimp only
      rw [hidx]
      set m := (a + (b - 1)) / 2 with hm
      have hmn : m < n := by omega
      have hlt : c < low (UInt32.ofNat m) ↔ c.toNat < lo m := by
        rw [UInt32.lt_iff_toNat_lt, hlow m hmn]
      have hgt : c > high (UInt32.ofNat m) ↔ hi m < c.toNat := by
        rw [gt_iff_lt, UInt32.lt_iff_toNat_lt, hhigh m hmn]
      by_cases h1 : c.toNat < lo m
      · -- `idx_max = idx - 1`, with `idx` above `idx_min`
        have hm1 : 1 ≤ m := by
          by_contra h0
          have hm0 : m = 0 := by omega
          rw [hm0] at h1
          omega
        have hsub : UInt32.ofNat m - 1 = UInt32.ofNat (m - 1) := by
          apply UInt32.toNat_inj.mp
          have h1le : (1 : UInt32) ≤ UInt32.ofNat m := by
            rw [UInt32.le_iff_toNat_le, toNat_ofNat_of_lt (by omega)]
            exact hm1
          rw [UInt32.toNat_sub_of_le _ _ h1le, toNat_ofNat_of_lt (by omega), toNat_ofNat_of_lt (by omega)]
          rfl
        rw [if_pos (hlt.mpr h1), if_pos h1, hsub]
        exact ih a m hm1 (by omega) (by omega)
      · rw [if_neg (fun h => h1 (hlt.mp h)), if_neg h1]
        by_cases h2 : hi m < c.toNat
        · -- `idx_min = idx + 1`
          have hadd : UInt32.ofNat m + 1 = UInt32.ofNat (m + 1) := by
            apply UInt32.toNat_inj.mp
            rw [UInt32.toNat_add, toNat_ofNat_of_lt (by omega), toNat_ofNat_of_lt (by omega)]
            simp only [UInt32.reduceToNat]
            omega
          rw [if_pos (hgt.mpr h2), if_pos h2, hadd]
          exact ih (m + 1) b hb1 hbn (by omega)
        · rw [if_neg (fun h => h2 (hgt.mp h)), if_neg h2]
    · rw [if_neg (fun h => hab' (hle.mp h)), if_neg hab']

end Search

/-! ## The intervals of a canonical range -/

section Canonical

variable {cr : CharRange}

theorem getElem_pairs_nat {l : List UInt32} {i : Nat} (hi : i < (pairs l).length)
    (hi' : i < (pairs (nat l)).length) :
    (pairs (nat l))[i] = ((pairs l)[i].1.toNat, (pairs l)[i].2.toNat) := by
  simp only [pairs_map, List.getElem_map, Prod.map]

theorem CharRange.Canonical.pair_lt (h : cr.Canonical) {i : Nat} (hi : i < (pairs cr.points).length) :
    (pairs cr.points)[i].1.toNat < (pairs cr.points)[i].2.toNat := by
  have hi' : i < (pairs (nat cr.points)).length := by rw [pairs_map, List.length_map]; exact hi
  have := pairs_lt h.strict hi'
  rwa [getElem_pairs_nat hi hi'] at this

theorem CharRange.Canonical.pair_lt_next (h : cr.Canonical) {i : Nat} (hi : i + 1 < (pairs cr.points).length) :
    (pairs cr.points)[i].2.toNat < (pairs cr.points)[i + 1].1.toNat := by
  have hi' : i + 1 < (pairs (nat cr.points)).length := by rw [pairs_map, List.length_map]; exact hi
  have := pairs_lt_next h.strict hi'
  rwa [getElem_pairs_nat (by omega) (by omega), getElem_pairs_nat hi hi'] at this

/-- A canonical range holds `c` exactly when one of its intervals does. -/
theorem CharRange.Canonical.mem_iff (h : cr.Canonical) (c : Nat) :
    cr.mem c = true ↔ ∃ i, ∃ hi : i < (pairs cr.points).length,
      (pairs cr.points)[i].1.toNat ≤ c ∧ c < (pairs cr.points)[i].2.toNat := by
  rw [CharRange.mem, mem_iff_pairs h.strict (by simpa using h.even), pairs_map]
  constructor
  · rintro ⟨p, hp, hc⟩
    obtain ⟨i, hi, rfl⟩ := List.getElem_of_mem hp
    rw [List.length_map] at hi
    exact ⟨i, hi, by simpa using hc⟩
  · rintro ⟨i, hi, hc⟩
    exact ⟨_, List.getElem_mem (by rw [List.length_map]; exact hi), by simpa using hc⟩

end Canonical

/-! ## `REOP_range32` -/

section Range32

variable {cr : CharRange}

theorem high32_eq (h : cr.Canonical) {i : Nat} (hi : i < (pairs cr.points).length) :
    high32 cr.points i = (pairs cr.points)[i].2.toNat - 1 := by
  have hlt := h.pair_lt hi
  have h1 : (1 : UInt32) ≤ (pairs cr.points)[i].2 := by
    rw [UInt32.le_iff_toNat_le]
    simp only [UInt32.reduceToNat]
    omega
  rw [high32, List.getD_eq_getElem _ _ hi, UInt32.toNat_sub_of_le _ _ h1]
  rfl

theorem table32 (h : cr.Canonical) : Table (low32 cr.points) (high32 cr.points) (pairs cr.points).length := by
  constructor
  · intro i hi
    rw [high32_eq h hi, low32, List.getD_eq_getElem _ _ hi]
    have := h.pair_lt hi
    omega
  · intro i hi
    rw [high32_eq h (by omega), low32, List.getD_eq_getElem _ _ hi]
    have := h.pair_lt_next hi
    omega

/-- The 32-bit instruction of a canonical range matches `c` exactly when the
range holds it. -/
theorem execRange32_emit (h : cr.Canonical) (hk0 : 0 < (pairs cr.points).length)
    (hk : (pairs cr.points).length < 65535) (c : UInt32) :
    (execRange32 (reEmitOpU16 REOP_range32 (UInt32.ofNat (pairs cr.points).length) ++
      emitRange32 cr.points) 1 c).isSome = cr.mem c.toNat := by
  set k := (pairs cr.points).length with hk_def
  set bc := reEmitOpU16 REOP_range32 (UInt32.ofNat k) ++ emitRange32 cr.points with hbc
  have ht : Table (low32 cr.points) (high32 cr.points) k := table32 h
  -- the count, the first `low` and the last `high` read back
  have hn : getU16 bc 1 = UInt32.ofNat k := read_count (by rw [toNat_ofNat_of_lt (by omega)]; omega)
  have hlow0 : (getU32 bc (1 + 2)).toNat = low32 cr.points 0 := by
    have := @read_low32 REOP_range32 (UInt32.ofNat k) _ _ hk0
    rwa [Nat.zero_mul, Nat.add_zero] at this
  have hidx : UInt32.ofNat k - 1 = UInt32.ofNat (k - 1) := by
    apply UInt32.toNat_inj.mp
    have h1 : (1 : UInt32) ≤ UInt32.ofNat k := by
      rw [UInt32.le_iff_toNat_le, toNat_ofNat_of_lt (by omega)]
      exact hk0
    rw [UInt32.toNat_sub_of_le _ _ h1, toNat_ofNat_of_lt (by omega), toNat_ofNat_of_lt (by omega)]
    rfl
  have hhigh : (getU32 bc (1 + 2 + (UInt32.ofNat (k - 1)).toNat * 8 + 4)).toNat = high32 cr.points (k - 1) := by
    rw [toNat_ofNat_of_lt (by omega)]
    exact read_high32 (by omega)
  -- membership is being covered by the table
  have hcov : cr.mem c.toNat = true ↔ ∃ i < k, low32 cr.points i ≤ c.toNat ∧ c.toNat ≤ high32 cr.points i := by
    rw [h.mem_iff]
    constructor
    · rintro ⟨i, hi, h1, h2⟩
      refine ⟨i, hi, ?_, ?_⟩
      · rw [low32, List.getD_eq_getElem _ _ hi]
        exact h1
      · rw [high32_eq h hi]
        omega
    · rintro ⟨i, hi, h1, h2⟩
      rw [low32, List.getD_eq_getElem _ _ hi] at h1
      rw [high32_eq h hi] at h2
      have := h.pair_lt hi
      exact ⟨i, hi, h1, by omega⟩
  have hlow : ∀ i < k, (getU32 bc (1 + 2 + (UInt32.ofNat i).toNat * 8)).toNat = low32 cr.points i := by
    intro i hi
    rw [toNat_ofNat_of_lt (by omega)]
    exact read_low32 hi
  have hhighs : ∀ i < k, (getU32 bc (1 + 2 + (UInt32.ofNat i).toNat * 8 + 4)).toNat = high32 cr.points i := by
    intro i hi
    rw [toNat_ofNat_of_lt (by omega)]
    exact read_high32 hi
  -- the instruction: the two checks, then the search
  have key : (execRange32 bc 1 c).isSome = true ↔
      ∃ i < k, low32 cr.points i ≤ c.toNat ∧ c.toNat ≤ high32 cr.points i := by
    simp only [execRange32, hn, toNat_ofNat_of_lt (show k < 2 ^ 32 by omega), hidx]
    by_cases h0 : c.toNat < low32 cr.points 0
    · rw [if_pos (UInt32.lt_iff_toNat_lt.mpr (hlow0 ▸ h0))]
      simpa using ht.not_covered (.inl h0)
    rw [if_neg (fun hlt => h0 (hlow0 ▸ UInt32.lt_iff_toNat_lt.mp hlt))]
    by_cases h1 : high32 cr.points (k - 1) < c.toNat
    · rw [if_pos (UInt32.lt_iff_toNat_lt.mpr (hhigh ▸ h1))]
      simpa using ht.not_covered (.inr h1)
    rw [if_neg (fun hlt => h1 (hhigh ▸ UInt32.lt_iff_toNat_lt.mp hlt)),
      show (0 : UInt32) = UInt32.ofNat 0 from rfl,
      rangeLoop_eq_search (by omega) hlow hhighs (by omega) k 0 k (by omega) (by omega) (by omega),
      ← search_eq_true_iff ht (Nat.le_refl k)]
    split_ifs with hs <;> simp [hs]
  rw [Bool.eq_iff_iff, key, hcov]

end Range32

/-! ## `REOP_range` -/

section Range16

variable {cr : CharRange}

/-- The point `re_emit_range` compares with `0xffff`: the last one, or the
one before when the last is `UINT32_MAX`. -/
def emitHigh (l : List UInt32) : UInt32 :=
  if ((pairs l).getD ((pairs l).length - 1) (0, 0)).2 = UINT32_MAX then
    ((pairs l).getD ((pairs l).length - 1) (0, 0)).1
  else ((pairs l).getD ((pairs l).length - 1) (0, 0)).2

theorem UINT32_MAX_toNat : UINT32_MAX.toNat = 2 ^ 32 - 1 := rfl

/-- Only the last interval can end at `UINT32_MAX`. -/
theorem CharRange.Canonical.ne_max (h : cr.Canonical) {i : Nat} (hi : i + 1 < (pairs cr.points).length) :
    (pairs cr.points)[i].2 ≠ UINT32_MAX := by
  intro heq
  have := h.pair_lt_next hi
  have := UInt32.toNat_lt (pairs cr.points)[i + 1].1
  rw [heq, UINT32_MAX_toNat] at *
  omega

theorem high16_lt (l : List UInt32) (i : Nat) : high16 l i < 65536 := Nat.mod_lt _ (by norm_num)

section

variable (h : cr.Canonical) (hk0 : 0 < (pairs cr.points).length) (h16 : (emitHigh cr.points).toNat ≤ 0xffff)
include h hk0 h16

theorem low_le_ffff {i : Nat} (hi : i < (pairs cr.points).length) : (pairs cr.points)[i].1.toNat ≤ 0xffff := by
  set k := (pairs cr.points).length with hk
  have hk1 : k - 1 < k := by omega
  -- the starts increase up to the last one, which is at most `emitHigh`
  have hlast : low32 cr.points i ≤ low32 cr.points (k - 1) := (table32 h).lo_le_lo (by omega) hk1
  rw [low32, low32, List.getD_eq_getElem _ _ hi, List.getD_eq_getElem _ _ hk1] at hlast
  have hlt := h.pair_lt hk1
  unfold emitHigh at h16
  rw [← hk, List.getD_eq_getElem _ _ hk1] at h16
  split_ifs at h16 <;> omega

theorem high_le_ffff {i : Nat} (hi : i < (pairs cr.points).length) (hne : (pairs cr.points)[i].2 ≠ UINT32_MAX) :
    (pairs cr.points)[i].2.toNat ≤ 0xffff := by
  set k := (pairs cr.points).length with hk
  by_cases hlast : i + 1 < k
  · have := h.pair_lt_next hlast
    have := low_le_ffff h hk0 h16 hlast
    omega
  · -- the last interval: its end is `emitHigh`
    have hi' : i = k - 1 := by omega
    unfold emitHigh at h16
    rw [← hk, List.getD_eq_getElem _ _ (show k - 1 < k by omega)] at h16
    subst hi'
    rw [if_neg hne] at h16
    exact h16

theorem high16_eq {i : Nat} (hi : i < (pairs cr.points).length) :
    high16 cr.points i =
      if (pairs cr.points)[i].2 = UINT32_MAX then 0xffff else (pairs cr.points)[i].2.toNat - 1 := by
  have hlt := h.pair_lt hi
  have h1 : (1 : UInt32) ≤ (pairs cr.points)[i].2 := by
    rw [UInt32.le_iff_toNat_le]
    simp only [UInt32.reduceToNat]
    omega
  -- `points[i + 1] - 1 == UINT32_MAX - 1` exactly for an infinite end
  have hsub : (pairs cr.points)[i].2 - 1 = UINT32_MAX - 1 ↔ (pairs cr.points)[i].2 = UINT32_MAX := by
    rw [← UInt32.toNat_inj, ← UInt32.toNat_inj, UInt32.toNat_sub_of_le _ _ h1,
      UInt32.toNat_sub_of_le _ _ (by decide), UINT32_MAX_toNat]
    simp only [UInt32.reduceToNat]
    omega
  rw [high16, List.getD_eq_getElem _ _ hi]
  by_cases hmax : (pairs cr.points)[i].2 = UINT32_MAX
  · rw [if_pos (hsub.mpr hmax), if_pos hmax]
    rfl
  · rw [if_neg (fun h' => hmax (hsub.mp h')), if_neg hmax, UInt32.toNat_sub_of_le _ _ h1]
    have := high_le_ffff h hk0 h16 hi hmax
    simp only [UInt32.reduceToNat]
    omega

theorem low16_eq {i : Nat} (hi : i < (pairs cr.points).length) :
    low16 cr.points i = (pairs cr.points)[i].1.toNat := by
  rw [low16, List.getD_eq_getElem _ _ hi]
  exact Nat.mod_eq_of_lt (by have := low_le_ffff h hk0 h16 hi; omega)

theorem table16 : Table (low16 cr.points) (high16 cr.points) (pairs cr.points).length := by
  constructor
  · intro i hi
    rw [low16_eq h hk0 h16 hi, high16_eq h hk0 h16 hi]
    have := h.pair_lt hi
    have := low_le_ffff h hk0 h16 hi
    split_ifs <;> omega
  · intro i hi
    rw [high16_eq h hk0 h16 (by omega), low16_eq h hk0 h16 hi, if_neg (h.ne_max hi)]
    have := h.pair_lt_next hi
    omega

/-- The 16-bit instruction of a canonical range matches every `c` below
`UINT32_MAX` exactly when the range holds it: an infinite last interval is
caught by the `0xffff` check before the search. -/
theorem execRange_emit (hk : (pairs cr.points).length < 65535) {c : UInt32}
    (hc : c.toNat < UINT32_MAX.toNat) :
    (execRange (reEmitOpU16 REOP_range (UInt32.ofNat (pairs cr.points).length) ++
      emitRange16 cr.points) 1 c).isSome = cr.mem c.toNat := by
  set k := (pairs cr.points).length with hk_def
  set bc := reEmitOpU16 REOP_range (UInt32.ofNat k) ++ emitRange16 cr.points with hbc
  have hk1 : k - 1 < k := by omega
  have ht : Table (low16 cr.points) (high16 cr.points) k := table16 h hk0 h16
  have hn : getU16 bc 1 = UInt32.ofNat k := read_count (by rw [toNat_ofNat_of_lt (by omega)]; omega)
  have hlow0 : (getU16 bc (1 + 2)).toNat = low16 cr.points 0 := by
    have := @read_low16 REOP_range (UInt32.ofNat k) _ _ hk0
    rwa [Nat.zero_mul, Nat.add_zero] at this
  have hidx : UInt32.ofNat k - 1 = UInt32.ofNat (k - 1) := by
    apply UInt32.toNat_inj.mp
    have h1 : (1 : UInt32) ≤ UInt32.ofNat k := by
      rw [UInt32.le_iff_toNat_le, toNat_ofNat_of_lt (by omega)]
      exact hk0
    rw [UInt32.toNat_sub_of_le _ _ h1, toNat_ofNat_of_lt (by omega), toNat_ofNat_of_lt (by omega)]
    rfl
  have hhigh : (getU16 bc (1 + 2 + (UInt32.ofNat (k - 1)).toNat * 4 + 2)).toNat = high16 cr.points (k - 1) := by
    rw [toNat_ofNat_of_lt (by omega)]
    exact read_high16 hk1
  have hlow : ∀ i < k, (getU16 bc (1 + 2 + (UInt32.ofNat i).toNat * 4)).toNat = low16 cr.points i := by
    intro i hi
    rw [toNat_ofNat_of_lt (by omega)]
    exact read_low16 hi
  have hhighs : ∀ i < k, (getU16 bc (1 + 2 + (UInt32.ofNat i).toNat * 4 + 2)).toNat = high16 cr.points i := by
    intro i hi
    rw [toNat_ofNat_of_lt (by omega)]
    exact read_high16 hi
  -- below `0xffff`, membership is being covered by the table
  have hcov : c.toNat < 0xffff →
      (cr.mem c.toNat = true ↔ ∃ i < k, low16 cr.points i ≤ c.toNat ∧ c.toNat ≤ high16 cr.points i) := by
    intro hcf
    rw [h.mem_iff]
    constructor
    · rintro ⟨i, hi, h1, h2⟩
      refine ⟨i, hi, by rw [low16_eq h hk0 h16 hi]; exact h1, ?_⟩
      rw [high16_eq h hk0 h16 hi]
      split_ifs <;> omega
    · rintro ⟨i, hi, h1, h2⟩
      rw [low16_eq h hk0 h16 hi] at h1
      rw [high16_eq h hk0 h16 hi] at h2
      refine ⟨i, hi, h1, ?_⟩
      split_ifs at h2 with hmax
      · rw [hmax, UINT32_MAX_toNat]
        omega
      · have := h.pair_lt hi
        omega
  -- the last `high` is `0xffff` exactly for an infinite last interval
  have hlastmax : high16 cr.points (k - 1) = 0xffff → (pairs cr.points)[k - 1].2 = UINT32_MAX := by
    intro h65
    by_contra hne
    rw [high16_eq h hk0 h16 hk1, if_neg hne] at h65
    have := high_le_ffff h hk0 h16 hk1 hne
    omega
  have key : (execRange bc 1 c).isSome = true ↔ cr.mem c.toNat = true := by
    simp only [execRange, hn, toNat_ofNat_of_lt (show k < 2 ^ 32 by omega), hidx]
    by_cases h0 : c.toNat < low16 cr.points 0
    · -- below the first interval
      rw [if_pos (UInt32.lt_iff_toNat_lt.mpr (hlow0 ▸ h0))]
      have := low_le_ffff h hk0 h16 hk0
      rw [← low16_eq h hk0 h16 hk0] at this
      simpa [hcov (by omega)] using ht.not_covered (.inl h0)
    rw [if_neg (fun hlt => h0 (hlow0 ▸ UInt32.lt_iff_toNat_lt.mp hlt))]
    have hsc : (c ≥ 0xffff ∧ getU16 bc (1 + 2 + (UInt32.ofNat (k - 1)).toNat * 4 + 2) = 0xffff) ↔
        (65535 ≤ c.toNat ∧ high16 cr.points (k - 1) = 65535) := by
      rw [ge_iff_le, UInt32.le_iff_toNat_le, ← UInt32.toNat_inj, hhigh]
      rfl
    by_cases hs : 65535 ≤ c.toNat ∧ high16 cr.points (k - 1) = 65535
    · -- `0xffff` stands for infinity: the last interval holds `c`
      rw [if_pos (hsc.mpr hs)]
      simp only [Option.isSome_some, true_iff]
      rw [h.mem_iff]
      have hmax := hlastmax hs.2
      have := low_le_ffff h hk0 h16 hk1
      refine ⟨k - 1, hk1, by omega, ?_⟩
      rw [hmax]
      exact hc
    rw [if_neg (fun h' => hs (hsc.mp h'))]
    by_cases h1 : high16 cr.points (k - 1) < c.toNat
    · -- above the last interval
      rw [if_pos (UInt32.lt_iff_toNat_lt.mpr (hhigh ▸ h1))]
      simp only [Option.isSome_none, Bool.false_eq_true, false_iff]
      intro hm
      obtain ⟨i, hi, hl, hu⟩ := (h.mem_iff _).mp hm
      have hle : high16 cr.points i ≤ high16 cr.points (k - 1) := ht.hi_le_hi (Nat.le_sub_one_of_lt hi) hk1
      rw [high16_eq h hk0 h16 hi] at hle
      have hlt := high16_lt cr.points (k - 1)
      split_ifs at hle with hmax
      · -- only the last interval is infinite, and then the check above matched
        exact hs ⟨by omega, by omega⟩
      · omega
    rw [if_neg (fun hlt => h1 (hhigh ▸ UInt32.lt_iff_toNat_lt.mp hlt))]
    -- what is left is below `0xffff`
    have hcf : c.toNat < 0xffff := by
      by_contra hge
      have := high16_lt cr.points (k - 1)
      exact hs ⟨by omega, by omega⟩
    rw [show (0 : UInt32) = UInt32.ofNat 0 from rfl,
      rangeLoop_eq_search (by omega) hlow hhighs (by omega) k 0 k (by omega) (by omega) (by omega),
      hcov hcf, ← search_eq_true_iff ht (Nat.le_refl k)]
    split_ifs with hs' <;> simp [hs']
  rw [Bool.eq_iff_iff, key]

end

end Range16

/-! ## The emitted instruction -/

/-- The point `re_emit_range` compares with `0xffff`, read from the points. -/
theorem emitHigh_eq {cr : CharRange} (h : cr.Canonical) (hk0 : 0 < (pairs cr.points).length) :
    (if cr.points.getD (cr.points.length - 1) 0 = UINT32_MAX then cr.points.getD (cr.points.length - 2) 0
      else cr.points.getD (cr.points.length - 1) 0) = emitHigh cr.points := by
  have hk1 : (pairs cr.points).length - 1 < (pairs cr.points).length := by omega
  have hlen := length_pairs cr.points
  have heven := h.even
  have hlast := getElem_pairs cr.points _ (two_mul_add_one_lt hk1) hk1
  have h1 : cr.points.length - 1 = 2 * ((pairs cr.points).length - 1) + 1 := by omega
  have h2 : cr.points.length - 2 = 2 * ((pairs cr.points).length - 1) := by omega
  unfold emitHigh
  rw [List.getD_eq_getElem _ _ hk1, hlast, h1, h2, List.getD_eq_getElem _ _ (by omega),
    List.getD_eq_getElem _ _ (by omega)]

theorem execCharOp_range (rest : List UInt8) (k : UInt32) (c : UInt32) :
    execCharOp (reEmitOpU16 REOP_range k ++ rest) c = execRange (reEmitOpU16 REOP_range k ++ rest) 1 c := by
  simp [execCharOp, reEmitOpU16, REOP_range, REOP_char, REOP_char32]

theorem execCharOp_range32 (rest : List UInt8) (k : UInt32) (c : UInt32) :
    execCharOp (reEmitOpU16 REOP_range32 k ++ rest) c = execRange32 (reEmitOpU16 REOP_range32 k ++ rest) 1 c := by
  simp [execCharOp, reEmitOpU16, REOP_range, REOP_range32, REOP_char, REOP_char32]

/-- `re_emit_range` on a canonical range of fewer than 65535 intervals emits
an instruction that matches a character below `UINT32_MAX` exactly when the
range holds it; an empty range gives `REOP_char32` of `-1`, which matches
nothing. -/
theorem reEmitRange_exec {cr : CharRange} (h : cr.Canonical) (hlen : cr.points.length / 2 < 65535)
    {c : UInt32} (hc : c.toNat < UINT32_MAX.toNat) :
    ∃ bc, reEmitRange cr = .ok bc ∧ (execCharOp bc c).isSome = cr.mem c.toNat := by
  have hpairs := length_pairs cr.points
  unfold reEmitRange
  rw [if_neg (by omega)]
  dsimp only
  by_cases h0 : cr.points.length / 2 = 0
  · -- no interval: `REOP_char32` of `-1`
    rw [if_pos h0]
    refine ⟨_, rfl, ?_⟩
    have hnil : cr.points = [] := List.eq_nil_of_length_eq_zero (by have := h.even; omega)
    have hget : getU32 (reEmitOpU32 REOP_char32 UINT32_MAX) 1 = UINT32_MAX :=
      @getU32_of_drop _ [] 1 _ (by simp [reEmitOpU32])
    have hne : UINT32_MAX ≠ c := fun heq => by rw [← heq] at hc; omega
    have hop : (reEmitOpU32 REOP_char32 UINT32_MAX).getD 0 0 = REOP_char32 := rfl
    unfold execCharOp execChar32
    rw [hop, if_neg (by decide), if_pos rfl, hget, if_pos hne]
    simp [CharRange.mem, hnil]
  rw [if_neg h0]
  have hk0 : 0 < (pairs cr.points).length := by omega
  rw [emitHigh_eq h hk0]
  by_cases h16 : emitHigh cr.points ≤ 0xffff
  · -- 16-bit intervals
    rw [if_pos h16]
    refine ⟨_, rfl, ?_⟩
    rw [UInt32.le_iff_toNat_le] at h16
    rw [execCharOp_range, ← hpairs]
    exact execRange_emit h hk0 h16 (by omega) hc
  · -- 32-bit intervals
    rw [if_neg h16]
    refine ⟨_, rfl, ?_⟩
    rw [execCharOp_range32, ← hpairs]
    exact execRange32_emit h hk0 (by omega) c

end Chaconne.Regexp
