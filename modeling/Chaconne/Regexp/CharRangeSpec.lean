import Chaconne.Regexp.CharRange

/-!
# Character ranges are sets of code points

`cr_compress` computes the compression of `CLib.PointSet` in place: its read
index runs ahead of its write index, so the points it has not read yet are
still the original ones (`compressLoop_spec`). `cr_op` is the parity merge:
every round takes the smallest point left and keeps the agreement
`PointSet.Agree` (`crOpLoop_spec`, from the one-step description
`crOpNext_spec`). So on sorted ranges of even length:

* `crOp_mem` — `cr_op` computes the union, the intersection or the symmetric
  difference, and `crOp_canonical` — its result is strictly increasing;
* `crInvert_mem` — `cr_invert` complements the set below `UINT32_MAX`;
* `crUnionInterval_mem` — `cr_union_interval(cr, c1, c2)` adds `[c1, c2]`.
-/

namespace Chaconne.Regexp

open CLib.PointSet

/-- The points as numbers. -/
abbrev nat (l : List UInt32) : List Nat := l.map UInt32.toNat

theorem drop_eq_getD_cons {l : List UInt32} {n : Nat} (h : n < l.length) :
    l.drop n = l.getD n 0 :: l.drop (n + 1) := by
  rw [List.getD_eq_getElem _ _ h]
  exact List.drop_eq_getElem_cons h

theorem take_succ_eq_getD {l : List UInt32} {n : Nat} (h : n < l.length) :
    l.take (n + 1) = l.take n ++ [l.getD n 0] := by
  rw [List.take_add_one, List.getElem?_eq_getElem h, List.getD_eq_getElem _ _ h]
  rfl

/-- Two points written one after the other at `k` and `k + 1`. -/
theorem take_set_set {l : List α} {k : Nat} (h : k + 1 < l.length) (x y : α) :
    ((l.set k x).set (k + 1) y).take (k + 2) = l.take k ++ [x, y] := by
  have hy : ((l.set k x).set (k + 1) y)[k + 1]? = some y := List.getElem?_set_self (by simp; omega)
  have hx : (l.set k x)[k]? = some x := List.getElem?_set_self (by omega)
  rw [List.take_add_one, hy, List.take_set_of_le (by omega), List.take_add_one, hx,
    List.take_set_of_le le_rfl]
  simp

theorem toNat_injective : Function.Injective UInt32.toNat := fun _ _ h => UInt32.toNat_inj.mp h

/-! ## `cr_compress` -/

/-- The inner loop of `cr_compress` is `absorb`: it stops at the first point
after the interval from `pt[j]` that does not touch it. -/
theorem compressJoin_spec (l : List UInt32) :
    ∀ (fuel j : Nat), j + 1 < l.length → l.length < j + 2 * fuel + 3 →
      j ≤ compressJoin l l.length fuel j ∧ compressJoin l l.length fuel j + 1 < l.length ∧
        absorb (l.getD (j + 1) 0) (l.drop (j + 2)) =
          (l.getD (compressJoin l l.length fuel j + 1) 0, l.drop (compressJoin l l.length fuel j + 2)) := by
  intro fuel
  induction fuel with
  | zero =>
    intro j hj hfuel
    refine ⟨le_rfl, hj, ?_⟩
    rw [compressJoin, absorb_of_short]
    intro c d r h
    have := congrArg List.length h
    simp only [List.length_drop, List.length_cons] at this
    omega
  | succ fuel ih =>
    intro j hj hfuel
    rw [compressJoin]
    split_ifs with hjoin
    · -- the next interval touches: join it and go on from it
      obtain ⟨hlen, heq⟩ := hjoin
      obtain ⟨hle, hlt, habs⟩ := ih (j + 2) (by omega) (by omega)
      refine ⟨by omega, hlt, ?_⟩
      rw [drop_eq_getD_cons (by omega), drop_eq_getD_cons (l := l) (n := j + 2 + 1) (by omega),
        absorb, if_pos heq, ← habs]
    · -- it does not: the interval ends here
      refine ⟨le_rfl, hj, ?_⟩
      by_cases hlen : j + 3 < l.length
      · have hne : l.getD (j + 1) 0 ≠ l.getD (j + 2) 0 := fun h => hjoin ⟨hlen, h⟩
        rw [drop_eq_getD_cons (by omega), drop_eq_getD_cons (l := l) (n := j + 2 + 1) (by omega),
          absorb, if_neg hne]
      · rw [absorb_of_short]
        intro c d r h
        have := congrArg List.length h
        simp only [List.length_drop, List.length_cons] at this
        omega

/-- The inner loop reads only from `j` on. -/
theorem compressJoin_congr {pt l : List UInt32} {len : Nat} (h : ∀ m, j ≤ m → pt.getD m 0 = l.getD m 0) :
    ∀ fuel, compressJoin pt len fuel j = compressJoin l len fuel j := by
  intro fuel
  induction fuel generalizing j with
  | zero => rfl
  | succ fuel ih =>
    rw [compressJoin, compressJoin, h (j + 1) (by omega), h (j + 2) (by omega)]
    split_ifs
    · exact ih fun m hm => h m (by omega)
    · rfl

/-- The loop of `cr_compress`: the points written so far, followed by the
compression of the points not read yet, are the compression of the original
points. -/
theorem compressLoop_spec (l : List UInt32) :
    ∀ (fuel : Nat) (pt : List UInt32) (i k : Nat), pt.length = l.length → k ≤ i →
      (∀ m, i ≤ m → pt.getD m 0 = l.getD m 0) → l.length ≤ i + fuel →
      pt.take k ++ compress (l.drop i) = compress l →
      (compressLoop l.length fuel pt i k).1.take (compressLoop l.length fuel pt i k).2 = compress l := by
  intro fuel
  induction fuel with
  | zero =>
    intro pt i k _ _ _ hfuel hinv
    rw [compressLoop]
    rwa [List.drop_eq_nil_of_le (by omega), compress_of_short (by simp), List.append_nil] at hinv
  | succ fuel ih =>
    intro pt i k hlen hki hsame hfuel hinv
    rw [compressLoop]
    have hgi := hsame i le_rfl
    have hgi1 := hsame (i + 1) (by omega)
    split_ifs with hi heq
    · -- an empty interval: skipped
      apply ih pt (i + 2) k hlen (by omega) (fun m hm => hsame m (by omega)) (by omega)
      rw [hgi, hgi1] at heq
      rw [drop_eq_getD_cons (by omega), drop_eq_getD_cons (l := l) (n := i + 1) (by omega),
        heq, compress.eq_1, if_pos rfl] at hinv
      exact hinv
    · -- the interval from `pt[i]`, joined with the ones touching it, written at `k`
      rw [hgi, hgi1] at heq
      dsimp only
      rw [compressJoin_congr (fun m hm => hsame m (by omega))]
      obtain ⟨hij, hj, habs⟩ := compressJoin_spec l l.length i (by omega) (by omega)
      set j := compressJoin l l.length l.length i
      have hk1 : k + 1 < pt.length := by omega
      -- `pt[j + 1]` is read after `pt[k]` is written, and `k < j + 1`
      have hread : (pt.set k (pt.getD i 0)).getD (j + 1) 0 = l.getD (j + 1) 0 := by
        rw [List.getD_eq_getElem?_getD, List.getElem?_set_ne (by omega), ← List.getD_eq_getElem?_getD,
          hsame (j + 1) (by omega)]
      -- `compress` takes the same interval from the points not read yet
      have hstep : compress (l.drop i) = l.getD i 0 :: l.getD (j + 1) 0 :: compress (l.drop (j + 2)) := by
        rw [drop_eq_getD_cons (n := i) (by omega), drop_eq_getD_cons (l := l) (n := i + 1) (by omega),
          compress.eq_1, if_neg heq, habs]
      have hfuel' : l.length ≤ j + 2 + fuel := by omega
      rw [hread]
      apply ih _ (j + 2) (k + 2) (by simp [hlen]) (by omega) _ hfuel'
      · -- the two points written
        rw [take_set_set hk1, hgi, List.append_assoc, ← hinv, hstep]
        rfl
      · -- what is not read yet is untouched
        intro m hm
        rw [List.getD_eq_getElem?_getD, List.getElem?_set_ne (by omega), List.getElem?_set_ne (by omega),
          ← List.getD_eq_getElem?_getD, hsame m (by omega)]
    · -- fewer than two points left
      have hshort : compress (l.drop i) = [] := by
        apply compress_of_short
        intro c d r h
        have := congrArg List.length h
        simp only [List.length_drop, List.length_cons] at this
        omega
      rwa [hshort, List.append_nil] at hinv

/-- `cr_compress` computes `compress`. -/
theorem crCompress_points (cr : CharRange) : (crCompress cr).points = compress cr.points := by
  unfold crCompress
  exact compressLoop_spec cr.points cr.points.length cr.points 0 0 rfl le_rfl (fun _ _ => rfl)
    (by omega) (by simp)

/-- On sorted points of even length `cr_compress` keeps the set. -/
theorem crCompress_mem {cr : CharRange} (h : PointsSorted cr.points) (c : Nat) :
    (crCompress cr).mem c = cr.mem c := by
  unfold CharRange.mem
  rw [crCompress_points, compress_map toNat_injective, mem_compress h.sorted (by simpa using h.even)]

/-- On sorted points of even length `cr_compress` gives the canonical form. -/
theorem crCompress_canonical {cr : CharRange} (h : PointsSorted cr.points) :
    (crCompress cr).Canonical := by
  constructor
  · rw [crCompress_points, compress_map toNat_injective]
    exact pairwise_compress h.sorted
  · rw [crCompress_points]
    exact length_compress_even _

theorem CharRange.Canonical.pointsSorted {cr : CharRange} (h : cr.Canonical) : PointsSorted cr.points :=
  ⟨h.strict.imp le_of_lt, h.even⟩

/-- Two canonical ranges with the same set are equal. -/
theorem CharRange.eq_of_mem_eq {cr cr' : CharRange} (h : cr.Canonical) (h' : cr'.Canonical)
    (hmem : ∀ c, cr.mem c = cr'.mem c) : cr = cr' := by
  have hnat : nat cr.points = nat cr'.points := CLib.PointSet.eq_of_mem_eq h.strict h'.strict hmem
  cases cr
  cases cr'
  congr
  exact List.map_injective_iff.mpr toNat_injective hnat

/-! ## `cr_op` -/

theorem CrOp.isIn_false_false (op : CrOp) : op.isIn false false = false := by
  cases op <;> rfl

/-- One round of `cr_op` takes the smallest point left: from `a`, from `b`, or
from both when they are equal. -/
theorem crOpNext_some {a b : List UInt32} {ai bi ai' bi' : Nat} {v : UInt32}
    (h : crOpNext a b ai bi = some (v, ai', bi')) :
    (ai' = ai ∨ ai < a.length ∧ ai' = ai + 1 ∧ a.getD ai 0 = v) ∧
      (bi' = bi ∨ bi < b.length ∧ bi' = bi + 1 ∧ b.getD bi 0 = v) ∧ ai + bi < ai' + bi' ∧
      (ai < a.length → v.toNat ≤ (a.getD ai 0).toNat) ∧
      (bi < b.length → v.toNat ≤ (b.getD bi 0).toNat) := by
  unfold crOpNext at h
  split_ifs at h with hab hlt heq ha hb <;>
    simp only [Option.some.injEq, Prod.mk.injEq] at h <;>
    obtain ⟨rfl, rfl, rfl⟩ := h
  · -- `a` is ahead
    have := UInt32.lt_iff_toNat_lt.mp hlt
    exact ⟨.inr ⟨hab.1, rfl, rfl⟩, .inl rfl, by omega, fun _ => le_rfl, fun _ => this.le⟩
  · -- the same point in both
    exact ⟨.inr ⟨hab.1, rfl, rfl⟩, .inr ⟨hab.2, rfl, heq.symm⟩, by omega, fun _ => le_rfl,
      fun _ => heq ▸ le_rfl⟩
  · -- `b` is ahead
    have hne : (a.getD ai 0).toNat ≠ (b.getD bi 0).toNat := fun h => heq (UInt32.toNat_inj.mp h)
    have := UInt32.lt_iff_toNat_lt.not.mp hlt
    exact ⟨.inl rfl, .inr ⟨hab.2, rfl, rfl⟩, by omega, fun _ => by omega, fun _ => le_rfl⟩
  · -- `b` is used up
    exact ⟨.inr ⟨ha, rfl, rfl⟩, .inl rfl, by omega, fun _ => le_rfl, fun hb => absurd ⟨ha, hb⟩ hab⟩
  · -- `a` is used up
    exact ⟨.inl rfl, .inr ⟨hb, rfl, rfl⟩, by omega, fun ha' => absurd ha' ha, fun _ => le_rfl⟩

theorem crOpNext_none {a b : List UInt32} {ai bi : Nat} (h : crOpNext a b ai bi = none) :
    a.length ≤ ai ∧ b.length ≤ bi := by
  unfold crOpNext at h
  split_ifs at h with hab hlt heq ha hb
  omega

/-- The loop invariant of `cr_op`: the points written hold what `op` makes of
the points taken so far, in order, and nothing written or taken is above a
point still to take. -/
structure OpInv (op : CrOp) (a b : List UInt32) (ai bi : Nat) (cr : CharRange) : Prop where
  ai_le : ai ≤ a.length
  bi_le : bi ≤ b.length
  agree : Agree op.isIn (nat cr.points) (nat (a.take ai)) (nat (b.take bi))
  sorted : (nat cr.points).Pairwise (· ≤ ·)
  le_rest : ∀ x ∈ nat cr.points ++ nat (a.take ai) ++ nat (b.take bi),
    ∀ y ∈ nat (a.drop ai) ++ nat (b.drop bi), x ≤ y

theorem opInv_init (op : CrOp) (a b : List UInt32) : OpInv op a b 0 0 crInit :=
  ⟨Nat.zero_le _, Nat.zero_le _, agree_nil op.isIn_false_false, List.Pairwise.nil, by simp [crInit]⟩

/-- The first point left of sorted points is below all the others. -/
theorem getD_le_of_mem_drop {l : List UInt32} (hs : (nat l).Pairwise (· ≤ ·)) {i y : Nat}
    (hy : y ∈ nat (l.drop i)) : i < l.length ∧ (l.getD i 0).toNat ≤ y := by
  have hi : i < l.length := by
    by_contra hi
    simp [List.drop_eq_nil_of_le (Nat.le_of_not_lt hi)] at hy
  refine ⟨hi, ?_⟩
  have hsd : (nat (l.drop i)).Pairwise (· ≤ ·) := hs.sublist ((List.drop_sublist i l).map _)
  rw [drop_eq_getD_cons hi] at hy hsd
  simp only [nat, List.map_cons] at hy hsd
  rcases List.mem_cons.mp hy with rfl | hy
  · exact le_rfl
  · exact List.rel_of_pairwise_cons hsd hy

theorem getD_mem_drop {l : List UInt32} {i : Nat} (h : i < l.length) :
    (l.getD i 0).toNat ∈ nat (l.drop i) := by
  rw [drop_eq_getD_cons h]
  exact List.mem_cons_self

theorem mem_or_eq_of_snoc {l l' : List Nat} {v x : Nat} (h : l' = l ∨ l' = l ++ [v]) (hx : x ∈ l') :
    x ∈ l ∨ x = v := by
  rcases h with rfl | rfl
  · exact .inl hx
  · simpa using hx

theorem ite_eq_or_snoc (p : Prop) [Decidable p] (l : List Nat) (v : Nat) :
    (if p then l else l ++ [v]) = l ∨ (if p then l else l ++ [v]) = l ++ [v] := by
  split_ifs
  · exact .inl rfl
  · exact .inr rfl

/-- The points taken from one side after a round: the same, or one more. -/
theorem take_after_round {l : List UInt32} {i i' : Nat} {v : UInt32}
    (h : i' = i ∨ i < l.length ∧ i' = i + 1 ∧ l.getD i 0 = v) :
    nat (l.take i') = nat (l.take i) ∨ nat (l.take i') = nat (l.take i) ++ [v.toNat] := by
  rcases h with rfl | ⟨hi, rfl, rfl⟩
  · exact .inl rfl
  · right
    rw [take_succ_eq_getD hi]
    simp only [nat, List.map_append, List.map_singleton]

/-- The point a round takes, as `agree_step` adds it: when the status `op`
gives differs from the parity of what is written. -/
theorem nat_points_round (op : CrOp) (cr : CharRange) {a b : List UInt32} {ai' bi' : Nat} (v : UInt32)
    (ha : ai' ≤ a.length) (hb : bi' ≤ b.length) :
    nat (if (op.isIn (ai' % 2 == 1) (bi' % 2 == 1) != (cr.points.length % 2 == 1)) = true
      then crAddPoint cr v else cr).points =
      if op.isIn (odd (nat (a.take ai'))) (odd (nat (b.take bi'))) = odd (nat cr.points)
      then nat cr.points else nat cr.points ++ [v.toNat] := by
  have hoa : odd (nat (a.take ai')) = (ai' % 2 == 1) := by
    simp [odd, List.length_take, Nat.min_eq_left ha]
  have hob : odd (nat (b.take bi')) = (bi' % 2 == 1) := by
    simp [odd, List.length_take, Nat.min_eq_left hb]
  have hoc : odd (nat cr.points) = (cr.points.length % 2 == 1) := by simp [odd]
  rw [hoa, hob, hoc]
  by_cases hc : op.isIn (ai' % 2 == 1) (bi' % 2 == 1) = (cr.points.length % 2 == 1)
  · simp [hc]
  · simp [hc, crAddPoint]

/-- One round of `cr_op` keeps the invariant. -/
theorem opInv_step {op : CrOp} {a b : List UInt32} {ai bi ai' bi' : Nat} {v : UInt32} {cr : CharRange}
    (hsa : (nat a).Pairwise (· ≤ ·)) (hsb : (nat b).Pairwise (· ≤ ·)) (hinv : OpInv op a b ai bi cr)
    (h : crOpNext a b ai bi = some (v, ai', bi')) :
    OpInv op a b ai' bi'
      (if (op.isIn (ai' % 2 == 1) (bi' % 2 == 1) != (cr.points.length % 2 == 1)) = true
        then crAddPoint cr v else cr) := by
  obtain ⟨ha', hb', hprog, hva, hvb⟩ := crOpNext_some h
  have hai' : ai' ≤ a.length := by
    have := hinv.ai_le
    rcases ha' with rfl | ⟨hlt, rfl, -⟩ <;> omega
  have hbi' : bi' ≤ b.length := by
    have := hinv.bi_le
    rcases hb' with rfl | ⟨hlt, rfl, -⟩ <;> omega
  -- `v` is below every point left, and one of them
  have hv_le : ∀ y ∈ nat (a.drop ai) ++ nat (b.drop bi), v.toNat ≤ y := by
    intro y hy
    rcases List.mem_append.mp hy with hy | hy
    · obtain ⟨hi, hle⟩ := getD_le_of_mem_drop hsa hy
      exact (hva hi).trans hle
    · obtain ⟨hi, hle⟩ := getD_le_of_mem_drop hsb hy
      exact (hvb hi).trans hle
  have hv_mem : v.toNat ∈ nat (a.drop ai) ++ nat (b.drop bi) := by
    rcases ha' with rfl | ⟨hlt, -, rfl⟩
    · rcases hb' with rfl | ⟨hlt, -, rfl⟩
      · omega
      · exact List.mem_append_right _ (getD_mem_drop hlt)
    · exact List.mem_append_left _ (getD_mem_drop hlt)
  -- what is left after the round was left before it
  have hrest : ∀ y ∈ nat (a.drop ai') ++ nat (b.drop bi'), y ∈ nat (a.drop ai) ++ nat (b.drop bi) := by
    have hsa' := ((List.drop_sublist_drop_left a (by omega : ai ≤ ai')).map UInt32.toNat).subset
    have hsb' := ((List.drop_sublist_drop_left b (by omega : bi ≤ bi')).map UInt32.toNat).subset
    intro y hy
    rcases List.mem_append.mp hy with hy | hy
    · exact List.mem_append_left _ (hsa' hy)
    · exact List.mem_append_right _ (hsb' hy)
  have hA := take_after_round ha'
  have hB := take_after_round hb'
  -- the points written or taken so far are below `v`
  have hle_v : ∀ x ∈ nat cr.points ++ nat (a.take ai) ++ nat (b.take bi), x ≤ v.toNat :=
    fun x hx => hinv.le_rest x hx _ hv_mem
  have hdone : ∀ x ∈ nat cr.points, x ≤ v.toNat :=
    fun x hx => hle_v x (List.mem_append_left _ (List.mem_append_left _ hx))
  have hpts := nat_points_round op cr v hai' hbi'
  refine ⟨hai', hbi', ?agree, ?sorted, ?le_rest⟩
  case agree =>
    rw [hpts]
    exact agree_step hinv.agree hdone
      (fun x hx => hle_v x (List.mem_append_left _ (List.mem_append_right _ hx)))
      (fun x hx => hle_v x (List.mem_append_right _ hx)) hA hB
  case sorted =>
    rw [hpts]
    split_ifs
    · exact hinv.sorted
    · exact List.pairwise_append.mpr ⟨hinv.sorted, List.pairwise_singleton _ _,
        fun x hx y hy => (List.mem_singleton.mp hy) ▸ hdone x hx⟩
  case le_rest =>
    rw [hpts]
    intro x hx y hy
    -- a point written or taken now was written or taken before, or is `v`
    have hold : x ∈ nat cr.points ++ nat (a.take ai) ++ nat (b.take bi) ∨ x = v.toNat := by
      rcases List.mem_append.mp hx with hx | hx
      · rcases List.mem_append.mp hx with hx | hx
        · exact (mem_or_eq_of_snoc (ite_eq_or_snoc _ _ _) hx).imp_left
            fun hx => List.mem_append_left _ (List.mem_append_left _ hx)
        · exact (mem_or_eq_of_snoc hA hx).imp_left
            fun hx => List.mem_append_left _ (List.mem_append_right _ hx)
      · exact (mem_or_eq_of_snoc hB hx).imp_left (List.mem_append_right _)
    rcases hold with hx | rfl
    · exact hinv.le_rest x hx y (hrest y hy)
    · exact hv_le y (hrest y hy)

/-- The whole loop of `cr_op`: from the invariant with enough rounds left, it
ends with both point arrays taken. -/
theorem crOpLoop_spec {op : CrOp} {a b : List UInt32} (hsa : (nat a).Pairwise (· ≤ ·))
    (hsb : (nat b).Pairwise (· ≤ ·)) :
    ∀ (fuel ai bi : Nat) (cr : CharRange), OpInv op a b ai bi cr →
      a.length - ai + (b.length - bi) ≤ fuel →
      OpInv op a b a.length b.length (crOpLoop op a b fuel ai bi cr) := by
  intro fuel
  induction fuel with
  | zero =>
    intro ai bi cr hinv hfuel
    have ha : ai = a.length := by have := hinv.ai_le; omega
    have hb : bi = b.length := by have := hinv.bi_le; omega
    subst ha hb
    exact hinv
  | succ fuel ih =>
    intro ai bi cr hinv hfuel
    rw [crOpLoop]
    cases hnext : crOpNext a b ai bi with
    | none =>
      obtain ⟨ha, hb⟩ := crOpNext_none hnext
      have ha : ai = a.length := le_antisymm hinv.ai_le ha
      have hb : bi = b.length := le_antisymm hinv.bi_le hb
      subst ha hb
      exact hinv
    | some r =>
      obtain ⟨v, ai', bi'⟩ := r
      have hstep := opInv_step hsa hsb hinv hnext
      have hprog := (crOpNext_some hnext).2.2.1
      exact ih ai' bi' _ hstep (by have := hstep.ai_le; have := hstep.bi_le; omega)

/-- What the loop of `cr_op` writes on an empty range: the points of the set
that `op` makes of the two, sorted, of even length. -/
theorem crOpLoop_agree {op : CrOp} {a b : List UInt32} (ha : PointsSorted a) (hb : PointsSorted b) :
    Agree op.isIn (nat (crOpLoop op a b (a.length + b.length) 0 0 crInit).points) (nat a) (nat b) ∧
      PointsSorted (crOpLoop op a b (a.length + b.length) 0 0 crInit).points := by
  have hend := crOpLoop_spec ha.sorted hb.sorted (a.length + b.length) 0 0 crInit (opInv_init op a b)
    (by omega)
  have hag := hend.agree
  rw [List.take_length, List.take_length] at hag
  refine ⟨hag, hend.sorted, ?_⟩
  have hodd := hag.odd
  have hea : odd (nat a) = false := by simp [odd, ha.even]
  have heb : odd (nat b) = false := by simp [odd, hb.even]
  rw [hea, heb, op.isIn_false_false] at hodd
  simpa [odd] using hodd

theorem crOp_mem {a b : List UInt32} (ha : PointsSorted a) (hb : PointsSorted b) (op : CrOp) (c : Nat) :
    (crOp crInit a b op).mem c = op.isIn ((CharRange.mk a).mem c) ((CharRange.mk b).mem c) := by
  obtain ⟨hag, hs⟩ := @crOpLoop_agree op a b ha hb
  unfold crOp
  rw [crCompress_mem hs]
  exact hag.mem c

theorem crOp_canonical {a b : List UInt32} (ha : PointsSorted a) (hb : PointsSorted b) (op : CrOp) :
    (crOp crInit a b op).Canonical :=
  crCompress_canonical (@crOpLoop_agree op a b ha hb).2

/-- `cr_op` on sorted point arrays of even length gives the canonical range of
the union, the intersection or the symmetric difference of their sets. -/
theorem crOp_sets {a b : List UInt32} (ha : PointsSorted a) (hb : PointsSorted b) (op : CrOp) :
    (crOp crInit a b op).Canonical ∧
      ∀ c, (crOp crInit a b op).mem c = op.isIn ((CharRange.mk a).mem c) ((CharRange.mk b).mem c) :=
  ⟨crOp_canonical ha hb op, crOp_mem ha hb op⟩

theorem crOp_sets_union_ac_bd : PointsSorted [0x61, 0x63] ∧ PointsSorted [0x62, 0x64] ∧
    (crOp crInit [0x61, 0x63] [0x62, 0x64] .union).Canonical ∧
      ∀ c, (crOp crInit [0x61, 0x63] [0x62, 0x64] .union).mem c =
        CrOp.union.isIn ((CharRange.mk [0x61, 0x63]).mem c) ((CharRange.mk [0x62, 0x64]).mem c) :=
  have ha : PointsSorted [0x61, 0x63] := ⟨by decide, by decide⟩
  have hb : PointsSorted [0x62, 0x64] := ⟨by decide, by decide⟩
  ⟨ha, hb, crOp_sets ha hb .union⟩

/-! ## `cr_union1`, `cr_union_interval` -/

theorem crUnion1_mem {cr : CharRange} {b : List UInt32} (h : PointsSorted cr.points) (hb : PointsSorted b)
    (c : Nat) : (crUnion1 cr b).mem c = (cr.mem c || (CharRange.mk b).mem c) :=
  crOp_mem h hb .union c

/-- The two points `cr_union_interval` hands to `cr_union1`. -/
theorem interval_pointsSorted {c1 c2 : UInt32} (h12 : c1 ≤ c2) (h2 : c2 < UINT32_MAX) :
    PointsSorted [c1, c2 + 1] ∧ (c2 + 1).toNat = c2.toNat + 1 := by
  have h2' := UInt32.lt_iff_toNat_lt.mp h2
  have h12' := UInt32.le_iff_toNat_le.mp h12
  have hadd : (c2 + 1).toNat = c2.toNat + 1 := by
    rw [UInt32.toNat_add]
    simp only [UINT32_MAX, UInt32.reduceToNat] at h2'
    simp only [UInt32.reduceToNat]
    omega
  refine ⟨⟨?_, by simp⟩, hadd⟩
  have : c1.toNat ≤ c2.toNat + 1 := by omega
  simpa [hadd] using this

section UnionInterval

variable {cr : CharRange} {c1 c2 : UInt32} (h : PointsSorted cr.points) (h12 : c1 ≤ c2)
  (h2 : c2 < UINT32_MAX)
include h h12 h2

theorem crUnionInterval_canonical : (crUnionInterval cr c1 c2).Canonical :=
  crOp_canonical h (interval_pointsSorted h12 h2).1 .union

theorem crUnionInterval_mem (c : Nat) :
    (crUnionInterval cr c1 c2).mem c = (cr.mem c || decide (c1.toNat ≤ c ∧ c ≤ c2.toNat)) := by
  obtain ⟨hs, hadd⟩ := interval_pointsSorted h12 h2
  unfold crUnionInterval
  rw [crUnion1_mem h hs]
  congr 1
  have hle : c1.toNat ≤ (c2 + 1).toNat := by
    have := UInt32.le_iff_toNat_le.mp h12
    omega
  simp only [CharRange.mem, List.map_cons, List.map_nil]
  rw [mem_pair hle, hadd]
  simp only [Nat.lt_succ_iff]

/-- `cr_union_interval(cr, c1, c2)` adds the code points from `c1` to `c2`, and
leaves the range canonical. -/
theorem crUnionInterval_sets :
    (crUnionInterval cr c1 c2).Canonical ∧
      ∀ c, (crUnionInterval cr c1 c2).mem c = (cr.mem c || decide (c1.toNat ≤ c ∧ c ≤ c2.toNat)) :=
  ⟨crUnionInterval_canonical h h12 h2, crUnionInterval_mem h h12 h2⟩

end UnionInterval

theorem crUnionInterval_sets_a_z : PointsSorted crInit.points ∧ (0x61 : UInt32) ≤ 0x7a ∧
    (0x7a : UInt32) < UINT32_MAX ∧ (crUnionInterval crInit 0x61 0x7a).Canonical ∧
      ∀ c, (crUnionInterval crInit 0x61 0x7a).mem c = (crInit.mem c || decide (0x61 ≤ c ∧ c ≤ 0x7a)) :=
  have h : PointsSorted crInit.points := ⟨by decide, by decide⟩
  ⟨h, by decide, by decide, crUnionInterval_sets h (by decide) (by decide)⟩

/-! ## `cr_invert` -/

/-- No range holds `UINT32_MAX` or anything above it: every point counts. -/
theorem CharRange.mem_of_max_le {cr : CharRange} (h : cr.points.length % 2 = 0) {c : Nat}
    (hc : UINT32_MAX.toNat ≤ c) : cr.mem c = false := by
  unfold CharRange.mem
  have hle : ∀ x ∈ nat cr.points, x ≤ c := by
    intro x hx
    obtain ⟨y, -, rfl⟩ := List.mem_map.mp hx
    have := UInt32.toNat_lt y
    simp only [UINT32_MAX, UInt32.reduceToNat] at hc
    omega
  rw [mem_of_le hle]
  simp [odd, h]

/-- The points `cr_invert` compresses: `0` in front and `UINT32_MAX` behind. -/
theorem invert_pointsSorted {cr : CharRange} (h : PointsSorted cr.points) :
    PointsSorted (0 :: cr.points ++ [UINT32_MAX]) := by
  constructor
  · have hmax : ∀ x ∈ nat cr.points, x ≤ UINT32_MAX.toNat := fun x hx => by
      obtain ⟨z, -, rfl⟩ := List.mem_map.mp hx
      have := UInt32.toNat_lt z
      simp only [UINT32_MAX, UInt32.reduceToNat]
      omega
    have hmap : (0 :: cr.points ++ [UINT32_MAX]).map UInt32.toNat =
        0 :: (nat cr.points ++ [UINT32_MAX.toNat]) := by simp
    rw [hmap]
    refine List.pairwise_cons.mpr ⟨fun _ _ => Nat.zero_le _,
      List.pairwise_append.mpr ⟨h.sorted, List.pairwise_singleton _ _, ?_⟩⟩
    intro x hx y hy
    rw [List.mem_singleton.mp hy]
    exact hmax x hx
  · have := h.even
    simp only [List.cons_append, List.length_cons, List.length_append, List.length_nil]
    omega

theorem crInvert_mem {cr : CharRange} (h : PointsSorted cr.points) {c : Nat} (hc : c < UINT32_MAX.toNat) :
    (crInvert cr).mem c = !cr.mem c := by
  unfold crInvert
  rw [crCompress_mem (invert_pointsSorted h)]
  unfold CharRange.mem
  simp only [List.map_cons, List.map_append, UInt32.toNat_zero]
  exact mem_bracket _ (Nat.zero_le c) hc

/-- `cr_invert` gives the canonical range of the complement below
`UINT32_MAX`. -/
theorem crInvert_sets {cr : CharRange} (h : PointsSorted cr.points) :
    (crInvert cr).Canonical ∧ ∀ c < UINT32_MAX.toNat, (crInvert cr).mem c = !cr.mem c :=
  ⟨crCompress_canonical (invert_pointsSorted h), fun _ hc => crInvert_mem h hc⟩

theorem crInvert_sets_a_z : PointsSorted [0x61, 0x7b] ∧ (crInvert ⟨[0x61, 0x7b]⟩).Canonical ∧
    ∀ c < UINT32_MAX.toNat, (crInvert ⟨[0x61, 0x7b]⟩).mem c = !(CharRange.mk [0x61, 0x7b]).mem c :=
  have h : PointsSorted [0x61, 0x7b] := ⟨by decide, by decide⟩
  ⟨h, crInvert_sets h⟩

/-- Inverting twice gives back a canonical range. -/
theorem crInvert_crInvert {cr : CharRange} (h : cr.Canonical) : crInvert (crInvert cr) = cr := by
  have hinv : (crInvert cr).Canonical := crCompress_canonical (invert_pointsSorted h.pointsSorted)
  have hinv2 : (crInvert (crInvert cr)).Canonical :=
    crCompress_canonical (invert_pointsSorted hinv.pointsSorted)
  apply CharRange.eq_of_mem_eq hinv2 h
  intro c
  by_cases hc : c < UINT32_MAX.toNat
  · rw [crInvert_mem hinv.pointsSorted hc, crInvert_mem h.pointsSorted hc, Bool.not_not]
  · -- at and above `UINT32_MAX` neither holds anything
    have hc : UINT32_MAX.toNat ≤ c := Nat.le_of_not_lt hc
    rw [CharRange.mem_of_max_le hinv2.even hc, CharRange.mem_of_max_le h.even hc]

theorem crInvert_crInvert_a_z : CharRange.Canonical ⟨[0x61, 0x7b]⟩ ∧
    crInvert (crInvert ⟨[0x61, 0x7b]⟩) = ⟨[0x61, 0x7b]⟩ :=
  have h : CharRange.Canonical ⟨[0x61, 0x7b]⟩ := ⟨by decide, by decide⟩
  ⟨h, crInvert_crInvert h⟩

/-- `cr_compress` computes the one canonical range of the set of sorted points:
it equals a canonical range exactly when the two hold the same code points. -/
theorem crCompress_eq_iff {cr cr' : CharRange} (h : PointsSorted cr.points) (h' : cr'.Canonical) :
    crCompress cr = cr' ↔ ∀ c, cr.mem c = cr'.mem c := by
  constructor
  · rintro rfl c
    exact (crCompress_mem h c).symm
  · intro hmem
    exact CharRange.eq_of_mem_eq (crCompress_canonical h) h' fun c => (crCompress_mem h c).trans (hmem c)

theorem crCompress_eq_iff_touching : PointsSorted [0x61, 0x62, 0x62, 0x63] ∧
    CharRange.Canonical ⟨[0x61, 0x63]⟩ ∧
    (crCompress ⟨[0x61, 0x62, 0x62, 0x63]⟩ = ⟨[0x61, 0x63]⟩ ↔
      ∀ c, (CharRange.mk [0x61, 0x62, 0x62, 0x63]).mem c = (CharRange.mk [0x61, 0x63]).mem c) :=
  have h : PointsSorted [0x61, 0x62, 0x62, 0x63] := ⟨by decide, by decide⟩
  have h' : CharRange.Canonical ⟨[0x61, 0x63]⟩ := ⟨by decide, by decide⟩
  ⟨h, h', crCompress_eq_iff h h'⟩

/-! ## Where the points of a canonical range lie -/

section Points

variable {cr : CharRange}

/-- A canonical range changes at each of its points, so none lies strictly
inside a stretch where membership does not change. -/
theorem CharRange.Canonical.point_not_inside (h : cr.Canonical) {lo hi : Nat}
    (hconst : ∀ c, lo ≤ c → c < hi → cr.mem c = cr.mem lo) {x : UInt32} (hx : x ∈ cr.points) :
    x.toNat ≤ lo ∨ hi ≤ x.toNat := by
  by_contra hin
  simp only [not_or, not_le] at hin
  have hne := mem_ne_of_mem h.strict (List.mem_map_of_mem hx) (y := x.toNat - 1) (by omega)
    (fun _ _ => by omega)
  apply hne
  unfold CharRange.mem at hconst
  rw [hconst (x.toNat - 1) (by omega) (by omega), hconst x.toNat (by omega) hin.2]

/-- A canonical range whose membership does not change from `0x10000` up to
`UINT32_MAX` has its points up to `0x10000` and at `UINT32_MAX`: `0x10002` of
them at most. -/
theorem CharRange.Canonical.length_le (h : cr.Canonical)
    (hconst : ∀ c, 0x10000 ≤ c → c < UINT32_MAX.toNat → cr.mem c = cr.mem 0x10000) :
    cr.points.length ≤ 0x10002 := by
  have hsub : nat cr.points ⊆ List.range 0x10001 ++ [UINT32_MAX.toNat] := by
    intro x hx
    obtain ⟨y, hy, rfl⟩ := List.mem_map.mp hx
    have hy32 := y.toNat_lt
    rcases h.point_not_inside hconst hy with h1 | h1
    · simp only [List.mem_append, List.mem_range]
      exact Or.inl (by omega)
    · simp only [UINT32_MAX, UInt32.reduceToNat] at h1
      simp only [List.mem_append, List.mem_singleton, UINT32_MAX, UInt32.reduceToNat]
      exact Or.inr (by omega)
  have hlen := (h.strict.nodup.subperm hsub).length_le
  simpa using hlen

end Points

end Chaconne.Regexp
