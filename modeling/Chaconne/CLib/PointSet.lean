import Mathlib

/-!
# Sets given by their boundary points

A sorted list of points `p₀ ≤ p₁ ≤ …` stands for the union of the half-open
intervals `[p₀, p₁) ∪ [p₂, p₃) ∪ …`: a value `c` is in the set when an odd
number of the points are at or below `c` (`mem`). Empty intervals
(`pᵢ = pᵢ₊₁`) and touching ones (`pᵢ₊₁ = pᵢ₊₂`) are allowed; a strictly
increasing list has neither, and it is the only list of its set
(`eq_of_mem_eq`).

* `agree_step` — merging two lists of points in increasing order and keeping a
  point exactly when it changes the membership `op` combines computes the
  combined set (the parity merge);
* `compress` — dropping the empty intervals and joining the touching ones keeps
  the set (`mem_compress`) and leaves a strictly increasing list
  (`pairwise_compress`);
* `mem_bracket` — a point below every value of interest and one above them
  complement the set;
* `mem_iff_pairs` — on a strictly increasing list, membership is lying in one
  of the intervals.
-/

namespace CLib

namespace PointSet

variable {α : Type*} [LinearOrder α]

/-- The number of points at or below `c`. -/
def below (l : List α) (c : α) : Nat := l.countP fun x => decide (x ≤ c)

/-- `c` is in the set: an odd number of the points are at or below it. -/
def mem (l : List α) (c : α) : Bool := below l c % 2 == 1

/-- The parity of a length, as code that counts points reads it from an index. -/
def odd (l : List α) : Bool := l.length % 2 == 1

@[simp] theorem below_nil (c : α) : below [] c = 0 := rfl

theorem below_append (l r : List α) (c : α) : below (l ++ r) c = below l c + below r c :=
  List.countP_append

theorem below_cons (x : α) (l : List α) (c : α) :
    below (x :: l) c = below l c + if x ≤ c then 1 else 0 := by
  simp [below, List.countP_cons]

/-- Points above `c` do not count. -/
theorem below_of_lt {l : List α} {c : α} (h : ∀ x ∈ l, c < x) : below l c = 0 :=
  List.countP_eq_zero.mpr fun x hx => by simpa using h x hx

/-- Every point counts for a value at or above all of them. -/
theorem below_of_le {l : List α} {c : α} (h : ∀ x ∈ l, x ≤ c) : below l c = l.length :=
  List.countP_eq_length.mpr fun x hx => by simpa using h x hx

@[simp] theorem mem_nil (c : α) : mem [] c = false := rfl

theorem mem_append_of_lt {l r : List α} {c : α} (h : ∀ x ∈ r, c < x) :
    mem (l ++ r) c = mem l c := by
  simp [mem, below_append, below_of_lt h]

theorem mem_of_le {l : List α} {c : α} (h : ∀ x ∈ l, x ≤ c) : mem l c = odd l := by
  simp [mem, odd, below_of_le h]

theorem mem_eq_of_mod {l r : List α} {c d : α} (h : below l c % 2 = below r d % 2) :
    mem l c = mem r d := by
  simp only [mem, h]

theorem mod_eq_of_mem_eq {l r : List α} {c d : α} (h : mem l c = mem r d) :
    below l c % 2 = below r d % 2 := by
  simp only [mem] at h
  rcases Nat.mod_two_eq_zero_or_one (below l c) with h1 | h1 <;>
    rcases Nat.mod_two_eq_zero_or_one (below r d) with h2 | h2 <;> simp_all

/-- Two equal points count together or not at all. -/
theorem mem_cons_cons_self (x : α) (l : List α) (c : α) : mem (x :: x :: l) c = mem l c := by
  apply mem_eq_of_mod
  simp only [below_cons]
  split_ifs <;> omega

/-- Membership after a point depends only on the membership of what follows. -/
theorem mem_cons_congr {l r : List α} (h : ∀ c, mem l c = mem r c) (x : α) (c : α) :
    mem (x :: l) c = mem (x :: r) c := by
  have hc := mod_eq_of_mem_eq (h c)
  apply mem_eq_of_mod
  simp only [below_cons]
  split_ifs <;> omega

/-! ## The parity merge -/

/-- `out` holds the set that `op` combines from the sets of `a` and `b`, and
its parity is the one `op` gives. -/
structure Agree (op : Bool → Bool → Bool) (out a b : List α) : Prop where
  mem : ∀ c, mem out c = op (mem a c) (mem b c)
  odd : odd out = op (odd a) (odd b)

theorem agree_nil {op : Bool → Bool → Bool} (hop : op false false = false) :
    Agree op ([] : List α) [] [] :=
  ⟨fun c => by simp [hop], by simp [odd, hop]⟩

/-- Taking the next point `v` from `a`, from `b` or from both, and adding it
to `out` exactly when the parities `op` gives and `out` has differ, keeps the
agreement. -/
theorem agree_step {op : Bool → Bool → Bool} {out a b a' b' : List α} {v : α}
    (h : Agree op out a b) (hout : ∀ x ∈ out, x ≤ v) (ha : ∀ x ∈ a, x ≤ v)
    (hb : ∀ x ∈ b, x ≤ v) (ha' : a' = a ∨ a' = a ++ [v]) (hb' : b' = b ∨ b' = b ++ [v]) :
    Agree op (if op (odd a') (odd b') = odd out then out else out ++ [v]) a' b' := by
  -- the parity of the new list is the one `op` gives
  have hodd : odd (if op (odd a') (odd b') = odd out then out else out ++ [v]) =
      op (odd a') (odd b') := by
    split_ifs with heq
    · exact heq.symm
    · simp only [odd, List.length_append, List.length_singleton] at heq ⊢
      revert heq
      cases op (a'.length % 2 == 1) (b'.length % 2 == 1) <;> simp <;> omega
  refine ⟨fun c => ?_, hodd⟩
  by_cases hc : v ≤ c
  · -- every point so far is at or below `c`
    have hle : ∀ {l l' : List α}, (∀ x ∈ l, x ≤ v) → (l' = l ∨ l' = l ++ [v]) →
        ∀ x ∈ l', x ≤ c := by
      intro l l' hl hl' x hx
      rcases hl' with rfl | rfl
      · exact (hl x hx).trans hc
      · rcases List.mem_append.mp hx with hx | hx
        · exact (hl x hx).trans hc
        · rw [List.mem_singleton.mp hx]
          exact hc
    have hout' : ∀ x ∈ (if op (odd a') (odd b') = odd out then out else out ++ [v]), x ≤ c :=
      hle hout (by split_ifs <;> simp)
    rw [mem_of_le hout', mem_of_le (hle ha ha'), mem_of_le (hle hb hb'), hodd]
  · -- `v` is above `c`: nothing new counts
    have hv : ∀ x ∈ [v], c < x := fun x hx => by
      rw [List.mem_singleton.mp hx]
      exact lt_of_not_ge hc
    have hsame : ∀ {l l' : List α}, (l' = l ∨ l' = l ++ [v]) → mem l' c = mem l c := by
      intro l l' hl'
      rcases hl' with rfl | rfl
      · rfl
      · exact mem_append_of_lt hv
    rw [hsame ha', hsame hb', ← h.mem c]
    split_ifs
    · rfl
    · exact mem_append_of_lt hv

/-! ## Compression

Dropping the empty intervals and joining the touching ones only compares
points for equality. -/

section Compress

variable {β : Type*} [DecidableEq β]

/-- The end of an interval that ends at `e`, once the intervals starting where
it ends are joined to it, and the points after them. -/
def absorb (e : β) : List β → β × List β
  | c :: d :: r => if e = c then absorb d r else (e, c :: d :: r)
  | r => (e, r)

/-- Fewer than two points: nothing to join. -/
theorem absorb_of_short {e : β} {r : List β} (hr : ∀ c d r', r = c :: d :: r' → False) :
    absorb e r = (e, r) := by
  match r, hr with
  | [], _ => rfl
  | [_], _ => rfl
  | _ :: _ :: _, hr => exact absurd rfl (hr _ _ _)

theorem length_absorb_le (e : β) (l : List β) : (absorb e l).2.length ≤ l.length := by
  induction e, l using absorb.induct with
  | case1 c d r ih =>
    rw [absorb, if_pos rfl]
    simp only [List.length_cons] at ih ⊢
    omega
  | case2 e c d r hne => rw [absorb, if_neg hne]
  | case3 e r hr => rw [absorb_of_short hr]

/-- Drop the empty intervals and join the touching ones. -/
def compress : List β → List β
  | a :: b :: r =>
    if a = b then compress r
    else a :: (absorb b r).1 :: compress (absorb b r).2
  | _ => []
termination_by l => l.length
decreasing_by
  · simp
  · have := length_absorb_le b r
    simp only [List.length_cons]
    omega

theorem compress_of_short {r : List β} (hr : ∀ c d r', r = c :: d :: r' → False) :
    compress r = [] :=
  compress.eq_2 r hr

theorem mem_of_mem_absorb {e x : β} {l : List β} (h : x ∈ (absorb e l).2) : x ∈ l := by
  induction e, l using absorb.induct with
  | case1 c d r ih =>
    rw [absorb, if_pos rfl] at h
    exact List.mem_cons_of_mem _ (List.mem_cons_of_mem _ (ih h))
  | case2 e c d r hne =>
    rw [absorb, if_neg hne] at h
    exact h
  | case3 e r hr =>
    rw [absorb_of_short hr] at h
    exact h

/-- The end found is `e` itself or a point of the list. -/
theorem absorb_fst_mem (e : β) (l : List β) : (absorb e l).1 = e ∨ (absorb e l).1 ∈ l := by
  induction e, l using absorb.induct with
  | case1 c d r ih =>
    rw [absorb, if_pos rfl]
    rcases ih with h | h
    · exact .inr (by rw [h]; simp)
    · exact .inr (List.mem_cons_of_mem _ (List.mem_cons_of_mem _ h))
  | case2 e c d r hne =>
    rw [absorb, if_neg hne]
    exact .inl rfl
  | case3 e r hr =>
    rw [absorb_of_short hr]
    exact .inl rfl

theorem length_absorb_even {e : β} {l : List β} (hl : l.length % 2 = 0) :
    (absorb e l).2.length % 2 = 0 := by
  induction e, l using absorb.induct with
  | case1 c d r ih =>
    rw [absorb, if_pos rfl]
    simp only [List.length_cons] at hl
    exact ih (by omega)
  | case2 e c d r hne => rw [absorb, if_neg hne]; exact hl
  | case3 e r hr => rw [absorb_of_short hr]; exact hl

theorem absorb_sublist (e : β) (l : List β) : (absorb e l).2.Sublist l := by
  induction e, l using absorb.induct with
  | case1 c d r ih =>
    rw [absorb, if_pos rfl]
    exact (ih.cons _).cons _
  | case2 e c d r hne => rw [absorb, if_neg hne]
  | case3 e r hr => rw [absorb_of_short hr]

theorem mem_of_mem_compress {x : β} {l : List β} (h : x ∈ compress l) : x ∈ l := by
  induction l using compress.induct with
  | case1 d r ih =>
    rw [compress, if_pos rfl] at h
    exact List.mem_cons_of_mem _ (List.mem_cons_of_mem _ (ih h))
  | case2 c d r hne ih =>
    rw [compress, if_neg hne] at h
    rcases List.mem_cons.mp h with rfl | h
    · exact List.mem_cons_self
    rcases List.mem_cons.mp h with rfl | h
    · rcases absorb_fst_mem d r with h' | h'
      · rw [h']
        exact List.mem_cons_of_mem _ List.mem_cons_self
      · exact List.mem_cons_of_mem _ (List.mem_cons_of_mem _ h')
    · exact List.mem_cons_of_mem _ (List.mem_cons_of_mem _ (mem_of_mem_absorb (ih h)))
  | case3 r hr =>
    rw [compress_of_short hr] at h
    cases h

theorem length_compress_even (l : List β) : (compress l).length % 2 = 0 := by
  induction l using compress.induct with
  | case1 d r ih => rw [compress, if_pos rfl]; exact ih
  | case2 a b r hne ih =>
    rw [compress, if_neg hne]
    simp only [List.length_cons]
    omega
  | case3 r hr => rw [compress_of_short hr]; rfl

/-- Compression only compares points, so it commutes with an injective map. -/
theorem compress_map {γ : Type*} [DecidableEq γ] {f : β → γ} (hf : Function.Injective f)
    (l : List β) : (compress l).map f = compress (l.map f) := by
  have habs : ∀ (e : β) (r : List β),
      absorb (f e) (r.map f) = (f (absorb e r).1, (absorb e r).2.map f) := by
    intro e r
    induction e, r using absorb.induct with
    | case1 c d r ih =>
      simp only [List.map_cons]
      rw [absorb, absorb, if_pos rfl, if_pos rfl, ih]
    | case2 e c d r hne =>
      simp only [List.map_cons]
      rw [absorb, absorb, if_neg hne, if_neg (hf.ne hne)]
      rfl
    | case3 e r hr =>
      rw [absorb_of_short hr, absorb_of_short]
      intro c d r' h
      match r, hr, h with
      | _ :: _ :: _, hr, _ => exact hr _ _ _ rfl
  induction l using compress.induct with
  | case1 d r ih =>
    simp only [List.map_cons]
    rw [compress.eq_1 d d r, if_pos rfl, compress.eq_1, if_pos rfl, ih]
  | case2 c d r hne ih =>
    simp only [List.map_cons]
    rw [compress.eq_1 c d r, if_neg hne, compress.eq_1, if_neg (hf.ne hne), habs]
    simp only [List.map_cons, ih]
  | case3 r hr =>
    rw [compress_of_short hr, compress_of_short]
    · rfl
    · intro c d r' h
      match r, hr, h with
      | _ :: _ :: _, hr, _ => exact hr _ _ _ rfl

end Compress

/-! ### Compression on a sorted list -/

/-- Joining a touching interval keeps the set. -/
theorem mem_absorb (e : α) (l : List α) (c : α) :
    mem ((absorb e l).1 :: (absorb e l).2) c = mem (e :: l) c := by
  induction e, l using absorb.induct with
  | case1 x d r ih => rw [absorb, if_pos rfl, ih, mem_cons_cons_self]
  | case2 e x d r hne => rw [absorb, if_neg hne]
  | case3 e r hr => rw [absorb_of_short hr]

/-- On a sorted list, what compression keeps of the points left is above the
end found: joining stopped at a point different from it. -/
theorem absorb_lt {e : α} {l : List α} (hs : (e :: l).Pairwise (· ≤ ·)) :
    ∀ x ∈ compress (absorb e l).2, (absorb e l).1 < x := by
  induction e, l using absorb.induct with
  | case1 c d r ih =>
    rw [absorb, if_pos rfl]
    exact ih (List.pairwise_cons.mp (List.pairwise_cons.mp hs).2).2
  | case2 e c d r hne =>
    rw [absorb, if_neg hne]
    have hec : e < c := lt_of_le_of_ne (List.rel_of_pairwise_cons hs List.mem_cons_self) hne
    intro x hx
    rcases List.mem_cons.mp (mem_of_mem_compress hx) with rfl | hx'
    · exact hec
    · exact lt_of_lt_of_le hec (List.rel_of_pairwise_cons (List.pairwise_cons.mp hs).2 hx')
  | case3 e r hr =>
    rw [absorb_of_short hr, compress_of_short hr]
    intro x hx
    cases hx

theorem le_absorb_fst {e : α} {l : List α} (hs : (e :: l).Pairwise (· ≤ ·)) :
    e ≤ (absorb e l).1 := by
  rcases absorb_fst_mem e l with h | h
  · rw [h]
  · exact List.rel_of_pairwise_cons hs h

/-- Compression keeps the set of a sorted list of even length. -/
theorem mem_compress {l : List α} (hs : l.Pairwise (· ≤ ·)) (he : l.length % 2 = 0) (c : α) :
    mem (compress l) c = mem l c := by
  induction l using compress.induct generalizing c with
  | case1 d r ih =>
    -- an empty interval counts for nothing
    rw [compress, if_pos rfl, mem_cons_cons_self]
    simp only [List.length_cons] at he
    exact ih (List.pairwise_cons.mp (List.pairwise_cons.mp hs).2).2 (by omega) c
  | case2 a b r hne ih =>
    -- the touching intervals joined, and the rest compressed
    have hbr := (List.pairwise_cons.mp hs).2
    simp only [List.length_cons] at he
    have hrest := ih ((List.pairwise_cons.mp hbr).2.sublist (absorb_sublist b r))
      (length_absorb_even (by omega))
    rw [compress, if_neg hne, mem_cons_congr (mem_cons_congr hrest _) a c]
    exact mem_cons_congr (mem_absorb b r) a c
  | case3 r hr =>
    rw [compress_of_short hr]
    match r, hr with
    | [], _ => rfl
    | [_], _ => simp at he
    | _ :: _ :: _, hr => exact absurd rfl (hr _ _ _)

/-- A compressed sorted list is strictly increasing. -/
theorem pairwise_compress {l : List α} (hs : l.Pairwise (· ≤ ·)) :
    (compress l).Pairwise (· < ·) := by
  induction l using compress.induct with
  | case1 d r ih =>
    rw [compress, if_pos rfl]
    exact ih (List.pairwise_cons.mp (List.pairwise_cons.mp hs).2).2
  | case2 a b r hne ih =>
    have hbr := (List.pairwise_cons.mp hs).2
    have hab : a < b := lt_of_le_of_ne (List.rel_of_pairwise_cons hs List.mem_cons_self) hne
    have hbe := le_absorb_fst hbr
    rw [compress, if_neg hne]
    refine List.Pairwise.cons (fun x hx => ?_)
      (List.Pairwise.cons (fun x hx => ?_) (ih ((List.pairwise_cons.mp hbr).2.sublist (absorb_sublist b r))))
    · -- everything after `a` is at or above the end of its interval
      rcases List.mem_cons.mp hx with rfl | hx
      · exact lt_of_lt_of_le hab hbe
      · exact lt_of_lt_of_le hab (hbe.trans (absorb_lt hbr x hx).le)
    · exact absorb_lt hbr x hx
  | case3 r hr =>
    rw [compress_of_short hr]
    exact List.Pairwise.nil

/-! ## Strictly increasing lists are canonical -/

/-- On a strictly increasing list, only the head counts for a value below the
second point. -/
theorem mem_cons_of_pairwise {x : α} {l : List α} (hs : (x :: l).Pairwise (· < ·)) (c : α) :
    mem (x :: l) c = if x ≤ c then !mem l c else false := by
  split_ifs with hx
  · simp only [mem, below_cons, if_pos hx]
    rcases Nat.mod_two_eq_zero_or_one (below l c) with h | h <;> simp [Nat.add_mod, h]
  · have hl : ∀ y ∈ x :: l, c < y := by
      intro y hy
      rcases List.mem_cons.mp hy with rfl | hy
      · exact lt_of_not_ge hx
      · exact lt_trans (lt_of_not_ge hx) (List.rel_of_pairwise_cons hs hy)
    simp [mem, below_of_lt hl]

/-- Two strictly increasing lists of the same set are equal. -/
theorem eq_of_mem_eq {l r : List α} (hl : l.Pairwise (· < ·)) (hr : r.Pairwise (· < ·))
    (h : ∀ c, mem l c = mem r c) : l = r := by
  induction l generalizing r with
  | nil =>
    cases r with
    | nil => rfl
    | cons y r =>
      have := h y
      rw [mem_cons_of_pairwise hr, if_pos le_rfl] at this
      -- the empty set does not hold `y`, the other one does
      have hy : mem r y = false := by
        have hlt : ∀ z ∈ r, y < z := fun z hz => List.rel_of_pairwise_cons hr hz
        simp [mem, below_of_lt hlt]
      simp [hy] at this
  | cons x l ih =>
    cases r with
    | nil =>
      have := h x
      rw [mem_cons_of_pairwise hl, if_pos le_rfl] at this
      have hx : mem l x = false := by
        have hlt : ∀ z ∈ l, x < z := fun z hz => List.rel_of_pairwise_cons hl hz
        simp [mem, below_of_lt hlt]
      simp [hx] at this
    | cons y r =>
      -- the first points agree: the smaller one is in one set only
      have hmin : ∀ {x y : α} {l r : List α}, (x :: l).Pairwise (· < ·) →
          (y :: r).Pairwise (· < ·) → x < y → mem (x :: l) x ≠ mem (y :: r) x := by
        intro x y l r hl hr hxy
        rw [mem_cons_of_pairwise hl, if_pos le_rfl, mem_cons_of_pairwise hr, if_neg (not_le.mpr hxy)]
        have hlt : ∀ z ∈ l, x < z := fun z hz => List.rel_of_pairwise_cons hl hz
        simp [mem, below_of_lt hlt]
      have hxy : x = y := by
        rcases lt_trichotomy x y with hxy | hxy | hxy
        · exact absurd (h x) (hmin hl hr hxy)
        · exact hxy
        · exact absurd (h y).symm (hmin hr hl hxy)
      subst hxy
      -- and so do the sets after them
      have htail : ∀ c, mem l c = mem r c := by
        intro c
        have := h c
        rw [mem_cons_of_pairwise hl, mem_cons_of_pairwise hr] at this
        by_cases hc : x ≤ c
        · rw [if_pos hc, if_pos hc] at this
          simpa using this
        · have hl' : ∀ z ∈ l, c < z := fun z hz =>
            lt_trans (lt_of_not_ge hc) (List.rel_of_pairwise_cons hl hz)
          have hr' : ∀ z ∈ r, c < z := fun z hz =>
            lt_trans (lt_of_not_ge hc) (List.rel_of_pairwise_cons hr hz)
          simp [mem, below_of_lt hl', below_of_lt hr']
      rw [ih (List.pairwise_cons.mp hl).2 (List.pairwise_cons.mp hr).2 htail]

/-- The first interval of a strictly increasing list decides up to its end,
and the rest after it: how a search that stops early reads the set. -/
theorem mem_cons_cons_of_pairwise {a b : α} {l : List α} (hs : (a :: b :: l).Pairwise (· < ·))
    (c : α) : mem (a :: b :: l) c = if c < a then false else if c < b then true else mem l c := by
  rw [mem_cons_of_pairwise hs, mem_cons_of_pairwise (List.pairwise_cons.mp hs).2]
  by_cases ha : a ≤ c
  · rw [if_pos ha, if_neg (not_lt.mpr ha)]
    by_cases hb : b ≤ c
    · rw [if_pos hb, if_neg (not_lt.mpr hb), Bool.not_not]
    · rw [if_neg hb, if_pos (lt_of_not_ge hb)]
      rfl
  · rw [if_neg ha, if_pos (lt_of_not_ge ha)]

/-- Between `y` and a point `x` with no point strictly in between, the count
grows by the point itself. -/
theorem below_succ_of_mem {l : List α} (hs : l.Pairwise (· < ·)) {x y : α} (hx : x ∈ l)
    (hyx : y < x) (hgap : ∀ z ∈ l, z ≤ y ∨ x ≤ z) : below l x = below l y + 1 := by
  induction l with
  | nil => simp at hx
  | cons a l ih =>
    have hl := (List.pairwise_cons.mp hs).2
    rw [below_cons, below_cons]
    rcases List.mem_cons.mp hx with hxa | hx
    · -- `a` is the point, and every later point lies above it
      subst hxa
      have hgt : ∀ z ∈ l, x < z := fun z hz => List.rel_of_pairwise_cons hs hz
      rw [below_of_lt hgt, below_of_lt (fun z hz => lt_trans hyx (hgt z hz)), if_pos le_rfl,
        if_neg (not_le.mpr hyx)]
    · rw [ih hl hx fun z hz => hgap z (List.mem_cons_of_mem _ hz)]
      -- `a` comes before `x`, so it lies at or below `y`
      have hax : a < x := List.rel_of_pairwise_cons hs hx
      have hay : a ≤ y := (hgap a List.mem_cons_self).resolve_right (not_le.mpr hax)
      rw [if_pos hay, if_pos hax.le]

/-- So the set changes at each of its points. -/
theorem mem_ne_of_mem {l : List α} (hs : l.Pairwise (· < ·)) {x y : α} (hx : x ∈ l)
    (hyx : y < x) (hgap : ∀ z ∈ l, z ≤ y ∨ x ≤ z) : mem l y ≠ mem l x := by
  rw [mem, mem, below_succ_of_mem hs hx hyx hgap]
  rcases Nat.mod_two_eq_zero_or_one (below l y) with h | h <;> simp [Nat.add_mod, h]

/-! ## Complement and intervals -/

/-- A point at or below `c` in front and one above it behind complement the
set at `c`. -/
theorem mem_bracket {b t c : α} (l : List α) (hb : b ≤ c) (ht : c < t) :
    mem (b :: l ++ [t]) c = !mem l c := by
  have htc : ∀ x ∈ [t], c < x := fun x hx => by rw [List.mem_singleton.mp hx]; exact ht
  rw [List.cons_append, ← List.cons_append, mem_append_of_lt htc]
  simp only [mem, below_cons, if_pos hb]
  rcases Nat.mod_two_eq_zero_or_one (below l c) with h | h <;> simp [Nat.add_mod, h]

/-- Two points hold the interval from the first up to the second. -/
theorem mem_pair {x y : α} (hxy : x ≤ y) (c : α) : mem [x, y] c = decide (x ≤ c ∧ c < y) := by
  simp only [mem, below_cons, below_nil]
  by_cases hy : y ≤ c
  · simp [hy, hxy.trans hy, not_lt.mpr hy]
  · by_cases hx : x ≤ c <;> simp [hx, hy, lt_of_not_ge hy]

/-- The intervals of a list of points, two points each. -/
def pairs : List α → List (α × α)
  | a :: b :: r => (a, b) :: pairs r
  | _ => []

omit [LinearOrder α] in
theorem fst_mem_of_mem_pairs {l : List α} {p : α × α} (h : p ∈ pairs l) : p.1 ∈ l := by
  induction l using pairs.induct with
  | case1 x y r ih =>
    rcases List.mem_cons.mp h with rfl | h
    · exact List.mem_cons_self
    · exact List.mem_cons_of_mem _ (List.mem_cons_of_mem _ (ih h))
  | case2 l hl =>
    match l, hl with
    | [], _ => cases h
    | [_], _ => cases h
    | _ :: _ :: _, hl => exact absurd rfl (hl _ _ _)

omit [LinearOrder α] in
theorem length_pairs : ∀ l : List α, (pairs l).length = l.length / 2
  | [] => by simp [pairs]
  | [_] => by simp [pairs]
  | a :: b :: r => by
    rw [pairs, List.length_cons, length_pairs r, List.length_cons, List.length_cons]
    omega

omit [LinearOrder α] in
/-- Interval `i` is made of points `2 * i` and `2 * i + 1`. -/
theorem getElem_pairs : ∀ (l : List α) (i : Nat) (hi : 2 * i + 1 < l.length) (hp : i < (pairs l).length),
    (pairs l)[i] = (l[2 * i], l[2 * i + 1])
  | [], _, hi, _ => absurd hi (by simp)
  | [_], _, hi, _ => absurd hi (by simp)
  | a :: b :: r, 0, _, _ => rfl
  | a :: b :: r, i + 1, hi, hp => by
    simp only [pairs, List.getElem_cons_succ]
    rw [getElem_pairs r i (by simp at hi; omega) (by simpa [pairs] using hp)]
    simp only [show 2 * (i + 1) = 2 * i + 1 + 1 by omega, List.getElem_cons_succ]

omit [LinearOrder α] in
theorem two_mul_add_one_lt {l : List α} {i : Nat} (hi : i < (pairs l).length) : 2 * i + 1 < l.length := by
  rw [length_pairs] at hi
  omega

omit [LinearOrder α] in
theorem pairs_map {β : Type*} (f : α → β) : ∀ l : List α, pairs (l.map f) = (pairs l).map (Prod.map f f)
  | [] => by simp [pairs]
  | [_] => by simp [pairs]
  | a :: b :: r => by simp [pairs, pairs_map f r]

/-- On a strictly increasing list, each interval is nonempty and ends below
the start of the next. -/
theorem pairs_lt {l : List α} (hs : l.Pairwise (· < ·)) {i : Nat} (hi : i < (pairs l).length) :
    (pairs l)[i].1 < (pairs l)[i].2 := by
  rw [getElem_pairs l i (two_mul_add_one_lt hi) hi]
  exact List.pairwise_iff_getElem.mp hs _ _ _ _ (by omega)

theorem pairs_lt_next {l : List α} (hs : l.Pairwise (· < ·)) {i : Nat} (hi : i + 1 < (pairs l).length) :
    (pairs l)[i].2 < (pairs l)[i + 1].1 := by
  rw [getElem_pairs l i (two_mul_add_one_lt (by omega)) (by omega),
    getElem_pairs l (i + 1) (two_mul_add_one_lt hi) hi]
  exact List.pairwise_iff_getElem.mp hs _ _ _ _ (by omega)

/-- On a strictly increasing list of even length, `c` is in the set exactly
when it lies in one of the intervals. -/
theorem mem_iff_pairs {l : List α} (hs : l.Pairwise (· < ·)) (he : l.length % 2 = 0) (c : α) :
    mem l c = true ↔ ∃ p ∈ pairs l, p.1 ≤ c ∧ c < p.2 := by
  induction l using pairs.induct with
  | case1 a b r ih =>
    have hbr := (List.pairwise_cons.mp hs).2
    have hab : a < b := List.rel_of_pairwise_cons hs List.mem_cons_self
    simp only [List.length_cons] at he
    rw [mem_cons_of_pairwise hs, mem_cons_of_pairwise hbr]
    simp only [pairs, List.mem_cons, exists_eq_or_imp]
    by_cases ha : a ≤ c
    · by_cases hb : b ≤ c
      · -- past the first interval: the rest decides
        rw [if_pos ha, if_pos hb, Bool.not_not, ih hbr.of_cons (by omega)]
        simp [not_lt.mpr hb]
      · rw [if_pos ha, if_neg hb]
        simp [ha, lt_of_not_ge hb]
    · -- below every interval
      rw [if_neg ha]
      have hbelow : ∀ p ∈ pairs r, ¬p.1 ≤ c := fun p hp hpc =>
        ha (le_of_lt (lt_of_lt_of_le hab
          (le_of_lt (List.rel_of_pairwise_cons hbr (fst_mem_of_mem_pairs hp)))) |>.trans hpc)
      simp only [Bool.false_eq_true, false_iff, not_or, not_exists, not_and]
      exact ⟨fun h => absurd h ha, fun p hp hpc => absurd hpc (hbelow p hp)⟩
  | case2 l hl =>
    match l, hl with
    | [], _ => simp [pairs]
    | [_], _ => simp at he
    | _ :: _ :: _, hl => exact absurd rfl (hl _ _ _)

end PointSet

end CLib
