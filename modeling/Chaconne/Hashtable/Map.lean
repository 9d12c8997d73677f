import Chaconne.Hashtable.Basic
import Chaconne.CLib.Lists

/-!
# The hash table is a finite map

With callbacks for which `compare a b = 0` is an equivalence that implies equal
hashes (`KeyLaws`), every table reached from `hashtable_create` by sets,
deletes and clears satisfies `Wf`:

* every element sits in the bucket its stored hash selects, and the stored
  hash is its key's hash;
* no two elements of the table have equivalent keys;
* the table count is the number of elements, and each bucket count is at
  least its chain's length (equal except after a `hashtable_clear`).

Under `Wf` a table stands for the map `view h` (the first element of
`elems h` whose key is equivalent), `hashtable_get` computes it in spite of
its count-0 shortcut, and each operation acts on it as `mapStep` does on a
map. `hashtable_is_finite_map` assembles the run theorem against the history
specification `histGet`.
-/

namespace Chaconne.Hashtable

open CLib

variable {K V : Type}

/-- What the table needs of its callbacks: `compare a b = 0` is an
equivalence, and equivalent keys have equal hashes. -/
structure KeyLaws (hash : K → Nat) (compare : K → K → Int) : Prop where
  refl : ∀ a, compare a a = 0
  symm : ∀ {a b}, compare a b = 0 → compare b a = 0
  trans : ∀ {a b c}, compare a b = 0 → compare b c = 0 → compare a c = 0
  hash_eq : ∀ {a b}, compare a b = 0 → hash a = hash b

/-- Keys that are not equivalent are not equivalent either way round, so a
`Pairwise` of distinct keys survives a permutation. -/
theorem KeyLaws.ne_symm {hash : K → Nat} {compare : K → K → Int} (laws : KeyLaws hash compare)
    {a b : K} (hab : compare a b ≠ 0) : compare b a ≠ 0 :=
  fun hba => hab (laws.symm hba)

/-- Every element of the table, bucket by bucket. -/
def elems (h : Hashtable K V) : List (Elem K V) :=
  h.node.flatMap (·.chain)

/-- The map a table stands for. -/
def view (h : Hashtable K V) (k : K) : Option V :=
  chainFind h.compare k (elems h)

/-- The table invariant. -/
structure Wf (h : Hashtable K V) : Prop where
  laws : KeyLaws h.hash h.compare
  size_pos : 0 < h.bucketSize
  length_node : h.node.length = h.bucketSize
  placed : ∀ i, ∀ e ∈ (h.bucketAt i).chain, e.hash = h.hash e.key ∧ e.hash % h.bucketSize = i
  count_ge : ∀ i, (h.bucketAt i).chain.length ≤ (h.bucketAt i).count
  distinct : (elems h).Pairwise fun a b => h.compare a.key b.key ≠ 0
  count_eq : h.count = (elems h).length

/-! ## Chain walks -/

section Chains

variable {compare : K → K → Int}

theorem chainFind_eq_none {k : K} {c : List (Elem K V)} (h : ∀ e ∈ c, compare e.key k ≠ 0) :
    chainFind compare k c = none := by
  induction c with
  | nil => rfl
  | cons e rest ih =>
    simp only [chainFind, if_neg (h e List.mem_cons_self)]
    exact ih fun x hx => h x (List.mem_cons_of_mem e hx)

theorem chainFind_append (k : K) (c d : List (Elem K V)) :
    chainFind compare k (c ++ d) = (chainFind compare k c).or (chainFind compare k d) := by
  induction c with
  | nil => rfl
  | cons e rest ih =>
    simp only [List.cons_append, chainFind]
    split
    · rfl
    · exact ih

/-- A found value belongs to an element whose key is equivalent. -/
theorem chainFind_eq_some {k : K} {c : List (Elem K V)} {v : V}
    (h : chainFind compare k c = some v) : ∃ e ∈ c, compare e.key k = 0 ∧ e.value = v := by
  induction c with
  | nil => cases h
  | cons e rest ih =>
    simp only [chainFind] at h
    split at h
    · rename_i he
      exact ⟨e, List.mem_cons_self, he, Option.some.inj h⟩
    · obtain ⟨x, hx, hk, hv⟩ := ih h
      exact ⟨x, List.mem_cons_of_mem e hx, hk, hv⟩

/-- In a chain without two equivalent keys, an element with a key equivalent to
`k` is the one found. -/
theorem chainFind_of_mem {hash : K → Nat} (laws : KeyLaws hash compare) {k : K}
    {c : List (Elem K V)} (hd : c.Pairwise fun a b => compare a.key b.key ≠ 0)
    {e : Elem K V} (he : e ∈ c) (hk : compare e.key k = 0) :
    chainFind compare k c = some e.value := by
  induction c with
  | nil => cases he
  | cons x rest ih =>
    rw [List.pairwise_cons] at hd
    simp only [chainFind]
    rcases List.mem_cons.mp he with rfl | hmem
    · rw [if_pos hk]
    · have hx : compare x.key k ≠ 0 := fun hxk =>
        hd.1 e hmem (laws.trans hxk (laws.symm hk))
      rw [if_neg hx]
      exact ih hd.2 hmem

end Chains

/-! ## The bucket of a key -/

/-- The key lists of a table's buckets are found through the bucket array. -/
theorem mem_elems {h : Hashtable K V} {e : Elem K V} :
    e ∈ elems h ↔ ∃ i, e ∈ (h.bucketAt i).chain := by
  simp only [elems, List.mem_flatMap, bucketAt, List.getD_eq_getElem?_getD]
  constructor
  · rintro ⟨b, hb, he⟩
    obtain ⟨i, hi, rfl⟩ := List.getElem_of_mem hb
    exact ⟨i, by rw [List.getElem?_eq_getElem hi]; exact he⟩
  · rintro ⟨i, he⟩
    cases hget : h.node[i]? with
    | none => rw [hget] at he; cases he
    | some b =>
      rw [hget] at he
      exact ⟨b, List.mem_of_getElem? hget, he⟩

/-- An element equivalent to `k` sits in `k`'s bucket. -/
theorem mem_bucket_of_equiv {h : Hashtable K V} (hw : Wf h) {e : Elem K V} {i : Nat} {k : K}
    (he : e ∈ (h.bucketAt i).chain) (hk : h.compare e.key k = 0) : i = h.index k := by
  obtain ⟨hhash, hmod⟩ := hw.placed i e he
  rw [index, ← hmod, hhash, hw.laws.hash_eq hk]

/-- The walk over the whole array finds what the walk over the one bucket that
can hold an equivalent key finds. -/
theorem chainFind_flatMap_of_only {compare : K → K → Int} {k : K} :
    ∀ (l : List (Bucket K V)) (i : Nat), i < l.length →
      (∀ j, j ≠ i → ∀ e ∈ (l.getD j ⟨0, []⟩).chain, compare e.key k ≠ 0) →
      chainFind compare k (l.flatMap (·.chain)) = chainFind compare k (l.getD i ⟨0, []⟩).chain := by
  intro l
  induction l with
  | nil => intro i hi; cases hi
  | cons b rest ih =>
    intro i hi honly
    rw [List.flatMap_cons, chainFind_append]
    cases i with
    | zero =>
      have hrest : chainFind compare k (rest.flatMap (·.chain)) = none := by
        apply chainFind_eq_none
        intro e he
        obtain ⟨b', hb', heb⟩ := List.mem_flatMap.mp he
        obtain ⟨j, hj, rfl⟩ := List.getElem_of_mem hb'
        exact honly (j + 1) (by omega) e (by simpa [List.getD_eq_getElem?_getD, hj] using heb)
      rw [hrest, Option.or_none]
      rfl
    | succ i =>
      have hb : chainFind compare k b.chain = none :=
        chainFind_eq_none fun e he => honly 0 (by omega) e (by simpa using he)
      rw [hb, Option.none_or]
      exact ih i (by simpa using hi) fun j hj e he => honly (j + 1) (by omega) e (by simpa using he)

/-- The map of a well-formed table is read from the key's bucket alone. -/
theorem view_eq_bucket {h : Hashtable K V} (hw : Wf h) (k : K) :
    view h k = chainFind h.compare k (h.bucketAt (h.index k)).chain := by
  have hi : h.index k < h.node.length := by
    rw [hw.length_node, index]
    exact Nat.mod_lt _ hw.size_pos
  refine chainFind_flatMap_of_only h.node (h.index k) hi ?_
  intro j hj e he hk
  exact hj (mem_bucket_of_equiv hw he hk)

/-- `hashtable_get` reads the map: a bucket count of 0 means an empty chain. -/
theorem hashtableGet_eq_view {h : Hashtable K V} (hw : Wf h) (k : K) :
    hashtableGet h k = view h k := by
  rw [view_eq_bucket hw, hashtableGet]
  split
  · rename_i hzero
    have hle := hw.count_ge (h.index k)
    rw [hzero, Nat.le_zero, List.length_eq_zero_iff] at hle
    rw [hle]
    rfl
  · rfl

/-! ## Inversion of the chain walks -/

section Walks

variable {compare : K → K → Int}

/-- What `hashtable_set`'s walk can do: append a new element after a chain with no
equivalent key, or give the first equivalent element the new value. -/
theorem chainSet_cases (new : Elem K V) (c : List (Elem K V)) :
    (chainSet compare new c = (c ++ [new], true) ∧ ∀ e ∈ c, compare e.key new.key ≠ 0) ∨
    (∃ pre e post, c = pre ++ e :: post ∧ compare e.key new.key = 0 ∧
      chainSet compare new c = (pre ++ { e with value := new.value } :: post, false)) := by
  induction c with
  | nil => exact .inl ⟨rfl, fun e he => by cases he⟩
  | cons x rest ih =>
    by_cases hx : compare x.key new.key = 0
    · right
      exact ⟨[], x, rest, rfl, hx, by simp [chainSet, hx]⟩
    · rcases ih with ⟨hset, hnone⟩ | ⟨pre, e, post, hrest, he, hset⟩
      · left
        refine ⟨by simp [chainSet, hx, hset], ?_⟩
        intro e he'
        rcases List.mem_cons.mp he' with rfl | hmem
        · exact hx
        · exact hnone e hmem
      · right
        refine ⟨x :: pre, e, post, by simp [hrest], he, ?_⟩
        simp [chainSet, hx, hset]

/-- What `hashtable_delete`'s walk does when it finds a key: unlink the first
equivalent element. -/
theorem chainDelete_eq_some {key : K} {c c' : List (Elem K V)}
    (h : chainDelete compare key c = some c') :
    ∃ pre e post, c = pre ++ e :: post ∧ c' = pre ++ post ∧ compare e.key key = 0 := by
  induction c generalizing c' with
  | nil => cases h
  | cons x rest ih =>
    simp only [chainDelete] at h
    split at h
    · rename_i hx
      exact ⟨[], x, rest, rfl, (Option.some.inj h).symm, hx⟩
    · obtain ⟨d, hd, rfl⟩ := Option.map_eq_some_iff.mp h
      obtain ⟨pre, e, post, hrest, hd', he⟩ := ih hd
      exact ⟨x :: pre, e, post, by simp [hrest], by simp [hd'], he⟩

/-- When `hashtable_delete`'s walk finds nothing, no key of the chain is
equivalent. -/
theorem chainDelete_eq_none {key : K} {c : List (Elem K V)}
    (h : chainDelete compare key c = none) : ∀ e ∈ c, compare e.key key ≠ 0 := by
  induction c with
  | nil => intro e he; cases he
  | cons x rest ih =>
    simp only [chainDelete] at h
    split at h
    · cases h
    · rename_i hx
      intro e he
      rcases List.mem_cons.mp he with rfl | hmem
      · exact hx
      · exact ih (Option.map_eq_none_iff.mp h) e hmem

/-- Setting a key changes exactly the value of the keys equivalent to it. -/
theorem chainFind_chainSet {hash : K → Nat} (laws : KeyLaws hash compare) (new : Elem K V)
    (k : K) (c : List (Elem K V)) :
    chainFind compare k (chainSet compare new c).1 =
      if compare new.key k = 0 then some new.value else chainFind compare k c := by
  induction c with
  | nil => simp [chainSet, chainFind]
  | cons x rest ih =>
    by_cases hx : compare x.key new.key = 0
    · simp only [chainSet, if_pos hx, chainFind]
      by_cases hk : compare new.key k = 0
      · rw [if_pos (laws.trans hx hk), if_pos hk]
      · have hxk : compare x.key k ≠ 0 := fun h => hk (laws.trans (laws.symm hx) h)
        rw [if_neg hxk, if_neg hk, if_neg hxk]
    · simp only [chainSet, if_neg hx, chainFind, ih]
      by_cases hxk : compare x.key k = 0
      · have hk : compare new.key k ≠ 0 := fun h => hx (laws.trans hxk (laws.symm h))
        rw [if_pos hxk, if_neg hk, if_pos hxk]
      · rw [if_neg hxk, if_neg hxk]

/-- In a chain without two equivalent keys, a permutation finds the same value. -/
theorem chainFind_perm {hash : K → Nat} (laws : KeyLaws hash compare) {k : K}
    {c d : List (Elem K V)} (hd : c.Pairwise fun a b => compare a.key b.key ≠ 0)
    (hp : c.Perm d) : chainFind compare k c = chainFind compare k d := by
  by_cases hex : ∃ e ∈ c, compare e.key k = 0
  · obtain ⟨e, he, hk⟩ := hex
    rw [chainFind_of_mem laws hd he hk,
      chainFind_of_mem laws ((hp.pairwise_iff laws.ne_symm).mp hd) (hp.subset he) hk]
  · have hnone : ∀ e ∈ c, compare e.key k ≠ 0 := fun e he hk => hex ⟨e, he, hk⟩
    rw [chainFind_eq_none hnone, chainFind_eq_none fun e he => hnone e (hp.symm.subset he)]

end Walks

/-! ## Replacing one bucket -/

theorem getD_set_bucket {l : List (Bucket K V)} {i : Nat} (hi : i < l.length) (b : Bucket K V)
    (j : Nat) : (l.set i b).getD j ⟨0, []⟩ = if i = j then b else l.getD j ⟨0, []⟩ := by
  simp only [List.getD_eq_getElem?_getD, List.getElem?_set, hi, if_true]
  split <;> simp

theorem index_lt {h : Hashtable K V} (hw : Wf h) (k : K) : h.index k < h.node.length := by
  rw [hw.length_node, index]
  exact Nat.mod_lt _ hw.size_pos

/-- An element equivalent to a key lies in that key's bucket. -/
theorem mem_bucket_of_mem_elems {h : Hashtable K V} (hw : Wf h) {e : Elem K V} {k : K}
    (he : e ∈ elems h) (hk : h.compare e.key k = 0) : e ∈ (h.bucketAt (h.index k)).chain := by
  obtain ⟨i, hi⟩ := mem_elems.mp he
  rw [← mem_bucket_of_equiv hw hi hk]
  exact hi

/-- The other buckets' elements, once bucket `i` is taken out. -/
def others (h : Hashtable K V) (i : Nat) : List (Elem K V) :=
  (h.node.eraseIdx i).flatMap (·.chain)

theorem elems_perm_bucket {h : Hashtable K V} {i : Nat} (hi : i < h.node.length) :
    (elems h).Perm ((h.bucketAt i).chain ++ others h i) := by
  have hb : h.bucketAt i = h.node[i] := by
    simp [bucketAt, List.getD_eq_getElem?_getD, List.getElem?_eq_getElem hi]
  rw [hb]
  exact CLib.perm_flatMap_getElem _ hi

/-- A table whose bucket `i` is replaced is well formed when the new bucket is
placed, counted and keeps the keys distinct. -/
theorem wf_replace {h : Hashtable K V} (hw : Wf h) {i : Nat} (hi : i < h.node.length)
    (b : Bucket K V) (n : Nat)
    (hplaced : ∀ e ∈ b.chain, e.hash = h.hash e.key ∧ e.hash % h.bucketSize = i)
    (hcount : b.chain.length ≤ b.count)
    (hdistinct : (b.chain ++ others h i).Pairwise fun x y => h.compare x.key y.key ≠ 0)
    (hn : n = (b.chain ++ others h i).length) :
    Wf { h with node := h.node.set i b, count := n } := by
  have hperm := CLib.perm_flatMap_set (·.chain) b hi
  refine ⟨hw.laws, hw.size_pos, by simpa using hw.length_node, ?_, ?_, ?_, ?_⟩
  · intro j e he
    simp only [bucketAt, getD_set_bucket hi] at he
    split at he
    · rename_i hij
      subst hij
      exact hplaced e he
    · exact hw.placed j e he
  · intro j
    simp only [bucketAt, getD_set_bucket hi]
    split
    · exact hcount
    · exact hw.count_ge j
  · exact (hperm.pairwise_iff hw.laws.ne_symm).mpr hdistinct
  · rw [hn]
    exact hperm.length_eq.symm

/-- The map of a table whose bucket `i` was replaced: keys of bucket `i` are read
from the new chain, the others as before. -/
theorem view_replace {h : Hashtable K V} (hw : Wf h) {i : Nat} (hi : i < h.node.length)
    (b : Bucket K V) (n : Nat) (hw' : Wf { h with node := h.node.set i b, count := n }) (k : K) :
    view { h with node := h.node.set i b, count := n } k =
      if h.index k = i then chainFind h.compare k b.chain else view h k := by
  have hb : ({ h with node := h.node.set i b, count := n } : Hashtable K V).bucketAt (h.index k) =
      if i = h.index k then b else h.bucketAt (h.index k) :=
    getD_set_bucket hi b (h.index k)
  rw [view_eq_bucket hw', view_eq_bucket hw]
  change chainFind h.compare k
    (({ h with node := h.node.set i b, count := n } : Hashtable K V).bucketAt (h.index k)).chain = _
  rw [hb]
  by_cases hk : h.index k = i
  · rw [if_pos hk.symm, if_pos hk]
  · rw [if_neg (Ne.symm hk), if_neg hk]

/-! ## Growth -/

/-- With at most `2^31` buckets the `int` index of `hashtable_grow` holds the
remainder. -/
theorem growIndex_of_le {bs : Nat} (hpos : 0 < bs) (hbs : bs ≤ 2 ^ 31) (hash : Nat) :
    sizeOfInt (intOfNat (hash % bs)) = hash % bs :=
  sizeOfInt_intOfNat (lt_of_lt_of_le (Nat.mod_lt _ hpos) hbs)

/-- What the rehash loop keeps of the new bucket array: each element sits in
the bucket its `int` index names. -/
structure GrowOk (bs : Nat) (acc : List (Bucket K V)) : Prop where
  length_eq : acc.length = bs
  placed : ∀ j, ∀ e ∈ (acc.getD j ⟨0, []⟩).chain, sizeOfInt (intOfNat (e.hash % bs)) = j
  count_ge : ∀ j, (acc.getD j ⟨0, []⟩).chain.length ≤ (acc.getD j ⟨0, []⟩).count

theorem length_growInsert (bs : Nat) (acc : List (Bucket K V)) (e : Elem K V) :
    (growInsert bs acc e).length = acc.length := by
  simp only [growInsert, List.length_modify]

theorem getD_growInsert (bs : Nat) (acc : List (Bucket K V)) (e : Elem K V) (j : Nat) :
    (growInsert bs acc e).getD j ⟨0, []⟩ =
      if sizeOfInt (intOfNat (e.hash % bs)) = j ∧ j < acc.length then
        ⟨(acc.getD j ⟨0, []⟩).count + 1, e :: (acc.getD j ⟨0, []⟩).chain⟩
      else acc.getD j ⟨0, []⟩ := by
  simp only [growInsert]
  generalize sizeOfInt (intOfNat (e.hash % bs)) = idx
  simp only [List.getD_eq_getElem?_getD, List.getElem?_modify]
  by_cases hij : idx = j
  · subst hij
    by_cases hlt : idx < acc.length
    · simp [hlt]
    · simp [hlt]
  · simp [hij]

theorem growOk_growInsert {bs : Nat} {acc : List (Bucket K V)} (hok : GrowOk bs acc)
    (e : Elem K V) : GrowOk bs (growInsert bs acc e) := by
  refine ⟨by rw [length_growInsert, hok.length_eq], ?_, ?_⟩
  · intro j x hx
    rw [getD_growInsert] at hx
    split at hx
    · rename_i hj
      rcases List.mem_cons.mp hx with rfl | hmem
      · exact hj.1
      · exact hok.placed j x hmem
    · exact hok.placed j x hx
  · intro j
    rw [getD_growInsert]
    split
    · simpa using hok.count_ge j
    · exact hok.count_ge j

theorem perm_growInsert {bs : Nat} {acc : List (Bucket K V)} (hlen : acc.length = bs)
    (e : Elem K V) (hidx : sizeOfInt (intOfNat (e.hash % bs)) < bs) :
    ((growInsert bs acc e).flatMap (·.chain)).Perm (e :: acc.flatMap (·.chain)) :=
  CLib.perm_flatMap_modify_cons _ _ e (fun _ => rfl) (by rw [hlen]; exact hidx)

theorem length_foldl_growInsert {bs : Nat} (c : List (Elem K V)) (acc : List (Bucket K V)) :
    (c.foldl (growInsert bs) acc).length = acc.length := by
  induction c generalizing acc with
  | nil => rfl
  | cons e rest ih => rw [List.foldl_cons, ih, length_growInsert]

section Rehash

variable {bs : Nat} (hpos : 0 < bs) (hbs : bs ≤ 2 ^ 31)
include hpos hbs

/-- Rehashing one chain adds its elements to the new array. -/
theorem perm_foldl_growInsert :
    ∀ (c : List (Elem K V)) (acc : List (Bucket K V)), acc.length = bs →
      ((c.foldl (growInsert bs) acc).flatMap (·.chain)).Perm (c ++ acc.flatMap (·.chain)) := by
  intro c
  induction c with
  | nil => intro acc _; exact List.Perm.refl _
  | cons e rest ih =>
    intro acc hlen
    have hlen' : (growInsert bs acc e).length = bs := by rw [length_growInsert, hlen]
    have hidx : sizeOfInt (intOfNat (e.hash % bs)) < bs := by
      rw [growIndex_of_le hpos hbs]
      exact Nat.mod_lt _ hpos
    rw [List.foldl_cons]
    refine (ih (growInsert bs acc e) hlen').trans ?_
    refine ((perm_growInsert hlen e hidx).append_left rest).trans ?_
    exact List.perm_middle

/-- Rehashing every bucket moves every element into the new array. -/
theorem perm_grow_node :
    ∀ (l : List (Bucket K V)) (acc : List (Bucket K V)), acc.length = bs →
      ((l.foldl (fun acc b => b.chain.foldl (growInsert bs) acc) acc).flatMap (·.chain)).Perm
        (l.flatMap (·.chain) ++ acc.flatMap (·.chain)) := by
  intro l
  induction l with
  | nil => intro acc _; exact List.Perm.refl _
  | cons b rest ih =>
    intro acc hlen
    have hlen' : (b.chain.foldl (growInsert bs) acc).length = bs := by
      rw [length_foldl_growInsert, hlen]
    refine (ih _ hlen').trans ?_
    refine ((perm_foldl_growInsert hpos hbs b.chain acc hlen).append_left _).trans ?_
    rw [List.flatMap_cons, ← List.append_assoc]
    exact List.perm_append_comm.append_right _

end Rehash

theorem growOk_grow_node (bs : Nat) (l : List (Bucket K V)) :
    GrowOk bs (l.foldl (fun acc b => b.chain.foldl (growInsert bs) acc)
      (List.replicate bs ⟨0, []⟩)) := by
  have hinit : GrowOk bs (List.replicate bs (⟨0, []⟩ : Bucket K V)) := by
    refine ⟨List.length_replicate, ?_, ?_⟩
    · intro j e he
      simp only [List.getD_eq_getElem?_getD, List.getElem?_replicate] at he
      split at he <;> simp at he
    · intro j
      simp only [List.getD_eq_getElem?_getD, List.getElem?_replicate]
      split <;> simp
  refine @CLib.foldl_invariant _ _ _ (GrowOk bs) ?_ l _ hinit
  intro acc b hok
  exact @CLib.foldl_invariant _ _ _ (GrowOk bs) (fun acc' e hacc => growOk_growInsert hacc e)
    b.chain acc hok

theorem hashtableGrow_bucketSize (h : Hashtable K V) :
    (hashtableGrow h).bucketSize = h.bucketSize * 2 := rfl

theorem elems_grow_perm {h : Hashtable K V} (hpos : 0 < h.bucketSize) (hbs : h.bucketSize * 2 ≤ 2 ^ 31) :
    (elems (hashtableGrow h)).Perm (elems h) := by
  have hp := perm_grow_node (Nat.mul_pos hpos (by decide : 0 < 2)) hbs h.node
    (List.replicate (h.bucketSize * 2) ⟨0, []⟩) List.length_replicate
  have hnil : (List.replicate (h.bucketSize * 2) (⟨0, []⟩ : Bucket K V)).flatMap (·.chain) = [] := by
    simp
  rw [hnil, List.append_nil] at hp
  exact hp

/-- Growing a table of at most `2^30` buckets keeps it well formed. -/
theorem wf_grow {h : Hashtable K V} (hw : Wf h) (hbs : h.bucketSize * 2 ≤ 2 ^ 31) :
    Wf (hashtableGrow h) := by
  have hpos : 0 < h.bucketSize * 2 := Nat.mul_pos hw.size_pos (by decide)
  have hok := growOk_grow_node (K := K) (V := V) (h.bucketSize * 2) h.node
  have hperm := elems_grow_perm (V := V) hw.size_pos hbs (h := h)
  refine ⟨hw.laws, hpos, hok.length_eq, ?_, hok.count_ge, ?_, ?_⟩
  · intro j e he
    have hj := hok.placed j e he
    rw [growIndex_of_le hpos hbs] at hj
    refine ⟨?_, hj⟩
    have hmem : e ∈ elems (hashtableGrow h) := mem_elems.mpr ⟨j, he⟩
    obtain ⟨i, hi⟩ := mem_elems.mp (hperm.subset hmem)
    exact (hw.placed i e hi).1
  · exact (hperm.pairwise_iff hw.laws.ne_symm).mpr hw.distinct
  · rw [hperm.length_eq]
    exact hw.count_eq

theorem view_grow {h : Hashtable K V} (hw : Wf h) (hbs : h.bucketSize * 2 ≤ 2 ^ 31) :
    view (hashtableGrow h) = view h := by
  funext k
  exact (chainFind_perm hw.laws hw.distinct (elems_grow_perm hw.size_pos hbs).symm).symm

/-! ## Each operation on the map -/

/-- The map after one operation, as a function of the map before. -/
def mapStep (compare : K → K → Int) (m : K → Option V) : Op K V → K → Option V
  | .set key data => fun k => if compare key k = 0 then some data else m k
  | .delete key => fun k => if compare key k = 0 then none else m k
  | .clear => fun _ => none

/-- The history specification of `get(k)`: the value of the latest set of a key
equivalent to `k`, unless a delete of an equivalent key or a clear came after
it; `none` when there is no such set. -/
def histGet (compare : K → K → Int) (ops : List (Op K V)) : K → Option V :=
  ops.foldl (mapStep compare) fun _ => none

theorem hashtableSet_eq (h : Hashtable K V) (key : K) (data : V) :
    hashtableSet h key data =
      let r := chainSet h.compare ⟨h.hash key, key, data⟩ (h.bucketAt (h.index key)).chain
      if r.2 then
        let h' := { h with
          node := h.node.set (h.index key) ⟨(h.bucketAt (h.index key)).count + 1, r.1⟩,
          count := h.count + 1 }
        if h'.count > h'.factor * h'.bucketSize / 100 then hashtableGrow h' else h'
      else { h with node := h.node.set (h.index key) ⟨(h.bucketAt (h.index key)).count, r.1⟩ } :=
  rfl

/-- Whatever `hashtable_set`'s walk did in the key's bucket, the map reads the
new value for the equivalent keys and the old one for the others. -/
theorem view_after_set {h : Hashtable K V} (hw : Wf h) (key : K) (data : V) (cnt n : Nat)
    (hw' : Wf { h with
      node := h.node.set (h.index key)
        ⟨cnt, (chainSet h.compare ⟨h.hash key, key, data⟩ (h.bucketAt (h.index key)).chain).1⟩,
      count := n }) :
    view { h with
      node := h.node.set (h.index key)
        ⟨cnt, (chainSet h.compare ⟨h.hash key, key, data⟩ (h.bucketAt (h.index key)).chain).1⟩,
      count := n } = mapStep h.compare (view h) (.set key data) := by
  funext k
  rw [view_replace hw (index_lt hw key) _ n hw' k, chainFind_chainSet hw.laws]
  simp only [mapStep]
  by_cases hik : h.index k = h.index key
  · rw [if_pos hik, ← hik, ← view_eq_bucket hw]
  · rw [if_neg hik]
    have hk : h.compare key k ≠ 0 := fun hk => hik (by simp [index, hw.laws.hash_eq hk])
    rw [if_neg hk]

/-- A new element appended to its key's bucket, where no key is equivalent to
it, leaves the table well formed with one element more. -/
theorem wf_set_appended {h : Hashtable K V} (hw : Wf h) (key : K) (data : V)
    (hnone : ∀ e ∈ (h.bucketAt (h.index key)).chain, h.compare e.key key ≠ 0) :
    Wf { h with
      node := h.node.set (h.index key)
        ⟨(h.bucketAt (h.index key)).count + 1,
          (h.bucketAt (h.index key)).chain ++ [⟨h.hash key, key, data⟩]⟩,
      count := h.count + 1 } := by
  have hi := index_lt hw key
  have hbucket := elems_perm_bucket (h := h) hi
  refine wf_replace hw hi _ _ ?_ ?_ ?_ ?_
  · intro x hx
    rcases List.mem_append.mp hx with hx | hx
    · exact hw.placed _ x hx
    · rw [List.mem_singleton.mp hx]
      exact ⟨rfl, rfl⟩
  · simpa using hw.count_ge (h.index key)
  · -- the new element goes first: it differs from every key already stored
    have hd := (hbucket.pairwise_iff hw.laws.ne_symm).mp hw.distinct
    have hp : (((h.bucketAt (h.index key)).chain ++ [(⟨h.hash key, key, data⟩ : Elem K V)]) ++
        others h (h.index key)).Perm ((⟨h.hash key, key, data⟩ : Elem K V) ::
          ((h.bucketAt (h.index key)).chain ++ others h (h.index key))) := by
      rw [List.append_assoc, List.singleton_append]
      exact List.perm_middle
    refine (hp.pairwise_iff hw.laws.ne_symm).mpr (List.pairwise_cons.mpr ⟨fun x hx hkx => ?_, hd⟩)
    have hxe : x ∈ elems h := hbucket.symm.subset hx
    have hxk : h.compare x.key key = 0 := hw.laws.symm hkx
    exact hnone x (mem_bucket_of_mem_elems hw hxe hxk) hxk
  · have hlen := hbucket.length_eq
    simp only [List.length_append, List.length_singleton] at hlen ⊢
    rw [hw.count_eq, hlen]
    omega

/-- An element of the key's bucket that takes a new value leaves the table
well formed with as many elements. -/
theorem wf_set_replaced {h : Hashtable K V} (hw : Wf h) (key : K) (data : V)
    {pre post : List (Elem K V)} {e : Elem K V}
    (hc : (h.bucketAt (h.index key)).chain = pre ++ e :: post) :
    Wf { h with
      node := h.node.set (h.index key)
        ⟨(h.bucketAt (h.index key)).count, pre ++ { e with value := data } :: post⟩,
      count := h.count } := by
  have hi := index_lt hw key
  have hbucket := elems_perm_bucket (h := h) hi
  have hplaced := hw.placed (h.index key)
  rw [hc] at hplaced
  refine wf_replace hw hi _ _ ?_ ?_ ?_ ?_
  · intro x hx
    simp only [List.mem_append, List.mem_cons] at hx
    rcases hx with hx | rfl | hx
    · exact hplaced x (by simp [hx])
    · exact hplaced e (by simp)
    · exact hplaced x (by simp [hx])
  · simpa [hc] using hw.count_ge (h.index key)
  · -- the keys, and so their distinctness, are those of the old bucket
    have hd := (hbucket.pairwise_iff hw.laws.ne_symm).mp hw.distinct
    rw [hc] at hd
    have hkeys : ((pre ++ { e with value := data } :: post) ++ others h (h.index key)).map
        (·.key) = ((pre ++ e :: post) ++ others h (h.index key)).map (·.key) := by
      simp
    have hd' : (((pre ++ e :: post) ++ others h (h.index key)).map (·.key)).Pairwise
        fun a b => h.compare a b ≠ 0 := List.pairwise_map.mpr hd
    rw [← hkeys] at hd'
    exact List.pairwise_map.mp hd'
  · have hlen := hbucket.length_eq
    rw [hc] at hlen
    simp only [List.length_append, List.length_cons] at hlen ⊢
    rw [hw.count_eq, hlen]

/-- `hashtable_set` keeps the invariant and sets the key in the map, when the
table it leaves has at most `2^31` buckets. -/
theorem hashtableSet_spec {h : Hashtable K V} (hw : Wf h) (key : K) (data : V)
    (hbs : (hashtableSet h key data).bucketSize ≤ 2 ^ 31) :
    Wf (hashtableSet h key data) ∧
      view (hashtableSet h key data) = mapStep h.compare (view h) (.set key data) := by
  obtain ⟨hset, hnone⟩ | ⟨pre, e, post, hc, he, hset⟩ :=
    @chainSet_cases K V h.compare ⟨h.hash key, key, data⟩ (h.bucketAt (h.index key)).chain
  · -- a new element is appended to the key's bucket
    have hw' : Wf { h with
        node := h.node.set (h.index key)
          ⟨(h.bucketAt (h.index key)).count + 1,
            (chainSet h.compare ⟨h.hash key, key, data⟩ (h.bucketAt (h.index key)).chain).1⟩,
        count := h.count + 1 } := by
      rw [hset]
      exact wf_set_appended hw key data hnone
    have hview := view_after_set hw key data _ _ hw'
    have hunfold : hashtableSet h key data =
        let h' := { h with
          node := h.node.set (h.index key)
            ⟨(h.bucketAt (h.index key)).count + 1,
              (chainSet h.compare ⟨h.hash key, key, data⟩ (h.bucketAt (h.index key)).chain).1⟩,
          count := h.count + 1 }
        if h'.count > h'.factor * h'.bucketSize / 100 then hashtableGrow h' else h' := by
      rw [hashtableSet_eq]
      simp only [hset, if_true]
    rw [hunfold] at hbs ⊢
    dsimp only at hbs ⊢
    split
    · -- the growth doubles the buckets, to at most `2^31`
      rename_i hgrow
      rw [if_pos hgrow, hashtableGrow_bucketSize] at hbs
      exact ⟨wf_grow hw' hbs, by rw [view_grow hw' hbs, hview]⟩
    · exact ⟨hw', hview⟩
  · -- the first equivalent element takes the new value
    have hw' : Wf { h with
        node := h.node.set (h.index key)
          ⟨(h.bucketAt (h.index key)).count,
            (chainSet h.compare ⟨h.hash key, key, data⟩ (h.bucketAt (h.index key)).chain).1⟩,
        count := h.count } := by
      rw [hset]
      exact wf_set_replaced hw key data hc
    have hunfold : hashtableSet h key data = { h with
        node := h.node.set (h.index key)
          ⟨(h.bucketAt (h.index key)).count,
            (chainSet h.compare ⟨h.hash key, key, data⟩ (h.bucketAt (h.index key)).chain).1⟩,
        count := h.count } := by
      rw [hashtableSet_eq]
      simp only [hset, Bool.false_eq_true, if_false]
    rw [hunfold]
    exact ⟨hw', view_after_set hw key data _ _ hw'⟩

/-- An element unlinked from its key's bucket leaves the table well formed with
one element less. -/
theorem wf_delete_unlinked {h : Hashtable K V} (hw : Wf h) (key : K)
    {pre post : List (Elem K V)} {e : Elem K V}
    (hc : (h.bucketAt (h.index key)).chain = pre ++ e :: post) :
    Wf { h with
      node := h.node.set (h.index key) ⟨(h.bucketAt (h.index key)).count - 1, pre ++ post⟩,
      count := h.count - 1 } := by
  have hi := index_lt hw key
  have hbucket := elems_perm_bucket (h := h) hi
  refine wf_replace hw hi _ _ ?_ ?_ ?_ ?_
  · intro x hx
    refine hw.placed _ x ?_
    rw [hc]
    rcases List.mem_append.mp hx with hx | hx
    · exact List.mem_append_left _ hx
    · exact List.mem_append_right _ (List.mem_cons_of_mem e hx)
  · have hle := hw.count_ge (h.index key)
    rw [hc] at hle
    simp only [List.length_append, List.length_cons] at hle ⊢
    omega
  · -- the remaining elements are a sublist of the distinct old ones
    have hd := (hbucket.pairwise_iff hw.laws.ne_symm).mp hw.distinct
    refine hd.sublist (List.Sublist.append ?_ (List.Sublist.refl _))
    rw [hc]
    exact List.Sublist.append (List.Sublist.refl pre) (List.sublist_cons_self e post)
  · have hlen := hbucket.length_eq
    rw [hc] at hlen
    simp only [List.length_append, List.length_cons] at hlen ⊢
    rw [hw.count_eq, hlen]
    omega

/-- `hashtable_delete` keeps the invariant and removes the key from the map. -/
theorem hashtableDelete_spec {h : Hashtable K V} (hw : Wf h) (key : K) :
    Wf (hashtableDelete h key) ∧
      view (hashtableDelete h key) = mapStep h.compare (view h) (.delete key) := by
  have hi := index_lt hw key
  have hbucket := elems_perm_bucket (h := h) hi
  have hd := (hbucket.pairwise_iff hw.laws.ne_symm).mp hw.distinct
  cases hdel : chainDelete h.compare key (h.bucketAt (h.index key)).chain with
  | none =>
    -- no equivalent key in its bucket: the table is unchanged and the key absent
    have hunfold : hashtableDelete h key = h := by
      simp only [hashtableDelete, hdel]
    rw [hunfold]
    refine ⟨hw, funext fun k => ?_⟩
    simp only [mapStep]
    split
    · rename_i hk
      have hik : h.index k = h.index key := by simp [index, hw.laws.hash_eq hk]
      rw [view_eq_bucket hw, hik]
      exact chainFind_eq_none fun e he hek =>
        chainDelete_eq_none hdel e he (hw.laws.trans hek (hw.laws.symm hk))
    · rfl
  | some c' =>
    obtain ⟨pre, e, post, hc, hc', he⟩ := chainDelete_eq_some hdel
    have hunfold : hashtableDelete h key = { h with
        node := h.node.set (h.index key) ⟨(h.bucketAt (h.index key)).count - 1, c'⟩,
        count := h.count - 1 } := by
      simp only [hashtableDelete, hdel]
    have hchain := (List.pairwise_append.mp hd).1
    rw [hc, List.pairwise_middle hw.laws.ne_symm, List.pairwise_cons] at hchain
    have hw' : Wf { h with
        node := h.node.set (h.index key) ⟨(h.bucketAt (h.index key)).count - 1, c'⟩,
        count := h.count - 1 } := by
      rw [hc']
      exact wf_delete_unlinked hw key hc
    rw [hunfold]
    refine ⟨hw', funext fun k => ?_⟩
    rw [view_replace hw hi _ _ hw' k]
    simp only [mapStep]
    by_cases hk : h.compare key k = 0
    · -- the unlinked element was the only one equivalent to `k`
      have hik : h.index k = h.index key := by simp [index, hw.laws.hash_eq hk]
      rw [if_pos hik, if_pos hk, hc']
      apply chainFind_eq_none
      intro x hx hxk
      exact hchain.1 x hx (hw.laws.trans he (hw.laws.trans hk (hw.laws.symm hxk)))
    · rw [if_neg hk]
      split
      · rename_i hik
        have hek : h.compare e.key k ≠ 0 := fun hek => hk (hw.laws.trans (hw.laws.symm he) hek)
        rw [view_eq_bucket hw, hik, hc, hc', chainFind_append, chainFind_append, chainFind,
          if_neg hek]
      · rfl

/-- The loop of `hashtable_clear`, from the pass `j` on, empties the chains of
the buckets below `bucket_size` and below `2^31`: past `INT_MAX` its `int`
counter wraps to a value that, as a `size_t`, is past any array. -/
theorem clearLoop_eq {bs : Nat} (hbs : bs ≤ 2 ^ 64 - 2 ^ 31) :
    ∀ (fuel j : Nat) (node : List (Bucket K V)), j ≤ 2 ^ 31 → min bs (2 ^ 31) ≤ j + fuel →
      clearLoop bs fuel j node =
        node.mapIdx fun k b => if j ≤ k ∧ k < min bs (2 ^ 31) then ⟨b.count, []⟩ else b := by
  intro fuel
  induction fuel with
  | zero =>
    intro j node _ hle
    simp only [clearLoop]
    apply List.ext_getElem (List.length_mapIdx ..).symm
    intro k _ _
    rw [List.getElem_mapIdx, if_neg (by omega)]
  | succ fuel ih =>
    intro j node hj hle
    by_cases hlt : j < min bs (2 ^ 31)
    · -- the pass `j` empties bucket `j`
      have hi : sizeOfInt (intOfNat j) = j := sizeOfInt_intOfNat (by omega)
      simp only [clearLoop, hi]
      rw [if_pos (by omega), ih (j + 1) _ (by omega) (by omega)]
      apply List.ext_getElem (by simp)
      intro k _ _
      simp only [List.getElem_mapIdx, List.getElem_modify]
      by_cases hk : j = k
      · subst hk
        rw [if_neg (show ¬ (j + 1 ≤ j ∧ j < min bs (2 ^ 31)) by omega), if_pos rfl,
          if_pos ⟨le_rfl, hlt⟩]
      · rw [if_neg hk]
        by_cases hk' : j + 1 ≤ k ∧ k < min bs (2 ^ 31)
        · rw [if_pos hk', if_pos (by omega)]
        · rw [if_neg hk', if_neg (by omega)]
    · -- the loop stops: `j` is past `bucket_size`, or `(int) 2^31` wrapped
      have hstop : ¬ sizeOfInt (intOfNat j) < bs := by
        rcases Nat.lt_or_ge j (2 ^ 31) with hj' | hj'
        · rw [sizeOfInt_intOfNat hj']
          omega
        · rw [sizeOfInt_intOfNat_of_ge hj' (by omega)]
          omega
      simp only [clearLoop]
      rw [if_neg hstop]
      apply List.ext_getElem (List.length_mapIdx ..).symm
      intro k _ _
      rw [List.getElem_mapIdx, if_neg (by omega)]

/-- With at most `2^31` buckets, `hashtable_clear` empties every chain. -/
theorem clear_node_of_le {h : Hashtable K V} (hbs : h.bucketSize ≤ 2 ^ 31)
    (hlen : h.node.length = h.bucketSize) :
    (hashtableClear h).node = h.node.map fun b => ⟨b.count, []⟩ := by
  show clearLoop h.bucketSize h.bucketSize 0 h.node = _
  rw [clearLoop_eq (by omega) _ 0 _ (Nat.zero_le _) (by omega)]
  apply List.ext_getElem (by simp)
  intro k hk _
  rw [List.length_mapIdx] at hk
  rw [List.getElem_mapIdx, List.getElem_map, if_pos ⟨Nat.zero_le k, by omega⟩]

theorem bucketAt_clear {h : Hashtable K V} (hbs : h.bucketSize ≤ 2 ^ 31)
    (hlen : h.node.length = h.bucketSize) (i : Nat) : ((hashtableClear h).bucketAt i).chain = [] := by
  simp only [bucketAt, clear_node_of_le hbs hlen, List.getD_eq_getElem?_getD, List.getElem?_map]
  cases h.node[i]? <;> rfl

theorem elems_clear {h : Hashtable K V} (hbs : h.bucketSize ≤ 2 ^ 31)
    (hlen : h.node.length = h.bucketSize) : elems (hashtableClear h) = [] := by
  simp [elems, clear_node_of_le hbs hlen]

/-- `hashtable_clear` on a table of at most `2^31` buckets keeps the invariant
(with stale bucket counts) and empties the map. -/
theorem hashtableClear_spec {h : Hashtable K V} (hw : Wf h) (hbs : h.bucketSize ≤ 2 ^ 31) :
    Wf (hashtableClear h) ∧ view (hashtableClear h) = mapStep h.compare (view h) .clear := by
  have hnil := bucketAt_clear hbs hw.length_node
  have helems := elems_clear hbs hw.length_node
  have hlen : (hashtableClear h).node.length = (hashtableClear h).bucketSize := by
    rw [clear_node_of_le hbs hw.length_node, List.length_map]
    exact hw.length_node
  refine ⟨⟨hw.laws, hw.size_pos, hlen, ?_, ?_, ?_, ?_⟩, ?_⟩
  · intro i e he
    rw [hnil] at he
    cases he
  · intro i
    rw [hnil]
    exact Nat.zero_le _
  · rw [helems]
    exact List.Pairwise.nil
  · rw [helems]
    rfl
  · funext k
    simp [view, helems, chainFind, mapStep]

/-- Every operation that leaves at most `2^31` buckets keeps the invariant and
acts on the map as `mapStep`. -/
theorem step_spec {h : Hashtable K V} (hw : Wf h) (op : Op K V)
    (hbs : (step h op).bucketSize ≤ 2 ^ 31) :
    Wf (step h op) ∧ view (step h op) = mapStep h.compare (view h) op := by
  cases op with
  | set key data => exact hashtableSet_spec hw key data hbs
  | delete key => exact hashtableDelete_spec hw key
  | clear => exact hashtableClear_spec hw hbs

/-- No operation shrinks the bucket array. -/
theorem step_bucketSize_le (h : Hashtable K V) (op : Op K V) :
    h.bucketSize ≤ (step h op).bucketSize := by
  cases op with
  | set key data =>
    simp only [step, hashtableSet_eq]
    split
    · split
      · rw [hashtableGrow_bucketSize]
        exact Nat.le_mul_of_pos_right _ (by decide)
      · exact le_rfl
    · exact le_rfl
  | delete key =>
    simp only [step, hashtableDelete]
    split <;> exact le_rfl
  | clear => exact le_rfl

theorem step_compare (h : Hashtable K V) (op : Op K V) : (step h op).compare = h.compare := by
  cases op with
  | set key data =>
    simp only [step, hashtableSet_eq]
    split
    · split <;> rfl
    · rfl
  | delete key =>
    simp only [step, hashtableDelete]
    split <;> rfl
  | clear => rfl

/-- `hashtable_create` with callbacks that pass `attr_ok` makes `b` empty buckets. -/
theorem hashtableCreate_eq_some {hash : K → Nat} {compare : K → K → Int} {attr : Kpattr K}
    (hok : attrOk attr = true) (hhash : attr.hash = some hash) (hcmp : attr.compare = some compare)
    (b : Nat) :
    hashtableCreate b attr = some (⟨hash, compare, b, List.replicate b ⟨0, []⟩, 0, 80⟩ : Hashtable K V) := by
  simp only [hashtableCreate, hok, hhash, hcmp, if_true]

/-- A created table is well formed and stands for the empty map. -/
theorem hashtableCreate_spec {hash : K → Nat} {compare : K → K → Int}
    (laws : KeyLaws hash compare) {attr : Kpattr K} (hhash : attr.hash = some hash)
    (hcmp : attr.compare = some compare) {b : Nat} (hb : 1 ≤ b) {h0 : Hashtable K V}
    (hcreate : hashtableCreate b attr = some h0) :
    Wf h0 ∧ h0.compare = compare ∧ view h0 = fun _ => none := by
  -- a table was made, so the callbacks passed `attr_ok`
  have hok : attrOk attr = true := by
    cases hok : attrOk attr
    · simp [hashtableCreate, hok] at hcreate
    · rfl
  rw [hashtableCreate_eq_some hok hhash hcmp b] at hcreate
  cases hcreate
  have hnil : ∀ i, ((⟨hash, compare, b, List.replicate b ⟨0, []⟩, 0, 80⟩ : Hashtable K V).bucketAt
      i).chain = [] := by
    intro i
    simp only [bucketAt, List.getD_eq_getElem?_getD, List.getElem?_replicate]
    split <;> rfl
  have helems : elems (⟨hash, compare, b, List.replicate b ⟨0, []⟩, 0, 80⟩ : Hashtable K V) = [] := by
    simp [elems]
  refine ⟨⟨laws, hb, List.length_replicate, ?_, ?_, ?_, ?_⟩, rfl, ?_⟩
  · intro i e he
    rw [hnil] at he
    cases he
  · intro i
    rw [hnil]
    exact Nat.zero_le _
  · rw [helems]
    exact List.Pairwise.nil
  · rw [helems]
    rfl
  · funext k
    rw [view, helems]
    rfl

theorem hashtableTravel_eq (h : Hashtable K V) :
    hashtableTravel h = (elems h).map fun e => (e.key, e.value) := by
  simp [hashtableTravel, elems, List.map_flatMap]

/-- `Nat` keys stored by copy, hashed as themselves and compared by equality. -/
def natAttr : Kpattr Nat :=
  ⟨false, false, 8, 8, some id, some fun a b => if a = b then 0 else 1⟩

theorem natAttr_laws : KeyLaws (id : Nat → Nat) (fun a b => if a = b then 0 else 1) where
  refl a := by simp
  symm {a b} h := by
    have hab : a = b := by simpa using h
    simp [hab]
  trans {a b c} h1 h2 := by
    have hab : a = b := by simpa using h1
    have hbc : b = c := by simpa using h2
    simp [hab, hbc]
  hash_eq {a b} h := by simpa using h

section Wrap

/-- `hashtable_set` of a key whose bucket's chain is empty links a new element
there, and grows no table below its threshold. -/
theorem hashtableSet_of_nil {h : Hashtable K V} {key : K} (data : V)
    (hnil : (h.bucketAt (h.index key)).chain = [])
    (hno : ¬ h.count + 1 > h.factor * h.bucketSize / 100) :
    hashtableSet h key data = { h with
      node := h.node.set (h.index key) ⟨(h.bucketAt (h.index key)).count + 1, [⟨h.hash key, key, data⟩]⟩,
      count := h.count + 1 } := by
  rw [hashtableSet_eq]
  simp only [hnil, chainSet, if_true]
  rw [if_neg hno]

theorem hashtableGet_of_nil {h : Hashtable K V} {k : K} (hnil : (h.bucketAt (h.index k)).chain = []) :
    hashtableGet h k = none := by
  simp only [hashtableGet, hnil, chainFind]
  split <;> rfl

@[simp] theorem index_clear (h : Hashtable K V) (k : K) : (hashtableClear h).index k = h.index k := rfl

@[simp] theorem compare_clear (h : Hashtable K V) : (hashtableClear h).compare = h.compare := rfl

@[simp] theorem index_update (h : Hashtable K V) (node : List (Bucket K V)) (count : Nat) (k : K) :
    ({ h with node, count } : Hashtable K V).index k = h.index k := rfl

theorem bucketAt_update_set {h : Hashtable K V} {i : Nat} (hi : i < h.node.length) (b : Bucket K V)
    (n : Nat) : ({ h with node := h.node.set i b, count := n } : Hashtable K V).bucketAt i = b := by
  simp only [bucketAt]
  rw [getD_set_bucket hi, if_pos rfl]

/-- A key set into an empty bucket of a table that does not grow is found there. -/
theorem hashtableGet_set_of_nil {h : Hashtable K V} {key : K} (data : V)
    (hnil : (h.bucketAt (h.index key)).chain = [])
    (hno : ¬ h.count + 1 > h.factor * h.bucketSize / 100)
    (hlen : h.index key < h.node.length) (hrefl : h.compare key key = 0) :
    hashtableGet (hashtableSet h key data) key = some data := by
  rw [hashtableSet_of_nil data hnil hno]
  simp only [hashtableGet, index_update, bucketAt_update_set hlen]
  rw [if_neg (Nat.succ_ne_zero _), chainFind, if_pos hrefl]

/-- `hashtable_clear`'s loop reaches no bucket from `2^31` on. -/
theorem bucketAt_clear_of_ge {h : Hashtable K V} (hbs : h.bucketSize ≤ 2 ^ 64 - 2 ^ 31) {i : Nat}
    (hi : 2 ^ 31 ≤ i) : (hashtableClear h).bucketAt i = h.bucketAt i := by
  show (clearLoop h.bucketSize h.bucketSize 0 h.node).getD i ⟨0, []⟩ = h.node.getD i ⟨0, []⟩
  rw [clearLoop_eq hbs _ 0 _ (Nat.zero_le _) (by omega)]
  simp only [List.getD_eq_getElem?_getD, List.getElem?_mapIdx]
  cases h.node[i]? with
  | none => rfl
  | some b => rw [Option.map_some, if_neg (by omega)]

/-- So a key whose bucket is at `2^31` or past it is found after a clear as before. -/
theorem hashtableGet_clear_of_ge {h : Hashtable K V} (hbs : h.bucketSize ≤ 2 ^ 64 - 2 ^ 31)
    {k : K} (hk : 2 ^ 31 ≤ h.index k) : hashtableGet (hashtableClear h) k = hashtableGet h k := by
  simp only [hashtableGet, index_clear, bucketAt_clear_of_ge hbs hk, compare_clear]

/-- Grown from `2^31` buckets, a table has nothing in its buckets from `2^31`
to `2^32`: an `int` index of `2^31` or more is negative. -/
theorem grow_chain_of_wrap {h : Hashtable K V} (hbs : h.bucketSize = 2 ^ 31) {j : Nat}
    (hj : 2 ^ 31 ≤ j) (hj' : j < 2 ^ 32) : ((hashtableGrow h).bucketAt j).chain = [] := by
  have hok := growOk_grow_node (K := K) (V := V) (h.bucketSize * 2) h.node
  apply List.eq_nil_iff_forall_not_mem.mpr
  intro e he
  have hplaced : sizeOfInt (intOfNat (e.hash % (h.bucketSize * 2))) = j := hok.placed j e he
  rw [hbs] at hplaced
  have hlt : e.hash % (2 ^ 31 * 2) < 2 ^ 32 := Nat.mod_lt _ (by norm_num)
  rcases Nat.lt_or_ge (e.hash % (2 ^ 31 * 2)) (2 ^ 31) with hx | hx
  · rw [sizeOfInt_intOfNat hx] at hplaced
    omega
  · rw [sizeOfInt_intOfNat_of_ge hx (by omega)] at hplaced
    omega

/-- Growing a table of `2^31` buckets loses every key whose hash has its
remainder modulo `2^32` at `2^31` or more. -/
theorem hashtableGet_grow_of_wrap {h : Hashtable K V} (hbs : h.bucketSize = 2 ^ 31) {k : K}
    (hk : 2 ^ 31 ≤ h.hash k % 2 ^ 32) : hashtableGet (hashtableGrow h) k = none := by
  apply hashtableGet_of_nil
  apply grow_chain_of_wrap hbs
  · show 2 ^ 31 ≤ h.hash k % (h.bucketSize * 2)
    rw [hbs]
    exact hk
  · show h.hash k % (h.bucketSize * 2) < 2 ^ 32
    rw [hbs]
    exact Nat.mod_lt _ (by norm_num)

end Wrap

end Chaconne.Hashtable
