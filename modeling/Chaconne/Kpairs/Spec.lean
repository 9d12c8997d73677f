import Chaconne.Kpairs.Basic
import Chaconne.CLib.AssocList

/-!
# The packed store is a bounded finite map

The bytes of a store are the serialisation of a list of pairs (`serialize`):
`key\0value\0` for each, in buffer order. For pairs with non-empty, distinct
keys (`PairsWf`), the walk of `str_kpairs_get` finds the offset of a key's
value (`kpairsWalk_serialize`), and each operation of the store acts on the
serialisation as the association-list operation of `CLib` acts on the pairs:
`str_kpairs_set` of a value from outside the buffer as `upsert` when the result
fits in the buffer, and as nothing otherwise (`strKpairsSet_serialize`: its
`memmove` and `strcpy` put the new value in the old one's place, whichever way
the length changes); `str_kpairs_delete` as `eraseKey`
(`strKpairsDelete_serialize`).
-/

namespace Chaconne

open CLib

/-- The bytes a list of pairs is stored as. -/
def serialize (ps : List (List UInt8 × List UInt8)) : List UInt8 :=
  ps.flatMap fun p => p.1 ++ 0 :: (p.2 ++ [0])

@[simp] theorem serialize_nil : serialize [] = [] := rfl

theorem serialize_cons (p : List UInt8 × List UInt8) (ps : List (List UInt8 × List UInt8)) :
    serialize (p :: ps) = p.1 ++ 0 :: (p.2 ++ 0 :: serialize ps) := by
  simp [serialize]

theorem serialize_append (ps qs : List (List UInt8 × List UInt8)) :
    serialize (ps ++ qs) = serialize ps ++ serialize qs := by
  simp [serialize]

/-- The stored size of the pairs: `|k| + |v| + 2` each. -/
theorem length_serialize (ps : List (List UInt8 × List UInt8)) :
    (serialize ps).length = (ps.map fun p => p.1.length + p.2.length + 2).sum := by
  induction ps with
  | nil => rfl
  | cons p ps ih =>
    rw [serialize_cons]
    simp only [List.length_append, List.length_cons, ih, List.map_cons, List.sum_cons]
    omega

/-- Pairs a store can hold and find: keys non-empty and distinct, keys and
values C strings. -/
structure PairsWf (ps : List (List UInt8 × List UInt8)) : Prop where
  key_ne : ∀ p ∈ ps, p.1 ≠ []
  key_nul : ∀ p ∈ ps, NulFree p.1
  val_nul : ∀ p ∈ ps, NulFree p.2
  nodup : (keys ps).Nodup

theorem PairsWf.tail {p : List UInt8 × List UInt8} {ps : List (List UInt8 × List UInt8)}
    (hw : PairsWf (p :: ps)) : PairsWf ps :=
  ⟨fun q hq => hw.key_ne q (List.mem_cons_of_mem p hq),
   fun q hq => hw.key_nul q (List.mem_cons_of_mem p hq),
   fun q hq => hw.val_nul q (List.mem_cons_of_mem p hq),
   (List.nodup_cons.mp hw.nodup).2⟩

/-! ## C strings inside the buffer -/

theorem drop_append_zero (a b : List UInt8) : (a ++ 0 :: b).drop (a.length + 1) = b := by
  simp

/-! ## The walk of `str_kpairs_get` -/

/-- The offset of the value of `k` in the serialisation. -/
def valueOffset (k : List UInt8) : List (List UInt8 × List UInt8) → Option Nat
  | [] => none
  | p :: ps =>
    if p.1 = k then some (p.1.length + 1)
    else (valueOffset k ps).map (· + (p.1.length + 1 + (p.2.length + 1)))

/-- Over the serialisation of well-formed pairs, followed by the end of the
buffer or by a byte 0, the walk finds the offset of the value of a C-string
key, given fuel beyond the number of pairs. -/
theorem kpairsWalk_serialize {ps : List (List UInt8 × List UInt8)} (hw : PairsWf ps)
    {key : List UInt8} (hkey : NulFree key) {tail : List UInt8} (htail : tail.headD 0 = 0) :
    ∀ fuel, ps.length < fuel → kpairsWalk key fuel (serialize ps ++ tail) = valueOffset key ps := by
  induction ps with
  | nil =>
    intro fuel hfuel
    obtain ⟨f, rfl⟩ : ∃ f, fuel = f + 1 := Nat.exists_eq_add_one.mpr hfuel
    -- the walk stops at the end, or at the 0 where a key should start
    cases tail with
    | nil => rfl
    | cons c t =>
      simp only [List.headD_cons] at htail
      simp [kpairsWalk, htail, valueOffset]
  | cons p ps ih =>
    intro fuel hfuel
    obtain ⟨f, rfl⟩ : ∃ f, fuel = f + 1 := Nat.exists_eq_add_one.mpr (by omega)
    have hwf := hw.tail
    have hk := hw.key_nul p List.mem_cons_self
    have hv := hw.val_nul p List.mem_cons_self
    obtain ⟨c, k', hck⟩ := List.exists_cons_of_ne_nil (hw.key_ne p List.mem_cons_self)
    have hc : c ≠ 0 := (nulFree_cons.mp (hck ▸ hk)).1
    -- the walk reads the key, then skips the value
    have hread : untilNul (c :: (k' ++ 0 :: (p.2 ++ 0 :: (serialize ps ++ tail)))) = p.1 := by
      rw [← List.cons_append, ← hck, untilNul_append_zero _ hk]
    have hskip : (c :: (k' ++ 0 :: (p.2 ++ 0 :: (serialize ps ++ tail)))).drop (p.1.length + 1) =
        p.2 ++ 0 :: (serialize ps ++ tail) := by
      rw [← List.cons_append, ← hck, drop_append_zero]
    rw [serialize_cons, hck]
    simp only [List.cons_append, List.append_assoc]
    rw [kpairsWalk, if_neg hc]
    simp only
    rw [hread, hskip, untilNul_append_zero _ hv, drop_append_zero,
      ih hwf f (by simp only [List.length_cons] at hfuel; omega), valueOffset]
    by_cases hkp : p.1 = key
    · rw [if_pos ((strcmp_eq_zero_iff hkey hk).mpr hkp.symm), if_pos hkp]
    · have h0 : strcmp key p.1 ≠ 0 := fun h => hkp ((strcmp_eq_zero_iff hkey hk).mp h).symm
      rw [if_neg h0, if_neg hkp]

/-- Where the walk's offset points: just after the key, in the pair of that
key, which no pair before it has. -/
theorem valueOffset_eq_some {k : List UInt8} {ps : List (List UInt8 × List UInt8)} {off : Nat}
    (h : valueOffset k ps = some off) :
    ∃ pre v post, ps = pre ++ (k, v) :: post ∧ k ∉ keys pre ∧
      off = (serialize pre).length + k.length + 1 := by
  induction ps generalizing off with
  | nil => cases h
  | cons p ps ih =>
    unfold valueOffset at h
    by_cases hp : p.1 = k
    · rw [if_pos hp] at h
      cases h
      exact ⟨[], p.2, ps, by rw [← hp]; rfl, by simp, by simp [hp]⟩
    · rw [if_neg hp] at h
      obtain ⟨off', hoff', rfl⟩ := Option.map_eq_some_iff.mp h
      obtain ⟨pre, v, post, rfl, hpre, rfl⟩ := ih hoff'
      refine ⟨p :: pre, v, post, rfl, ?_, ?_⟩
      · simp only [keys_cons, List.mem_cons, not_or]
        exact ⟨Ne.symm hp, hpre⟩
      · rw [serialize_cons]
        simp only [List.length_append, List.length_cons]
        omega

theorem valueOffset_eq_none {k : List UInt8} {ps : List (List UInt8 × List UInt8)}
    (h : valueOffset k ps = none) : k ∉ keys ps := by
  induction ps with
  | nil => simp
  | cons p ps ih =>
    unfold valueOffset at h
    by_cases hp : p.1 = k
    · rw [if_pos hp] at h
      cases h
    · rw [if_neg hp, Option.map_eq_none_iff] at h
      simp only [keys_cons, List.mem_cons, not_or]
      exact ⟨Ne.symm hp, ih h⟩

theorem length_le_length_serialize (ps : List (List UInt8 × List UInt8)) :
    ps.length ≤ (serialize ps).length := by
  induction ps with
  | nil => exact Nat.le_refl 0
  | cons p ps ih =>
    rw [serialize_cons]
    simp only [List.length_cons, List.length_append]
    omega

/-- `str_kpairs_get` on a serialisation: the offset of the value of the key,
read as a C string. -/
theorem strKpairsGet_serialize {ps : List (List UInt8 × List UInt8)} (hw : PairsWf ps)
    (k : List UInt8) : strKpairsGet ⟨serialize ps⟩ k = valueOffset (untilNul k) ps := by
  have hnil : ([] : List UInt8).headD 0 = 0 := rfl
  have hwalk := kpairsWalk_serialize hw (untilNul_nulFree k) hnil ((serialize ps).length + 1)
    (Nat.lt_succ_of_le (length_le_length_serialize ps))
  rwa [List.append_nil] at hwalk

/-- The pair of `k` in the serialisation: its value starts at the offset the
walk finds. -/
theorem serialize_split (pre post : List (List UInt8 × List UInt8)) (k v : List UInt8) :
    serialize (pre ++ (k, v) :: post) =
      (serialize pre ++ k ++ [0]) ++ v ++ 0 :: serialize post := by
  rw [serialize_append, serialize_cons]
  simp

theorem cstrAt_split {pre post : List (List UInt8 × List UInt8)} {k v : List UInt8}
    (hv : NulFree v) :
    cstrAt (serialize (pre ++ (k, v) :: post)) ((serialize pre).length + k.length + 1) = v := by
  rw [serialize_split, cstrAt, List.append_assoc (serialize pre ++ k ++ [0]),
    List.drop_left' (by simp; omega), untilNul_append_zero _ hv]

/-- What `str_kpairs_get` returns, read as a string, is the value the pairs
give the key. -/
theorem strKpairsGet_lookup {ps : List (List UInt8 × List UInt8)} (hw : PairsWf ps)
    (k : List UInt8) :
    (strKpairsGet ⟨serialize ps⟩ k).map (cstrAt (serialize ps)) = lookup (untilNul k) ps := by
  rw [strKpairsGet_serialize hw]
  cases h : valueOffset (untilNul k) ps with
  | none => exact (lookup_eq_none (valueOffset_eq_none h)).symm
  | some off =>
    obtain ⟨pre, v, post, rfl, hpre, rfl⟩ := valueOffset_eq_some h
    have hv : NulFree v := hw.val_nul (untilNul k, v) (by simp)
    rw [Option.map_some, cstrAt_split hv, lookup_of_split hpre]

/-! ## Set and delete -/

/-- The buffer with the value at `val`, of `valLen` bytes with its NUL,
replaced by `value` and its NUL. -/
def replaceValue (data : List UInt8) (val valLen : Nat) (value : List UInt8) : List UInt8 :=
  data.take val ++ value ++ 0 :: data.drop (val + valLen)

/-- A value of the old length is copied over the old one. -/
theorem strcpy_eq_replaceValue (data : List UInt8) (val : Nat) {valLen : Nat} {value : List UInt8}
    (hlen : value.length + 1 = valLen) : strcpy data val value = replaceValue data val valLen value := by
  rw [strcpy, replaceValue, ← hlen, Nat.add_assoc]

/-- A longer value: the bytes after the old value move up by `delta`, and the
value is copied into the room they leave. -/
theorem strcpy_memmove_up {data : List UInt8} {val valLen : Nat} {value : List UInt8} (delta : Nat)
    (hnext : val + valLen ≤ data.length) (hlen : value.length + 1 = valLen + delta) :
    (strcpy (memmove data (val + valLen + delta) (val + valLen) (data.length - (val + valLen))) val
      value).take (data.length + delta) = replaceValue data val valLen value := by
  rw [memmove_up delta (by omega), strcpy, replaceValue]
  have hroom : ((data ++ List.replicate delta 0).take (val + valLen + delta)).length =
      val + valLen + delta := by
    simp only [List.length_take, List.length_append, List.length_replicate]
    omega
  -- before the value the buffer is as it was, after it comes the moved tail
  have htake : ((data ++ List.replicate delta 0).take (val + valLen + delta) ++
      data.drop (val + valLen)).take val = data.take val := by
    rw [List.take_append_of_le_length (by omega), List.take_take, Nat.min_eq_left (by omega),
      List.take_append_of_le_length (by omega)]
  have hdrop : ((data ++ List.replicate delta 0).take (val + valLen + delta) ++
      data.drop (val + valLen)).drop (val + value.length + 1) = data.drop (val + valLen) :=
    List.drop_left' (by omega)
  have hlen' : (data.take val ++ value ++ 0 :: data.drop (val + valLen)).length ≤ data.length + delta := by
    simp only [List.length_append, List.length_cons, List.length_take, List.length_drop]
    omega
  rw [htake, hdrop]
  exact List.take_of_length_le hlen'

/-- A shorter value: the bytes after the old value move down by `delta`, the
value is copied before them, and the `delta` bytes left past them are cut off. -/
theorem strcpy_memmove_down {data : List UInt8} {val valLen : Nat} {value : List UInt8} (delta : Nat)
    (hnext : val + valLen ≤ data.length) (hlen : value.length + 1 + delta = valLen) :
    (strcpy (memmove data (val + valLen - delta) (val + valLen) (data.length - (val + valLen))) val
      value).take (data.length - delta) = replaceValue data val valLen value := by
  rw [memmove_down (by omega) (by omega), strcpy, replaceValue]
  have htake : (data.take (val + valLen - delta) ++ data.drop (val + valLen) ++
      data.drop (data.length - delta)).take val = data.take val := by
    rw [List.append_assoc, List.take_append_of_le_length (by simp; omega), List.take_take,
      Nat.min_eq_left (by omega)]
  have hdrop : (data.take (val + valLen - delta) ++ data.drop (val + valLen) ++
      data.drop (data.length - delta)).drop (val + value.length + 1) =
      data.drop (val + valLen) ++ data.drop (data.length - delta) := by
    rw [List.append_assoc]
    exact List.drop_left' (by simp; omega)
  have hlen' : (data.take val ++ value ++ 0 :: data.drop (val + valLen)).length = data.length - delta := by
    simp only [List.length_append, List.length_cons, List.length_take, List.length_drop]
    omega
  rw [htake, hdrop, ← List.cons_append, ← List.append_assoc]
  exact List.take_left' hlen'

/-- The new value in the pair's place. -/
theorem replaceValue_split (pre post : List (List UInt8 × List UInt8)) (k v₀ v : List UInt8) :
    replaceValue (serialize (pre ++ (k, v₀) :: post)) ((serialize pre).length + k.length + 1)
      (v₀.length + 1) v = serialize (pre ++ (k, v) :: post) := by
  have hA : (serialize pre ++ k ++ [0]).length = (serialize pre).length + k.length + 1 := by
    simp only [List.length_append, List.length_singleton]
  rw [serialize_split, serialize_split, replaceValue, ← hA]
  have htake : (serialize pre ++ k ++ [0] ++ v₀ ++ 0 :: serialize post).take
      (serialize pre ++ k ++ [0]).length = serialize pre ++ k ++ [0] := by
    rw [List.append_assoc _ v₀]
    exact List.take_left' rfl
  have hdrop : (serialize pre ++ k ++ [0] ++ v₀ ++ 0 :: serialize post).drop
      ((serialize pre ++ k ++ [0]).length + (v₀.length + 1)) = serialize post := by
    rw [List.append_assoc _ v₀, ← List.drop_drop, List.drop_left]
    exact drop_append_zero v₀ _
  rw [htake, hdrop]

/-- The stored size with the value of one pair replaced. -/
theorem length_serialize_split (pre post : List (List UInt8 × List UInt8)) (k v : List UInt8) :
    (serialize (pre ++ (k, v) :: post)).length =
      (serialize pre).length + k.length + (serialize post).length + 2 + v.length := by
  rw [serialize_split]
  simp only [List.length_append, List.length_cons, List.length_nil]
  omega

/-- `str_kpairs_set` of a value from outside the buffer, on a serialisation:
it stores `upsert` of the pairs when that fits in the buffer, and fails with
the store unchanged otherwise. -/
theorem strKpairsSet_serialize {ps : List (List UInt8 × List UInt8)} (hw : PairsWf ps)
    (hfit : (serialize ps).length ≤ STR_KPAIRS_BUFLEN) (k v : List UInt8) :
    strKpairsSet ⟨serialize ps⟩ k (.ext v) =
      if (serialize (upsert (untilNul k) (untilNul v) ps)).length ≤ STR_KPAIRS_BUFLEN then
        (0, ⟨serialize (upsert (untilNul k) (untilNul v) ps)⟩)
      else (-1, ⟨serialize ps⟩) := by
  unfold strKpairsSet
  simp only [strKpairsGet_serialize hw, untilNul_idem, KpValue.read]
  cases h : valueOffset (untilNul k) ps with
  | some off =>
    -- the key is present: its value is rewritten in place
    obtain ⟨pre, v₀, post, rfl, hpre, rfl⟩ := valueOffset_eq_some h
    have hv₀ : NulFree v₀ := hw.val_nul (untilNul k, v₀) (by simp)
    have hold := length_serialize_split pre post (untilNul k) v₀
    have hnew := length_serialize_split pre post (untilNul k) (untilNul v)
    simp only [cstrAt_split hv₀, upsert_of_split hpre]
    unfold STR_KPAIRS_BUFLEN at hfit ⊢
    -- the three cases of the C code: the same length, longer, shorter
    by_cases heq : (untilNul v).length + 1 = v₀.length + 1
    · rw [if_pos heq, if_pos (by omega), strcpy_eq_replaceValue _ _ heq, replaceValue_split]
    · rw [if_neg heq]
      by_cases hgt : (untilNul v).length + 1 > v₀.length + 1
      · rw [if_pos hgt]
        by_cases hover : (serialize (pre ++ (untilNul k, v₀) :: post)).length +
            ((untilNul v).length + 1 - (v₀.length + 1)) > 8192
        · rw [if_pos hover, if_neg (by omega)]
        · rw [if_neg hover, if_pos (by omega), strcpy_memmove_up _ (by omega) (by omega),
            replaceValue_split]
      · rw [if_neg hgt, if_pos (by omega), strcpy_memmove_down _ (by omega) (by omega),
          replaceValue_split]
  | none =>
    -- the key is absent: the pair is appended
    rw [upsert_of_not_mem _ (valueOffset_eq_none h), serialize_append]
    have hpair : serialize [(untilNul k, untilNul v)] = untilNul k ++ 0 :: (untilNul v ++ [0]) := by
      simp [serialize]
    simp only [hpair, List.length_append, List.length_cons, List.length_nil, List.append_assoc,
      List.cons_append]
    unfold STR_KPAIRS_BUFLEN at hfit ⊢
    split_ifs <;> first | rfl | (exfalso; omega)

/-- `str_kpairs_delete` on a serialisation stores the pairs without the key. -/
theorem strKpairsDelete_serialize {ps : List (List UInt8 × List UInt8)} (hw : PairsWf ps)
    (k : List UInt8) : strKpairsDelete ⟨serialize ps⟩ k = ⟨serialize (eraseKey (untilNul k) ps)⟩ := by
  unfold strKpairsDelete
  rw [strKpairsGet_serialize hw]
  cases h : valueOffset (untilNul k) ps with
  | none => rw [eraseKey_of_not_mem (valueOffset_eq_none h)]
  | some off =>
    obtain ⟨pre, v₀, post, rfl, hpre, rfl⟩ := valueOffset_eq_some h
    have hv₀ : NulFree v₀ := hw.val_nul (untilNul k, v₀) (by simp)
    have hpost : untilNul k ∉ keys post := by
      have hnd := hw.nodup
      simp only [keys_append, keys_cons] at hnd
      exact (List.nodup_cons.mp (List.nodup_append.mp hnd).2.1).1
    dsimp only
    rw [cstrAt_split hv₀, eraseKey_of_split hpre hpost, serialize_append, serialize_append,
      serialize_cons]
    -- the cut runs from the start of the key to the end of the value
    have hstart : (serialize pre).length + (untilNul k).length + 1 - ((untilNul k).length + 1) =
        (serialize pre).length := by omega
    have hend : (serialize pre).length + (untilNul k).length + 1 + (v₀.length + 1) =
        (serialize pre).length + ((untilNul k).length + 1 + (v₀.length + 1)) := by omega
    rw [hstart, hend, List.take_left' rfl, ← List.drop_drop, List.drop_left, ← List.drop_drop,
      drop_append_zero, drop_append_zero]

end Chaconne
