import Chaconne.Kpairs.Spec

/-!
# Runs of the packed store

Any sequence of `str_kpairs_set` and `str_kpairs_delete` calls with non-empty
keys and values from outside the buffer, from `str_kpairs_init`, keeps the
buffer equal to the serialisation of
well-formed pairs that fits in 8192 bytes (`kpairs_run`); the pairs are those
of the association list the same calls build (`pairsStep`). On every such
state `str_kpairs_get` is the lookup of those pairs, `str_kpairs_set` fails
exactly when the new serialisation would not fit, and `str_kpairs_delete`
removes exactly its key (`str_kpairs_bounded_map`).

An empty key breaks this: `str_kpairs_set` stores it and returns 0, and
`str_kpairs_get` cannot find it. So does a value that points into the buffer,
such as what `str_kpairs_get` returned: `str_kpairs_set` copies it after its
`memmove` has moved the bytes under it (`str_kpairs_empty_key_or_alias`).
-/

namespace Chaconne

open CLib

/-- A call that changes a store. -/
inductive KpOp
  | set (key : List UInt8) (value : KpValue)
  | delete (key : List UInt8)

/-- The key a call names. -/
def KpOp.key : KpOp → List UInt8
  | .set key _ => key
  | .delete key => key

/-- A call whose value, if any, is not a pointer into the store's buffer. -/
def KpOp.external : KpOp → Bool
  | .set _ (.buf _) => false
  | _ => true

/-- What `str_kpairs_get` returns, read by the caller as a C string. -/
def getValue (kps : StrKpairs) (key : List UInt8) : Option (List UInt8) :=
  (strKpairsGet kps key).map (cstrAt kps.data)

/-- One call on the store. -/
def kpStep (s : StrKpairs) : KpOp → StrKpairs
  | .set key value => (strKpairsSet s key value).2
  | .delete key => strKpairsDelete s key

/-- The same call on the pairs, with the value the caller passes as it reads
when the call starts: a set whose result would not fit the buffer changes
nothing. -/
def pairsStep (ps : List (List UInt8 × List UInt8)) : KpOp → List (List UInt8 × List UInt8)
  | .set key value =>
    let v := value.read (serialize ps)
    if (serialize (upsert (untilNul key) v ps)).length ≤ STR_KPAIRS_BUFLEN then
      upsert (untilNul key) v ps
    else ps
  | .delete key => eraseKey (untilNul key) ps

/-- A set with a non-empty key keeps the pairs well formed. -/
theorem PairsWf.upsert {ps : List (List UInt8 × List UInt8)} (hw : PairsWf ps) {k : List UInt8}
    (hk : untilNul k ≠ []) {v : List UInt8} (hv : NulFree v) : PairsWf (upsert (untilNul k) v ps) where
  key_ne p hp := by
    rcases mem_upsert hp with rfl | hp
    · exact hk
    · exact hw.key_ne p hp
  key_nul p hp := by
    rcases mem_upsert hp with rfl | hp
    · exact untilNul_nulFree k
    · exact hw.key_nul p hp
  val_nul p hp := by
    rcases mem_upsert hp with rfl | hp
    · exact hv
    · exact hw.val_nul p hp
  nodup := nodup_keys_upsert _ _ hw.nodup

/-- A delete keeps the pairs well formed. -/
theorem PairsWf.eraseKey {ps : List (List UInt8 × List UInt8)} (hw : PairsWf ps) (k : List UInt8) :
    PairsWf (eraseKey k ps) where
  key_ne p hp := hw.key_ne p (List.mem_filter.mp hp).1
  key_nul p hp := hw.key_nul p (List.mem_filter.mp hp).1
  val_nul p hp := hw.val_nul p (List.mem_filter.mp hp).1
  nodup := nodup_keys_eraseKey k hw.nodup

/-- The value a call reads is a C string. -/
theorem KpValue.read_nulFree (b : List UInt8) (value : KpValue) : NulFree (value.read b) := by
  cases value with
  | ext s => exact untilNul_nulFree s
  | buf off => exact untilNul_nulFree _

/-- One call with a value from outside the buffer, on a serialisation, is the
serialisation of the call on the pairs. -/
theorem kpStep_serialize {ps : List (List UInt8 × List UInt8)} (hw : PairsWf ps)
    (hfit : (serialize ps).length ≤ STR_KPAIRS_BUFLEN) {op : KpOp} (hop : op.external = true) :
    kpStep ⟨serialize ps⟩ op = ⟨serialize (pairsStep ps op)⟩ := by
  cases op with
  | set key value =>
    cases value with
    | ext v =>
      simp only [kpStep, pairsStep, KpValue.read, strKpairsSet_serialize hw hfit]
      by_cases hc : (serialize (upsert (untilNul key) (untilNul v) ps)).length ≤ STR_KPAIRS_BUFLEN
      · simp only [hc, if_true]
      · simp only [hc, if_false]
    | buf off => cases hop
  | delete key => exact strKpairsDelete_serialize hw key

/-- A call with a non-empty key keeps the pairs well formed and within the
buffer. -/
theorem pairsStep_wf {ps : List (List UInt8 × List UInt8)} (hw : PairsWf ps)
    (hfit : (serialize ps).length ≤ STR_KPAIRS_BUFLEN) {op : KpOp} (hop : untilNul op.key ≠ []) :
    PairsWf (pairsStep ps op) ∧ (serialize (pairsStep ps op)).length ≤ STR_KPAIRS_BUFLEN := by
  cases op with
  | set key value =>
    simp only [pairsStep]
    split
    · exact ⟨hw.upsert hop (value.read_nulFree _), by assumption⟩
    · exact ⟨hw, hfit⟩
  | delete key =>
    refine ⟨hw.eraseKey _, ?_⟩
    -- a delete only removes bytes
    have hsub : (eraseKey (untilNul key) ps).Sublist ps := List.filter_sublist
    have hle : (serialize (eraseKey (untilNul key) ps)).length ≤ (serialize ps).length := by
      unfold serialize
      exact (hsub.flatMap _).length_le
    exact le_trans hle hfit

/-- **Run lemma.** From any serialisation of well-formed pairs that fits, a
sequence of calls with non-empty keys and values from outside the buffer
leaves the serialisation of the pairs the same calls build, again well formed
and fitting. -/
theorem kpairs_run (ops : List KpOp) (hops : ∀ op ∈ ops, untilNul op.key ≠ [] ∧ op.external = true) :
    ∀ ps : List (List UInt8 × List UInt8), PairsWf ps → (serialize ps).length ≤ STR_KPAIRS_BUFLEN →
      ops.foldl kpStep ⟨serialize ps⟩ = ⟨serialize (ops.foldl pairsStep ps)⟩ ∧
      PairsWf (ops.foldl pairsStep ps) ∧
      (serialize (ops.foldl pairsStep ps)).length ≤ STR_KPAIRS_BUFLEN := by
  induction ops with
  | nil => exact fun ps hw hfit => ⟨rfl, hw, hfit⟩
  | cons op rest ih =>
    intro ps hw hfit
    obtain ⟨hop, hext⟩ := hops op List.mem_cons_self
    obtain ⟨hw', hfit'⟩ := pairsStep_wf hw hfit hop
    rw [List.foldl_cons, List.foldl_cons, kpStep_serialize hw hfit hext]
    exact ih (fun o ho => hops o (List.mem_cons_of_mem op ho)) _ hw' hfit'

/-! ## The store as a bounded map -/

section Wf

variable {ps : List (List UInt8 × List UInt8)} (hw : PairsWf ps)
include hw

theorem getValue_serialize (k : List UInt8) : getValue ⟨serialize ps⟩ k = lookup (untilNul k) ps :=
  strKpairsGet_lookup hw k

variable (hfit : (serialize ps).length ≤ STR_KPAIRS_BUFLEN)
include hfit

/-- `str_kpairs_set` fails exactly when the pairs with the key set would not fit. -/
theorem strKpairsSet_fail_iff (k v : List UInt8) :
    (strKpairsSet ⟨serialize ps⟩ k (.ext v)).1 = -1 ↔
      STR_KPAIRS_BUFLEN < (serialize (upsert (untilNul k) (untilNul v) ps)).length := by
  rw [strKpairsSet_serialize hw hfit]
  split_ifs with h
  · exact ⟨fun h0 => absurd h0 (by decide), fun hlt => absurd h (Nat.not_le.mpr hlt)⟩
  · exact ⟨fun _ => Nat.lt_of_not_le h, fun _ => rfl⟩

/-- A failed `str_kpairs_set` leaves the store as it was. -/
theorem strKpairsSet_fail_unchanged {k v : List UInt8}
    (h : (strKpairsSet ⟨serialize ps⟩ k (.ext v)).1 = -1) :
    (strKpairsSet ⟨serialize ps⟩ k (.ext v)).2 = ⟨serialize ps⟩ := by
  rw [strKpairsSet_serialize hw hfit] at h ⊢
  -- the branch that returns 0 contradicts the hypothesis
  split_ifs at h ⊢
  rfl

/-- A `str_kpairs_set` that does not fail returns 0, and afterwards the key has
the new value and every other key its old one. -/
theorem strKpairsSet_ok {k v : List UInt8} (hk : untilNul k ≠ [])
    (h : (strKpairsSet ⟨serialize ps⟩ k (.ext v)).1 ≠ -1) :
    (strKpairsSet ⟨serialize ps⟩ k (.ext v)).1 = 0 ∧ ∀ k',
      getValue (strKpairsSet ⟨serialize ps⟩ k (.ext v)).2 k' =
        if untilNul k' = untilNul k then some (untilNul v) else lookup (untilNul k') ps := by
  rw [strKpairsSet_serialize hw hfit] at h ⊢
  split_ifs at h ⊢ with hle
  · refine ⟨rfl, fun k' => ?_⟩
    rw [getValue_serialize (hw.upsert hk (untilNul_nulFree v)), lookup_upsert]
    by_cases hkk : untilNul k' = untilNul k
    · rw [if_pos hkk.symm, if_pos hkk]
    · rw [if_neg (Ne.symm hkk), if_neg hkk]
  · exact absurd rfl h

end Wf

/-- After `str_kpairs_delete` the key has no value and every other key keeps its
own. -/
theorem getValue_strKpairsDelete {ps : List (List UInt8 × List UInt8)} (hw : PairsWf ps)
    (k k' : List UInt8) :
    getValue (strKpairsDelete ⟨serialize ps⟩ k) k' =
      if untilNul k' = untilNul k then none else lookup (untilNul k') ps := by
  rw [strKpairsDelete_serialize hw, getValue_serialize (hw.eraseKey _), lookup_eraseKey]
  by_cases hkk : untilNul k' = untilNul k
  · rw [if_pos hkk.symm, if_pos hkk]
  · rw [if_neg (Ne.symm hkk), if_neg hkk]

/-- From `str_kpairs_init`, after any calls with non-empty keys and values from
outside the buffer: the buffer is the serialisation of pairs with distinct
keys, of `|k| + |v| + 2` bytes each and at most 8192 in all; `str_kpairs_get`
gives each key its value in the pairs; `str_kpairs_set` of a value from
outside the buffer fails exactly when the result would not fit, and then
changes nothing, and otherwise returns 0 with the key set and the other keys
kept; `str_kpairs_delete` removes exactly its key. -/
theorem str_kpairs_bounded_map (ops : List KpOp)
    (hops : ∀ op ∈ ops, untilNul op.key ≠ [] ∧ op.external = true) :
    let s := ops.foldl kpStep strKpairsInit
    let ps := ops.foldl pairsStep []
    s.data = serialize ps ∧ (keys ps).Nodup ∧
      s.data.length = (ps.map fun p => p.1.length + p.2.length + 2).sum ∧
      s.data.length ≤ STR_KPAIRS_BUFLEN ∧
      (∀ k, getValue s k = lookup (untilNul k) ps) ∧
      (∀ k v,
        ((strKpairsSet s k (.ext v)).1 = -1 ↔
          STR_KPAIRS_BUFLEN < (serialize (upsert (untilNul k) (untilNul v) ps)).length) ∧
        ((strKpairsSet s k (.ext v)).1 = -1 → (strKpairsSet s k (.ext v)).2 = s) ∧
        ((strKpairsSet s k (.ext v)).1 ≠ -1 → untilNul k ≠ [] →
          (strKpairsSet s k (.ext v)).1 = 0 ∧ ∀ k', getValue (strKpairsSet s k (.ext v)).2 k' =
            if untilNul k' = untilNul k then some (untilNul v) else lookup (untilNul k') ps)) ∧
      (∀ k k', getValue (strKpairsDelete s k) k' =
        if untilNul k' = untilNul k then none else lookup (untilNul k') ps) := by
  intro s ps
  have hwf0 : PairsWf [] := ⟨by simp, by simp, by simp, List.nodup_nil⟩
  obtain ⟨hs, hw, hfit⟩ := kpairs_run ops hops [] hwf0 (by decide)
  have hs' : s = ⟨serialize ps⟩ := hs
  rw [hs']
  exact ⟨rfl, hw.nodup, length_serialize ps, hfit, getValue_serialize hw,
    fun k v => ⟨strKpairsSet_fail_iff hw hfit k v, strKpairsSet_fail_unchanged hw hfit,
      fun h hk => strKpairsSet_ok hw hfit hk h⟩,
    getValue_strKpairsDelete hw⟩

theorem str_kpairs_bounded_map_set_delete :
    let ops := [KpOp.set (bytesOf "name") (.ext (bytesOf "chaconne")), .delete (bytesOf "name")]
    (∀ op ∈ ops, untilNul op.key ≠ [] ∧ op.external = true) ∧
      (ops.foldl kpStep strKpairsInit).data = serialize (ops.foldl pairsStep []) :=
  ⟨by decide, (str_kpairs_bounded_map _ (by decide)).1⟩

/-- With an empty key `str_kpairs_set` returns 0, yet `str_kpairs_get` finds
neither that key nor a key set after it. And a value that points into the
buffer is copied after the `memmove` has moved the bytes under it:
`set("a", get("b"))` on `a\0x\0b\0yyyy\0` returns 0, gives `a` the value `yb`
and loses `b`. -/
theorem str_kpairs_empty_key_or_alias :
    let s := (strKpairsSet strKpairsInit [] (.ext (bytesOf "v"))).2
    let t : StrKpairs :=
      ⟨bytesOf "a" ++ 0 :: bytesOf "x" ++ 0 :: bytesOf "b" ++ 0 :: bytesOf "yyyy" ++ [0]⟩
    let r := strKpairsSet t (bytesOf "a") (.buf 6)
    (strKpairsSet strKpairsInit [] (.ext (bytesOf "v"))).1 = 0 ∧ getValue s [] = none ∧
      (strKpairsSet s (bytesOf "k") (.ext (bytesOf "w"))).1 = 0 ∧
      getValue (strKpairsSet s (bytesOf "k") (.ext (bytesOf "w"))).2 (bytesOf "k") = none ∧
    strKpairsGet t (bytesOf "b") = some 6 ∧ r.1 = 0 ∧ getValue r.2 (bytesOf "a") = some (bytesOf "yb") ∧
      getValue r.2 (bytesOf "b") = none := by
  decide

end Chaconne
