import Mathlib

/-!
# Association lists kept in insertion order

A finite map stored as a list of pairs with distinct keys, where an update
rewrites the pair in place and a new key goes to the end (`upsert`), and a
delete removes the pair (`eraseKey`).

* `lookup_upsert`, `lookup_eraseKey` — the map each operation stands for;
* `nodup_keys_upsert`, `nodup_keys_eraseKey` — keys stay distinct;
* `upsert_of_split`, `eraseKey_of_split`, `upsert_of_not_mem` — where the
  operations act in the list, for layouts that store the pairs in order.
-/

namespace CLib

variable {κ ν : Type}

/-- The keys, in order. -/
def keys (ps : List (κ × ν)) : List κ :=
  ps.map (·.1)

@[simp] theorem keys_nil : keys ([] : List (κ × ν)) = [] := rfl

@[simp] theorem keys_cons (p : κ × ν) (ps : List (κ × ν)) : keys (p :: ps) = p.1 :: keys ps := rfl

@[simp] theorem keys_append (ps qs : List (κ × ν)) : keys (ps ++ qs) = keys ps ++ keys qs :=
  List.map_append

variable [DecidableEq κ]

/-- The value of the first pair with key `k`. -/
def lookup (k : κ) : List (κ × ν) → Option ν
  | [] => none
  | p :: ps => if p.1 = k then some p.2 else lookup k ps

/-- Rewrite the first pair with key `k` to hold `v`, or append `(k, v)`. -/
def upsert (k : κ) (v : ν) : List (κ × ν) → List (κ × ν)
  | [] => [(k, v)]
  | p :: ps => if p.1 = k then (k, v) :: ps else p :: upsert k v ps

/-- Remove the pairs with key `k`. -/
def eraseKey (k : κ) (ps : List (κ × ν)) : List (κ × ν) :=
  ps.filter fun p => p.1 ≠ k

theorem lookup_upsert (k k' : κ) (v : ν) (ps : List (κ × ν)) :
    lookup k' (upsert k v ps) = if k = k' then some v else lookup k' ps := by
  induction ps with
  | nil => simp [upsert, lookup]
  | cons p ps ih =>
    by_cases hp : p.1 = k
    · -- the pair of `k` is rewritten in place
      by_cases hk : k = k' <;> simp [upsert, lookup, hp, hk]
    · by_cases hk : k = k'
      · subst hk
        simp [upsert, lookup, hp, ih]
      · simp [upsert, lookup, hp, hk, ih]

theorem lookup_eraseKey (k k' : κ) (ps : List (κ × ν)) :
    lookup k' (eraseKey k ps) = if k = k' then none else lookup k' ps := by
  induction ps with
  | nil => simp [eraseKey, lookup]
  | cons p ps ih =>
    simp only [eraseKey] at ih ⊢
    by_cases hp : p.1 = k
    · -- the pair of `k` is dropped
      rw [List.filter_cons_of_neg (by simpa using hp), ih]
      by_cases hk : k = k' <;> simp [lookup, hp, hk]
    · rw [List.filter_cons_of_pos (by simpa using hp)]
      by_cases hk : k = k'
      · subst hk
        rw [lookup, if_neg hp, ih, if_pos rfl, if_pos rfl]
      · rw [lookup, ih, if_neg hk, if_neg hk, lookup]

theorem lookup_eq_none {k : κ} {ps : List (κ × ν)} (h : k ∉ keys ps) : lookup k ps = none := by
  induction ps with
  | nil => rfl
  | cons p ps ih =>
    simp only [keys_cons, List.mem_cons, not_or] at h
    simp [lookup, Ne.symm h.1, ih h.2]

theorem keys_upsert_subset (k : κ) (v : ν) (ps : List (κ × ν)) :
    ∀ x ∈ keys (upsert k v ps), x = k ∨ x ∈ keys ps := by
  induction ps with
  | nil => simp [upsert]
  | cons p ps ih =>
    unfold upsert
    split
    · intro x hx
      simp only [keys_cons, List.mem_cons] at hx ⊢
      rcases hx with rfl | hx
      · exact .inl rfl
      · exact .inr (.inr hx)
    · intro x hx
      simp only [keys_cons, List.mem_cons] at hx ⊢
      rcases hx with rfl | hx
      · exact .inr (.inl rfl)
      · rcases ih x hx with h | h
        · exact .inl h
        · exact .inr (.inr h)

theorem mem_upsert {k : κ} {v : ν} {ps : List (κ × ν)} {p : κ × ν} (h : p ∈ upsert k v ps) :
    p = (k, v) ∨ p ∈ ps := by
  induction ps with
  | nil => simpa [upsert] using h
  | cons q ps ih =>
    unfold upsert at h
    split at h
    · rcases List.mem_cons.mp h with rfl | h
      · exact .inl rfl
      · exact .inr (List.mem_cons_of_mem q h)
    · rcases List.mem_cons.mp h with rfl | h
      · exact .inr List.mem_cons_self
      · rcases ih h with h | h
        · exact .inl h
        · exact .inr (List.mem_cons_of_mem q h)

theorem nodup_keys_upsert (k : κ) (v : ν) {ps : List (κ × ν)} (h : (keys ps).Nodup) :
    (keys (upsert k v ps)).Nodup := by
  induction ps with
  | nil => simp [upsert]
  | cons p ps ih =>
    simp only [keys_cons, List.nodup_cons] at h
    unfold upsert
    split
    · rename_i hp
      simpa [hp] using h
    · rename_i hp
      simp only [keys_cons, List.nodup_cons]
      refine ⟨fun hmem => ?_, ih h.2⟩
      rcases keys_upsert_subset k v ps p.1 hmem with h' | h'
      · exact hp h'
      · exact h.1 h'

theorem nodup_keys_eraseKey (k : κ) {ps : List (κ × ν)} (h : (keys ps).Nodup) :
    (keys (eraseKey k ps)).Nodup := by
  unfold keys eraseKey
  exact (List.Sublist.map _ List.filter_sublist).nodup h

/-- The value of a key held after a prefix without it. -/
theorem lookup_of_split {k : κ} {v : ν} {pre post : List (κ × ν)} (hpre : k ∉ keys pre) :
    lookup k (pre ++ (k, v) :: post) = some v := by
  induction pre with
  | nil => simp [lookup]
  | cons p pre ih =>
    simp only [keys_cons, List.mem_cons, not_or] at hpre
    simp [lookup, Ne.symm hpre.1, ih hpre.2]

/-- A present key: `upsert` rewrites its pair where it stands. -/
theorem upsert_of_split {k : κ} {v v₀ : ν} {pre post : List (κ × ν)} (hpre : k ∉ keys pre) :
    upsert k v (pre ++ (k, v₀) :: post) = pre ++ (k, v) :: post := by
  induction pre with
  | nil => simp [upsert]
  | cons p pre ih =>
    simp only [keys_cons, List.mem_cons, not_or] at hpre
    simp [upsert, Ne.symm hpre.1, ih hpre.2]

/-- An absent key: `upsert` appends its pair. -/
theorem upsert_of_not_mem {k : κ} (v : ν) {ps : List (κ × ν)} (h : k ∉ keys ps) :
    upsert k v ps = ps ++ [(k, v)] := by
  induction ps with
  | nil => rfl
  | cons p ps ih =>
    simp only [keys_cons, List.mem_cons, not_or] at h
    simp [upsert, Ne.symm h.1, ih h.2]

/-- A key held once: `eraseKey` cuts its pair out. -/
theorem eraseKey_of_split {k : κ} {v₀ : ν} {pre post : List (κ × ν)} (hpre : k ∉ keys pre)
    (hpost : k ∉ keys post) : eraseKey k (pre ++ (k, v₀) :: post) = pre ++ post := by
  have hkeep : ∀ qs : List (κ × ν), k ∉ keys qs → eraseKey k qs = qs := by
    intro qs hqs
    unfold eraseKey
    rw [List.filter_eq_self]
    intro p hp
    have : p.1 ≠ k := fun h => hqs (h ▸ List.mem_map_of_mem hp)
    simpa using this
  unfold eraseKey at hkeep ⊢
  rw [List.filter_append, List.filter_cons_of_neg (by simp), hkeep pre hpre, hkeep post hpost]

/-- An absent key: `eraseKey` changes nothing. -/
theorem eraseKey_of_not_mem {k : κ} {ps : List (κ × ν)} (h : k ∉ keys ps) :
    eraseKey k ps = ps := by
  unfold eraseKey
  rw [List.filter_eq_self]
  intro p hp
  have : p.1 ≠ k := fun hk => h (hk ▸ List.mem_map_of_mem hp)
  simpa using this

end CLib
