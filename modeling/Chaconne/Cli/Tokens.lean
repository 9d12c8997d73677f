import Chaconne.Cli.ExecuteSpec

/-!
# `line_get_args`: how a line splits into words

`next_key` skips white space and then leaves by one of three exits: the end of
the line (no key), a `|`, which takes the whole rest of the line, or a word of
key bytes, which stops at white space, at a `|` or at the end of the line
(`nextKey_eq_none`, `nextKey_eq_some`; the `'\n'` test after the skip is never
reached, the skip having passed every `'\n'`). `line_get_args` runs it over the
line twice, once counting and once copying; the two loops make the same calls,
so they find the same number of words (`lineCountArgs_eq`).

`Tokenises line ws` is what the matcher assumes of the words: the line is white
space, then the words in order with white space between them, a word stopping
only where no key byte follows (so a `|` word may follow a word directly), and
a `|` word only last, running to the end of the line. `line_get_args` computes
exactly that split (`lineGetArgs_eq_iff`).
-/

namespace Chaconne.Cli

open CLib

/-! ## The counting pass -/

/-- The first loop of `line_get_args`: `count++` for every key `next_key`
finds, on fuel. -/
def lineCountArgsAux : Nat → Nat → List UInt8 → Nat
  | 0, count, _ => count
  | fuel + 1, count, s =>
    match nextKey s with
    | none => count
    | some (_, rest) => lineCountArgsAux fuel (count + 1) rest

/-- The count `line_get_args` allocates `argv` for. -/
def lineCountArgs (line : List UInt8) : Nat :=
  lineCountArgsAux (line.length + 1) 0 line

/-- **Run lemma.** The counting loop makes the calls of the copying loop, so
it counts the words that loop copies. -/
theorem lineCountArgsAux_eq (fuel count : Nat) (s : List UInt8) :
    lineCountArgsAux fuel count s = count + (lineGetArgsAux fuel s).length := by
  induction fuel generalizing count s with
  | zero => rfl
  | succ f ih =>
    cases hk : nextKey s with
    | none => simp only [lineCountArgsAux, lineGetArgsAux, hk, List.length_nil, Nat.add_zero]
    | some p =>
      obtain ⟨w, rest⟩ := p
      simp only [lineCountArgsAux, lineGetArgsAux, hk, ih, List.length_cons]
      omega

theorem lineCountArgs_eq (line : List UInt8) : lineCountArgs line = (lineGetArgs line).length := by
  rw [lineCountArgs, lineCountArgsAux_eq, Nat.zero_add, lineGetArgs]

theorem lineGetArgsAux_nil (fuel : Nat) : lineGetArgsAux fuel [] = [] := by
  cases fuel <;> rfl

/-! ## The exits of `next_key` -/

/-- White space, as `isspace` reads it. -/
def Blank (s : List UInt8) : Prop :=
  ∀ c ∈ s, isspace c = true

instance (s : List UInt8) : Decidable (Blank s) :=
  inferInstanceAs (Decidable (∀ c ∈ s, _))

theorem isspace_ne_zero {c : UInt8} (h : isspace c = true) : c ≠ 0 := by
  rintro rfl
  revert h
  decide

/-- The skip loop of `next_key` passes exactly the white space. -/
theorem skip_iff {c : UInt8} : (c != 0 && isspace c) = true ↔ isspace c = true := by
  constructor
  · intro h
    exact (Bool.and_eq_true _ _).mp h |>.2
  · intro h
    simp [isspace_ne_zero h, h]

theorem ValidWord.nulFree {w : List UInt8} (h : ValidWord w) : NulFree w :=
  fun h0 => (isKeyByte_ne (h.2 0 h0)).1 rfl

/-- White space before the rest changes nothing `next_key` reads. -/
theorem nextKey_blank_append {sp : List UInt8} (hsp : Blank sp) (s : List UInt8) :
    nextKey (sp ++ s) = nextKey s := by
  unfold nextKey
  rw [List.dropWhile_append_of_pos fun c hc => skip_iff.mpr (hsp c hc)]

/-- At a `|`, `next_key` takes the rest of the C string. -/
theorem nextKey_pipe (r : List UInt8) : nextKey (124 :: r) = some (124 :: untilNul r, []) := by
  unfold nextKey
  rw [List.dropWhile_cons_of_neg (by decide)]
  simp

/-- After the end of a C string `next_key` finds nothing. -/
theorem nextKey_of_nul {tail : List UInt8} (htail : ∀ c ∈ tail.head?, c = 0) :
    nextKey tail = none := by
  cases tail with
  | nil => rfl
  | cons c t =>
    rw [htail c rfl]
    unfold nextKey
    rw [List.dropWhile_cons_of_neg (by decide)]
    rfl

/-- `next_key` finds no key only on white space. -/
theorem nextKey_eq_none {s : List UInt8} (hs : NulFree s) (h : nextKey s = none) : Blank s := by
  -- the skip loop ran to the end: a NUL cannot stop it on a C string, nor a `'\n'`
  have hdrop : s.dropWhile (fun c => c != 0 && isspace c) = [] := by
    cases ht : s.dropWhile (fun c => c != 0 && isspace c) with
    | nil => rfl
    | cons c t =>
      have hc : c ∈ s := (List.dropWhile_sublist _).subset (ht ▸ List.mem_cons_self)
      have hstop := List.head_dropWhile_not (fun c => c != 0 && isspace c) (l := s)
        (by rw [ht]; exact List.cons_ne_nil _ _)
      simp only [ht, List.head_cons] at hstop
      unfold nextKey at h
      rw [ht] at h
      dsimp only [List.headD_cons] at h
      split at h
      · exact absurd hc hs
      · exact absurd hstop (by decide)
      · cases h
      · cases h
  intro c hc
  exact skip_iff.mp (List.dropWhile_eq_nil_iff.mp hdrop c hc)

/-- A key byte is not white space. -/
theorem isspace_of_isKeyByte {c : UInt8} (h : isKeyByte c = true) : isspace c = false := by
  simp only [isKeyByte, Bool.and_eq_true, Bool.not_eq_true'] at h
  exact h.2

/-- The bytes after a stretch `takeWhile` kept: their first one fails the test. -/
theorem head_dropWhile_false (p : UInt8 → Bool) (s : List UInt8) :
    ∀ c ∈ (s.dropWhile p).head?, p c = false := by
  intro c hc
  have hne : s.dropWhile p ≠ [] := by
    intro h
    rw [h] at hc
    cases hc
  rw [List.head?_eq_some_head hne, Option.mem_some_iff] at hc
  rw [← hc]
  exact List.head_dropWhile_not p hne

/-- `next_key` found a key: after white space, either a `|` and the rest of the
C string, or a word of key bytes that no key byte follows. -/
theorem nextKey_eq_some {s w rest : List UInt8} (hs : NulFree s) (h : nextKey s = some (w, rest)) :
    ∃ sp, Blank sp ∧
      ((s = sp ++ w ∧ rest = [] ∧ w.head? = some 124) ∨
        (s = sp ++ w ++ rest ∧ ValidWord w ∧ ∀ c ∈ rest.head?, isKeyByte c = false)) := by
  refine ⟨s.takeWhile (fun c => c != 0 && isspace c),
    fun c hc => skip_iff.mp (List.mem_takeWhile_imp (p := fun c => c != 0 && isspace c) hc), ?_⟩
  have hsplit := (List.takeWhile_append_dropWhile (p := fun c => c != 0 && isspace c) (l := s)).symm
  cases ht : s.dropWhile (fun c => c != 0 && isspace c) with
  | nil =>
    unfold nextKey at h
    rw [ht] at h
    cases h
  | cons c t =>
    rw [ht] at hsplit
    have hct : NulFree (c :: t) := (nulFree_append.mp (hsplit ▸ hs)).2
    have hstop : (c != 0 && isspace c) = false := by
      have := head_dropWhile_false (fun c => c != 0 && isspace c) s
      rw [ht] at this
      exact this c rfl
    unfold nextKey at h
    rw [ht] at h
    dsimp only [List.headD_cons] at h
    split at h
    · cases h
    · cases h
    · -- `|`: the key is the rest of the C string
      cases h
      refine .inl ⟨?_, rfl, rfl⟩
      rw [untilNul_of_nulFree hct]
      exact hsplit
    · -- a word: key bytes up to the first byte that is not one
      rename_i h0 _ h124
      cases h
      have hc0 : c ≠ 0 := h0
      have hc124 : c ≠ 124 := h124
      have hkey : isKeyByte c = true := by
        have hsp : isspace c = false := by simpa [hc0] using hstop
        simp [isKeyByte, hc0, hc124, hsp]
      refine .inr ⟨?_, ⟨?_, fun a ha => List.mem_takeWhile_imp ha⟩,
        head_dropWhile_false isKeyByte (c :: t)⟩
      · rw [List.append_assoc, List.takeWhile_append_dropWhile]
        exact hsplit
      · rw [List.takeWhile_cons_of_pos hkey]
        exact List.cons_ne_nil _ _

/-! ## The split of a line -/

/-- How a C string splits into the words the matcher reads. -/
inductive Tokenises : List UInt8 → List (List UInt8) → Prop
  /-- Only white space is left: no more words. -/
  | blank {sp : List UInt8} (hsp : Blank sp) : Tokenises sp []
  /-- White space, then a `|`: the last word, the whole rest of the line. -/
  | pipe {sp rest : List UInt8} (hsp : Blank sp) (hrest : NulFree rest) :
      Tokenises (sp ++ 124 :: rest) [124 :: rest]
  /-- White space, then a word of key bytes where no key byte follows, then the
  split of the rest. -/
  | word {sp w rest : List UInt8} {ws : List (List UInt8)} (hsp : Blank sp) (hw : ValidWord w)
      (hend : ∀ c ∈ rest.head?, isKeyByte c = false) (hrest : Tokenises rest ws) :
      Tokenises (sp ++ w ++ rest) (w :: ws)

namespace Tokenises

variable {line : List UInt8} {ws : List (List UInt8)}

/-- Every word takes a byte of the line at least. -/
theorem length_le (h : Tokenises line ws) : ws.length ≤ line.length := by
  induction h with
  | blank _ => exact Nat.zero_le _
  | pipe _ _ =>
    simp only [List.length_append, List.length_cons, List.length_nil]
    omega
  | word _ hw _ _ ih =>
    have hlen : 0 < _ := List.length_pos_iff.mpr hw.1
    simp only [List.length_append, List.length_cons]
    omega

end Tokenises

/-- **Run lemma (soundness).** With fuel beyond its length, the `next_key` loop
splits a C string as `Tokenises` says. -/
theorem lineGetArgsAux_tokenises (fuel : Nat) :
    ∀ s : List UInt8, NulFree s → s.length < fuel → Tokenises s (lineGetArgsAux fuel s) := by
  induction fuel with
  | zero => exact fun _ _ h => absurd h (Nat.not_lt_zero _)
  | succ f ih =>
    intro s hs hlen
    cases hk : nextKey s with
    | none =>
      simp only [lineGetArgsAux, hk]
      exact .blank (nextKey_eq_none hs hk)
    | some p =>
      obtain ⟨w, rest⟩ := p
      simp only [lineGetArgsAux, hk]
      obtain ⟨sp, hsp, ⟨rfl, rfl, hhead⟩ | ⟨rfl, hw, hend⟩⟩ := nextKey_eq_some hs hk
      · -- the `|` word ends the loop
        obtain ⟨r, rfl⟩ : ∃ r, w = 124 :: r := by
          cases w with
          | nil => cases hhead
          | cons a r => cases hhead; exact ⟨r, rfl⟩
        rw [lineGetArgsAux_nil]
        exact .pipe hsp (nulFree_cons.mp (nulFree_append.mp hs).2).2
      · -- a word, and the loop goes on after it on a shorter line
        have hrest : NulFree rest := (nulFree_append.mp hs).2
        have hwlen : 0 < w.length := List.length_pos_iff.mpr hw.1
        simp only [List.length_append] at hlen
        exact .word hsp hw hend (ih rest hrest (by omega))

/-- **Run lemma (completeness).** The `next_key` loop reads back any split of a
C string, whatever follows its NUL, given fuel beyond the number of words. -/
theorem Tokenises.lineGetArgsAux_eq {line : List UInt8} {ws : List (List UInt8)}
    (h : Tokenises line ws) {tail : List UInt8} (htail : ∀ c ∈ tail.head?, c = 0) :
    ∀ fuel, ws.length < fuel → lineGetArgsAux fuel (line ++ tail) = ws := by
  induction h with
  | blank hsp =>
    intro fuel hfuel
    obtain ⟨f, rfl⟩ := Nat.exists_eq_add_one.mpr hfuel
    simp only [lineGetArgsAux, nextKey_blank_append hsp, nextKey_of_nul htail]
  | @pipe sp rest hsp hrest =>
    intro fuel hfuel
    obtain ⟨f, rfl⟩ := Nat.exists_eq_add_one.mpr (Nat.zero_lt_of_lt hfuel)
    -- the `|` word stops at the NUL
    have hword : untilNul (rest ++ tail) = rest := by
      cases tail with
      | nil => rw [List.append_nil, untilNul_of_nulFree hrest]
      | cons c t => rw [htail c rfl, untilNul_append_zero t hrest]
    simp only [List.append_assoc, List.cons_append, lineGetArgsAux, nextKey_blank_append hsp,
      nextKey_pipe, hword, lineGetArgsAux_nil]
  | @word sp w rest ws hsp hw hend _ ih =>
    intro fuel hfuel
    obtain ⟨f, rfl⟩ := Nat.exists_eq_add_one.mpr (Nat.zero_lt_of_lt hfuel)
    -- no key byte follows the word, the NUL included
    have hend' : ∀ c ∈ (rest ++ tail).head?, isKeyByte c = false := by
      cases rest with
      | nil =>
        intro c hc
        rw [htail c hc]
        rfl
      | cons a r => exact hend
    simp only [List.length_cons, Nat.add_lt_add_iff_right] at hfuel
    simp only [List.append_assoc, lineGetArgsAux, nextKey_blank_append hsp,
      nextKey_word_of_end hw hend', ih f hfuel]

/-- `line_get_args` computes exactly the split of a C string into words. -/
theorem lineGetArgs_eq_iff {line : List UInt8} (hline : NulFree line) {ws : List (List UInt8)} :
    lineGetArgs line = ws ↔ Tokenises line ws := by
  constructor
  · rintro rfl
    exact lineGetArgsAux_tokenises _ line hline (Nat.lt_succ_self _)
  · intro h
    have hnil : ∀ c ∈ ([] : List UInt8).head?, c = 0 := fun _ hc => by cases hc
    have hread := h.lineGetArgsAux_eq hnil (line.length + 1) (Nat.lt_succ_of_le h.length_le)
    rwa [List.append_nil] at hread

/-! ## What the matcher reads -/

namespace Tokenises

variable {line : List UInt8} {ws : List (List UInt8)}

/-- No word is empty. -/
theorem ne_nil (h : Tokenises line ws) : ∀ w ∈ ws, w ≠ [] := by
  induction h with
  | blank _ =>
    intro w hw
    cases hw
  | pipe _ _ =>
    intro w hw
    rw [List.mem_singleton.mp hw]
    exact List.cons_ne_nil _ _
  | word _ hw _ _ ih =>
    intro v hv
    rcases List.mem_cons.mp hv with rfl | hv
    · exact hw.1
    · exact ih v hv

/-- A line has no words exactly when it is all white space: a word starts with
a key byte or a `|`, neither of them white space. -/
theorem eq_nil_iff (h : Tokenises line ws) : ws = [] ↔ Blank line := by
  constructor
  · rintro rfl
    cases h with
    | blank hsp => exact hsp
  · intro hb
    cases h with
    | blank _ => rfl
    | pipe _ _ =>
      have h124 := hb 124 (List.mem_append_right _ List.mem_cons_self)
      exact absurd h124 (by decide)
    | word _ hw _ _ =>
      obtain ⟨c, w', rfl⟩ := List.exists_cons_of_ne_nil hw.1
      have hc := hb c (List.mem_append_left _ (List.mem_append_right _ List.mem_cons_self))
      rw [isspace_of_isKeyByte (hw.2 c List.mem_cons_self)] at hc
      cases hc

/-- Every word but the last is a plain word: no white space and no `|`. -/
theorem valid_dropLast (h : Tokenises line ws) : ∀ w ∈ ws.dropLast, ValidWord w := by
  induction h with
  | blank _ =>
    intro w hw
    cases hw
  | pipe _ _ =>
    intro w hw
    cases hw
  | @word sp w rest ws _ hw _ _ ih =>
    intro v hv
    -- the word is not the last one when more words follow
    cases ws with
    | nil => simp at hv
    | cons u us =>
      rw [List.dropLast_cons_of_ne_nil (List.cons_ne_nil u us)] at hv
      rcases List.mem_cons.mp hv with rfl | hv
      · exact hw
      · exact ih v hv

/-- The last word is a plain word, or a `|` and the whole rest of the line
from it. -/
theorem getLast (h : Tokenises line ws) :
    ∀ w ∈ ws.getLast?, ValidWord w ∨ (w.head? = some 124 ∧ w <:+ line) := by
  induction h with
  | blank _ =>
    intro w hw
    cases hw
  | @pipe sp rest _ _ =>
    intro w hw
    rw [List.getLast?_singleton, Option.mem_some_iff] at hw
    subst hw
    exact .inr ⟨rfl, List.suffix_append _ _⟩
  | @word sp w rest ws _ hw _ _ ih =>
    intro v hv
    cases ws with
    | nil =>
      rw [List.getLast?_singleton, Option.mem_some_iff] at hv
      subst hv
      exact .inl hw
    | cons u us =>
      rw [List.getLast?_cons_cons] at hv
      rcases ih v hv with hv | ⟨h124, hsuf⟩
      · exact .inl hv
      · exact .inr ⟨h124, hsuf.trans (List.suffix_append _ _)⟩

/-- With no `|` word, every word is a plain word. -/
theorem valid_of_no_pipe (h : Tokenises line ws) (hpipe : ∀ w ∈ ws, w.head? ≠ some 124) :
    ∀ w ∈ ws, ValidWord w := by
  intro w hw
  have hne : ws ≠ [] := List.ne_nil_of_mem hw
  have hpipe_w := hpipe w hw
  rw [← List.dropLast_append_getLast hne, List.mem_append, List.mem_singleton] at hw
  rcases hw with hw | rfl
  · exact h.valid_dropLast w hw
  · rcases h.getLast _ (List.getLast?_eq_some_getLast hne) with hv | ⟨h124, -⟩
    · exact hv
    · exact absurd h124 hpipe_w

/-- With no `|` word, the last word ends the line up to white space, and
white space or nothing comes before it. -/
theorem eq_append_getLast (h : Tokenises line ws) (hpipe : ∀ w ∈ ws, w.head? ≠ some 124) :
    ∀ w ∈ ws.getLast?, ∃ pre rest, line = pre ++ w ++ rest ∧ Blank rest ∧
      ∀ c ∈ pre.getLast?, isspace c = true := by
  induction h with
  | blank _ =>
    intro w hw
    cases hw
  | pipe _ _ =>
    exact absurd rfl (hpipe _ List.mem_cons_self)
  | @word sp w rest ws hsp hw hend hrest ih =>
    intro v hv
    cases ws with
    | nil =>
      -- the word is the last one: only white space follows it
      rw [List.getLast?_singleton, Option.mem_some_iff] at hv
      subst hv
      exact ⟨sp, rest, rfl, hrest.eq_nil_iff.mp rfl, fun c hc => hsp c (List.mem_of_getLast? hc)⟩
    | cons u us =>
      rw [List.getLast?_cons_cons] at hv
      have hpipe' : ∀ x ∈ u :: us, x.head? ≠ some 124 := fun x hx => hpipe x (List.mem_cons_of_mem _ hx)
      obtain ⟨pre, rest', hsplit, hblank, hpre⟩ := ih hpipe' v hv
      have hvalid : ValidWord v := by
        rcases hrest.getLast v hv with hv' | ⟨h124, -⟩
        · exact hv'
        · exact absurd h124 (hpipe' v (List.mem_of_getLast? hv))
      -- the last word starts with a key byte and `rest` does not, so white
      -- space comes before the word in `rest`
      have hpre_ne : pre ≠ [] := by
        rintro rfl
        obtain ⟨c, v', rfl⟩ := List.exists_cons_of_ne_nil hvalid.1
        have hc := hend c (by rw [hsplit]; rfl)
        rw [hvalid.2 c List.mem_cons_self] at hc
        cases hc
      refine ⟨sp ++ w ++ pre, rest', by rw [hsplit]; simp only [List.append_assoc], hblank, ?_⟩
      rwa [List.getLast?_append_of_ne_nil _ hpre_ne]

end Tokenises

/-- `line_get_args` on a C string: the words are its split (white space
between them, a `|` word only last), the counting pass finds as many, there
are none exactly on white space, no word is empty, every word but the last has
no white space and no `|`, and the last one has none either or is a `|` with
the whole rest of the line. -/
theorem line_get_args_tokenises (line : List UInt8) (hline : NulFree line) :
    let ws := lineGetArgs line
    Tokenises line ws ∧ lineCountArgs line = ws.length ∧ (ws = [] ↔ Blank line) ∧
      (∀ w ∈ ws, w ≠ []) ∧ (∀ w ∈ ws.dropLast, ValidWord w) ∧
      ∀ w ∈ ws.getLast?, ValidWord w ∨ (w.head? = some 124 ∧ w <:+ line) := by
  intro ws
  have h : Tokenises line ws := (lineGetArgs_eq_iff hline).mp rfl
  exact ⟨h, lineCountArgs_eq line, h.eq_nil_iff, h.ne_nil, h.valid_dropLast, h.getLast⟩

/-- ` show x|grep a`: the words `show`, `x` and `|grep a`, the `|` word right
after `x`. -/
theorem line_get_args_tokenises_pipe :
    NulFree (bytesOf " show x|grep a") ∧
      let ws := lineGetArgs (bytesOf " show x|grep a")
      Tokenises (bytesOf " show x|grep a") ws ∧
        lineCountArgs (bytesOf " show x|grep a") = ws.length ∧
        (ws = [] ↔ Blank (bytesOf " show x|grep a")) ∧ (∀ w ∈ ws, w ≠ []) ∧
        (∀ w ∈ ws.dropLast, ValidWord w) ∧
        ∀ w ∈ ws.getLast?, ValidWord w ∨ (w.head? = some 124 ∧ w <:+ bytesOf " show x|grep a") :=
  ⟨by decide, line_get_args_tokenises (bytesOf " show x|grep a") (by decide)⟩

example : lineGetArgs (bytesOf " show x|grep a") =
    [bytesOf "show", bytesOf "x", bytesOf "|grep a"] := by
  decide

end Chaconne.Cli
