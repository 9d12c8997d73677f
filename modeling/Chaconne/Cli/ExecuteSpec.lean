import Chaconne.Cli.Execute
import Chaconne.Cli.SearchSpec

/-!
# Lines of words, and what `cmd_execute` does with them

A line typed as words separated by single spaces splits back into those words
(`lineGetArgs_joinWords`), and `cmd_execute` on such a line is the search on
all its words followed by the outcome at the node reached
(`cmdExecute_joinWords`).
-/

namespace Chaconne.Cli

open CLib

/-- A word as a user types it: not empty, with no NUL, `|` or white space. -/
def ValidWord (w : List UInt8) : Prop :=
  w ≠ [] ∧ ∀ c ∈ w, isKeyByte c = true

instance (w : List UInt8) : Decidable (ValidWord w) :=
  inferInstanceAs (Decidable (_ ∧ _))

/-- `ValidWord` as one `List.all`: the form `decide` evaluates on a literal
word without unfolding the bounded quantifier byte by byte. -/
theorem validWord_iff_all {w : List UInt8} : ValidWord w ↔ w ≠ [] ∧ w.all isKeyByte = true := by
  simp only [ValidWord, List.all_eq_true]

/-- The line of the words, separated by single spaces. -/
def joinWords : List (List UInt8) → List UInt8
  | [] => []
  | [w] => w
  | w :: ws => w ++ 32 :: joinWords ws

theorem joinWords_cons (w : List UInt8) (ws : List (List UInt8)) :
    joinWords (w :: ws) = w ++ ws.flatMap (32 :: ·) := by
  induction ws generalizing w with
  | nil => simp [joinWords]
  | cons v vs ih => simp [joinWords, ih v]

theorem isKeyByte_space : isKeyByte 32 = false := by decide

/-- A key byte is none of the bytes `next_key` dispatches on. -/
theorem isKeyByte_ne {c : UInt8} (h : isKeyByte c = true) : c ≠ 0 ∧ c ≠ 10 ∧ c ≠ 124 := by
  refine ⟨?_, ?_, ?_⟩ <;> rintro rfl <;> revert h <;> decide

theorem isKeyByte_not_space {c : UInt8} (h : isKeyByte c = true) :
    (c != 0 && isspace c) = false := by
  simp only [isKeyByte, Bool.and_eq_true, bne_iff_ne, ne_eq, Bool.not_eq_eq_eq_not,
    Bool.not_true] at h
  simp [h.2]

/-- `next_key` skips a space. -/
theorem nextKey_space (r : List UInt8) : nextKey (32 :: r) = nextKey r := by
  simp only [nextKey, List.dropWhile_cons]
  rfl

/-- `next_key` on a word that no key byte follows (the line ends, or white
space or a `|` comes next) reads that word. -/
theorem nextKey_word_of_end {w r : List UInt8} (hw : ValidWord w)
    (hr : ∀ c ∈ r.head?, isKeyByte c = false) : nextKey (w ++ r) = some (w, r) := by
  obtain ⟨c, w', rfl⟩ := List.exists_cons_of_ne_nil hw.1
  have hc := hw.2 c List.mem_cons_self
  have hkey : ∀ a ∈ c :: w', isKeyByte a = true := hw.2
  -- the word stops where the rest begins
  have hr' : r.takeWhile isKeyByte = [] ∧ r.dropWhile isKeyByte = r := by
    cases r with
    | nil => exact ⟨rfl, rfl⟩
    | cons a r' =>
      have ha := hr a rfl
      simp [ha]
  obtain ⟨h0, h10, h124⟩ := isKeyByte_ne hc
  unfold nextKey
  rw [List.cons_append, List.dropWhile_cons, isKeyByte_not_space hc]
  simp only [Bool.false_eq_true, if_false, List.headD_cons]
  rw [← List.cons_append, List.takeWhile_append_of_pos hkey,
    List.dropWhile_append_of_pos hkey, hr'.1, hr'.2, List.append_nil]

/-- `next_key` on a word followed by the end of the line or a space reads that
word. -/
theorem nextKey_word {w r : List UInt8} (hw : ValidWord w) (hr : r.head? = none ∨ r.head? = some 32) :
    nextKey (w ++ r) = some (w, r) := by
  refine nextKey_word_of_end hw fun c hc => ?_
  rcases hr with hr | hr
  · rw [hr] at hc
    cases hc
  · rw [hr, Option.mem_some_iff] at hc
    rw [← hc]
    exact isKeyByte_space

/-- A space before the rest of the line changes nothing the loop reads. -/
theorem lineGetArgsAux_space (fuel : Nat) (r : List UInt8) :
    lineGetArgsAux fuel (32 :: r) = lineGetArgsAux fuel r := by
  cases fuel with
  | zero => rfl
  | succ f => simp only [lineGetArgsAux, nextKey_space]

/-- The `next_key` loop on joined words reads them back, given fuel beyond
their number. -/
theorem lineGetArgsAux_joinWords {ws : List (List UInt8)} (hws : ∀ w ∈ ws, ValidWord w) :
    ∀ fuel, ws.length < fuel → lineGetArgsAux fuel (joinWords ws) = ws := by
  induction ws with
  | nil =>
    intro fuel hfuel
    obtain ⟨f, rfl⟩ := Nat.exists_eq_succ_of_ne_zero (Nat.pos_iff_ne_zero.mp hfuel)
    rfl
  | cons w ws ih =>
    intro fuel hfuel
    obtain ⟨f, rfl⟩ : ∃ f, fuel = f + 1 := Nat.exists_eq_add_one.mpr (by omega)
    have hw := hws w List.mem_cons_self
    have ih' := ih (fun v hv => hws v (List.mem_cons_of_mem w hv)) f
      (by simp only [List.length_cons] at hfuel; omega)
    -- the first word is read, then the loop goes on after it
    cases ws with
    | nil =>
      have hkey := nextKey_word (r := []) hw (.inl rfl)
      rw [List.append_nil] at hkey
      simp only [joinWords, lineGetArgsAux, hkey]
      rw [← ih']
      rfl
    | cons v vs =>
      have hkey := nextKey_word (r := 32 :: joinWords (v :: vs)) hw (.inr rfl)
      simp only [joinWords] at hkey ih' ⊢
      simp only [lineGetArgsAux, hkey, lineGetArgsAux_space, ih']

/-- `line_get_args` on joined words gives the words back. -/
theorem lineGetArgs_joinWords {ws : List (List UInt8)} (hws : ∀ w ∈ ws, ValidWord w) :
    lineGetArgs (joinWords ws) = ws := by
  apply lineGetArgsAux_joinWords hws
  -- every word takes at least one byte of the line
  suffices ws.length ≤ (joinWords ws).length by omega
  induction ws with
  | nil => exact Nat.le_refl 0
  | cons w ws ih =>
    have hw := (hws w List.mem_cons_self).1
    have ih' := ih fun v hv => hws v (List.mem_cons_of_mem w hv)
    have hlen : 1 ≤ w.length := List.length_pos_iff.mpr hw
    cases ws with
    | nil => simpa [joinWords] using hlen
    | cons v vs =>
      simp only [joinWords, List.length_append, List.length_cons] at ih' ⊢
      omega

/-- A valid word does not start with `|`. -/
theorem ValidWord.headD_ne {w : List UInt8} (hw : ValidWord w) : w.headD 0 ≠ 124 := by
  obtain ⟨c, w', rfl⟩ := List.exists_cons_of_ne_nil hw.1
  exact (isKeyByte_ne (hw.2 c List.mem_cons_self)).2.2

/-- `cmd_execute` on a line whose words do not start with `|`: the search on all
of them from the root's children, then the outcome at the node it reached;
no pipe. -/
theorem cmdExecute_of_words {line : List UInt8} {ws : List (List UInt8)}
    (hws : lineGetArgs line = ws) (hne : ws ≠ []) (hbar : ∀ w ∈ ws, w.headD 0 ≠ 124)
    (run : CmdFunc → CmdOpt → Int) (tree : CmdNode) (opt : CmdOpt) :
    cmdExecute run tree line opt =
      let r := cmdSearch tree.children ⟨tree, ws, opt.argv, some opt.kpairs⟩
      let opt' : CmdOpt := ⟨r.2.argv, r.2.kpairs.getD opt.kpairs⟩
      let e := execNode run r.1 r.2.ret opt'
      ⟨e.1, e.2.1, e.2.2 ++ execMessage e.1 line, none, cmdoptClear opt'⟩ := by
  have hidx : ws.findIdx (fun w => w.headD 0 == 124) = ws.length :=
    List.findIdx_eq_length.mpr fun w hw => by simpa using hbar w hw
  have hlen : ws.length ≠ 0 := by simpa using hne
  simp only [cmdExecute, hws, hidx, hlen, if_false, List.take_length, Nat.lt_irrefl, false_and]

/-- The same for a line typed as valid words separated by spaces. -/
theorem cmdExecute_joinWords {ws : List (List UInt8)} (hws : ∀ w ∈ ws, ValidWord w)
    (hne : ws ≠ []) (run : CmdFunc → CmdOpt → Int) (tree : CmdNode) (opt : CmdOpt) :
    cmdExecute run tree (joinWords ws) opt =
      let r := cmdSearch tree.children ⟨tree, ws, opt.argv, some opt.kpairs⟩
      let opt' : CmdOpt := ⟨r.2.argv, r.2.kpairs.getD opt.kpairs⟩
      let e := execNode run r.1 r.2.ret opt'
      ⟨e.1, e.2.1, e.2.2 ++ execMessage e.1 (joinWords ws), none, cmdoptClear opt'⟩ :=
  cmdExecute_of_words (lineGetArgs_joinWords hws) hne (fun w hw => (hws w hw).headD_ne) run
    tree opt

end Chaconne.Cli
