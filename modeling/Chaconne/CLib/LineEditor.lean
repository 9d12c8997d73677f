import Chaconne.CLib.Cursor
import Chaconne.CLib.Loop

/-!
# A line editor

What a line editor is for: a line `s` and a cursor `k ≤ |s|` in it, changed by
keys that insert at the cursor, delete next to it, move it, or replace the
line. Words are the runs between separators: a word to the right is reached
over separators and then over the word (`wordEnd`), a word to the left the
same way back (`wordStart`), and the word kills delete what such a move
crosses.

Each operation is stated in closed form, and each keeps the line within a
capacity, a cell left for a terminator, and free of that terminator (`Wf`).

A key that moves or deletes one element at a time while a test holds is a
`loopWhile` of a primitive operation; what such a loop computes from any cursor
is the closed form (`loopWhile_left`, `loopWhile_right`,
`loopWhile_deleteBackward`, `loopWhile_deleteForward`), and two kills in a row
are one kill of a longer stretch (`killBack_killBack`, `killFwd_killFwd`).
-/

namespace CLib

/-- A line and a cursor position in it. -/
structure Editor (α : Type) where
  s : List α
  k : Nat
deriving DecidableEq, Repr

namespace Editor

variable {α : Type}

/-- The cursor within the line, the line shorter than `cap` (a cell stays for
the terminator) and without the terminator `nul`. -/
structure Wf (cap : Nat) (nul : α) (e : Editor α) : Prop where
  cursor : e.k ≤ e.s.length
  length : e.s.length < cap
  noNul : nul ∉ e.s

/-- The element before the cursor. -/
def before (e : Editor α) : Option α :=
  (e.s.take e.k).getLast?

/-- The element under the cursor. -/
def atCursor (e : Editor α) : Option α :=
  e.s[e.k]?

/-! ## Keys -/

/-- Insert `c` at the cursor, unless the line would fill the capacity. -/
def insert (cap : Nat) (c : α) (e : Editor α) : Editor α :=
  if e.s.length + 1 ≥ cap then e else ⟨e.s.take e.k ++ c :: e.s.drop e.k, e.k + 1⟩

def left (e : Editor α) : Editor α := ⟨e.s, e.k - 1⟩

def right (e : Editor α) : Editor α := ⟨e.s, min (e.k + 1) e.s.length⟩

def home (e : Editor α) : Editor α := ⟨e.s, 0⟩

def toEnd (e : Editor α) : Editor α := ⟨e.s, e.s.length⟩

/-- Delete the element before the cursor. -/
def deleteBackward (e : Editor α) : Editor α :=
  if e.k = 0 then e else ⟨e.s.eraseIdx (e.k - 1), e.k - 1⟩

/-- Delete the element under the cursor. -/
def deleteForward (e : Editor α) : Editor α := ⟨e.s.eraseIdx e.k, e.k⟩

/-- Cut the line at the cursor. -/
def killToEnd (e : Editor α) : Editor α := ⟨e.s.take e.k, e.k⟩

def clear : Editor α := ⟨[], 0⟩

/-- A new line, with the cursor at its end. -/
def load (line : List α) : Editor α := ⟨line, line.length⟩

/-- The cursor moved left over the elements that pass `p`. -/
def moveBack (p : α → Bool) (e : Editor α) : Editor α := ⟨e.s, backOver p e.s e.k⟩

/-- The cursor moved right over the elements that pass `p`. -/
def moveFwd (p : α → Bool) (e : Editor α) : Editor α := ⟨e.s, fwdOver p e.s e.k⟩

/-- The elements left of the cursor that pass `p` deleted. -/
def killBack (p : α → Bool) (e : Editor α) : Editor α :=
  ⟨e.s.take (backOver p e.s e.k) ++ e.s.drop e.k, backOver p e.s e.k⟩

/-- The elements from the cursor on that pass `p` deleted. -/
def killFwd (p : α → Bool) (e : Editor α) : Editor α :=
  ⟨e.s.take e.k ++ e.s.drop (fwdOver p e.s e.k), e.k⟩

/-- Write `w` from the cursor on, as much as leaves a cell for the terminator,
and end the line there. -/
def overwrite (cap : Nat) (w : List α) (e : Editor α) : Editor α :=
  load (e.s.take e.k ++ w.take (cap - e.k - 1))

section Words

variable [BEq α]

/-- The start of the word left of `k`: back over separators, then over the
word. -/
def wordStart (sp : α) (s : List α) (k : Nat) : Nat :=
  backOver (· != sp) s (backOver (· == sp) s k)

/-- The end of the word right of `k`: over separators, then over the word. -/
def wordEnd (sp : α) (s : List α) (k : Nat) : Nat :=
  fwdOver (· != sp) s (fwdOver (· == sp) s k)

def wordLeft (sp : α) (e : Editor α) : Editor α := ⟨e.s, wordStart sp e.s e.k⟩

def wordRight (sp : α) (e : Editor α) : Editor α := ⟨e.s, wordEnd sp e.s e.k⟩

/-- Delete back to the start of the word left of the cursor. -/
def killWordBackward (sp : α) (e : Editor α) : Editor α :=
  ⟨e.s.take (wordStart sp e.s e.k) ++ e.s.drop e.k, wordStart sp e.s e.k⟩

/-- Delete up to the end of the word right of the cursor. -/
def killWordForward (sp : α) (e : Editor α) : Editor α :=
  ⟨e.s.take e.k ++ e.s.drop (wordEnd sp e.s e.k), e.k⟩

/-- Replace the last word of the line by `w`, as much as fits, followed by a
separator when `full`; the cursor ends at the end. -/
def complete (cap : Nat) (sp : α) (full : Bool) (w : List α) (e : Editor α) : Editor α :=
  let e := overwrite cap w (moveBack (· != sp) (toEnd e))
  if full then insert cap sp e else e

end Words

/-! ## The element next to the cursor -/

theorem before_eq {e : Editor α} (hk : e.k ≤ e.s.length) :
    e.before = if e.k = 0 then none else e.s[e.k - 1]? := by
  unfold before
  rw [List.getLast?_take]
  split_ifs with h0
  · rfl
  · rw [List.getElem?_eq_getElem (by omega), Option.some_or]

theorem before_any_of_true {p : α → Bool} {e : Editor α} (hk : e.k ≤ e.s.length)
    (h : e.before.any p = true) : ∃ hlt : e.k - 1 < e.s.length, 0 < e.k ∧ p e.s[e.k - 1] = true := by
  rw [before_eq hk] at h
  split_ifs at h with h0
  · cases h
  · rw [List.getElem?_eq_getElem (by omega)] at h
    exact ⟨by omega, by omega, by simpa using h⟩

theorem atCursor_any_of_true {p : α → Bool} {e : Editor α} (h : e.atCursor.any p = true) :
    ∃ hk : e.k < e.s.length, p e.s[e.k] = true := by
  unfold atCursor at h
  by_cases hk : e.k < e.s.length
  · rw [List.getElem?_eq_getElem hk] at h
    exact ⟨hk, by simpa using h⟩
  · rw [List.getElem?_eq_none (by omega)] at h
    cases h

/-- Where the test fails before the cursor, stepping back over it stays. -/
theorem backOver_of_before {p : α → Bool} {e : Editor α} (hk : e.k ≤ e.s.length)
    (h : e.before.any p = false) : backOver p e.s e.k = e.k := by
  rw [before_eq hk] at h
  split_ifs at h with h0
  · rw [h0, backOver_zero]
  · rw [List.getElem?_eq_getElem (by omega)] at h
    have hstep := backOver_succ_of_neg p (show e.k - 1 < e.s.length by omega) (by simpa using h)
    rwa [Nat.sub_add_cancel (Nat.pos_of_ne_zero h0)] at hstep

/-- Where the test fails under the cursor, stepping right over it stays. -/
theorem fwdOver_of_atCursor {p : α → Bool} {e : Editor α} (h : e.atCursor.any p = false) :
    fwdOver p e.s e.k = e.k := by
  unfold atCursor at h
  by_cases hk : e.k < e.s.length
  · rw [List.getElem?_eq_getElem hk] at h
    exact fwdOver_of_neg p hk (by simpa using h)
  · exact fwdOver_of_length_le p (by omega)

/-- Stepping left over every element reaches the start of the line. -/
theorem moveBack_true (e : Editor α) : e.moveBack (fun _ => true) = e.home := by
  simp [moveBack, home, backOver, List.dropWhile_eq_nil_iff]

/-- Stepping right over every element reaches the end of the line. -/
theorem moveFwd_true {e : Editor α} (hk : e.k ≤ e.s.length) : e.moveFwd (fun _ => true) = e.toEnd := by
  have hall : (e.s.drop e.k).takeWhile (fun _ => true) = e.s.drop e.k :=
    List.takeWhile_eq_self_iff.mpr fun _ _ => rfl
  simp only [moveFwd, toEnd, fwdOver, hall, List.length_drop]
  congr 1
  omega

/-! ## A line with a stretch cut out -/

/-- Before the cut, a line with `[i, j)` cut out is the line. -/
theorem take_cut {s : List α} {i j m : Nat} (hm : m ≤ i) (hi : i ≤ s.length) :
    (s.take i ++ s.drop j).take m = s.take m := by
  rw [List.take_append_of_le_length (by simp only [List.length_take]; omega), List.take_take,
    Nat.min_eq_left hm]

/-- After the cut, a line with `[i, j)` cut out is the line after `j`. -/
theorem drop_cut {s : List α} {i j d : Nat} (hi : i ≤ s.length) :
    (s.take i ++ s.drop j).drop (i + d) = s.drop (j + d) := by
  rw [List.drop_append, List.drop_eq_nil_of_le (by simp only [List.length_take]; omega),
    List.nil_append, List.length_take, Nat.min_eq_left hi, Nat.add_sub_cancel_left, List.drop_drop]

/-! ## One-step loops -/

/-- Stepping left while the element before the cursor passes `p`. -/
theorem loopWhile_left (p : α → Bool) (n : Nat) {e : Editor α} (hk : e.k ≤ e.s.length)
    (hn : e.k ≤ n) : loopWhile (fun e => e.before.any p) left n e = moveBack p e := by
  refine loopWhile_eq_of (I := fun e => e.k ≤ e.s.length) (v := Editor.k) ?_ ?_ ?_ n e hk hn
  · intro e he _
    exact Nat.le_trans (Nat.sub_le _ _) he
  · intro e he hc
    obtain ⟨hlt, hpos, hp⟩ := before_any_of_true he hc
    -- the round crosses `s[k - 1]`
    have hstep : backOver p e.s (e.k - 1 + 1) = backOver p e.s (e.k - 1) :=
      backOver_succ_of_pos p hlt hp
    rw [Nat.sub_add_cancel hpos] at hstep
    exact ⟨by simp [moveBack, left, hstep], by simp only [left]; omega⟩
  · intro e he hc
    simp [moveBack, backOver_of_before he hc]

/-- Stepping right while the element under the cursor passes `p`. -/
theorem loopWhile_right (p : α → Bool) (n : Nat) {e : Editor α} (hk : e.k ≤ e.s.length)
    (hn : e.s.length - e.k ≤ n) : loopWhile (fun e => e.atCursor.any p) right n e = moveFwd p e := by
  refine loopWhile_eq_of (I := fun e => e.k ≤ e.s.length) (v := fun e => e.s.length - e.k)
    ?_ ?_ ?_ n e hk hn
  · intro e _ _
    exact Nat.min_le_right _ _
  · intro e _ hc
    obtain ⟨hlt, hp⟩ := atCursor_any_of_true hc
    have hmin : min (e.k + 1) e.s.length = e.k + 1 := Nat.min_eq_left hlt
    exact ⟨by simp [moveFwd, right, hmin, fwdOver_of_pos p hlt hp], by simp only [right]; omega⟩
  · intro e _ hc
    simp [moveFwd, fwdOver_of_atCursor hc]

/-- Deleting backward while the element before the cursor passes `p`. -/
theorem loopWhile_deleteBackward (p : α → Bool) (n : Nat) {e : Editor α} (hk : e.k ≤ e.s.length)
    (hn : e.k ≤ n) :
    loopWhile (fun e => e.before.any p) deleteBackward n e = killBack p e := by
  refine loopWhile_eq_of (I := fun e => e.k ≤ e.s.length) (v := Editor.k) ?_ ?_ ?_ n e hk hn
  · intro e he _
    unfold deleteBackward
    split_ifs
    · exact he
    · simp only [List.length_eraseIdx]
      split_ifs <;> omega
  · intro e he hc
    obtain ⟨hlt, hpos, hp⟩ := before_any_of_true he hc
    have hstep : backOver p e.s (e.k - 1 + 1) = backOver p e.s (e.k - 1) :=
      backOver_succ_of_pos p hlt hp
    rw [Nat.sub_add_cancel hpos] at hstep
    have hdel : e.deleteBackward = ⟨e.s.take (e.k - 1) ++ e.s.drop e.k, e.k - 1⟩ := by
      rw [deleteBackward, if_neg (Nat.pos_iff_ne_zero.mp hpos), List.eraseIdx_eq_take_drop_succ,
        Nat.sub_add_cancel hpos]
    -- stepping back from `k - 1` sees only `s[0..k - 1)`, which the round keeps
    have hback : backOver p (e.s.take (e.k - 1) ++ e.s.drop e.k) (e.k - 1) = backOver p e.s e.k := by
      rw [backOver_append p (by omega), hstep]
    have hle : backOver p e.s e.k ≤ e.k - 1 := hstep ▸ backOver_le p _ _
    have hrest : (e.s.take (e.k - 1) ++ e.s.drop e.k).drop (e.k - 1) = e.s.drop e.k := by
      simpa using drop_cut (j := e.k) (d := 0) (show e.k - 1 ≤ e.s.length by omega)
    refine ⟨?_, by rw [hdel]; dsimp only; omega⟩
    rw [hdel, killBack, killBack]
    dsimp only
    rw [hback, take_cut hle (by omega), hrest]
  · intro e he hc
    simp [killBack, backOver_of_before he hc]

/-- Deleting forward while the element under the cursor passes `p`. -/
theorem loopWhile_deleteForward (p : α → Bool) (n : Nat) {e : Editor α} (hk : e.k ≤ e.s.length)
    (hn : e.s.length - e.k ≤ n) :
    loopWhile (fun e => e.atCursor.any p) deleteForward n e = killFwd p e := by
  refine loopWhile_eq_of (I := fun e => e.k ≤ e.s.length) (v := fun e => e.s.length - e.k)
    ?_ ?_ ?_ n e hk hn
  · intro e he hc
    obtain ⟨hlt, -⟩ := atCursor_any_of_true hc
    simp only [deleteForward, List.length_eraseIdx_of_lt hlt]
    omega
  · intro e _ hc
    obtain ⟨hlt, hp⟩ := atCursor_any_of_true hc
    -- the round cuts `s[k]`; the rest of the stretch is what follows it
    have hdel : e.deleteForward = ⟨e.s.take e.k ++ e.s.drop (e.k + 1), e.k⟩ := by
      rw [deleteForward, List.eraseIdx_eq_take_drop_succ]
    have hge : e.k + 1 ≤ fwdOver p e.s (e.k + 1) := le_fwdOver p _ _
    have hcut : fwdOver p (e.s.take e.k ++ e.s.drop (e.k + 1)) e.k =
        e.k + (fwdOver p e.s (e.k + 1) - (e.k + 1)) := fwdOver_cut p (by omega) hlt
    have hrest : (e.s.take e.k ++ e.s.drop (e.k + 1)).drop (e.k + (fwdOver p e.s (e.k + 1) - (e.k + 1))) =
        e.s.drop (fwdOver p e.s (e.k + 1)) := by
      rw [drop_cut hlt.le, Nat.add_sub_cancel' hge]
    refine ⟨?_, by simp only [deleteForward, List.length_eraseIdx_of_lt hlt]; omega⟩
    rw [hdel, killFwd, killFwd]
    dsimp only
    rw [hcut, take_cut le_rfl hlt.le, hrest, fwdOver_of_pos p hlt hp]
  · intro e _ hc
    simp [killFwd, fwdOver_of_atCursor hc]

/-! ## Two kills in a row -/

theorem killBack_killBack (p q : α → Bool) {e : Editor α} (hk : e.k ≤ e.s.length) :
    killBack q (killBack p e) =
      ⟨e.s.take (backOver q e.s (backOver p e.s e.k)) ++ e.s.drop e.k,
        backOver q e.s (backOver p e.s e.k)⟩ := by
  have hj : backOver p e.s e.k ≤ e.k := backOver_le p _ _
  -- the second stretch lies before the first, in the part the first kill keeps
  have hback : backOver q (e.s.take (backOver p e.s e.k) ++ e.s.drop e.k) (backOver p e.s e.k) =
      backOver q e.s (backOver p e.s e.k) := backOver_append q (by omega) _
  have hle := backOver_le q e.s (backOver p e.s e.k)
  have hrest : (e.s.take (backOver p e.s e.k) ++ e.s.drop e.k).drop (backOver p e.s e.k) =
      e.s.drop e.k := by
    simpa using drop_cut (j := e.k) (d := 0) (show backOver p e.s e.k ≤ e.s.length by omega)
  rw [killBack, killBack]
  dsimp only
  rw [hback, take_cut hle (by omega), hrest]

theorem killFwd_killFwd (p q : α → Bool) {e : Editor α} (hk : e.k ≤ e.s.length) :
    killFwd q (killFwd p e) =
      ⟨e.s.take e.k ++ e.s.drop (fwdOver q e.s (fwdOver p e.s e.k)), e.k⟩ := by
  have hj1 : e.k ≤ fwdOver p e.s e.k := le_fwdOver p _ _
  have hj2 : fwdOver p e.s e.k ≤ e.s.length := fwdOver_le p hk
  have hj3 : fwdOver p e.s e.k ≤ fwdOver q e.s (fwdOver p e.s e.k) := le_fwdOver q _ _
  -- the second stretch starts where the first ends, in the part the first kill keeps
  have hcut : fwdOver q (e.s.take e.k ++ e.s.drop (fwdOver p e.s e.k)) e.k =
      e.k + (fwdOver q e.s (fwdOver p e.s e.k) - fwdOver p e.s e.k) := fwdOver_cut q hj1 hj2
  rw [killFwd, killFwd]
  dsimp only
  rw [hcut, take_cut le_rfl hk, drop_cut hk, Nat.add_sub_cancel' hj3]

section Words

variable [BEq α]

theorem killWordBackward_eq (sp : α) {e : Editor α} (hk : e.k ≤ e.s.length) :
    killWordBackward sp e = killBack (· != sp) (killBack (· == sp) e) :=
  (killBack_killBack _ _ hk).symm

theorem killWordForward_eq (sp : α) {e : Editor α} (hk : e.k ≤ e.s.length) :
    killWordForward sp e = killFwd (· != sp) (killFwd (· == sp) e) :=
  (killFwd_killFwd _ _ hk).symm

end Words

/-! ## Every key keeps the line well formed -/

section Wf

variable {cap : Nat} {nul : α} {e : Editor α}

/-- A line made of elements of a well-formed one, and no longer. -/
theorem Wf.of_mem (h : e.Wf cap nul) {e' : Editor α} (hk : e'.k ≤ e'.s.length)
    (hlen : e'.s.length ≤ e.s.length) (hmem : ∀ x ∈ e'.s, x ∈ e.s) : e'.Wf cap nul :=
  ⟨hk, Nat.lt_of_le_of_lt hlen h.length, fun hn => h.noNul (hmem nul hn)⟩

/-- The same line with the cursor anywhere in it. -/
theorem Wf.setCursor (h : e.Wf cap nul) {k : Nat} (hk : k ≤ e.s.length) :
    (⟨e.s, k⟩ : Editor α).Wf cap nul :=
  ⟨hk, h.length, h.noNul⟩

theorem Wf.left (h : e.Wf cap nul) : e.left.Wf cap nul :=
  h.setCursor (by have := h.cursor; omega)

theorem Wf.right (h : e.Wf cap nul) : e.right.Wf cap nul :=
  h.setCursor (Nat.min_le_right _ _)

theorem Wf.toEnd (h : e.Wf cap nul) : e.toEnd.Wf cap nul :=
  h.setCursor le_rfl

theorem Wf.moveBack (h : e.Wf cap nul) (p : α → Bool) : (e.moveBack p).Wf cap nul :=
  h.setCursor (Nat.le_trans (backOver_le p _ _) h.cursor)

theorem mem_of_mem_take_append_drop {s : List α} {i j : Nat} {x : α}
    (hx : x ∈ s.take i ++ s.drop j) : x ∈ s := by
  rcases List.mem_append.mp hx with hx | hx
  · exact List.mem_of_mem_take hx
  · exact List.mem_of_mem_drop hx

theorem Wf.killBack (h : e.Wf cap nul) (p : α → Bool) : (e.killBack p).Wf cap nul := by
  have hk := h.cursor
  have hj := backOver_le p e.s e.k
  refine h.of_mem ?_ ?_ (fun _ => mem_of_mem_take_append_drop)
  · simp only [Editor.killBack, List.length_append, List.length_take, List.length_drop]
    omega
  · simp only [Editor.killBack, List.length_append, List.length_take, List.length_drop]
    omega

theorem Wf.killFwd (h : e.Wf cap nul) (p : α → Bool) : (e.killFwd p).Wf cap nul := by
  have hk := h.cursor
  have hj := le_fwdOver p e.s e.k
  refine h.of_mem ?_ ?_ (fun _ => mem_of_mem_take_append_drop)
  · simp only [Editor.killFwd, List.length_append, List.length_take, List.length_drop]
    omega
  · simp only [Editor.killFwd, List.length_append, List.length_take, List.length_drop]
    omega

theorem Wf.deleteBackward (h : e.Wf cap nul) : e.deleteBackward.Wf cap nul := by
  unfold Editor.deleteBackward
  split_ifs with h0
  · exact h
  · have hk := h.cursor
    refine h.of_mem ?_ ?_ (fun _ hx => List.mem_of_mem_eraseIdx hx)
    · simp only [List.length_eraseIdx_of_lt (show e.k - 1 < e.s.length by omega)]
      omega
    · simp only [List.length_eraseIdx]
      split_ifs <;> omega

theorem Wf.deleteForward (h : e.Wf cap nul) : e.deleteForward.Wf cap nul := by
  have hk := h.cursor
  refine h.of_mem ?_ ?_ (fun _ hx => List.mem_of_mem_eraseIdx hx)
  · simp only [Editor.deleteForward, List.length_eraseIdx]
    split_ifs <;> omega
  · simp only [Editor.deleteForward, List.length_eraseIdx]
    split_ifs <;> omega

theorem Wf.killToEnd (h : e.Wf cap nul) : e.killToEnd.Wf cap nul := by
  have hk := h.cursor
  refine h.of_mem ?_ ?_ (fun _ hx => List.mem_of_mem_take hx)
  · simp only [Editor.killToEnd, List.length_take]
    omega
  · simp only [Editor.killToEnd, List.length_take]
    omega

theorem Wf.clear (hcap : 0 < cap) : (clear : Editor α).Wf cap nul :=
  ⟨le_rfl, hcap, List.not_mem_nil⟩

theorem Wf.load {line : List α} (hlen : line.length < cap) (hnul : nul ∉ line) :
    (load line).Wf cap nul :=
  ⟨le_rfl, hlen, hnul⟩

theorem Wf.insert (h : e.Wf cap nul) {c : α} (hc : c ≠ nul) : (e.insert cap c).Wf cap nul := by
  unfold Editor.insert
  split_ifs with hfull
  · exact h
  · have hk := h.cursor
    refine ⟨?_, ?_, ?_⟩
    · simp only [List.length_append, List.length_take, List.length_cons, List.length_drop]
      omega
    · simp only [List.length_append, List.length_take, List.length_cons, List.length_drop]
      omega
    · intro hn
      rcases List.mem_append.mp hn with hn | hn
      · exact h.noNul (List.mem_of_mem_take hn)
      · rcases List.mem_cons.mp hn with hn | hn
        · exact hc hn.symm
        · exact h.noNul (List.mem_of_mem_drop hn)

theorem Wf.overwrite (h : e.Wf cap nul) {w : List α} (hw : nul ∉ w) :
    (e.overwrite cap w).Wf cap nul := by
  have hk := h.cursor
  have hlen := h.length
  refine Wf.load ?_ ?_
  · simp only [List.length_append, List.length_take]
    omega
  · intro hn
    rcases List.mem_append.mp hn with hn | hn
    · exact h.noNul (List.mem_of_mem_take hn)
    · exact hw (List.mem_of_mem_take hn)

section Words

variable [BEq α]

theorem Wf.wordLeft (h : e.Wf cap nul) (sp : α) : (e.wordLeft sp).Wf cap nul :=
  h.setCursor (Nat.le_trans (backOver_le _ _ _) (Nat.le_trans (backOver_le _ _ _) h.cursor))

theorem Wf.wordRight (h : e.Wf cap nul) (sp : α) : (e.wordRight sp).Wf cap nul :=
  h.setCursor (fwdOver_le _ (fwdOver_le _ h.cursor))

theorem Wf.killWordBackward (h : e.Wf cap nul) (sp : α) : (e.killWordBackward sp).Wf cap nul := by
  rw [killWordBackward_eq sp h.cursor]
  exact (h.killBack _).killBack _

theorem Wf.killWordForward (h : e.Wf cap nul) (sp : α) : (e.killWordForward sp).Wf cap nul := by
  rw [killWordForward_eq sp h.cursor]
  exact (h.killFwd _).killFwd _

end Words

theorem Wf.complete [BEq α] (h : e.Wf cap nul) {sp : α} (hsp : sp ≠ nul) (full : Bool)
    {w : List α} (hw : nul ∉ w) : (e.complete cap sp full w).Wf cap nul := by
  have hover : (Editor.overwrite cap w (Editor.moveBack (· != sp) e.toEnd)).Wf cap nul :=
    (h.toEnd.moveBack _).overwrite hw
  unfold Editor.complete
  cases full with
  | false => exact hover
  | true => exact hover.insert hsp

end Wf

/-! ## What the keys leave in the line

The deleting keys keep elements of the line; the others add what they insert. -/

section Mem

variable {e : Editor α} {x : α}

theorem mem_of_mem_killBack {p : α → Bool} (hx : x ∈ (e.killBack p).s) : x ∈ e.s :=
  mem_of_mem_take_append_drop hx

theorem mem_of_mem_killFwd {p : α → Bool} (hx : x ∈ (e.killFwd p).s) : x ∈ e.s :=
  mem_of_mem_take_append_drop hx

theorem mem_of_mem_deleteBackward (hx : x ∈ e.deleteBackward.s) : x ∈ e.s := by
  unfold deleteBackward at hx
  split_ifs at hx
  · exact hx
  · exact List.mem_of_mem_eraseIdx hx

theorem mem_of_mem_deleteForward (hx : x ∈ e.deleteForward.s) : x ∈ e.s :=
  List.mem_of_mem_eraseIdx hx

theorem mem_of_mem_killToEnd (hx : x ∈ e.killToEnd.s) : x ∈ e.s :=
  List.mem_of_mem_take hx

theorem mem_of_mem_killWordBackward [BEq α] {sp : α} (hx : x ∈ (e.killWordBackward sp).s) :
    x ∈ e.s :=
  mem_of_mem_take_append_drop hx

theorem mem_of_mem_killWordForward [BEq α] {sp : α} (hx : x ∈ (e.killWordForward sp).s) :
    x ∈ e.s :=
  mem_of_mem_take_append_drop hx

theorem mem_insert {cap : Nat} {c : α} (hx : x ∈ (e.insert cap c).s) : x ∈ e.s ∨ x = c := by
  unfold insert at hx
  split_ifs at hx
  · exact .inl hx
  · rcases List.mem_append.mp hx with hx | hx
    · exact .inl (List.mem_of_mem_take hx)
    · rcases List.mem_cons.mp hx with rfl | hx
      · exact .inr rfl
      · exact .inl (List.mem_of_mem_drop hx)

theorem mem_overwrite {cap : Nat} {w : List α} (hx : x ∈ (e.overwrite cap w).s) : x ∈ e.s ∨ x ∈ w := by
  rcases List.mem_append.mp hx with hx | hx
  · exact .inl (List.mem_of_mem_take hx)
  · exact .inr (List.mem_of_mem_take hx)

theorem mem_complete [BEq α] {cap : Nat} {sp : α} {full : Bool} {w : List α}
    (hx : x ∈ (e.complete cap sp full w).s) : x ∈ e.s ∨ x ∈ w ∨ x = sp := by
  unfold complete at hx
  -- the overwritten line keeps elements of the line before the last word
  have hover : x ∈ (overwrite cap w (moveBack (· != sp) e.toEnd)).s → x ∈ e.s ∨ x ∈ w ∨ x = sp :=
    fun hx => (mem_overwrite hx).imp_right .inl
  cases full with
  | false => exact hover hx
  | true =>
    rcases mem_insert hx with hx | rfl
    · exact hover hx
    · exact .inr (.inr rfl)

end Mem

end Editor

end CLib
