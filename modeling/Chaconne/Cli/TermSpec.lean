import Chaconne.Cli.Editor

/-!
# The terminal refines its reference editor

`cli-term.c` keeps the line in `buf[0..len)`, its NUL at `buf[len]` and the
cursor in `cp`; `BufRel` says a buffer holds an editor's line and cursor this
way, the line well formed within `max`. Each editing function acts on a
related buffer as its key acts in the reference editor: the shifting loops
splice the line (`CLib.ByteArray`), the cursor and kill loops compute the
closed forms of `CLib.LineEditor` (`loop_rel`, by `loopWhile_related`), and
nothing but the line and the output changes (`Edits`).

So every byte keeps the terminal related to the reference editor
(`termRead_rel`), and so does every run from `term_create`
(`term_line_editor`): after any input, `cp ≤ len ≤ 8191`, `buf[len]` is the
NUL and `buf[0..len)` has none, and the line, the cursor, the history and the
escape state are those of the reference editor.
-/

namespace Chaconne.Cli

open CLib

/-- The buffer holds the editor's line and cursor, and the line is well formed
within the buffer's capacity. -/
structure BufRel (b : Buffer) (e : Editor UInt8) : Prop where
  size : b.buf.length = b.max
  line : b.buf.take b.len = e.s
  len : b.len = e.s.length
  cursor : b.cp = e.k
  nul : b.buf.getD b.len 0 = 0
  wf : e.Wf b.max 0

/-- An editing function changes only the line, the cursor and the output. -/
structure Edits (t t' : Term) : Prop where
  tree : t'.tree = t.tree
  hist : t'.hist = t.hist
  escape : t'.escape = t.escape
  max : t'.input.max = t.input.max

theorem Edits.refl (t : Term) : Edits t t := ⟨rfl, rfl, rfl, rfl⟩

theorem Edits.trans {t t' t'' : Term} (h : Edits t t') (h' : Edits t' t'') : Edits t t'' :=
  ⟨h'.tree.trans h.tree, h'.hist.trans h.hist, h'.escape.trans h.escape, h'.max.trans h.max⟩

namespace BufRel

variable {b : Buffer} {e : Editor UInt8}

theorem len_lt (h : BufRel b e) : b.len < b.max :=
  h.len ▸ h.wf.length

theorem cp_le (h : BufRel b e) : b.cp ≤ b.len := by
  rw [h.cursor, h.len]
  exact h.wf.cursor

/-- The line before `i` is the buffer before `i`. -/
theorem take_line (h : BufRel b e) {i : Nat} (hi : i ≤ b.len) : e.s.take i = b.buf.take i := by
  rw [← h.line, List.take_take, Nat.min_eq_left hi]

/-- The line from `i` on is the buffer from `i` up to `len`. -/
theorem drop_line (h : BufRel b e) (i : Nat) : e.s.drop i = (b.buf.drop i).take (b.len - i) := by
  rw [← h.line, List.drop_take]

theorem getElem?_line (h : BufRel b e) {i : Nat} (hi : i < b.len) :
    e.s[i]? = some (b.buf.getD i 0) := by
  have hsize := h.size
  have hlt := h.len_lt
  rw [← h.line, List.getElem?_take, if_pos hi, List.getD_eq_getElem?_getD,
    List.getElem?_eq_getElem (by omega), Option.getD_some]

/-- The condition of a loop that steps back while the byte before the cursor
passes `p`. -/
theorem before_cond (h : BufRel b e) (p : UInt8 → Bool) :
    (decide (b.cp > 0) && p (b.buf.getD (b.cp - 1) 0)) = e.before.any p := by
  rw [Editor.before_eq h.wf.cursor, ← h.cursor]
  by_cases h0 : b.cp = 0
  · simp [h0]
  · rw [if_neg h0, h.getElem?_line (by have := h.cp_le; omega)]
    simp [Nat.pos_of_ne_zero h0]

/-- The condition of a loop that steps right while the byte under the cursor
passes `p`. -/
theorem atCursor_cond (h : BufRel b e) (p : UInt8 → Bool) :
    (decide (b.cp < b.len) && p (b.buf.getD b.cp 0)) = e.atCursor.any p := by
  unfold Editor.atCursor
  rw [← h.cursor]
  by_cases hlt : b.cp < b.len
  · rw [h.getElem?_line hlt]
    simp [hlt]
  · rw [List.getElem?_eq_none (by rw [← h.len]; omega)]
    simp [hlt]

/-- `buf` read as a C string is the line. -/
theorem untilNul_eq (h : BufRel b e) : untilNul b.buf = e.s := by
  have hsize := h.size
  have hlt := h.len_lt
  have hdrop : b.buf.drop b.len = 0 :: b.buf.drop (b.len + 1) := by
    rw [List.drop_eq_getElem_cons (by omega)]
    congr 1
    have := h.nul
    rwa [List.getD_eq_getElem _ _ (by omega)] at this
  rw [← List.take_append_drop b.len b.buf, hdrop, h.line]
  exact untilNul_append_zero _ h.wf.noNul

/-- The same line with the cursor moved. -/
theorem setCursor (h : BufRel b e) {i k : Nat} (hi : i = k) (hk : k ≤ e.s.length) :
    BufRel { b with cp := i } ⟨e.s, k⟩ :=
  ⟨h.size, h.line, h.len, hi, h.nul, h.wf.setCursor hk⟩

end BufRel

variable {t : Term} {e : Editor UInt8}

/-! ## Moving the cursor -/

theorem termBackwardChar_rel (h : BufRel t.input e) : BufRel (termBackwardChar t).input e.left := by
  have hk := h.wf.cursor
  unfold termBackwardChar
  split_ifs with h0
  · exact h.setCursor (k := e.k - 1) (by rw [h.cursor]) (Nat.le_trans (Nat.sub_le _ _) hk)
  · have hk0 : e.k = 0 := by rw [← h.cursor]; exact Decidable.of_not_not h0
    exact h.setCursor (i := t.input.cp) (k := e.k - 1) (by rw [h.cursor, hk0]) (by omega)

theorem termForwardChar_rel (h : BufRel t.input e) : BufRel (termForwardChar t).input e.right := by
  have hk := h.wf.cursor
  have hcp := h.cp_le
  unfold termForwardChar Editor.right
  split_ifs with hlt
  · have hk1 : e.k < e.s.length := by rw [← h.cursor, ← h.len]; exact hlt
    exact h.setCursor (k := min (e.k + 1) e.s.length)
      (by rw [h.cursor, Nat.min_eq_left hk1]) (Nat.min_le_right _ _)
  · have hk1 : e.k = e.s.length := by rw [← h.cursor, ← h.len]; omega
    exact h.setCursor (i := t.input.cp) (k := min (e.k + 1) e.s.length)
      (by rw [h.cursor, hk1, Nat.min_eq_right (Nat.le_succ _)]) (Nat.min_le_right _ _)

theorem termRedrawLine_rel (h : BufRel t.input e) : BufRel (termRedrawLine t).input e.toEnd :=
  h.setCursor h.len le_rfl

theorem termBackwardChar_edits (t : Term) : Edits t (termBackwardChar t) := by
  unfold termBackwardChar
  split_ifs <;> exact ⟨rfl, rfl, rfl, rfl⟩

theorem termForwardChar_edits (t : Term) : Edits t (termForwardChar t) := by
  unfold termForwardChar
  split_ifs <;> exact ⟨rfl, rfl, rfl, rfl⟩

theorem termRedrawLine_edits (t : Term) : Edits t (termRedrawLine t) := ⟨rfl, rfl, rfl, rfl⟩

/-! ## Deleting and inserting one byte -/

theorem termDeleteBackwardChar_rel (h : BufRel t.input e) :
    BufRel (termDeleteBackwardChar t).input e.deleteBackward := by
  have hsize := h.size
  have hlt := h.len_lt
  have hcp := h.cp_le
  unfold termDeleteBackwardChar
  dsimp only
  split_ifs with h0
  · have hpos : 0 < t.input.cp := Nat.pos_of_ne_zero h0
    have hdel : e.deleteBackward = ⟨e.s.eraseIdx (e.k - 1), e.k - 1⟩ := by
      rw [Editor.deleteBackward, if_neg (h.cursor ▸ h0)]
    -- the shift leaves `buf[0..cp - 1)` and then `buf[cp..len)`
    have hshift : (moveDown t.input.cp (t.input.len - t.input.cp) t.input.buf).take (t.input.len - 1) =
        t.input.buf.take (t.input.cp - 1) ++ (t.input.buf.drop t.input.cp).take (t.input.len - t.input.cp) := by
      have := take_moveDown t.input.cp (t.input.len - t.input.cp) t.input.buf hpos (by omega)
      rwa [show t.input.cp - 1 + (t.input.len - t.input.cp) = t.input.len - 1 by omega] at this
    have hline : e.s.eraseIdx (e.k - 1) = t.input.buf.take (t.input.cp - 1) ++
        (t.input.buf.drop t.input.cp).take (t.input.len - t.input.cp) := by
      rw [List.eraseIdx_eq_take_drop_succ, ← h.cursor, Nat.sub_add_cancel hpos,
        h.take_line (by omega), h.drop_line]
    rw [hdel]
    refine ⟨by simp [hsize], ?_, ?_, by rw [h.cursor], ?_, ?_⟩
    · rw [List.take_set_of_le le_rfl, hshift, hline]
    · rw [List.length_eraseIdx_of_lt (by rw [← h.cursor, ← h.len]; omega), ← h.len]
    · rw [getD_set_of_lt _ (by simp; omega), if_pos rfl]
    · exact hdel ▸ h.wf.deleteBackward
  · have hk : e.k = 0 := by rw [← h.cursor]; omega
    rw [Editor.deleteBackward, if_pos hk]
    exact h

theorem termDeleteChar_rel (h : BufRel t.input e) :
    BufRel (termDeleteChar t).input e.deleteForward := by
  have hsize := h.size
  have hlt := h.len_lt
  unfold termDeleteChar
  dsimp only
  split_ifs with hcp
  · -- the shift leaves `buf[0..cp)` and then `buf[cp + 1..len)`
    have hshift : (moveDown (t.input.cp + 1) (t.input.len - (t.input.cp + 1)) t.input.buf).take
          (t.input.len - 1) = t.input.buf.take t.input.cp ++
          (t.input.buf.drop (t.input.cp + 1)).take (t.input.len - (t.input.cp + 1)) := by
      have := take_moveDown (t.input.cp + 1) (t.input.len - (t.input.cp + 1)) t.input.buf
        (by omega) (by omega)
      rwa [show t.input.cp + 1 - 1 + (t.input.len - (t.input.cp + 1)) = t.input.len - 1 by omega,
        Nat.add_sub_cancel] at this
    have hline : e.s.eraseIdx e.k = t.input.buf.take t.input.cp ++
        (t.input.buf.drop (t.input.cp + 1)).take (t.input.len - (t.input.cp + 1)) := by
      rw [List.eraseIdx_eq_take_drop_succ, ← h.cursor, h.take_line hcp.le, h.drop_line]
    refine ⟨by simp [hsize], ?_, ?_, h.cursor, ?_, h.wf.deleteForward⟩
    · rw [List.take_set_of_le le_rfl, hshift]
      exact hline.symm
    · show t.input.len - 1 = (e.s.eraseIdx e.k).length
      rw [List.length_eraseIdx_of_lt (by rw [← h.cursor, ← h.len]; exact hcp), ← h.len]
    · rw [getD_set_of_lt _ (by simp; omega), if_pos rfl]
  · have hk : e.s.length ≤ e.k := by rw [← h.cursor, ← h.len]; omega
    rw [Editor.deleteForward, List.eraseIdx_of_length_le hk]
    exact h

/-- The line after an insertion at `cp`: `buf[0..cp)`, `c`, `buf[cp..len)`. -/
theorem take_insert {b : Buffer} (c : UInt8) (hcp : b.cp ≤ b.len) (hlen : b.len + 1 < b.buf.length) :
    ((if b.cp < b.len then moveUp b.cp (b.len + 1) b.buf else b.buf).set b.cp c).take (b.len + 1) =
      b.buf.take b.cp ++ c :: (b.buf.drop b.cp).take (b.len - b.cp) := by
  split_ifs with hlt
  · rw [take_set_moveUp c (by omega) hlen, Nat.add_sub_cancel]
  · -- at the end of the line nothing moves
    have heq : b.cp = b.len := by omega
    rw [heq, take_succ_set c (by omega), Nat.sub_self, List.take_zero]

/-- What `term_self_insert` does to the buffer. -/
theorem termSelfInsert_input (t : Term) (c : UInt8) :
    (termSelfInsert t c).input =
      if t.input.len + 1 ≥ t.input.max then t.input
      else { t.input with
        buf := ((if t.input.cp < t.input.len then moveUp t.input.cp (t.input.len + 1) t.input.buf
          else t.input.buf).set t.input.cp c).set (t.input.len + 1) 0
        cp := t.input.cp + 1
        len := t.input.len + 1 } := by
  unfold termSelfInsert
  dsimp only
  split_ifs <;> rfl

theorem termSelfInsert_rel (h : BufRel t.input e) {c : UInt8} (hc : c ≠ 0) :
    BufRel (termSelfInsert t c).input (e.insert t.input.max c) := by
  have hsize := h.size
  have hcp := h.cp_le
  rw [termSelfInsert_input]
  by_cases hfull : t.input.len + 1 ≥ t.input.max
  · rw [if_pos hfull, Editor.insert, if_pos (by rw [← h.len]; exact hfull)]
    exact h
  · have hwf := h.wf.insert hc
    have hfull' : ¬e.s.length + 1 ≥ t.input.max := by rw [← h.len]; exact hfull
    rw [if_neg hfull]
    rw [Editor.insert, if_neg hfull'] at hwf ⊢
    have hline : e.s.take e.k ++ c :: e.s.drop e.k =
        t.input.buf.take t.input.cp ++ c :: (t.input.buf.drop t.input.cp).take (t.input.len - t.input.cp) := by
      rw [← h.cursor, h.take_line hcp, h.drop_line]
    have hbuf : ((if t.input.cp < t.input.len then moveUp t.input.cp (t.input.len + 1) t.input.buf
        else t.input.buf).set t.input.cp c).length = t.input.max := by
      split_ifs <;> simp [hsize]
    refine ⟨by simp [hbuf], ?_, ?_, by rw [h.cursor], ?_, hwf⟩
    · rw [List.take_set_of_le le_rfl, take_insert c hcp (by omega), hline]
    · simp only [List.length_append, List.length_take, List.length_cons, List.length_drop]
      have := h.wf.cursor
      rw [← h.len]
      omega
    · rw [getD_set_of_lt _ (by omega), if_pos rfl]

theorem termDeleteBackwardChar_edits (t : Term) : Edits t (termDeleteBackwardChar t) := by
  unfold termDeleteBackwardChar
  dsimp only
  split_ifs <;> exact ⟨rfl, rfl, rfl, rfl⟩

theorem termDeleteChar_edits (t : Term) : Edits t (termDeleteChar t) := by
  unfold termDeleteChar
  dsimp only
  split_ifs <;> exact ⟨rfl, rfl, rfl, rfl⟩

theorem termSelfInsert_edits (t : Term) (c : UInt8) : Edits t (termSelfInsert t c) := by
  unfold termSelfInsert
  dsimp only
  split_ifs <;> exact ⟨rfl, rfl, rfl, rfl⟩

/-! ## Loops of one-byte steps -/

/-- A loop of a step that acts as an editor key, under a condition that agrees
with the editor's, acts as the same loop of the key. -/
theorem loop_rel (cond' : Editor UInt8 → Bool) (body' : Editor UInt8 → Editor UInt8)
    {cond : Term → Bool} {body : Term → Term}
    (hcond : ∀ t e, BufRel t.input e → cond t = cond' e)
    (hbody : ∀ t e, BufRel t.input e → BufRel (body t).input (body' e)) (n : Nat)
    (h : BufRel t.input e) :
    BufRel (loopWhile cond body n t).input (loopWhile cond' body' n e) :=
  loopWhile_related (R := fun t e => BufRel t.input e) hcond (fun t e h _ => hbody t e h) n t e h

theorem loop_edits {cond : Term → Bool} {body : Term → Term} (hbody : ∀ t, Edits t (body t))
    (n : Nat) (t : Term) : Edits t (loopWhile cond body n t) :=
  loopWhile_invariant (fun s (hs : Edits t s) _ => hs.trans (hbody s)) n t (Edits.refl t)

/-- `while (cp > 0 && p(buf[cp - 1])) term_backward_char(t);` -/
theorem backwardLoop_rel (cond : Term → Bool) (p : UInt8 → Bool)
    (hcond : ∀ t, cond t = (decide (t.input.cp > 0) && p (t.input.buf.getD (t.input.cp - 1) 0)))
    (h : BufRel t.input e) :
    BufRel (loopWhile cond termBackwardChar t.input.cp t).input (e.moveBack p) := by
  have hloop := loop_rel (fun e => e.before.any p) Editor.left
    (fun t e h => (hcond t).trans (h.before_cond p)) (fun _ _ h => termBackwardChar_rel h) t.input.cp h
  rwa [Editor.loopWhile_left p _ h.wf.cursor h.cursor.ge] at hloop

/-- `while (cp < len && p(buf[cp])) term_forward_char(t);` -/
theorem forwardLoop_rel (cond : Term → Bool) (p : UInt8 → Bool)
    (hcond : ∀ t, cond t = (decide (t.input.cp < t.input.len) && p (t.input.buf.getD t.input.cp 0)))
    (h : BufRel t.input e) :
    BufRel (loopWhile cond termForwardChar (t.input.len - t.input.cp) t).input (e.moveFwd p) := by
  have hloop := loop_rel (fun e => e.atCursor.any p) Editor.right
    (fun t e h => (hcond t).trans (h.atCursor_cond p)) (fun _ _ h => termForwardChar_rel h)
    (t.input.len - t.input.cp) h
  rwa [Editor.loopWhile_right p _ h.wf.cursor (le_of_eq (by rw [h.len, h.cursor]))] at hloop

/-- `while (cp > 0 && p(buf[cp - 1])) term_delete_backward_char(t);` -/
theorem deleteBackwardLoop_rel (cond : Term → Bool) (p : UInt8 → Bool)
    (hcond : ∀ t, cond t = (decide (t.input.cp > 0) && p (t.input.buf.getD (t.input.cp - 1) 0)))
    (h : BufRel t.input e) :
    BufRel (loopWhile cond termDeleteBackwardChar t.input.cp t).input (e.killBack p) := by
  have hloop := loop_rel (fun e => e.before.any p) Editor.deleteBackward
    (fun t e h => (hcond t).trans (h.before_cond p)) (fun _ _ h => termDeleteBackwardChar_rel h)
    t.input.cp h
  rwa [Editor.loopWhile_deleteBackward p _ h.wf.cursor h.cursor.ge] at hloop

/-- `while (cp < len && p(buf[cp])) term_delete_char(t);` -/
theorem deleteForwardLoop_rel (cond : Term → Bool) (p : UInt8 → Bool)
    (hcond : ∀ t, cond t = (decide (t.input.cp < t.input.len) && p (t.input.buf.getD t.input.cp 0)))
    (h : BufRel t.input e) :
    BufRel (loopWhile cond termDeleteChar (t.input.len - t.input.cp) t).input (e.killFwd p) := by
  have hloop := loop_rel (fun e => e.atCursor.any p) Editor.deleteForward
    (fun t e h => (hcond t).trans (h.atCursor_cond p)) (fun _ _ h => termDeleteChar_rel h)
    (t.input.len - t.input.cp) h
  rwa [Editor.loopWhile_deleteForward p _ h.wf.cursor (le_of_eq (by rw [h.len, h.cursor]))] at hloop

theorem afterSpace_true (t : Term) :
    afterSpace true t = (decide (t.input.cp > 0) && (t.input.buf.getD (t.input.cp - 1) 0 == 32)) := by
  unfold afterSpace
  rw [beq_true]

theorem afterSpace_false (t : Term) :
    afterSpace false t = (decide (t.input.cp > 0) && (t.input.buf.getD (t.input.cp - 1) 0 != 32)) := by
  unfold afterSpace
  rw [beq_false]
  rfl

theorem onSpace_true (t : Term) :
    onSpace true t = (decide (t.input.cp < t.input.len) && (t.input.buf.getD t.input.cp 0 == 32)) := by
  unfold onSpace
  rw [beq_true]

theorem onSpace_false (t : Term) :
    onSpace false t = (decide (t.input.cp < t.input.len) && (t.input.buf.getD t.input.cp 0 != 32)) := by
  unfold onSpace
  rw [beq_false]
  rfl

/-! ## The keys made of loops -/

theorem termBackwardPureWord_rel (h : BufRel t.input e) :
    BufRel (termBackwardPureWord t).input (e.moveBack (· != 32)) :=
  backwardLoop_rel _ (· != 32) (fun _ => rfl) h

theorem termBeginningOfLine_rel (h : BufRel t.input e) : BufRel (termBeginningOfLine t).input e.home := by
  have hloop := backwardLoop_rel (fun t => t.input.cp != 0) (fun _ => true)
    (fun t => by cases t.input.cp <;> rfl) h
  rwa [Editor.moveBack_true] at hloop

theorem termEndOfLine_rel (h : BufRel t.input e) : BufRel (termEndOfLine t).input e.toEnd := by
  have hloop := forwardLoop_rel (fun t => decide (t.input.cp < t.input.len)) (fun _ => true)
    (fun t => by simp) h
  rwa [Editor.moveFwd_true h.wf.cursor] at hloop

theorem termBackwardWord_rel (h : BufRel t.input e) :
    BufRel (termBackwardWord t).input (e.wordLeft 32) :=
  backwardLoop_rel _ (· != 32) afterSpace_false (backwardLoop_rel _ (· == 32) afterSpace_true h)

theorem termForwardWord_rel (h : BufRel t.input e) :
    BufRel (termForwardWord t).input (e.wordRight 32) :=
  forwardLoop_rel _ (· != 32) onSpace_false (forwardLoop_rel _ (· == 32) onSpace_true h)

theorem termBackwardKillWord_rel (h : BufRel t.input e) :
    BufRel (termBackwardKillWord t).input (e.killWordBackward 32) := by
  rw [Editor.killWordBackward_eq 32 h.wf.cursor]
  exact deleteBackwardLoop_rel _ (· != 32) afterSpace_false
    (deleteBackwardLoop_rel _ (· == 32) afterSpace_true h)

theorem termForwardKillWord_rel (h : BufRel t.input e) :
    BufRel (termForwardKillWord t).input (e.killWordForward 32) := by
  rw [Editor.killWordForward_eq 32 h.wf.cursor]
  exact deleteForwardLoop_rel _ (· != 32) onSpace_false
    (deleteForwardLoop_rel _ (· == 32) onSpace_true h)

theorem termBackwardPureWord_edits (t : Term) : Edits t (termBackwardPureWord t) :=
  loop_edits termBackwardChar_edits _ t

theorem termBeginningOfLine_edits (t : Term) : Edits t (termBeginningOfLine t) :=
  loop_edits termBackwardChar_edits _ t

theorem termEndOfLine_edits (t : Term) : Edits t (termEndOfLine t) :=
  loop_edits termForwardChar_edits _ t

theorem termBackwardWord_edits (t : Term) : Edits t (termBackwardWord t) :=
  (loop_edits termBackwardChar_edits _ t).trans (loop_edits termBackwardChar_edits _ _)

theorem termForwardWord_edits (t : Term) : Edits t (termForwardWord t) :=
  (loop_edits termForwardChar_edits _ t).trans (loop_edits termForwardChar_edits _ _)

theorem termBackwardKillWord_edits (t : Term) : Edits t (termBackwardKillWord t) :=
  (loop_edits termDeleteBackwardChar_edits _ t).trans (loop_edits termDeleteBackwardChar_edits _ _)

theorem termForwardKillWord_edits (t : Term) : Edits t (termForwardKillWord t) :=
  (loop_edits termDeleteChar_edits _ t).trans (loop_edits termDeleteChar_edits _ _)

/-! ## Cutting and replacing the line -/

/-- What `term_kill_line` does to the buffer. -/
theorem termKillLine_input (t : Term) :
    (termKillLine t).input =
      if t.input.len - t.input.cp = 0 then t.input
      else { t.input with
        buf := memcpyAt t.input.buf t.input.cp (List.replicate (t.input.len - t.input.cp) 0)
        len := t.input.cp } := by
  unfold termKillLine
  dsimp only
  split_ifs <;> rfl

theorem termKillLine_rel (h : BufRel t.input e) : BufRel (termKillLine t).input e.killToEnd := by
  have hsize := h.size
  have hlt := h.len_lt
  have hcp := h.cp_le
  have hk := h.wf.cursor
  rw [termKillLine_input]
  split_ifs with h0
  · -- the cursor is at the end: nothing to cut
    have hend : e.s.length ≤ e.k := by rw [← h.len, ← h.cursor]; omega
    rw [Editor.killToEnd, List.take_of_length_le hend]
    exact h
  · -- zeros from `cp` to `len`, the cells before `cp` kept
    have hzero : memcpyAt t.input.buf t.input.cp (List.replicate (t.input.len - t.input.cp) 0) =
        t.input.buf.take t.input.cp ++
          (List.replicate (t.input.len - t.input.cp) 0 ++ t.input.buf.drop t.input.len) := by
      rw [memcpyAt_eq (by simp only [List.length_replicate]; omega), List.append_assoc,
        List.length_replicate, Nat.add_sub_cancel' hcp]
    have hpre : (t.input.buf.take t.input.cp).length = t.input.cp := by
      simp only [List.length_take]
      omega
    refine ⟨by simp [hsize], ?_, ?_, h.cursor, ?_, h.wf.killToEnd⟩
    · rw [hzero, List.take_left' hpre]
      show _ = e.s.take e.k
      rw [← h.cursor, h.take_line hcp]
    · show t.input.cp = (e.s.take e.k).length
      rw [List.length_take, ← h.cursor, ← h.len, Nat.min_eq_left hcp]
    · show (memcpyAt _ _ _).getD t.input.cp 0 = 0
      rw [hzero, List.getD_eq_getElem?_getD, List.getElem?_append_right hpre.le, hpre, Nat.sub_self,
        List.getElem?_append_left (by simp only [List.length_replicate]; omega),
        List.getElem?_replicate, if_pos (by omega)]
      rfl

theorem termKillLine_edits (t : Term) : Edits t (termKillLine t) := by
  unfold termKillLine
  dsimp only
  split_ifs <;> exact ⟨rfl, rfl, rfl, rfl⟩

theorem termKillLineFromBeginning_rel (h : BufRel t.input e) :
    BufRel (termKillLineFromBeginning t).input Editor.clear := by
  have hkill := termKillLine_rel (termBeginningOfLine_rel h)
  have hclear : e.home.killToEnd = Editor.clear := by
    simp [Editor.home, Editor.killToEnd, Editor.clear]
  rwa [hclear] at hkill

theorem termKillLineFromBeginning_edits (t : Term) : Edits t (termKillLineFromBeginning t) :=
  (termBeginningOfLine_edits t).trans (termKillLine_edits _)

/-- Within its C string, a buffer's prefix is the string's. -/
theorem take_of_le_untilNul {str : List UInt8} {n : Nat} (hn : n ≤ (untilNul str).length) :
    str.take n = (untilNul str).take n := by
  obtain ⟨rest, hrest⟩ : untilNul str <+: str := List.takeWhile_prefix _
  conv_lhs => rw [← hrest]
  exact List.take_append_of_le_length hn

/-- What `term_insert_word_overwrite` does to the buffer: `n` is the string's
length clipped to `max - cp - 1`. -/
theorem termInsertWordOverwrite_input (t : Term) (str : List UInt8) :
    (termInsertWordOverwrite t str).input =
      { t.input with
        buf := (memcpyAt t.input.buf t.input.cp
          (str.take (min (untilNul str).length (t.input.max - t.input.cp - 1)))).set
            (t.input.cp + min (untilNul str).length (t.input.max - t.input.cp - 1)) 0
        cp := t.input.cp + min (untilNul str).length (t.input.max - t.input.cp - 1)
        len := t.input.cp + min (untilNul str).length (t.input.max - t.input.cp - 1) } := by
  unfold termInsertWordOverwrite
  dsimp only
  -- the clip `n > max - cp - 1 ? max - cp - 1 : n` is a `min`
  have hn : (if (untilNul str).length > t.input.max - t.input.cp - 1 then t.input.max - t.input.cp - 1
      else (untilNul str).length) = min (untilNul str).length (t.input.max - t.input.cp - 1) := by
    split_ifs <;> omega
  rw [hn]

theorem termInsertWordOverwrite_rel (h : BufRel t.input e) (str : List UInt8) :
    BufRel (termInsertWordOverwrite t str).input (e.overwrite t.input.max (untilNul str)) := by
  have hsize := h.size
  have hlt := h.len_lt
  have hcp := h.cp_le
  rw [termInsertWordOverwrite_input]
  -- `n` bytes of the string fit before the last cell
  generalize hn : min (untilNul str).length (t.input.max - t.input.cp - 1) = n
  have hnw : n ≤ (untilNul str).length := hn ▸ Nat.min_le_left _ _
  have hnmax : t.input.cp + n < t.input.max := by omega
  have hstr : str.take n = (untilNul str).take n := take_of_le_untilNul hnw
  have hlenw : ((untilNul str).take n).length = n := by
    simp only [List.length_take]
    omega
  have hclip : (untilNul str).take (t.input.max - e.k - 1) = (untilNul str).take n := by
    rw [← hn, ← h.cursor]
    rcases Nat.le_total (untilNul str).length (t.input.max - t.input.cp - 1) with hle | hle
    · rw [Nat.min_eq_left hle, List.take_of_length_le hle, List.take_length]
    · rw [Nat.min_eq_right hle]
  have hcopy : memcpyAt t.input.buf t.input.cp (str.take n) =
      t.input.buf.take t.input.cp ++ (untilNul str).take n ++
        t.input.buf.drop (t.input.cp + n) := by
    rw [hstr, memcpyAt_eq (by omega), hlenw]
  have hpre : (t.input.buf.take t.input.cp ++ (untilNul str).take n).length = t.input.cp + n := by
    simp only [List.length_append, List.length_take] at hlenw ⊢
    omega
  have hline : e.s.take e.k ++ (untilNul str).take (t.input.max - e.k - 1) =
      t.input.buf.take t.input.cp ++ (untilNul str).take n := by
    rw [hclip, ← h.cursor, h.take_line hcp]
  have hwf := h.wf.overwrite (untilNul_nulFree str)
  unfold Editor.overwrite Editor.load at hwf ⊢
  rw [hline] at hwf ⊢
  refine ⟨by simp [hsize], ?_, hpre.symm, hpre.symm, ?_, hwf⟩
  · rw [List.take_set_of_le le_rfl, hcopy, List.take_left' hpre]
  · rw [getD_set_of_lt _ (by simp; omega), if_pos rfl]

theorem termInsertWordOverwrite_edits (t : Term) (str : List UInt8) :
    Edits t (termInsertWordOverwrite t str) :=
  ⟨rfl, rfl, rfl, rfl⟩

/-- `term_history_print` puts a C string that fits into the buffer. -/
theorem termHistoryPrint_rel (h : BufRel t.input e) {line : List UInt8}
    (hline : (untilNul line).length < t.input.max) :
    BufRel (termHistoryPrint t line).input (Editor.load (untilNul line)) := by
  have hkill := termKillLineFromBeginning_rel h
  have hmax : (termKillLineFromBeginning t).input.max = t.input.max :=
    (termKillLineFromBeginning_edits t).max
  have hsize := hkill.size
  unfold termHistoryPrint
  dsimp only
  refine termRedrawLine_rel (e := Editor.load (untilNul line)) ⟨by simp [hsize], ?_, rfl, rfl, ?_, ?_⟩
  · -- the string is copied to the start of the buffer
    dsimp only
    rw [List.take_set_of_le le_rfl, take_of_le_untilNul le_rfl, List.take_length,
      memcpyAt_eq (by omega), List.take_zero, List.nil_append, List.take_left' rfl]
    rfl
  · rw [getD_set_of_lt _ (by simp; omega), if_pos rfl]
  · exact Editor.Wf.load (hmax ▸ hline) (untilNul_nulFree line)

theorem termHistoryPrint_edits (t : Term) (line : List UInt8) :
    Edits t (termHistoryPrint t line) :=
  (termKillLineFromBeginning_edits t).trans ⟨rfl, rfl, rfl, rfl⟩

/-! ## `?`, TAB and Enter -/

theorem termDescribeCommand_rel (h : BufRel t.input e) :
    BufRel (termDescribeCommand t).input e.toEnd := by
  unfold termDescribeCommand
  dsimp only
  apply termRedrawLine_rel
  -- the help listing only prints
  split_ifs <;> exact h

theorem termDescribeCommand_edits (t : Term) : Edits t (termDescribeCommand t) := by
  unfold termDescribeCommand
  dsimp only
  split_ifs <;> exact ⟨rfl, rfl, rfl, rfl⟩

/-- On a full or partial match, completion redraws the line, steps back over
its last word and writes the key over it, then on a full match inserts a
space. -/
theorem termCompleteCommand_rel (h : BufRel t.input e) (hmax : t.input.max = bufSize) :
    BufRel (termCompleteCommand t).input (completeLine t.tree e) := by
  have hu : untilNul (t.emit (bytesOf "\r\n")).input.buf = e.s := h.untilNul_eq
  have htree : (t.emit (bytesOf "\r\n")).tree = t.tree := rfl
  unfold termCompleteCommand completeLine
  dsimp only
  rw [hu, htree]
  generalize cmdComplete t.tree e.s = r
  -- the line as the key leaves it, and the capacity the steps keep
  let t₁ := termBackwardPureWord (termRedrawLine (termPrompt (t.emit (bytesOf "\r\n"))))
  have h₁ : BufRel t₁.input (e.toEnd.moveBack (· != 32)) :=
    termBackwardPureWord_rel (termRedrawLine_rel h)
  have hmax₁ : t₁.input.max = bufSize := (termBackwardPureWord_edits _).max.trans hmax
  have h₂ := termInsertWordOverwrite_rel h₁ (r.keys.headD [])
  rw [hmax₁] at h₂
  have hmax₂ : (termInsertWordOverwrite t₁ (r.keys.headD [])).input.max = bufSize := hmax₁
  have h₃ := termSelfInsert_rel h₂ (c := 32) (by decide)
  rw [hmax₂] at h₃
  have hend : BufRel (termRedrawLine t).input e.toEnd := termRedrawLine_rel h
  by_cases hno : r.ret = CMD_ERR_NO_MATCH
  · rw [if_pos hno, if_neg (by rw [hno]; decide), if_neg (by rw [hno]; decide)]
    exact hend
  rw [if_neg hno]
  by_cases hfull : r.ret = CMD_COMPLETE_FULL_MATCH
  · rw [if_pos hfull, if_pos hfull]
    exact h₃
  rw [if_neg hfull, if_neg hfull]
  by_cases hmatch : r.ret = CMD_COMPLETE_MATCH
  · rw [if_pos hmatch, if_pos hmatch]
    exact h₂
  rw [if_neg hmatch, if_neg hmatch]
  split_ifs <;> exact hend

theorem termCompleteCommand_edits (t : Term) : Edits t (termCompleteCommand t) := by
  have hprompt : Edits t (termPrompt (t.emit (bytesOf "\r\n"))) := ⟨rfl, rfl, rfl, rfl⟩
  have hword := hprompt.trans ((termRedrawLine_edits _).trans (termBackwardPureWord_edits _))
  unfold termCompleteCommand
  dsimp only
  split_ifs
  · exact ⟨rfl, rfl, rfl, rfl⟩
  · exact (hword.trans (termInsertWordOverwrite_edits _ _)).trans (termSelfInsert_edits _ _)
  · exact hword.trans (termInsertWordOverwrite_edits _ _)
  all_goals exact ⟨rfl, rfl, rfl, rfl⟩

/-- Enter empties the buffer. -/
theorem termExecute_rel (exec : List UInt8 → List UInt8) (h : BufRel t.input e) :
    BufRel (termExecute exec t).input Editor.clear := by
  have hsize := h.size
  have hlt := h.len_lt
  refine ⟨by simp [termExecute, termPrompt, Term.emit, hsize], rfl, rfl, rfl, ?_, ?_⟩
  · show (t.input.buf.set 0 0).getD 0 0 = 0
    rw [getD_set_of_lt _ (by omega), if_pos rfl]
  · exact Editor.Wf.clear (show 0 < t.input.max by omega)

/-- Enter keeps the line, as a C string, in the history. -/
theorem termExecute_hist (exec : List UInt8 → List UInt8) (t : Term) :
    (termExecute exec t).hist = historyAdd t.hist (untilNul t.input.buf) := rfl

/-! ## The terminal and the reference editor -/

/-- The terminal holds the reference editor's state: the line and cursor in
the buffer, the history list in the ring, the same escape state; the buffer
has `sizeof(buf)` cells and the tree is the one completion uses. -/
structure TermRel (tree : CmdNode) (t : Term) (σ : EdState) : Prop where
  buf : BufRel t.input σ.ed
  max : t.input.max = bufSize
  hist : HistRel t.hist σ.hist
  escape : t.escape = σ.escape
  tree : t.tree = tree

variable {tree : CmdNode} {σ : EdState}

namespace TermRel

/-- An editing function acting as an editing key. -/
theorem edit (hr : TermRel tree t σ) {t' : Term} {f : Editor UInt8 → Editor UInt8}
    (hb : BufRel t'.input (f σ.ed)) (he : Edits t t') : TermRel tree t' (σ.edit f) :=
  ⟨hb, he.max.trans hr.max, he.hist ▸ hr.hist, he.escape.trans hr.escape, he.tree.trans hr.tree⟩

theorem setEscape (hr : TermRel tree t σ) (x : Escape) :
    TermRel tree { t with escape := x } { σ with escape := x } :=
  ⟨hr.buf, hr.max, hr.hist, rfl, hr.tree⟩

/-- The same test on the byte in both. -/
theorem ite {p : Prop} [Decidable p] {t₁ t₂ : Term} {σ₁ σ₂ : EdState}
    (h₁ : p → TermRel tree t₁ σ₁) (h₂ : ¬p → TermRel tree t₂ σ₂) :
    TermRel tree (if p then t₁ else t₂) (if p then σ₁ else σ₂) := by
  split_ifs with hp
  · exact h₁ hp
  · exact h₂ hp

end TermRel

/-- The end of `term_previous_line` and `term_next_line`: the history moved,
and a line found printed into the buffer. -/
def termRecall (t : Term) : Option (List UInt8) × History → Term
  | (none, h) => { t with hist := h }
  | (some line, h) => termHistoryPrint { t with hist := h } line

theorem termPreviousLine_eq (t : Term) : termPreviousLine t = termRecall t (historyPrevious t.hist) := by
  unfold termPreviousLine termRecall
  cases historyPrevious t.hist with
  | mk line h => cases line <;> rfl

theorem termNextLine_eq (t : Term) : termNextLine t = termRecall t (historyNext t.hist) := by
  unfold termNextLine termRecall
  cases historyNext t.hist with
  | mk line h => cases line <;> rfl

/-- A recall of the ring that answers as the list does. -/
theorem termRecall_rel (hr : TermRel tree t σ) (hσ : σ.Wf) {r : Option (List UInt8) × History}
    {r' : Option (List UInt8) × HistModel} (h1 : r.1 = r'.1) (h2 : HistRel r.2 r'.2)
    (hlines : r'.2.lines = σ.hist.lines)
    (hmem : ∀ line, r'.1 = some line → line = [] ∨ line ∈ σ.hist.lines) :
    TermRel tree (termRecall t r) (σ.recallLine r') := by
  obtain ⟨line?, h⟩ := r
  obtain ⟨line?', m⟩ := r'
  dsimp only at h1 h2 hlines hmem
  subst h1
  cases line? with
  | none => exact ⟨hr.buf, hr.max, h2, hr.escape, hr.tree⟩
  | some line =>
    -- a recalled line is a C string that fits the buffer
    have hline : line.length < bufSize ∧ NulFree line := by
      rcases hmem line rfl with rfl | hl
      · exact ⟨by decide, nulFree_nil⟩
      · exact hσ.hist line (hlines ▸ hl)
    have hb := termHistoryPrint_rel (t := { t with hist := h }) hr.buf
      (by rw [untilNul_of_nulFree hline.2, hr.max]; exact hline.1)
    rw [untilNul_of_nulFree hline.2] at hb
    have he := termHistoryPrint_edits { t with hist := h } line
    exact ⟨hb, he.max.trans hr.max, he.hist ▸ h2, he.escape.trans hr.escape, he.tree.trans hr.tree⟩

/-- **Step lemma.** Every byte keeps the terminal holding the reference
editor's state. -/
theorem termRead_rel (exec : List UInt8 → List UInt8) (hr : TermRel tree t σ) (hσ : σ.Wf) (c : Int) :
    TermRel tree (termRead exec t c) (editorRead tree σ c) := by
  have hprev := historyPrevious_rel hr.hist
  have hnext := historyNext_rel hr.hist
  have hP : TermRel tree (termPreviousLine t) (σ.recallLine σ.hist.previous) := by
    rw [termPreviousLine_eq]
    exact termRecall_rel hr hσ hprev.1 hprev.2 σ.hist.previous_lines
      fun _ hl => .inr (HistModel.mem_of_previous hl)
  have hN : TermRel tree (termNextLine t) (σ.recallLine σ.hist.next) := by
    rw [termNextLine_eq]
    exact termRecall_rel hr hσ hnext.1 hnext.2 σ.hist.next_lines fun _ hl => HistModel.mem_of_next hl
  unfold termRead editorRead
  rw [hr.escape]
  cases hesc : σ.escape with
  | escape =>
    -- `ESC [`: recall or move, then back to normal
    refine TermRel.setEscape (TermRel.ite (fun _ => hP) fun _ => TermRel.ite (fun _ => hN) fun _ => ?_) _
    refine TermRel.ite (fun _ => hr.edit (termForwardChar_rel hr.buf) (termForwardChar_edits t))
      fun _ => TermRel.ite (fun _ => hr.edit (termBackwardChar_rel hr.buf) (termBackwardChar_edits t))
        fun _ => hr
  | preEscape =>
    -- `ESC`: the word keys
    refine TermRel.ite (fun _ => (hr.edit (termBackwardWord_rel hr.buf) (termBackwardWord_edits t)).setEscape _)
      fun _ => TermRel.ite (fun _ => (hr.edit (termForwardWord_rel hr.buf) (termForwardWord_edits t)).setEscape _)
      fun _ => TermRel.ite
        (fun _ => (hr.edit (termForwardKillWord_rel hr.buf) (termForwardKillWord_edits t)).setEscape _)
      fun _ => TermRel.ite
        (fun _ => (hr.edit (termBackwardKillWord_rel hr.buf) (termBackwardKillWord_edits t)).setEscape _)
      fun _ => TermRel.ite (fun _ => hr.setEscape _) fun _ => hr.setEscape _
  | normal =>
    -- the keys of the normal state, in the order `term_read` tests them
    refine TermRel.ite (fun _ => hr.edit (termBackwardChar_rel hr.buf) (termBackwardChar_edits t))
      fun _ => TermRel.ite (fun _ => hr.edit (termForwardChar_rel hr.buf) (termForwardChar_edits t))
      fun _ => TermRel.ite
        (fun _ => hr.edit (termDeleteBackwardChar_rel hr.buf) (termDeleteBackwardChar_edits t))
      fun _ => TermRel.ite (fun _ => hr.edit (termDeleteChar_rel hr.buf) (termDeleteChar_edits t))
      fun _ => TermRel.ite (fun _ => hr.edit (termBeginningOfLine_rel hr.buf) (termBeginningOfLine_edits t))
      fun _ => TermRel.ite (fun _ => hr.edit (termEndOfLine_rel hr.buf) (termEndOfLine_edits t))
      fun _ => TermRel.ite (fun _ => hN) fun _ => TermRel.ite (fun _ => hP)
      fun _ => TermRel.ite
        (fun _ => hr.edit (termKillLineFromBeginning_rel hr.buf) (termKillLineFromBeginning_edits t))
      fun _ => TermRel.ite (fun _ => hr.edit (termKillLine_rel hr.buf) (termKillLine_edits t))
      fun _ => TermRel.ite (fun _ => hr.edit (termForwardKillWord_rel hr.buf) (termForwardKillWord_edits t))
      fun _ => TermRel.ite (fun _ => hr.setEscape _)
      fun _ => TermRel.ite (fun _ => hr.edit (termDescribeCommand_rel hr.buf) (termDescribeCommand_edits t))
      fun _ => TermRel.ite (fun _ => ?_) fun _ => TermRel.ite (fun _ => ?_) fun _ => TermRel.ite (fun hp => ?_)
      fun _ => hr
    · -- TAB
      have hb := termCompleteCommand_rel hr.buf hr.max
      rw [hr.tree] at hb
      exact hr.edit hb (termCompleteCommand_edits t)
    · -- Enter: the line joins the history
      refine ⟨termExecute_rel exec hr.buf, hr.max, ?_, hr.escape.trans hesc, hr.tree⟩
      rw [termExecute_hist, hr.buf.untilNul_eq]
      exact historyAdd_rel hr.hist hσ.ed.noNul
    · -- a printable byte
      have hb := termSelfInsert_rel hr.buf (printable_ne_zero hp)
      rw [hr.max] at hb
      exact hr.edit hb (termSelfInsert_edits t _)

theorem termCreate_rel (name : List UInt8) (tree : CmdNode) :
    TermRel tree (termCreate name tree) EdState.init := by
  -- the buffer of `calloc`: 8192 zero bytes
  have hsize : (List.replicate 8192 (0 : UInt8)).length = 8192 := List.length_replicate
  have hnul : (List.replicate 8192 (0 : UInt8)).getD 0 0 = 0 := by
    rw [List.getD_eq_getElem?_getD, List.getElem?_replicate, if_pos (by decide)]
    rfl
  exact ⟨⟨hsize, rfl, rfl, rfl, hnul, Editor.Wf.clear (show 0 < 8192 by decide)⟩, rfl,
    historyCreate_rel, rfl, rfl⟩

/-- **Run lemma.** From `term_create`, after any bytes, the terminal holds the
reference editor's state after the same bytes. -/
theorem termFeed_rel (exec : List UInt8 → List UInt8) (name : List UInt8) (tree : CmdNode)
    (bytes : List UInt8) :
    TermRel tree (termFeed exec (termCreate name tree) bytes) (editorFeed tree bytes) ∧
      (editorFeed tree bytes).Wf := by
  have hrun := foldl_related (R := fun t σ => TermRel tree t σ ∧ σ.Wf) (P := fun _ => True)
    (fun t σ b _ (hts : TermRel tree t σ ∧ σ.Wf) =>
      ⟨termRead_rel exec hts.1 hts.2 (signedChar b), editorRead_wf tree hts.2 (signedChar b)⟩)
    bytes (termCreate name tree) EdState.init (fun _ _ => trivial)
    ⟨termCreate_rel name tree, editorFeed_wf tree []⟩
  exact hrun

/-- From a fresh terminal, after any input bytes (escape sequences, history
recall and TAB completion against any tree included): `cp ≤ len ≤ 8191`,
`buf[len]` is the NUL and `buf[0..len)` has none, and the line, the cursor,
the history and the escape state are the reference editor's after the same
bytes; so each byte acts on them as `editorRead` says. -/
theorem term_line_editor (exec : List UInt8 → List UInt8) (name : List UInt8) (tree : CmdNode)
    (bytes : List UInt8) :
    let t := termFeed exec (termCreate name tree) bytes
    let σ := editorFeed tree bytes
    (t.input.cp ≤ t.input.len ∧ t.input.len ≤ 8191 ∧ t.input.buf.getD t.input.len 0 = 0 ∧
        NulFree (t.input.buf.take t.input.len)) ∧
      t.input.buf.take t.input.len = σ.ed.s ∧ t.input.cp = σ.ed.k ∧ HistRel t.hist σ.hist ∧
        t.escape = σ.escape := by
  intro t σ
  obtain ⟨hr, -⟩ := termFeed_rel exec name tree bytes
  have hlen : t.input.len < bufSize := hr.max ▸ hr.buf.len_lt
  refine ⟨⟨hr.buf.cp_le, Nat.le_of_lt_succ hlen, hr.buf.nul, ?_⟩, hr.buf.line, hr.buf.cursor,
    hr.hist, hr.escape⟩
  rw [hr.buf.line]
  exact hr.buf.wf.noNul

end Chaconne.Cli
