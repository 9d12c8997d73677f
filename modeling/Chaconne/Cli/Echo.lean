import Chaconne.Cli.TermSpec
import Chaconne.Cli.CompleteSpec
import Chaconne.CLib.LineEcho

/-!
# What `term_read` echoes

The terminal keeps the line after the last prompt in step with its buffer:
each editing function appends to the output stream the bytes that redraw what
it changed. `Echoes t t' e e'` says that what `t'` appended to the output of
`t` takes a terminal showing the line and cursor of the editor `e` to one
showing those of `e'` (`CLib.Echo`: printable bytes and backspaces only).

Each editing function echoes the key of the reference editor it computes, on a
buffer that holds the editor's line (`BufRel`) when the line is printable: its
bytes are the ones `CLib.LineEcho` gives for the key, read out of the new
buffer (`BufRel.rest`). The loops echo the loop of the key
(`loop_echo`, by `loopWhile_related`), so the word keys, the kills and
history recall echo their keys too; completion writes a key over the last run
of non-blank bytes, which it covers (`cmdComplete_key`).
-/

namespace Chaconne.Cli

open CLib

/-- What `t'` appended to the output of `t` takes the terminal's line from the
editor `e` to the editor `e'`. -/
def Echoes (t t' : Term) (e e' : Editor UInt8) : Prop :=
  ∃ post, t'.out = t.out ++ post ∧ Echo post e.s e.k e'.s e'.k

namespace Echoes

variable {t t' t'' : Term} {e e' e'' : Editor UInt8}

theorem refl (t : Term) (e : Editor UInt8) : Echoes t t e e :=
  ⟨[], (List.append_nil _).symm, Echo.nil _ _⟩

theorem trans (h : Echoes t t' e e') (h' : Echoes t' t'' e' e'') : Echoes t t'' e e'' := by
  obtain ⟨p, hp, he⟩ := h
  obtain ⟨q, hq, he'⟩ := h'
  exact ⟨p ++ q, by rw [hq, hp, List.append_assoc], he.append he'⟩

end Echoes

/-- The line from the cursor on, as the buffer holds it. -/
theorem BufRel.rest {b : Buffer} {e : Editor UInt8} (h : BufRel b e) :
    (b.buf.drop b.cp).take (b.len - b.cp) = e.s.drop e.k := by
  rw [← h.cursor]
  exact (h.drop_line _).symm

variable {t : Term} {e : Editor UInt8}

/-! ## One byte -/

theorem termBackwardChar_echo (h : BufRel t.input e) : Echoes t (termBackwardChar t) e e.left := by
  unfold termBackwardChar
  split_ifs with h0
  · exact ⟨[8], rfl, e.echo_left⟩
  · -- at the start of the line nothing moves
    have hk : e.k = 0 := by rw [← h.cursor]; exact Decidable.of_not_not h0
    refine ⟨[], (List.append_nil _).symm, ?_⟩
    show Echo [] e.s e.k e.s (e.k - 1)
    rw [hk]
    exact Echo.nil _ _

theorem termForwardChar_echo (h : BufRel t.input e) (hp : ∀ c ∈ e.s, Printable c) :
    Echoes t (termForwardChar t) e e.right := by
  unfold termForwardChar
  split_ifs with hlt
  · have hk : e.k < e.s.length := by rw [← h.cursor, ← h.len]; exact hlt
    -- the byte under the cursor is written again
    have hbyte : t.input.buf.getD t.input.cp 0 = e.s[e.k] := by
      have hget : e.s[e.k]? = some (t.input.buf.getD t.input.cp 0) := by
        rw [← h.cursor]
        exact h.getElem?_line hlt
      rw [List.getElem?_eq_getElem hk] at hget
      exact (Option.some.inj hget).symm
    exact ⟨[e.s[e.k]], by rw [← hbyte]; rfl, e.echo_right hk (hp _ (List.getElem_mem hk))⟩
  · -- at the end of the line nothing moves
    have hk : e.k = e.s.length := by have := h.cp_le; rw [← h.cursor, ← h.len]; omega
    refine ⟨[], (List.append_nil _).symm, ?_⟩
    show Echo [] e.s e.k e.s (min (e.k + 1) e.s.length)
    rw [hk, Nat.min_eq_right (Nat.le_succ _)]
    exact Echo.nil _ _

theorem termDeleteBackwardChar_echo (h : BufRel t.input e) (hp : ∀ c ∈ e.s, Printable c) :
    Echoes t (termDeleteBackwardChar t) e e.deleteBackward := by
  have hrel := termDeleteBackwardChar_rel h
  by_cases h0 : t.input.cp = 0
  · -- nothing before the cursor
    have hk : e.k = 0 := by rw [← h.cursor]; exact h0
    have ht : termDeleteBackwardChar t = t := by
      unfold termDeleteBackwardChar
      rw [if_neg (not_not.mpr h0)]
    rw [ht, Editor.deleteBackward, if_pos hk]
    exact Echoes.refl t e
  · -- back one cell, the rest of the new line, a blank, and back
    have hout : ∀ t', termDeleteBackwardChar t = t' → t'.out = t.out ++
        ([8] ++ (t'.input.buf.drop t'.input.cp).take (t'.input.len - t'.input.cp) ++ [32] ++
          List.replicate (t'.input.len - t'.input.cp + 1) 8) := by
      rintro _ rfl
      unfold termDeleteBackwardChar
      rw [if_pos h0]
      rfl
    have hout' := hout _ rfl
    rw [hrel.rest, hrel.len, hrel.cursor] at hout'
    exact ⟨_, hout', e.echo_deleteBackward (by rw [← h.cursor]; exact h0) h.wf.cursor hp⟩

theorem termDeleteChar_echo (h : BufRel t.input e) (hp : ∀ c ∈ e.s, Printable c) :
    Echoes t (termDeleteChar t) e e.deleteForward := by
  have hrel := termDeleteChar_rel h
  by_cases hlt : t.input.cp < t.input.len
  · -- the rest of the new line, a blank, and back
    have hout : ∀ t', termDeleteChar t = t' → t'.out = t.out ++
        ((t'.input.buf.drop t'.input.cp).take (t'.input.len - t'.input.cp) ++ [32] ++
          List.replicate (t'.input.len - t'.input.cp + 1) 8) := by
      rintro _ rfl
      unfold termDeleteChar
      rw [if_pos hlt]
      rfl
    have hout' := hout _ rfl
    rw [hrel.rest, hrel.len, hrel.cursor] at hout'
    exact ⟨_, hout', e.echo_deleteForward (by rw [← h.cursor, ← h.len]; exact hlt) hp⟩
  · -- nothing under the cursor
    have hk : e.s.length ≤ e.k := by rw [← h.cursor, ← h.len]; omega
    have ht : termDeleteChar t = t := by
      unfold termDeleteChar
      rw [if_neg hlt]
    rw [ht, Editor.deleteForward, List.eraseIdx_of_length_le hk]
    exact Echoes.refl t e

theorem termSelfInsert_echo (h : BufRel t.input e) (hp : ∀ c ∈ e.s, Printable c) {c : UInt8}
    (hc : Printable c) : Echoes t (termSelfInsert t c) e (e.insert t.input.max c) := by
  have hc0 : c ≠ 0 := by
    rintro rfl
    exact absurd hc (by decide)
  have hrel := termSelfInsert_rel h hc0
  by_cases hfull : t.input.len + 1 ≥ t.input.max
  · -- the line would fill the buffer: nothing happens
    have ht : termSelfInsert t c = t := by
      unfold termSelfInsert
      rw [if_pos hfull]
    rw [ht, Editor.insert, if_pos (by rw [← h.len]; exact hfull)]
    exact Echoes.refl t e
  · -- the new byte, the rest of the line, and back over the rest
    have hout : ∀ t', termSelfInsert t c = t' → t'.out = t.out ++
        (c :: if t'.input.len - t'.input.cp ≠ 0 then
          (t'.input.buf.drop t'.input.cp).take (t'.input.len - t'.input.cp) ++
            List.replicate (t'.input.len - t'.input.cp) 8 else []) := by
      rintro _ rfl
      unfold termSelfInsert
      rw [if_neg hfull]
      rfl
    have hout' := hout _ rfl
    rw [hrel.rest, hrel.len, hrel.cursor] at hout'
    exact ⟨_, hout', e.echo_insert (by rw [← h.len]; omega) h.wf.cursor hc hp⟩

/-- After a prompt the line is written out, the cursor at its end. -/
theorem termRedrawLine_echo (h : BufRel t.input e) (hp : ∀ c ∈ e.s, Printable c) :
    Echoes t (termRedrawLine t) Editor.clear e.toEnd :=
  ⟨t.input.buf.take t.input.len, rfl, by rw [h.line]; exact Echo.print hp⟩

theorem termKillLine_echo (h : BufRel t.input e) : Echoes t (termKillLine t) e e.killToEnd := by
  unfold termKillLine
  dsimp only
  split_ifs with h0
  · -- the cursor is at the end: nothing to cut
    have hend : e.s.length ≤ e.k := by rw [← h.len, ← h.cursor]; omega
    rw [Editor.killToEnd, List.take_of_length_le hend]
    exact Echoes.refl t e
  · refine ⟨_, rfl, ?_⟩
    rw [h.len, h.cursor]
    exact e.echo_killToEnd h.wf.cursor

/-- Writing the key over the line from the cursor, when it reaches the line's
end. -/
theorem termInsertWordOverwrite_echo (h : BufRel t.input e) {str : List UInt8}
    (hstr : ∀ c ∈ untilNul str, Printable c)
    (hcover : e.s.length ≤ e.k + ((untilNul str).take (t.input.max - e.k - 1)).length) :
    Echoes t (termInsertWordOverwrite t str) e (e.overwrite t.input.max (untilNul str)) := by
  have hk := h.wf.cursor
  -- the bytes written are the clipped key
  have hbytes : str.take (min (untilNul str).length (t.input.max - t.input.cp - 1)) =
      (untilNul str).take (t.input.max - e.k - 1) := by
    rw [take_of_le_untilNul (Nat.min_le_left _ _), ← h.cursor]
    rcases Nat.le_total (untilNul str).length (t.input.max - t.input.cp - 1) with hle | hle
    · rw [Nat.min_eq_left hle, List.take_of_length_le hle, List.take_length]
    · rw [Nat.min_eq_right hle]
  have hout : (termInsertWordOverwrite t str).out =
      t.out ++ str.take (min (untilNul str).length (t.input.max - t.input.cp - 1)) := by
    unfold termInsertWordOverwrite
    dsimp only
    -- the clip `n > max - cp - 1 ? max - cp - 1 : n` is a `min`
    have hn : (if (untilNul str).length > t.input.max - t.input.cp - 1 then
        t.input.max - t.input.cp - 1 else (untilNul str).length) =
          min (untilNul str).length (t.input.max - t.input.cp - 1) := by
      split_ifs <;> omega
    rw [hn]
    rfl
  rw [hbytes] at hout
  have hE := Editor.echo_overwrite hk hcover
    (fun c hc => hstr c (List.mem_of_mem_take hc))
  have hlen : (e.s.take e.k).length = e.k := List.length_take_of_le hk
  refine ⟨_, hout, ?_⟩
  show Echo _ e.s e.k (e.s.take e.k ++ _) (e.s.take e.k ++ _).length
  rw [List.length_append, hlen]
  exact hE

/-! ## Loops of one-byte steps -/

/-- A loop of a step that echoes an editor key, under a condition that agrees
with the editor's, echoes the same loop of the key, as long as the key keeps
the line printable. -/
theorem loop_echo (cond' : Editor UInt8 → Bool) (body' : Editor UInt8 → Editor UInt8)
    {cond : Term → Bool} {body : Term → Term}
    (hcond : ∀ t e, BufRel t.input e → cond t = cond' e)
    (hbody : ∀ t e, BufRel t.input e → (∀ c ∈ e.s, Printable c) →
      BufRel (body t).input (body' e) ∧ Echoes t (body t) e (body' e))
    (hkeep : ∀ e, (∀ c ∈ e.s, Printable c) → ∀ c ∈ (body' e).s, Printable c)
    (n : Nat) (h : BufRel t.input e) (hp : ∀ c ∈ e.s, Printable c) :
    Echoes t (loopWhile cond body n t) e (loopWhile cond' body' n e) := by
  -- the invariant: related, printable, and echoed from the start
  have hrun := loopWhile_related
    (R := fun t' e' => BufRel t'.input e' ∧ (∀ c ∈ e'.s, Printable c) ∧ Echoes t t' e e')
    (fun t' e' hr => hcond t' e' hr.1)
    (fun t' e' hr _ =>
      ⟨(hbody t' e' hr.1 hr.2.1).1, hkeep e' hr.2.1, hr.2.2.trans (hbody t' e' hr.1 hr.2.1).2⟩)
    n t e ⟨h, hp, Echoes.refl t e⟩
  exact hrun.2.2

/-- `while (cp > 0 && p(buf[cp - 1])) term_backward_char(t);` -/
theorem backwardLoop_echo (cond : Term → Bool) (p : UInt8 → Bool)
    (hcond : ∀ t, cond t = (decide (t.input.cp > 0) && p (t.input.buf.getD (t.input.cp - 1) 0)))
    (h : BufRel t.input e) (hp : ∀ c ∈ e.s, Printable c) :
    Echoes t (loopWhile cond termBackwardChar t.input.cp t) e (e.moveBack p) := by
  have hloop := loop_echo (fun e => e.before.any p) Editor.left
    (fun t e h => (hcond t).trans (h.before_cond p))
    (fun _ _ h _ => ⟨termBackwardChar_rel h, termBackwardChar_echo h⟩) (fun _ hp => hp)
    t.input.cp h hp
  rwa [Editor.loopWhile_left p _ h.wf.cursor h.cursor.ge] at hloop

/-- `while (cp < len && p(buf[cp])) term_forward_char(t);` -/
theorem forwardLoop_echo (cond : Term → Bool) (p : UInt8 → Bool)
    (hcond : ∀ t, cond t = (decide (t.input.cp < t.input.len) && p (t.input.buf.getD t.input.cp 0)))
    (h : BufRel t.input e) (hp : ∀ c ∈ e.s, Printable c) :
    Echoes t (loopWhile cond termForwardChar (t.input.len - t.input.cp) t) e (e.moveFwd p) := by
  have hloop := loop_echo (fun e => e.atCursor.any p) Editor.right
    (fun t e h => (hcond t).trans (h.atCursor_cond p))
    (fun _ _ h hp => ⟨termForwardChar_rel h, termForwardChar_echo h hp⟩) (fun _ hp => hp)
    (t.input.len - t.input.cp) h hp
  rwa [Editor.loopWhile_right p _ h.wf.cursor (le_of_eq (by rw [h.len, h.cursor]))] at hloop

/-- `while (cp > 0 && p(buf[cp - 1])) term_delete_backward_char(t);` -/
theorem deleteBackwardLoop_echo (cond : Term → Bool) (p : UInt8 → Bool)
    (hcond : ∀ t, cond t = (decide (t.input.cp > 0) && p (t.input.buf.getD (t.input.cp - 1) 0)))
    (h : BufRel t.input e) (hp : ∀ c ∈ e.s, Printable c) :
    Echoes t (loopWhile cond termDeleteBackwardChar t.input.cp t) e (e.killBack p) := by
  have hloop := loop_echo (fun e => e.before.any p) Editor.deleteBackward
    (fun t e h => (hcond t).trans (h.before_cond p))
    (fun _ _ h hp => ⟨termDeleteBackwardChar_rel h, termDeleteBackwardChar_echo h hp⟩)
    (fun _ hp c hc => hp c (Editor.mem_of_mem_deleteBackward hc)) t.input.cp h hp
  rwa [Editor.loopWhile_deleteBackward p _ h.wf.cursor h.cursor.ge] at hloop

/-- `while (cp < len && p(buf[cp])) term_delete_char(t);` -/
theorem deleteForwardLoop_echo (cond : Term → Bool) (p : UInt8 → Bool)
    (hcond : ∀ t, cond t = (decide (t.input.cp < t.input.len) && p (t.input.buf.getD t.input.cp 0)))
    (h : BufRel t.input e) (hp : ∀ c ∈ e.s, Printable c) :
    Echoes t (loopWhile cond termDeleteChar (t.input.len - t.input.cp) t) e (e.killFwd p) := by
  have hloop := loop_echo (fun e => e.atCursor.any p) Editor.deleteForward
    (fun t e h => (hcond t).trans (h.atCursor_cond p))
    (fun _ _ h hp => ⟨termDeleteChar_rel h, termDeleteChar_echo h hp⟩)
    (fun _ hp c hc => hp c (Editor.mem_of_mem_deleteForward hc)) (t.input.len - t.input.cp) h hp
  rwa [Editor.loopWhile_deleteForward p _ h.wf.cursor (le_of_eq (by rw [h.len, h.cursor]))] at hloop

/-! ## The keys made of loops -/

theorem termBackwardPureWord_echo (h : BufRel t.input e) (hp : ∀ c ∈ e.s, Printable c) :
    Echoes t (termBackwardPureWord t) e (e.moveBack (· != 32)) :=
  backwardLoop_echo _ (· != 32) (fun _ => rfl) h hp

theorem termBeginningOfLine_echo (h : BufRel t.input e) (hp : ∀ c ∈ e.s, Printable c) :
    Echoes t (termBeginningOfLine t) e e.home := by
  have hloop := backwardLoop_echo (fun t => t.input.cp != 0) (fun _ => true)
    (fun t => by cases t.input.cp <;> rfl) h hp
  rwa [Editor.moveBack_true] at hloop

theorem termEndOfLine_echo (h : BufRel t.input e) (hp : ∀ c ∈ e.s, Printable c) :
    Echoes t (termEndOfLine t) e e.toEnd := by
  have hloop := forwardLoop_echo (fun t => decide (t.input.cp < t.input.len)) (fun _ => true)
    (fun t => by simp) h hp
  rwa [Editor.moveFwd_true h.wf.cursor] at hloop

theorem termBackwardWord_echo (h : BufRel t.input e) (hp : ∀ c ∈ e.s, Printable c) :
    Echoes t (termBackwardWord t) e (e.wordLeft 32) :=
  (backwardLoop_echo _ (· == 32) afterSpace_true h hp).trans
    (backwardLoop_echo _ (· != 32) afterSpace_false (backwardLoop_rel _ (· == 32) afterSpace_true h) hp)

theorem termForwardWord_echo (h : BufRel t.input e) (hp : ∀ c ∈ e.s, Printable c) :
    Echoes t (termForwardWord t) e (e.wordRight 32) :=
  (forwardLoop_echo _ (· == 32) onSpace_true h hp).trans
    (forwardLoop_echo _ (· != 32) onSpace_false (forwardLoop_rel _ (· == 32) onSpace_true h) hp)

theorem termBackwardKillWord_echo (h : BufRel t.input e) (hp : ∀ c ∈ e.s, Printable c) :
    Echoes t (termBackwardKillWord t) e (e.killWordBackward 32) := by
  rw [Editor.killWordBackward_eq 32 h.wf.cursor]
  exact (deleteBackwardLoop_echo _ (· == 32) afterSpace_true h hp).trans
    (deleteBackwardLoop_echo _ (· != 32) afterSpace_false
      (deleteBackwardLoop_rel _ (· == 32) afterSpace_true h)
      fun c hc => hp c (Editor.mem_of_mem_killBack hc))

theorem termForwardKillWord_echo (h : BufRel t.input e) (hp : ∀ c ∈ e.s, Printable c) :
    Echoes t (termForwardKillWord t) e (e.killWordForward 32) := by
  rw [Editor.killWordForward_eq 32 h.wf.cursor]
  exact (deleteForwardLoop_echo _ (· == 32) onSpace_true h hp).trans
    (deleteForwardLoop_echo _ (· != 32) onSpace_false
      (deleteForwardLoop_rel _ (· == 32) onSpace_true h)
      fun c hc => hp c (Editor.mem_of_mem_killFwd hc))

/-- `^U` blanks the whole line from its start. -/
theorem termKillLineFromBeginning_echo (h : BufRel t.input e) (hp : ∀ c ∈ e.s, Printable c) :
    Echoes t (termKillLineFromBeginning t) e Editor.clear := by
  have hkill := (termBeginningOfLine_echo h hp).trans (termKillLine_echo (termBeginningOfLine_rel h))
  have hclear : e.home.killToEnd = Editor.clear := by
    simp [Editor.home, Editor.killToEnd, Editor.clear]
  rwa [hclear] at hkill

/-- History recall blanks the old line and writes the recalled one. -/
theorem termHistoryPrint_echo (h : BufRel t.input e) (hp : ∀ c ∈ e.s, Printable c)
    {line : List UInt8} (hline : (untilNul line).length < t.input.max)
    (hlp : ∀ c ∈ untilNul line, Printable c) :
    Echoes t (termHistoryPrint t line) e (Editor.load (untilNul line)) := by
  have hrel := termHistoryPrint_rel h hline
  have hpost : (termHistoryPrint t line).out = (termKillLineFromBeginning t).out ++
      (termHistoryPrint t line).input.buf.take (termHistoryPrint t line).input.len := rfl
  rw [hrel.line] at hpost
  exact (termKillLineFromBeginning_echo h hp).trans ⟨_, hpost, Echo.print hlp⟩

/-! ## `?`, TAB and Enter: a new prompt -/

/-- `t'` printed a new prompt after the output of `t`, and after the prompt the
bytes that show the line of `e'` on the blank line it starts. -/
def Reprompts (t t' : Term) (e' : Editor UInt8) : Prop :=
  ∃ pre post, t'.out = t.out ++ pre ++ (t.name ++ bytesOf " > ") ++ post ∧
    Echo post [] 0 e'.s e'.k

/-- A prompt printed after more output, and an echo from the empty line. -/
theorem Reprompts.of_prompt {t₁ t' : Term} {e' : Editor UInt8} (hout : t.out <+: t₁.out)
    (hname : t₁.name = t.name) (h : Echoes (termPrompt t₁) t' Editor.clear e') :
    Reprompts t t' e' := by
  obtain ⟨pre, hpre⟩ := hout
  obtain ⟨post, hpost, he⟩ := h
  refine ⟨pre, post, ?_, he⟩
  rw [hpost, termPrompt, Term.emit, ← hpre, hname]

/-- The line written out after a prompt that follows more output. -/
theorem Reprompts.redraw {t₁ : Term} (hin : t₁.input = t.input) (hname : t₁.name = t.name)
    (hout : t.out <+: t₁.out) (h : BufRel t.input e) (hp : ∀ c ∈ e.s, Printable c) :
    Reprompts t (termRedrawLine (termPrompt t₁)) e.toEnd :=
  Reprompts.of_prompt hout hname (termRedrawLine_echo (hin ▸ h) hp)

theorem termDescribeCommand_echo (h : BufRel t.input e) (hp : ∀ c ∈ e.s, Printable c) :
    Reprompts t (termDescribeCommand t) e.toEnd := by
  unfold termDescribeCommand
  dsimp only
  -- the help lines only print
  refine Reprompts.redraw ?_ ?_ ?_ h hp
  · split_ifs <;> rfl
  · split_ifs <;> rfl
  · split_ifs <;> simp [Term.emit]

/-- Enter prints the output of the line and a prompt, after which the line is
empty. -/
theorem termExecute_echo (exec : List UInt8 → List UInt8) (t : Term) :
    Reprompts t (termExecute exec t) Editor.clear :=
  ⟨bytesOf "\r\n" ++ exec (untilNul t.input.buf), [],
    by simp [termExecute, termPrompt, Term.emit], Echo.nil _ _⟩

/-- Every key of the tree is printable up to its NUL: what completion writes
is. -/
def KeysPrintable (tree : CmdNode) : Prop :=
  ∀ p n, tree.nodeAt? p = some n → ∀ tok ∈ n.tokens, ∀ c ∈ untilNul tok.key, Printable c

/-- The check of every key of the tree, byte by byte, gives `KeysPrintable`. -/
theorem keysPrintable_of_keysAll {tree : CmdNode}
    (h : tree.keysAll (fun k => (untilNul k).all fun c => 32 ≤ c && c ≤ 126) = true) :
    KeysPrintable tree := by
  intro p n hn tok htok c hc
  have hkey := tree.keysAll_nodeAt? h p hn tok htok
  simpa [Printable] using List.all_eq_true.mp hkey c hc

/-- The key completion writes on a printable line. -/
theorem completeKey_printable {tree : CmdNode} (hkeys : KeysPrintable tree) {line : List UInt8}
    (hline : NulFree line) (hp : ∀ c ∈ line, Printable c)
    (hr : (cmdComplete tree line).ret = CMD_COMPLETE_FULL_MATCH ∨
      (cmdComplete tree line).ret = CMD_COMPLETE_MATCH) :
    ∀ c ∈ untilNul ((cmdComplete tree line).keys.headD []), Printable c := by
  obtain ⟨-, q, n, hq, tok, htok, hpre⟩ := cmdComplete_key hline hp hr
  exact fun c hc => hkeys q n hq tok htok c (hpre.subset hc)

/-- TAB: on a full or partial match the line is redrawn after the prompt, the
cursor steps back over the last word and the key is written over it (the key
extends the word, so nothing of it is left), then a space on a full match;
otherwise the line is redrawn. -/
theorem termCompleteCommand_echo (hkeys : KeysPrintable t.tree) (h : BufRel t.input e)
    (hp : ∀ c ∈ e.s, Printable c) (hmax : t.input.max = bufSize) :
    Reprompts t (termCompleteCommand t) (completeLine t.tree e) := by
  have hu : untilNul (t.emit (bytesOf "\r\n")).input.buf = e.s := h.untilNul_eq
  have htree : (t.emit (bytesOf "\r\n")).tree = t.tree := rfl
  -- what completion writes, whatever the result
  have hkey := @cmdComplete_key t.tree e.s h.wf.noNul hp
  have hkp := fun hr => completeKey_printable hkeys h.wf.noNul hp hr
  unfold termCompleteCommand completeLine
  dsimp only
  rw [hu, htree]
  generalize cmdComplete t.tree e.s = r at hkey hkp ⊢
  -- the prompt after the completion's line end
  have hprompt : ∀ {t' : Term} {e' : Editor UInt8},
      Echoes (termPrompt (t.emit (bytesOf "\r\n"))) t' Editor.clear e' → Reprompts t t' e' :=
    Reprompts.of_prompt (List.prefix_append _ _) rfl
  -- the line, and back over its last word
  let t₁ := termBackwardPureWord (termRedrawLine (termPrompt (t.emit (bytesOf "\r\n"))))
  let e₁ := e.toEnd.moveBack (· != 32)
  have h₀ : BufRel (termPrompt (t.emit (bytesOf "\r\n"))).input e := h
  have h₁ : BufRel t₁.input e₁ := termBackwardPureWord_rel (termRedrawLine_rel h₀)
  have hmax₁ : t₁.input.max = bufSize := (termBackwardPureWord_edits _).max.trans hmax
  have hE₁ : Echoes (termPrompt (t.emit (bytesOf "\r\n"))) t₁ Editor.clear e₁ :=
    (termRedrawLine_echo h₀ hp).trans (termBackwardPureWord_echo (termRedrawLine_rel h₀) hp)
  -- the key written over the word, on a full or partial match
  have hover : r.ret = CMD_COMPLETE_FULL_MATCH ∨ r.ret = CMD_COMPLETE_MATCH →
      Echoes (termPrompt (t.emit (bytesOf "\r\n"))) (termInsertWordOverwrite t₁ (r.keys.headD []))
        Editor.clear (e₁.overwrite bufSize (untilNul (r.keys.headD []))) := by
    intro hr
    have hcov := (hkey hr).1
    have hj := backOver_le (· != 32) e.s e.s.length
    have hlt : e.s.length < bufSize := by rw [← h.len, ← hmax]; exact h.len_lt
    have hcover : e₁.s.length ≤ e₁.k +
        ((untilNul (r.keys.headD [])).take (t₁.input.max - e₁.k - 1)).length := by
      have hword := hcov.length_le
      have hk₁ : e₁.k = backOver (· != 32) e.s e.s.length := rfl
      have hs₁ : e₁.s = e.s := rfl
      simp only [List.length_drop] at hword
      simp only [List.length_take, hmax₁, hk₁, hs₁]
      omega
    have hE := termInsertWordOverwrite_echo h₁ (hkp hr) hcover
    rw [hmax₁] at hE
    exact hE₁.trans hE
  by_cases hno : r.ret = CMD_ERR_NO_MATCH
  · -- the message, the prompt and the line
    rw [if_pos hno, if_neg (by rw [hno]; decide), if_neg (by rw [hno]; decide)]
    exact Reprompts.redraw rfl rfl (by simp [Term.emit]) h hp
  rw [if_neg hno]
  by_cases hfull : r.ret = CMD_COMPLETE_FULL_MATCH
  · -- a full match: then a space
    rw [if_pos hfull, if_pos hfull]
    have h₂ := termInsertWordOverwrite_rel h₁ (r.keys.headD [])
    rw [hmax₁] at h₂
    have hp₂ : ∀ c ∈ (e₁.overwrite bufSize (untilNul (r.keys.headD []))).s, Printable c := by
      intro c hc
      rcases Editor.mem_overwrite hc with hc | hc
      · exact hp c hc
      · exact hkp (.inl hfull) c hc
    have hE := termSelfInsert_echo h₂ hp₂ (c := 32) (by decide)
    rw [show (termInsertWordOverwrite t₁ (r.keys.headD [])).input.max = bufSize from hmax₁] at hE
    exact hprompt ((hover (.inl hfull)).trans hE)
  rw [if_neg hfull, if_neg hfull]
  by_cases hmatch : r.ret = CMD_COMPLETE_MATCH
  · -- a partial match
    rw [if_pos hmatch, if_pos hmatch]
    exact hprompt (hover (.inr hmatch))
  rw [if_neg hmatch, if_neg hmatch]
  -- the list of keys, or nothing: the prompt and the line
  split_ifs
  · exact Reprompts.redraw rfl rfl (by simp [Term.emit]) h hp
  · exact Reprompts.redraw rfl rfl (by simp [Term.emit]) h hp

end Chaconne.Cli
