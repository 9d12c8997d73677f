import Chaconne.Cli.Echo
import Chaconne.Cli.Capacity

/-!
# The terminal's line stays in step with its buffer

The terminal shows the line being typed after the last prompt. After any
input from `term_create`, every byte `term_read` takes appends what keeps that
line in step with the buffer: a terminal showing `buf[0..len)` with the cursor
at `cp` shows the new `buf[0..len)` with the cursor at the new `cp` after the
appended bytes; for `?`, TAB and Enter, on the blank line after the new prompt
they print (`term_echo_display`).

It holds from every state a run reaches because the line stays printable: the
bytes typed in are, and so are the history lines recalled and the keys
completion writes, when the tree's keys are (`EdState.Printing`,
`editorRead_printing`). The keys of the repository's tree are
(`keysPrintable_repoTree`). The step lemmas (`termRead_echo`,
`termRead_reprompts`) act on the reference editor of `TermSpec`, which every
run refines (`termFeed_rel`).
-/

namespace Chaconne.Cli

open CLib

/-- The line and every history line hold printable bytes only. -/
structure EdState.Printing (σ : EdState) : Prop where
  line : ∀ c ∈ σ.ed.s, Printable c
  hist : ∀ l ∈ σ.hist.lines, ∀ c ∈ l, Printable c

namespace EdState

variable {σ : EdState}

theorem Printing.edit (h : σ.Printing) {f : Editor UInt8 → Editor UInt8}
    (hf : ∀ c ∈ (f σ.ed).s, Printable c) : (σ.edit f).Printing :=
  ⟨hf, h.hist⟩

theorem Printing.setEscape (h : σ.Printing) (x : Escape) :
    ({ σ with escape := x } : EdState).Printing :=
  ⟨h.line, h.hist⟩

/-- A recalled line is one of the history's, or the empty line. -/
theorem Printing.recallLine (h : σ.Printing) {r : Option (List UInt8) × HistModel}
    (hlines : r.2.lines = σ.hist.lines)
    (hr : ∀ line, r.1 = some line → line = [] ∨ line ∈ σ.hist.lines) : (σ.recallLine r).Printing := by
  obtain ⟨line?, m⟩ := r
  have hm : ∀ l ∈ m.lines, ∀ c ∈ l, Printable c := fun l hl => h.hist l (hlines ▸ hl)
  cases line? with
  | none => exact ⟨h.line, hm⟩
  | some line =>
    refine ⟨fun c hc => ?_, hm⟩
    rcases hr line rfl with rfl | hmem
    · exact absurd hc List.not_mem_nil
    · exact h.hist line hmem c hc

theorem Printing.previous (h : σ.Printing) : (σ.recallLine σ.hist.previous).Printing :=
  h.recallLine σ.hist.previous_lines fun _ hl => .inr (HistModel.mem_of_previous hl)

theorem Printing.next (h : σ.Printing) : (σ.recallLine σ.hist.next).Printing :=
  h.recallLine σ.hist.next_lines fun _ hl => HistModel.mem_of_next hl

/-- Enter: the line joins the history, and a new one starts. -/
theorem Printing.enter (h : σ.Printing) :
    ({ σ with ed := Editor.clear, hist := σ.hist.add σ.ed.s } : EdState).Printing := by
  refine ⟨fun c hc => absurd hc List.not_mem_nil, fun l hl => ?_⟩
  rcases HistModel.mem_add hl with hl | rfl
  · exact h.hist l hl
  · exact h.line

end EdState

/-- Completion writes a printable key, and a space. -/
theorem completeLine_printing {tree : CmdNode} (hkeys : KeysPrintable tree) {e : Editor UInt8}
    (hwf : e.Wf bufSize 0) (hp : ∀ c ∈ e.s, Printable c) :
    ∀ c ∈ (completeLine tree e).s, Printable c := by
  have hkey := fun hr => completeKey_printable hkeys hwf.noNul hp hr
  unfold completeLine
  dsimp only
  intro c hc
  split_ifs at hc with hfull hmatch
  · rcases Editor.mem_complete hc with hc | hc | rfl
    · exact hp c hc
    · exact hkey (.inl hfull) c hc
    · decide
  · rcases Editor.mem_complete hc with hc | hc | rfl
    · exact hp c hc
    · exact hkey (.inr hmatch) c hc
    · decide
  · exact hp c hc

/-- A byte `term_read` inserts is printable. -/
theorem printable_ofNat {c : Int} (h : 31 < c ∧ c < 127) : Printable (UInt8.ofNat c.toNat) := by
  have h1 : (UInt8.ofNat c.toNat).toNat = c.toNat := by
    rw [UInt8.toNat_ofNat']
    exact Nat.mod_eq_of_lt (by omega)
  constructor
  · rw [UInt8.le_iff_toNat_le, h1]
    simp only [UInt8.reduceToNat]
    omega
  · rw [UInt8.le_iff_toNat_le, h1]
    simp only [UInt8.reduceToNat]
    omega

/-- **Step lemma.** Every byte keeps the line and the history printable. -/
theorem editorRead_printing {tree : CmdNode} (hkeys : KeysPrintable tree) {σ : EdState}
    (hσ : σ.Wf) (h : σ.Printing) (c : Int) : (editorRead tree σ c).Printing := by
  have hline := h.line
  unfold editorRead
  split
  · -- `ESC [`: recall or move, then back to normal
    refine EdState.Printing.setEscape ?_ _
    split_ifs
    · exact h.previous
    · exact h.next
    · exact h.edit hline
    · exact h.edit hline
    · exact h
  · -- `ESC`: the word keys
    split_ifs
    · exact (h.edit hline).setEscape _
    · exact (h.edit hline).setEscape _
    · exact (h.edit fun c hc => hline c (Editor.mem_of_mem_killWordForward hc)).setEscape _
    · exact (h.edit fun c hc => hline c (Editor.mem_of_mem_killWordBackward hc)).setEscape _
    · exact h.setEscape _
    · exact h.setEscape _
  · -- the keys of the normal state, in the order `term_read` tests them
    refine iteInduction (motive := EdState.Printing) (fun _ => h.edit hline) fun _ => ?_
    refine iteInduction (motive := EdState.Printing) (fun _ => h.edit hline) fun _ => ?_
    refine iteInduction (motive := EdState.Printing)
      (fun _ => h.edit fun c hc => hline c (Editor.mem_of_mem_deleteBackward hc)) fun _ => ?_
    refine iteInduction (motive := EdState.Printing)
      (fun _ => h.edit fun c hc => hline c (Editor.mem_of_mem_deleteForward hc)) fun _ => ?_
    refine iteInduction (motive := EdState.Printing) (fun _ => h.edit hline) fun _ => ?_
    refine iteInduction (motive := EdState.Printing) (fun _ => h.edit hline) fun _ => ?_
    refine iteInduction (motive := EdState.Printing) (fun _ => h.next) fun _ => ?_
    refine iteInduction (motive := EdState.Printing) (fun _ => h.previous) fun _ => ?_
    refine iteInduction (motive := EdState.Printing)
      (fun _ => h.edit fun c hc => absurd hc List.not_mem_nil) fun _ => ?_
    refine iteInduction (motive := EdState.Printing)
      (fun _ => h.edit fun c hc => hline c (Editor.mem_of_mem_killToEnd hc)) fun _ => ?_
    refine iteInduction (motive := EdState.Printing)
      (fun _ => h.edit fun c hc => hline c (Editor.mem_of_mem_killWordForward hc)) fun _ => ?_
    refine iteInduction (motive := EdState.Printing) (fun _ => h.setEscape _) fun _ => ?_
    refine iteInduction (motive := EdState.Printing) (fun _ => h.edit hline) fun _ => ?_
    refine iteInduction (motive := EdState.Printing)
      (fun _ => h.edit (completeLine_printing hkeys hσ.ed hline)) fun _ => ?_
    refine iteInduction (motive := EdState.Printing) (fun _ => h.enter) fun _ => ?_
    refine iteInduction (motive := EdState.Printing) (fun hc => h.edit fun x hx => ?_) fun _ => h
    -- a printable byte inserted
    rcases Editor.mem_insert hx with hx | rfl
    · exact hline x hx
    · exact printable_ofNat hc

/-- **Run lemma.** From a fresh terminal, the line and the history stay
printable. -/
theorem editorFeed_printing {tree : CmdNode} (hkeys : KeysPrintable tree) (bytes : List UInt8) :
    (editorFeed tree bytes).Printing := by
  have hinit : EdState.init.Wf ∧ EdState.init.Printing :=
    ⟨editorFeed_wf tree [], fun _ hc => absurd hc List.not_mem_nil,
      fun _ hl => absurd hl List.not_mem_nil⟩
  have hrun := foldl_invariant
    (fun σ b (hσ : σ.Wf ∧ σ.Printing) =>
      ⟨editorRead_wf tree hσ.1 (signedChar b), editorRead_printing hkeys hσ.1 hσ.2 (signedChar b)⟩)
    bytes EdState.init hinit
  exact hrun.2

/-! ## Every byte -/

variable {tree : CmdNode} {t : Term} {σ : EdState}

theorem Echoes.ite {p : Prop} [Decidable p] {e : Editor UInt8} {t₁ t₂ : Term} {σ₁ σ₂ : EdState}
    (h₁ : p → Echoes t t₁ e σ₁.ed) (h₂ : ¬p → Echoes t t₂ e σ₂.ed) :
    Echoes t (if p then t₁ else t₂) e (if p then σ₁ else σ₂).ed := by
  split_ifs with hp
  · exact h₁ hp
  · exact h₂ hp

/-- Leaving the escape state prints nothing. -/
theorem Echoes.setEscape {e : Editor UInt8} {t' : Term} {σ' : EdState} (h : Echoes t t' e σ'.ed)
    (x y : Escape) : Echoes t { t' with escape := x } e ({ σ' with escape := y } : EdState).ed :=
  h

/-- A history recall that answers as the list does. -/
theorem termRecall_echo (hr : TermRel tree t σ) (hσ : σ.Wf) (hp : σ.Printing)
    {r : Option (List UInt8) × History} {r' : Option (List UInt8) × HistModel} (h1 : r.1 = r'.1)
    (hmem : ∀ line, r'.1 = some line → line = [] ∨ line ∈ σ.hist.lines) :
    Echoes t (termRecall t r) σ.ed (σ.recallLine r').ed := by
  obtain ⟨line?, h⟩ := r
  obtain ⟨line?', m⟩ := r'
  dsimp only at h1 hmem
  subst h1
  cases line? with
  | none => exact Echoes.refl t σ.ed
  | some line =>
    -- a recalled line is a printable C string that fits the buffer
    have hline : (line.length < bufSize ∧ NulFree line) ∧ ∀ c ∈ line, Printable c := by
      rcases hmem line rfl with rfl | hl
      · exact ⟨⟨by decide, nulFree_nil⟩, fun _ hc => absurd hc List.not_mem_nil⟩
      · exact ⟨hσ.hist line hl, hp.hist line hl⟩
    have hE := termHistoryPrint_echo (t := { t with hist := h }) hr.buf hp.line
      (by rw [untilNul_of_nulFree hline.1.2, hr.max]; exact hline.1.1)
      (by rw [untilNul_of_nulFree hline.1.2]; exact hline.2)
    rw [untilNul_of_nulFree hline.1.2] at hE
    exact hE

/-- **Step lemma.** A byte other than `?`, TAB and Enter in the normal state
appends what takes the line of the reference editor to its line after the
byte. -/
theorem termRead_echo (exec : List UInt8 → List UInt8) (hr : TermRel tree t σ) (hσ : σ.Wf)
    (hp : σ.Printing) (c : Int) (hc : ¬(t.escape = .normal ∧ (c = 63 ∨ c = 9 ∨ c = 10 ∨ c = 13))) :
    Echoes t (termRead exec t c) σ.ed (editorRead tree σ c).ed := by
  have hline := hp.line
  have hprev := historyPrevious_rel hr.hist
  have hnext := historyNext_rel hr.hist
  have hP : Echoes t (termPreviousLine t) σ.ed (σ.recallLine σ.hist.previous).ed := by
    rw [termPreviousLine_eq]
    exact termRecall_echo hr hσ hp hprev.1 fun _ hl => .inr (HistModel.mem_of_previous hl)
  have hN : Echoes t (termNextLine t) σ.ed (σ.recallLine σ.hist.next).ed := by
    rw [termNextLine_eq]
    exact termRecall_echo hr hσ hp hnext.1 fun _ hl => HistModel.mem_of_next hl
  unfold termRead editorRead
  rw [hr.escape]
  rw [hr.escape] at hc
  cases hesc : σ.escape with
  | escape =>
    -- `ESC [`: recall or move, then back to normal
    refine Echoes.setEscape (Echoes.ite (fun _ => hP) fun _ => Echoes.ite (fun _ => hN) fun _ => ?_) _ _
    exact Echoes.ite (fun _ => termForwardChar_echo hr.buf hline)
      fun _ => Echoes.ite (fun _ => termBackwardChar_echo hr.buf) fun _ => Echoes.refl t σ.ed
  | preEscape =>
    -- `ESC`: the word keys
    refine Echoes.ite (fun _ => (termBackwardWord_echo hr.buf hline).setEscape _ _)
      fun _ => Echoes.ite (fun _ => (termForwardWord_echo hr.buf hline).setEscape _ _)
      fun _ => Echoes.ite (fun _ => (termForwardKillWord_echo hr.buf hline).setEscape _ _)
      fun _ => Echoes.ite (fun _ => (termBackwardKillWord_echo hr.buf hline).setEscape _ _)
      fun _ => Echoes.ite (fun _ => (Echoes.refl t σ.ed).setEscape _ _)
      fun _ => (Echoes.refl t σ.ed).setEscape _ _
  | normal =>
    rw [hesc] at hc
    have hc' : ¬(c = 63 ∨ c = 9 ∨ c = 10 ∨ c = 13) := fun h => hc ⟨rfl, h⟩
    -- the keys of the normal state, in the order `term_read` tests them
    refine Echoes.ite (fun _ => termBackwardChar_echo hr.buf)
      fun _ => Echoes.ite (fun _ => termForwardChar_echo hr.buf hline)
      fun _ => Echoes.ite (fun _ => termDeleteBackwardChar_echo hr.buf hline)
      fun _ => Echoes.ite (fun _ => termDeleteChar_echo hr.buf hline)
      fun _ => Echoes.ite (fun _ => termBeginningOfLine_echo hr.buf hline)
      fun _ => Echoes.ite (fun _ => termEndOfLine_echo hr.buf hline)
      fun _ => Echoes.ite (fun _ => hN) fun _ => Echoes.ite (fun _ => hP)
      fun _ => Echoes.ite (fun _ => termKillLineFromBeginning_echo hr.buf hline)
      fun _ => Echoes.ite (fun _ => termKillLine_echo hr.buf)
      fun _ => Echoes.ite (fun _ => termForwardKillWord_echo hr.buf hline)
      fun _ => Echoes.ite (fun _ => Echoes.refl t σ.ed)
      fun _ => Echoes.ite (fun h63 => absurd (.inl h63) hc')
      fun _ => Echoes.ite (fun h9 => absurd (.inr (.inl h9)) hc')
      fun _ => Echoes.ite (fun hcr => absurd (hcr.elim (.inr ∘ .inr ∘ .inl) (.inr ∘ .inr ∘ .inr)) hc')
      fun _ => Echoes.ite (fun hprint => ?_) fun _ => Echoes.refl t σ.ed
    -- a printable byte
    have hE := termSelfInsert_echo hr.buf hline (printable_ofNat hprint)
    rw [hr.max] at hE
    exact hE

/-- **Step lemma.** `?`, TAB and Enter in the normal state print a new prompt,
and after it what shows the line of the reference editor after the byte. -/
theorem termRead_reprompts (exec : List UInt8 → List UInt8) (hkeys : KeysPrintable tree)
    (hr : TermRel tree t σ) (hp : σ.Printing) {c : Int} (hesc : t.escape = .normal)
    (hc : c = 63 ∨ c = 9 ∨ c = 10 ∨ c = 13) :
    Reprompts t (termRead exec t c) (editorRead tree σ c).ed := by
  have hesc' : σ.escape = .normal := hr.escape ▸ hesc
  rcases hc with rfl | rfl | rfl | rfl
  · -- `?`: the help, then the line
    have ht : termRead exec t 63 = termDescribeCommand t := by
      simp [termRead, hesc, CTRL, CTRL_DEL, ESCAPE]
    have hσ' : editorRead tree σ 63 = σ.edit Editor.toEnd := by
      simp [editorRead, hesc', CTRL, CTRL_DEL, ESCAPE]
    rw [ht, hσ']
    exact termDescribeCommand_echo hr.buf hp.line
  · -- TAB: completion against the terminal's tree
    have ht : termRead exec t 9 = termCompleteCommand t := by
      simp [termRead, hesc, CTRL, CTRL_DEL, ESCAPE]
    have hσ' : editorRead tree σ 9 = σ.edit (completeLine tree) := by
      simp [editorRead, hesc', CTRL, CTRL_DEL, ESCAPE]
    rw [ht, hσ']
    have hE := termCompleteCommand_echo (hr.tree ▸ hkeys) hr.buf hp.line hr.max
    rw [hr.tree] at hE
    exact hE
  · -- Enter: the line runs, and a new one starts
    have ht : termRead exec t 10 = termExecute exec t := by
      simp [termRead, hesc, CTRL, CTRL_DEL, ESCAPE]
    have hσ' : (editorRead tree σ 10).ed = Editor.clear := by
      simp [editorRead, hesc', CTRL, CTRL_DEL, ESCAPE]
    rw [ht, hσ']
    exact termExecute_echo exec t
  · have ht : termRead exec t 13 = termExecute exec t := by
      simp [termRead, hesc, CTRL, CTRL_DEL, ESCAPE]
    have hσ' : (editorRead tree σ 13).ed = Editor.clear := by
      simp [editorRead, hesc', CTRL, CTRL_DEL, ESCAPE]
    rw [ht, hσ']
    exact termExecute_echo exec t

/-! ## Every run -/

/-- `?`, TAB and Enter, read as the `char` `term_handle_input` passes. -/
theorem signedChar_prompt_iff (b : UInt8) :
    (signedChar b = 63 ∨ signedChar b = 9 ∨ signedChar b = 10 ∨ signedChar b = 13) ↔
      (b = 63 ∨ b = 9 ∨ b = 10 ∨ b = 13) := by
  have hb := b.toNat_lt
  simp only [signedChar, UInt8.ext_iff, UInt8.toNat_ofNat]
  split_ifs <;> omega

/-- **Echo keeps the line on the terminal in step with the buffer.** From
`term_create` on a tree whose keys are printable, after any input, the next
byte appends bytes (printable ones and backspaces only) that take a terminal
line showing `buf[0..len)`, blank after it, with the cursor at `cp`, to one
showing the new `buf[0..len)` with the cursor at the new `cp`; for `?`, TAB and
Enter the bytes print a prompt, and what follows it shows the new line on the
blank line the prompt starts. -/
theorem term_echo_display (exec : List UInt8 → List UInt8) (name : List UInt8) (tree : CmdNode)
    (hkeys : KeysPrintable tree) (bytes : List UInt8) (b : UInt8) :
    let t : Term := termFeed exec (termCreate name tree) bytes
    let t' : Term := termRead exec t (signedChar b)
    (t.escape = .normal ∧ (b = 63 ∨ b = 9 ∨ b = 10 ∨ b = 13) →
      ∃ pre post, t'.out = t.out ++ pre ++ (t.name ++ bytesOf " > ") ++ post ∧
        Echo post [] 0 (t'.input.buf.take t'.input.len) t'.input.cp) ∧
    (¬(t.escape = .normal ∧ (b = 63 ∨ b = 9 ∨ b = 10 ∨ b = 13)) →
      ∃ post, t'.out = t.out ++ post ∧
        Echo post (t.input.buf.take t.input.len) t.input.cp
          (t'.input.buf.take t'.input.len) t'.input.cp) := by
  intro t t'
  -- the run refines the reference editor, whose line stays printable
  have hrun := termFeed_rel exec name tree bytes
  have hr : TermRel tree t (editorFeed tree bytes) := hrun.1
  have hσ : (editorFeed tree bytes).Wf := hrun.2
  have hp := editorFeed_printing hkeys bytes
  have hr' : TermRel tree t' (editorRead tree (editorFeed tree bytes) (signedChar b)) :=
    termRead_rel exec hr hσ (signedChar b)
  rw [← signedChar_prompt_iff]
  constructor
  · rintro ⟨hesc, hc⟩
    obtain ⟨pre, post, hout, hE⟩ := termRead_reprompts exec hkeys hr hp hesc hc
    refine ⟨pre, post, hout, ?_⟩
    rw [hr'.buf.line, hr'.buf.cursor]
    exact hE
  · intro hc
    obtain ⟨post, hout, hE⟩ := termRead_echo exec hr hσ hp _ hc
    refine ⟨post, hout, ?_⟩
    rw [hr.buf.line, hr.buf.cursor, hr'.buf.line, hr'.buf.cursor]
    exact hE

/-- The tree the repository's terminals are created with has printable keys. -/
theorem keysPrintable_repoTree : KeysPrintable repoTree :=
  keysPrintable_of_keysAll repoTree_keys

/-- TAB after `ca` on a terminal of the repository's tree: the line is redrawn
after a new prompt. -/
theorem term_echo_display_tab :
    KeysPrintable repoTree ∧
      let t : Term := termFeed (fun _ => []) (termCreate (bytesOf "cli") repoTree) (bytesOf "ca")
      let t' : Term := termRead (fun _ => []) t (signedChar 9)
      (t.escape = .normal ∧ ((9 : UInt8) = 63 ∨ (9 : UInt8) = 9 ∨ (9 : UInt8) = 10 ∨ (9 : UInt8) = 13) →
        ∃ pre post, t'.out = t.out ++ pre ++ (t.name ++ bytesOf " > ") ++ post ∧
          Echo post [] 0 (t'.input.buf.take t'.input.len) t'.input.cp) ∧
      (¬(t.escape = .normal ∧ ((9 : UInt8) = 63 ∨ (9 : UInt8) = 9 ∨ (9 : UInt8) = 10 ∨ (9 : UInt8) = 13)) →
        ∃ post, t'.out = t.out ++ post ∧
          Echo post (t.input.buf.take t.input.len) t.input.cp
            (t'.input.buf.take t'.input.len) t'.input.cp) :=
  ⟨keysPrintable_repoTree,
    term_echo_display (fun _ => []) (bytesOf "cli") repoTree keysPrintable_repoTree (bytesOf "ca") 9⟩

end Chaconne.Cli
