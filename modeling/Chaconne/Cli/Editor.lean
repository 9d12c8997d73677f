import Chaconne.Cli.History
import Chaconne.CLib.LineEditor

/-!
# The reference editor of the terminal

What `term_read` is for, stated over the line editor of `CLib.LineEditor`
(space the word separator, `sizeof(buf)` the capacity) and the history list
`HistModel`: each key's effect on the line `s`, the cursor `k`, the history
and the escape state, with no buffer, no output and no loops.

* a printable byte is inserted at `k`, and ignored when the line would fill
  the buffer;
* `^H`/DEL delete `s[k - 1]`, `^D` deletes `s[k]`; `^A`, `^E`, `^B`, `^F` and
  `ESC [ C`/`D` move `k`; `ESC b`/`f` move it over a word;
* `^K` cuts the line at `k`, `^U` empties it; `ESC d` and `^W` delete through
  the next word, `ESC ^H`/`ESC DEL` back through the previous one;
* `^P`/`^N` and `ESC [ A`/`B` replace the line by the recalled one, with `k`
  at its end;
* Enter adds the line to the history and empties it; `?` moves `k` to the
  end; TAB replaces the last word by the completion key on a full or partial
  match, a space after it on a full match.

Every key keeps the line well formed and the history lines short enough to be
recalled into the buffer (`editorRead_wf`).
-/

namespace Chaconne.Cli

open CLib

/-- `sizeof(buf)` of `struct buffer`: the capacity `term_create` gives the
line. -/
def bufSize : Nat := 8192

/-- The reference editor's state: the line and cursor, the history list, and
the escape state. -/
structure EdState where
  ed : Editor UInt8
  hist : HistModel
  escape : Escape

namespace EdState

/-- A fresh terminal: an empty line, no history. -/
def init : EdState := ⟨Editor.clear, HistModel.empty, .normal⟩

/-- An editing key. -/
def edit (σ : EdState) (f : Editor UInt8 → Editor UInt8) : EdState :=
  { σ with ed := f σ.ed }

/-- A history recall: a line found replaces the line. -/
def recallLine (σ : EdState) : Option (List UInt8) × HistModel → EdState
  | (none, m) => { σ with hist := m }
  | (some line, m) => { σ with ed := Editor.load line, hist := m }

/-- The line is well formed in the buffer, and every history line is a C
string that fits it. -/
structure Wf (σ : EdState) : Prop where
  ed : σ.ed.Wf bufSize 0
  hist : ∀ l ∈ σ.hist.lines, l.length < bufSize ∧ NulFree l

end EdState

/-- TAB: the completion of the line against the tree. -/
def completeLine (tree : CmdNode) (e : Editor UInt8) : Editor UInt8 :=
  let r := cmdComplete tree e.s
  if r.ret = CMD_COMPLETE_FULL_MATCH then e.complete bufSize 32 true (untilNul (r.keys.headD []))
  else if r.ret = CMD_COMPLETE_MATCH then e.complete bufSize 32 false (untilNul (r.keys.headD []))
  else e.toEnd

/-- One input byte, dispatched as `term_read` dispatches it. -/
def editorRead (tree : CmdNode) (σ : EdState) (c : Int) : EdState :=
  match σ.escape with
  | .escape =>
    let σ :=
      if c = 65 then σ.recallLine σ.hist.previous
      else if c = 66 then σ.recallLine σ.hist.next
      else if c = 67 then σ.edit Editor.right
      else if c = 68 then σ.edit Editor.left
      else σ
    { σ with escape := .normal }
  | .preEscape =>
    if c = 98 then { σ.edit (Editor.wordLeft 32) with escape := .normal }
    else if c = 102 then { σ.edit (Editor.wordRight 32) with escape := .normal }
    else if c = 100 then { σ.edit (Editor.killWordForward 32) with escape := .normal }
    else if c = CTRL 'H' ∨ c = CTRL_DEL then
      { σ.edit (Editor.killWordBackward 32) with escape := .normal }
    else if c = 91 then { σ with escape := .escape }
    else { σ with escape := .normal }
  | .normal =>
    if c = CTRL 'B' then σ.edit Editor.left
    else if c = CTRL 'F' then σ.edit Editor.right
    else if c = CTRL 'H' ∨ c = CTRL_DEL then σ.edit Editor.deleteBackward
    else if c = CTRL 'D' then σ.edit Editor.deleteForward
    else if c = CTRL 'A' then σ.edit Editor.home
    else if c = CTRL 'E' then σ.edit Editor.toEnd
    else if c = CTRL 'N' then σ.recallLine σ.hist.next
    else if c = CTRL 'P' then σ.recallLine σ.hist.previous
    else if c = CTRL 'U' then σ.edit fun _ => Editor.clear
    else if c = CTRL 'K' then σ.edit Editor.killToEnd
    else if c = CTRL 'W' then σ.edit (Editor.killWordForward 32)
    else if c = ESCAPE then { σ with escape := .preEscape }
    else if c = 63 then σ.edit Editor.toEnd
    else if c = 9 then σ.edit (completeLine tree)
    else if c = 10 ∨ c = 13 then { σ with ed := Editor.clear, hist := σ.hist.add σ.ed.s }
    else if 31 < c ∧ c < 127 then σ.edit (Editor.insert bufSize (UInt8.ofNat c.toNat))
    else σ

/-- The reference editor after reading bytes from a fresh terminal. -/
def editorFeed (tree : CmdNode) (bytes : List UInt8) : EdState :=
  bytes.foldl (fun σ b => editorRead tree σ (signedChar b)) EdState.init

/-! ## Every key keeps the state well formed -/

namespace EdState

variable {σ : EdState}

theorem Wf.edit (h : σ.Wf) {f : Editor UInt8 → Editor UInt8} (hf : (f σ.ed).Wf bufSize 0) :
    (σ.edit f).Wf :=
  ⟨hf, h.hist⟩

theorem Wf.setEscape (h : σ.Wf) (x : Escape) : ({ σ with escape := x } : EdState).Wf :=
  ⟨h.ed, h.hist⟩

/-- A recalled line is one of the history's, or the empty line. -/
theorem Wf.recallLine (h : σ.Wf) {r : Option (List UInt8) × HistModel}
    (hlines : r.2.lines = σ.hist.lines) (hr : ∀ line, r.1 = some line → line = [] ∨ line ∈ σ.hist.lines) :
    (σ.recallLine r).Wf := by
  obtain ⟨line?, m⟩ := r
  have hm : ∀ l ∈ m.lines, l.length < bufSize ∧ NulFree l := fun l hl => h.hist l (hlines ▸ hl)
  cases line? with
  | none => exact ⟨h.ed, hm⟩
  | some line =>
    have hline : line.length < bufSize ∧ NulFree line := by
      rcases hr line rfl with rfl | hmem
      · exact ⟨by decide, nulFree_nil⟩
      · exact h.hist line hmem
    exact ⟨Editor.Wf.load hline.1 hline.2, hm⟩

theorem Wf.previous (h : σ.Wf) : (σ.recallLine σ.hist.previous).Wf :=
  h.recallLine σ.hist.previous_lines fun _ hl => .inr (HistModel.mem_of_previous hl)

theorem Wf.next (h : σ.Wf) : (σ.recallLine σ.hist.next).Wf :=
  h.recallLine σ.hist.next_lines fun _ hl => HistModel.mem_of_next hl

/-- Enter: the line joins the history, and a new one starts. -/
theorem Wf.enter (h : σ.Wf) :
    ({ σ with ed := Editor.clear, hist := σ.hist.add σ.ed.s } : EdState).Wf := by
  refine ⟨Editor.Wf.clear (by decide), fun l hl => ?_⟩
  rcases HistModel.mem_add hl with hl | rfl
  · exact h.hist l hl
  · exact ⟨h.ed.length, h.ed.noNul⟩

end EdState

theorem completeLine_wf {tree : CmdNode} {e : Editor UInt8} (h : e.Wf bufSize 0) :
    (completeLine tree e).Wf bufSize 0 := by
  unfold completeLine
  dsimp only
  split_ifs
  · exact h.complete (by decide) true (untilNul_nulFree _)
  · exact h.complete (by decide) false (untilNul_nulFree _)
  · exact h.toEnd

/-- A printable byte is not the NUL. -/
theorem printable_ne_zero {c : Int} (h : 31 < c ∧ c < 127) : UInt8.ofNat c.toNat ≠ 0 := by
  intro h0
  have h1 : (UInt8.ofNat c.toNat).toNat = c.toNat := by
    rw [UInt8.toNat_ofNat']
    exact Nat.mod_eq_of_lt (by omega)
  rw [h0] at h1
  simp at h1
  omega

/-- **Step lemma.** Every byte keeps the reference editor well formed. -/
theorem editorRead_wf (tree : CmdNode) {σ : EdState} (h : σ.Wf) (c : Int) :
    (editorRead tree σ c).Wf := by
  unfold editorRead
  split
  · -- `ESC [`: recall or move, then back to normal
    refine EdState.Wf.setEscape ?_ _
    split_ifs
    · exact h.previous
    · exact h.next
    · exact h.edit h.ed.right
    · exact h.edit h.ed.left
    · exact h
  · -- `ESC`: the word keys
    split_ifs
    · exact (h.edit (h.ed.wordLeft 32)).setEscape _
    · exact (h.edit (h.ed.wordRight 32)).setEscape _
    · exact (h.edit (h.ed.killWordForward 32)).setEscape _
    · exact (h.edit (h.ed.killWordBackward 32)).setEscape _
    · exact h.setEscape _
    · exact h.setEscape _
  · -- the keys of the normal state, in the order `term_read` tests them
    refine iteInduction (motive := EdState.Wf) (fun _ => h.edit h.ed.left) fun _ => ?_
    refine iteInduction (motive := EdState.Wf) (fun _ => h.edit h.ed.right) fun _ => ?_
    refine iteInduction (motive := EdState.Wf) (fun _ => h.edit h.ed.deleteBackward) fun _ => ?_
    refine iteInduction (motive := EdState.Wf) (fun _ => h.edit h.ed.deleteForward) fun _ => ?_
    refine iteInduction (motive := EdState.Wf) (fun _ => h.edit (h.ed.setCursor (Nat.zero_le _)))
      fun _ => ?_
    refine iteInduction (motive := EdState.Wf) (fun _ => h.edit h.ed.toEnd) fun _ => ?_
    refine iteInduction (motive := EdState.Wf) (fun _ => h.next) fun _ => ?_
    refine iteInduction (motive := EdState.Wf) (fun _ => h.previous) fun _ => ?_
    refine iteInduction (motive := EdState.Wf) (fun _ => h.edit (Editor.Wf.clear (by decide)))
      fun _ => ?_
    refine iteInduction (motive := EdState.Wf) (fun _ => h.edit h.ed.killToEnd) fun _ => ?_
    refine iteInduction (motive := EdState.Wf) (fun _ => h.edit (h.ed.killWordForward 32))
      fun _ => ?_
    refine iteInduction (motive := EdState.Wf) (fun _ => h.setEscape _) fun _ => ?_
    refine iteInduction (motive := EdState.Wf) (fun _ => h.edit h.ed.toEnd) fun _ => ?_
    refine iteInduction (motive := EdState.Wf) (fun _ => h.edit (completeLine_wf h.ed)) fun _ => ?_
    refine iteInduction (motive := EdState.Wf) (fun _ => h.enter) fun _ => ?_
    exact iteInduction (motive := EdState.Wf)
      (fun hprint => h.edit (h.ed.insert (printable_ne_zero hprint))) fun _ => h

theorem editorFeed_wf (tree : CmdNode) (bytes : List UInt8) : (editorFeed tree bytes).Wf := by
  have hinit : EdState.init.Wf :=
    ⟨Editor.Wf.clear (show 0 < bufSize by decide), fun _ hl => absurd hl List.not_mem_nil⟩
  have hrun := foldl_invariant (fun σ b (hσ : σ.Wf) => editorRead_wf tree hσ (signedChar b)) bytes
    EdState.init hinit
  exact hrun

end Chaconne.Cli
