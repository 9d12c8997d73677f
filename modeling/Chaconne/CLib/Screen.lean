import Mathlib

/-!
# A line of a character terminal

The line a terminal shows after a prompt: cells, blank where nothing was
written, and a cursor. A printable byte (`' '` to `'~'`) is written in the cell
under the cursor, which moves one cell right; a backspace (`'\b'`) moves the
cursor one cell left, and does nothing at the first cell; other bytes leave the
line as it is.

`Shows d s k` says that the screen shows the line `s` with the cursor at `k`:
its first `|s|` cells hold `s` and the others are blank. Printable bytes
written at the cursor overwrite as many cells (`Shows.puts_printable`),
backspaces move back (`Shows.puts_backspaces`), and blanks at the end of a line
cannot be seen (`shows_append_blanks`).
-/

namespace CLib

/-- A byte the terminal prints in a cell: `' '` to `'~'`. -/
def Printable (c : UInt8) : Prop := 32 ≤ c ∧ c ≤ 126

instance (c : UInt8) : Decidable (Printable c) :=
  inferInstanceAs (Decidable (_ ∧ _))

/-- The line of a terminal after a prompt. -/
structure Screen where
  cells : Nat → UInt8
  cur : Nat

namespace Screen

/-- The terminal's action on one byte. -/
def put (d : Screen) (c : UInt8) : Screen :=
  if Printable c then ⟨Function.update d.cells d.cur c, d.cur + 1⟩
  else if c = 8 then ⟨d.cells, d.cur - 1⟩
  else d

/-- The terminal's action on bytes, in order. -/
def puts (d : Screen) (bs : List UInt8) : Screen :=
  bs.foldl put d

/-- The screen shows the line `s` with the cursor at `k`. -/
def Shows (d : Screen) (s : List UInt8) (k : Nat) : Prop :=
  d.cur = k ∧ ∀ i, d.cells i = s.getD i 32

@[simp] theorem puts_nil (d : Screen) : d.puts [] = d := rfl

@[simp] theorem puts_cons (d : Screen) (c : UInt8) (bs : List UInt8) :
    d.puts (c :: bs) = (d.put c).puts bs := rfl

theorem puts_append (d : Screen) (a b : List UInt8) : d.puts (a ++ b) = (d.puts a).puts b :=
  List.foldl_append

/-! ## Writing and moving back -/

/-- Printable bytes fill the cells from the cursor on, and move it past them. -/
theorem puts_printable (d : Screen) {w : List UInt8} (hw : ∀ c ∈ w, Printable c) :
    (d.puts w).cur = d.cur + w.length ∧
      ∀ i, (d.puts w).cells i =
        if d.cur ≤ i ∧ i < d.cur + w.length then w.getD (i - d.cur) 0 else d.cells i := by
  induction w generalizing d with
  | nil => simp
  | cons c w ih =>
    have hc := hw c List.mem_cons_self
    obtain ⟨hcur, hcells⟩ := ih (d.put c) fun a ha => hw a (List.mem_cons_of_mem c ha)
    have hput : d.put c = ⟨Function.update d.cells d.cur c, d.cur + 1⟩ := by
      rw [put, if_pos hc]
    rw [hput] at hcur hcells
    dsimp only at hcur hcells
    refine ⟨by rw [puts_cons, hput, hcur, List.length_cons]; omega, fun i => ?_⟩
    rw [puts_cons, hput, hcells i]
    -- the first byte went to the cursor's cell, the others after it
    by_cases hi : i = d.cur
    · subst hi
      simp
    · rw [Function.update_of_ne hi]
      by_cases hin : d.cur + 1 ≤ i ∧ i < d.cur + 1 + w.length
      · rw [if_pos hin, if_pos (by simp only [List.length_cons]; omega)]
        obtain ⟨j, rfl⟩ : ∃ j, i = d.cur + 1 + j := ⟨i - (d.cur + 1), by omega⟩
        rw [show d.cur + 1 + j - (d.cur + 1) = j by omega, show d.cur + 1 + j - d.cur = j + 1 by omega]
        rfl
      · rw [if_neg hin, if_neg (by simp only [List.length_cons]; omega)]

/-- Backspaces move the cursor back, not past the first cell. -/
theorem puts_backspaces (d : Screen) (n : Nat) :
    d.puts (List.replicate n 8) = ⟨d.cells, d.cur - n⟩ := by
  induction n generalizing d with
  | zero => rfl
  | succ n ih =>
    rw [List.replicate_succ, puts_cons, ih]
    have hput : d.put 8 = ⟨d.cells, d.cur - 1⟩ := by
      rw [put, if_neg (by decide), if_pos rfl]
    rw [hput, Nat.sub_sub, Nat.add_comm 1 n]

/-! ## What the line shows -/

/-- The cells of a line overwritten by `w` from `k` on. -/
theorem getD_overwrite {s w : List UInt8} {k : Nat} (hk : k ≤ s.length) (i : Nat) :
    (s.take k ++ w ++ s.drop (k + w.length)).getD i 32 =
      if k ≤ i ∧ i < k + w.length then w.getD (i - k) 0 else s.getD i 32 := by
  have hlen : (s.take k).length = k := by simp [hk]
  simp only [List.getD_eq_getElem?_getD]
  by_cases hik : i < k
  · rw [if_neg (by omega), List.append_assoc, List.getElem?_append_left (by omega),
      List.getElem?_take_of_lt hik]
  · by_cases hiw : i < k + w.length
    · rw [if_pos ⟨by omega, hiw⟩, List.getElem?_append_left (by simp; omega),
        List.getElem?_append_right (by omega), hlen, List.getElem?_eq_getElem (by omega),
        Option.getD_some, Option.getD_some]
    · rw [if_neg (by omega), List.getElem?_append_right (by simp; omega), List.getElem?_drop]
      simp only [List.length_append, hlen]
      congr 2
      omega

/-- Printable bytes written at the cursor overwrite as many cells of the line,
extending it past its end. -/
theorem Shows.puts_printable {d : Screen} {s : List UInt8} {k : Nat} (h : d.Shows s k)
    (hk : k ≤ s.length) {w : List UInt8} (hw : ∀ c ∈ w, Printable c) :
    (d.puts w).Shows (s.take k ++ w ++ s.drop (k + w.length)) (k + w.length) := by
  obtain ⟨hcur, hcells⟩ := Screen.puts_printable d hw
  rw [h.1] at hcur hcells
  refine ⟨hcur, fun i => ?_⟩
  rw [hcells i, getD_overwrite hk, h.2 i]

/-- Backspaces move the cursor back over the line. -/
theorem Shows.puts_backspaces {d : Screen} {s : List UInt8} {k : Nat} (h : d.Shows s k) (n : Nat) :
    (d.puts (List.replicate n 8)).Shows s (k - n) := by
  rw [Screen.puts_backspaces]
  exact ⟨by rw [h.1], h.2⟩

/-- Blanks at the end of a line cannot be seen. -/
theorem shows_append_blanks {d : Screen} {s : List UInt8} {k n : Nat} :
    d.Shows (s ++ List.replicate n 32) k ↔ d.Shows s k := by
  have hcell : ∀ i, (s ++ List.replicate n 32).getD i 32 = s.getD i 32 := by
    intro i
    simp only [List.getD_eq_getElem?_getD]
    by_cases hi : i < s.length
    · rw [List.getElem?_append_left hi]
    · rw [List.getElem?_append_right (by omega), List.getElem?_replicate,
        List.getElem?_eq_none (l := s) (by omega)]
      split_ifs <;> rfl
  simp only [Shows, hcell]

/-- Printable bytes that reach the end of the line replace its rest. -/
theorem Shows.puts_rest {d : Screen} {s : List UInt8} {k : Nat} (h : d.Shows s k)
    (hk : k ≤ s.length) {w : List UInt8} (hw : ∀ c ∈ w, Printable c) (hcover : s.length ≤ k + w.length) :
    (d.puts w).Shows (s.take k ++ w) (k + w.length) := by
  have hput := h.puts_printable hk hw
  rwa [List.drop_eq_nil_of_le hcover, List.append_nil] at hput

/-- The byte under the cursor written again: the cursor moves right. -/
theorem Shows.puts_getElem {d : Screen} {s : List UInt8} {k : Nat} (h : d.Shows s k)
    (hk : k < s.length) (hc : Printable s[k]) : (d.puts [s[k]]).Shows s (k + 1) := by
  have hput := h.puts_printable hk.le (w := [s[k]]) (by simpa using hc)
  rwa [List.length_singleton, List.append_assoc, List.singleton_append, List.getElem_cons_drop,
    List.take_append_drop] at hput

/-- **Redraw from a cell.** Back from the cursor to cell `j`, where the old
and the new line start to differ; the new line from there on; `m` blanks over
what is left of the old one; and back to the new cursor. -/
theorem Shows.redraw {d : Screen} {s s' : List UInt8} {k j k' m : Nat} (h : d.Shows s k)
    (hjk : j ≤ k) (hk : k ≤ s.length) (hpre : s.take j = s'.take j) (hj : j ≤ s'.length)
    (hm : s.length ≤ s'.length + m) (hk' : k' ≤ s'.length + m) (hw : ∀ c ∈ s'.drop j, Printable c) :
    (d.puts (List.replicate (k - j) 8 ++ (s'.drop j ++ List.replicate m 32) ++
      List.replicate (s'.length + m - k') 8)).Shows s' k' := by
  have hback := h.puts_backspaces (k - j)
  rw [show k - (k - j) = j by omega] at hback
  have hblank : ∀ c ∈ s'.drop j ++ List.replicate m 32, Printable c := by
    intro c hc
    rcases List.mem_append.mp hc with hc | hc
    · exact hw c hc
    · rw [List.eq_of_mem_replicate hc]
      decide
  have hlen : (s'.drop j ++ List.replicate m 32).length = s'.length - j + m := by simp
  -- the new line and the blanks reach past the end of the old one
  have hwrite := hback.puts_rest (by omega) hblank (by omega)
  rw [hpre, ← List.append_assoc, List.take_append_drop, hlen,
    show j + (s'.length - j + m) = s'.length + m by omega] at hwrite
  have hret := hwrite.puts_backspaces (s'.length + m - k')
  rw [show s'.length + m - (s'.length + m - k') = k' by omega] at hret
  rw [puts_append, puts_append]
  exact shows_append_blanks.mp hret

end Screen

/-! ## Echoes -/

/-- Bytes that turn a terminal showing the line `s` with the cursor at `k`
into one showing `s'` with the cursor at `k'`, whatever else it showed: only
printable bytes and backspaces. -/
structure Echo (bs s : List UInt8) (k : Nat) (s' : List UInt8) (k' : Nat) : Prop where
  bytes : ∀ c ∈ bs, Printable c ∨ c = 8
  shows : ∀ d : Screen, d.Shows s k → (d.puts bs).Shows s' k'

namespace Echo

theorem nil (s : List UInt8) (k : Nat) : Echo [] s k s k :=
  ⟨fun _ h => absurd h List.not_mem_nil, fun _ h => h⟩

theorem append {a b s s' s'' : List UInt8} {k k' k'' : Nat} (ha : Echo a s k s' k')
    (hb : Echo b s' k' s'' k'') : Echo (a ++ b) s k s'' k'' := by
  refine ⟨fun c hc => ?_, fun d hd => ?_⟩
  · rcases List.mem_append.mp hc with hc | hc
    · exact ha.bytes c hc
    · exact hb.bytes c hc
  · rw [Screen.puts_append]
    exact hb.shows _ (ha.shows d hd)

/-- Backspaces are echo bytes. -/
theorem backspaces_bytes (n : Nat) : ∀ c ∈ List.replicate n (8 : UInt8), Printable c ∨ c = 8 :=
  fun _ hc => .inr (List.eq_of_mem_replicate hc)

theorem printable_bytes {w : List UInt8} (hw : ∀ c ∈ w, Printable c) :
    ∀ c ∈ w, Printable c ∨ c = 8 :=
  fun c hc => .inl (hw c hc)

/-- The redraw of `Shows.redraw` is an echo: from the line `s` and cursor `k`
to the line `u` and cursor `n`. -/
theorem redraw {s u : List UInt8} {k j n m : Nat} (hjk : j ≤ k) (hk : k ≤ s.length)
    (hpre : s.take j = u.take j) (hj : j ≤ u.length) (hm : s.length ≤ u.length + m)
    (hn : n ≤ u.length + m) (hw : ∀ c ∈ u.drop j, Printable c) :
    Echo (List.replicate (k - j) 8 ++ (u.drop j ++ List.replicate m 32) ++
      List.replicate (u.length + m - n) 8) s k u n := by
  refine ⟨fun c hc => ?_, fun d hd => hd.redraw hjk hk hpre hj hm hn hw⟩
  simp only [List.mem_append] at hc
  rcases hc with (hc | hc | hc) | hc
  · exact backspaces_bytes _ c hc
  · exact .inl (hw c hc)
  · rw [List.eq_of_mem_replicate hc]
    exact .inl (by decide)
  · exact backspaces_bytes _ c hc

end Echo

end CLib
