import Chaconne.CLib.Screen
import Chaconne.CLib.LineEditor

/-!
# What a line editor echoes

A line editor on a character terminal keeps the terminal's line after the
prompt in step with its own line and cursor: each key is echoed by bytes that
redraw what the key changed. For the keys of `CLib.LineEditor`, on a line of
printable bytes, the bytes that do so on the terminal of `CLib.Screen`:

* the cursor moves left by a backspace, right by writing the byte under it
  again (`echo_left`, `echo_right`);
* a deletion backs up to where the line changed, writes the rest of the new
  line and a blank over the old last cell, and backs up to the cursor
  (`echo_deleteBackward`, `echo_deleteForward`); an insertion writes the new
  byte and the rest, and backs up (`echo_insert`);
* cutting the line blanks its rest and backs up (`echo_killToEnd`);
* writing over the line from the cursor needs to reach its end
  (`echo_overwrite`); a line written after the prompt is shown
  (`echo_print`).
-/

namespace CLib

namespace Editor

variable {e : Editor UInt8}

theorem echo_left (e : Editor UInt8) : Echo [8] e.s e.k e.left.s e.left.k :=
  ⟨fun _ hc => .inr (List.mem_singleton.mp hc), fun _ hd => hd.puts_backspaces 1⟩

theorem echo_right (hk : e.k < e.s.length) (hc : Printable e.s[e.k]) :
    Echo [e.s[e.k]] e.s e.k e.right.s e.right.k := by
  have hright : e.right.k = e.k + 1 := by
    simp only [right]
    omega
  refine ⟨fun c hc' => .inl (List.mem_singleton.mp hc' ▸ hc), fun d hd => ?_⟩
  rw [hright]
  exact hd.puts_getElem hk hc

/-- Delete before the cursor: back one cell, the rest of the new line, a blank
over the old last cell, and back to the cursor. -/
theorem echo_deleteBackward (hk0 : e.k ≠ 0) (hk : e.k ≤ e.s.length) (hp : ∀ c ∈ e.s, Printable c) :
    Echo ([8] ++ e.deleteBackward.s.drop e.deleteBackward.k ++ [32] ++
        List.replicate (e.deleteBackward.s.length - e.deleteBackward.k + 1) 8)
      e.s e.k e.deleteBackward.s e.deleteBackward.k := by
  have hdel : e.deleteBackward = ⟨e.s.eraseIdx (e.k - 1), e.k - 1⟩ := if_neg hk0
  have hlen : (e.s.eraseIdx (e.k - 1)).length = e.s.length - 1 :=
    List.length_eraseIdx_of_lt (by omega)
  have hE := Echo.redraw (u := e.s.eraseIdx (e.k - 1)) (j := e.k - 1) (n := e.k - 1) (m := 1)
    (by omega) hk (List.take_eraseIdx_eq_take_of_le _ _ _ le_rfl).symm (by omega) (by omega)
    (by omega) (fun c hc => hp c (List.mem_of_mem_eraseIdx (List.mem_of_mem_drop hc)))
  rw [show e.k - (e.k - 1) = 1 by omega, hlen,
    show e.s.length - 1 + 1 - (e.k - 1) = e.s.length - 1 - (e.k - 1) + 1 by omega] at hE
  rw [hdel]
  simpa only [hlen, List.replicate_one, List.append_assoc] using hE

/-- Delete under the cursor: the rest of the new line, a blank over the old
last cell, and back to the cursor. -/
theorem echo_deleteForward (hk : e.k < e.s.length) (hp : ∀ c ∈ e.s, Printable c) :
    Echo (e.deleteForward.s.drop e.k ++ [32] ++
        List.replicate (e.deleteForward.s.length - e.k + 1) 8)
      e.s e.k e.deleteForward.s e.deleteForward.k := by
  have hlen : (e.s.eraseIdx e.k).length = e.s.length - 1 := List.length_eraseIdx_of_lt hk
  have hE := Echo.redraw (u := e.s.eraseIdx e.k) (j := e.k) (n := e.k) (m := 1)
    le_rfl hk.le (List.take_eraseIdx_eq_take_of_le _ _ _ le_rfl).symm (by omega) (by omega)
    (by omega) (fun c hc => hp c (List.mem_of_mem_eraseIdx (List.mem_of_mem_drop hc)))
  rw [Nat.sub_self, List.replicate_zero, List.nil_append, hlen,
    show e.s.length - 1 + 1 - e.k = e.s.length - 1 - e.k + 1 by omega] at hE
  simpa only [deleteForward, hlen, List.replicate_one, List.append_assoc] using hE

/-- Insert at the cursor: the new byte, the rest of the line after it, and back
over the rest. -/
theorem echo_insert {cap : Nat} {c : UInt8} (hfit : e.s.length + 1 < cap) (hk : e.k ≤ e.s.length)
    (hc : Printable c) (hp : ∀ c ∈ e.s, Printable c) :
    Echo (c :: if (e.insert cap c).s.length - (e.insert cap c).k ≠ 0 then
        (e.insert cap c).s.drop (e.insert cap c).k ++
          List.replicate ((e.insert cap c).s.length - (e.insert cap c).k) 8 else [])
      e.s e.k (e.insert cap c).s (e.insert cap c).k := by
  have hins : e.insert cap c = ⟨e.s.take e.k ++ c :: e.s.drop e.k, e.k + 1⟩ := if_neg (by omega)
  have htake : (e.s.take e.k).length = e.k := List.length_take_of_le hk
  have hlen : (e.s.take e.k ++ c :: e.s.drop e.k).length = e.s.length + 1 := by
    simp only [List.length_append, List.length_cons, List.length_drop, htake]
    omega
  have hdrop : (e.s.take e.k ++ c :: e.s.drop e.k).drop e.k = c :: e.s.drop e.k :=
    List.drop_left' htake
  have hdrop' : (e.s.take e.k ++ c :: e.s.drop e.k).drop (e.k + 1) = e.s.drop e.k := by
    rw [← List.drop_drop, hdrop, List.drop_one, List.tail_cons]
  have hE := Echo.redraw (u := e.s.take e.k ++ c :: e.s.drop e.k) (j := e.k) (n := e.k + 1)
    (m := 0) le_rfl hk (List.take_left' htake).symm (by omega)
    (by omega) (by omega) (by
      rw [hdrop]
      intro x hx
      rcases List.mem_cons.mp hx with rfl | hx
      · exact hc
      · exact hp x (List.mem_of_mem_drop hx))
  rw [Nat.sub_self, List.replicate_zero, List.nil_append, List.replicate_zero, List.append_nil,
    hdrop, hlen, Nat.add_zero, show e.s.length + 1 - (e.k + 1) = e.s.length - e.k by omega] at hE
  rw [hins]
  dsimp only
  rw [hlen, hdrop', show e.s.length + 1 - (e.k + 1) = e.s.length - e.k by omega]
  split_ifs with hmv
  · simpa only [List.cons_append] using hE
  · -- nothing after the cursor: only the new byte
    have hnil : e.s.drop e.k = [] := List.drop_eq_nil_of_le (by omega)
    rw [hnil] at hE ⊢
    rw [not_not.mp hmv] at hE
    simpa only [List.replicate_zero, List.append_nil] using hE

/-- Cut the line at the cursor: blanks over the rest, and back. -/
theorem echo_killToEnd (hk : e.k ≤ e.s.length) :
    Echo (List.replicate (e.s.length - e.k) 32 ++ List.replicate (e.s.length - e.k) 8)
      e.s e.k e.killToEnd.s e.killToEnd.k := by
  have htake : (e.s.take e.k).length = e.k := List.length_take_of_le hk
  have hE := Echo.redraw (u := e.s.take e.k) (j := e.k) (n := e.k) (m := e.s.length - e.k)
    le_rfl hk (by rw [List.take_take, min_self]) (by omega) (by omega) (by omega)
    (by simp [List.drop_eq_nil_of_le (Nat.le_of_eq htake)])
  rw [Nat.sub_self, List.replicate_zero, List.nil_append, htake,
    List.drop_eq_nil_of_le (Nat.le_of_eq htake), List.nil_append,
    show e.k + (e.s.length - e.k) - e.k = e.s.length - e.k by omega] at hE
  exact hE

/-- Write over the line from the cursor, as far as its end at least. -/
theorem echo_overwrite {w : List UInt8} (hk : e.k ≤ e.s.length) (hcover : e.s.length ≤ e.k + w.length)
    (hw : ∀ c ∈ w, Printable c) :
    Echo w e.s e.k (e.s.take e.k ++ w) (e.k + w.length) :=
  ⟨Echo.printable_bytes hw, fun _ hd => hd.puts_rest hk hw hcover⟩

end Editor

/-- A line written after the prompt is shown, with the cursor at its end. -/
theorem Echo.print {s : List UInt8} (hp : ∀ c ∈ s, Printable c) : Echo s [] 0 s s.length := by
  have hE := Echo.redraw (s := []) (u := s) (k := 0) (j := 0) (n := s.length) (m := 0)
    le_rfl le_rfl rfl (Nat.zero_le _) (Nat.zero_le _) le_rfl (by simpa using hp)
  simpa using hE

end CLib
