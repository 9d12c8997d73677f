import Chaconne.Cli.Complete
import Chaconne.Cli.ExecuteSpec
import Chaconne.Cli.Parser

/-!
# Help on typed lines

On a line typed as words separated by spaces, with no space after the last
one, `_cmd_complete` and `_cmd_describe` search all words but the last
(`searchedWords_joinWords`). For `cmd_describe` this decides `*cr` by the
function of the node reached *before* the last word, while `cmd_execute`
runs the function of the node the last word reaches: on the common commands
alone, `list` is run by `cmd_execute` but gets no `<cr>` from `cmd_describe`.
-/

namespace Chaconne.Cli

open CLib

theorem joinWords_nulFree {ws : List (List UInt8)} (hws : ∀ w ∈ ws, ValidWord w) :
    NulFree (joinWords ws) := by
  induction ws with
  | nil => exact nulFree_nil
  | cons w ws ih =>
    have hw : NulFree w := fun h0 =>
      (isKeyByte_ne ((hws w List.mem_cons_self).2 0 h0)).1 rfl
    have ih' := ih fun v hv => hws v (List.mem_cons_of_mem w hv)
    cases ws with
    | nil => simpa [joinWords] using hw
    | cons v vs =>
      simp only [joinWords] at ih' ⊢
      exact nulFree_append.mpr ⟨hw, nulFree_cons.mpr ⟨by decide, ih'⟩⟩

/-- Appending a word to a line of words adds a space and the word. -/
theorem joinWords_append_singleton {ws : List (List UInt8)} (hws : ws ≠ []) (w : List UInt8) :
    joinWords (ws ++ [w]) = joinWords ws ++ 32 :: w := by
  induction ws with
  | nil => exact absurd rfl hws
  | cons v vs ih =>
    cases vs with
    | nil => rfl
    | cons u us =>
      simp only [List.cons_append, joinWords] at ih ⊢
      rw [ih (List.cons_ne_nil _ _), List.append_assoc, List.cons_append]

/-- A line of valid words ends with the last byte of its last word. -/
theorem getLast?_joinWords {w : List UInt8} (ws : List (List UInt8)) (hw : w ≠ []) :
    (joinWords (ws ++ [w])).getLast? = w.getLast? := by
  rcases eq_or_ne ws [] with rfl | hws
  · rfl
  · rw [joinWords_append_singleton hws, List.getLast?_append_of_ne_nil _ (List.cons_ne_nil _ _)]
    obtain ⟨c, w', rfl⟩ := List.exists_cons_of_ne_nil hw
    simp [List.getLast?_cons]

/-- On a line of valid words, help searches all words but the last. -/
theorem searchedWords_joinWords {ws : List (List UInt8)} (hws : ∀ w ∈ ws, ValidWord w)
    (hne : ws ≠ []) : searchedWords (joinWords ws) ws.length = ws.length - 1 := by
  obtain ⟨pre, w, rfl⟩ : ∃ pre w, ws = pre ++ [w] :=
    ⟨_, _, (List.dropLast_append_getLast hne).symm⟩
  have hw := hws w (by simp)
  have hlast : (untilNul (joinWords (pre ++ [w]))).getLast? ≠ some 32 := by
    rw [untilNul_of_nulFree (joinWords_nulFree hws), getLast?_joinWords pre hw.1]
    intro h32
    have hmem := List.mem_of_getLast? h32
    exact absurd (hw.2 32 hmem) (by decide)
  simp [searchedWords, hlast]

/-- A one-word line naming a single-token literal with a function and no
attributes: `cmd_execute` calls that function with the options as they are. -/
theorem cmdExecute_literal_word {tree n : CmdNode} {t : Token} {w : List UInt8} {f : CmdFunc}
    (hw : ValidWord w) (hfind : findBestNode tree.children w = some (n, t))
    (hlen : n.tokens.length = 1) (ht : t.type = .literal) (hf : n.func = some f)
    (ho : n.optattr = none) (run : CmdFunc → CmdOpt → Int) (opt : CmdOpt) :
    (cmdExecute run tree w opt).call = some (f, opt) := by
  have hsearch := cmdSearchAux_last hfind 0 ⟨tree, [w], opt.argv, some opt.kpairs⟩ rfl
  rw [consumeWords_literal w _ hlen ht] at hsearch
  have hws : ∀ v ∈ [w], ValidWord v := by simpa using hw
  have hexec := cmdExecute_joinWords hws (List.cons_ne_nil _ _) run tree opt
  simp only [joinWords] at hexec
  rw [hexec]
  simp only [cmdSearch, List.length_singleton, hsearch, execNode, hf, ho, cmdoptParse]
  rfl

/-- `cmd_describe` on one fully typed word looks it up at the root, and sets
`*cr` only when the root itself has a function: whatever the word names. -/
theorem cmdDescribe_one_word_cr {tree : CmdNode} {w : List UInt8} (hw : ValidWord w)
    (hcr : (cmdDescribe tree w).cr = true) : tree.func.isSome := by
  have hws : ∀ v ∈ [w], ValidWord v := by simpa using hw
  have hwords : lineGetArgs w = [w] := by
    simpa [joinWords] using lineGetArgs_joinWords hws
  have hsearched : searchedWords w 1 = 0 := by
    simpa [joinWords] using searchedWords_joinWords hws (List.cons_ne_nil _ _)
  have hbar : ([w].any fun v => v.headD 0 == 124) = false := by
    simpa using hw.headD_ne
  simp only [cmdDescribe, hwords, hbar, Bool.false_eq_true, if_false, cmdDescribeWords,
    List.length_singleton, hsearched, helpSearch, Nat.lt_irrefl, if_false] at hcr
  revert hcr
  simp

/-- On the common commands alone, `list` typed in full: `cmd_describe` offers no
`<cr>`, yet `cmd_execute` runs `list_commands`. -/
theorem describe_list_without_cr (run : CmdFunc → CmdOpt → Int) (opt : CmdOpt) :
    (cmdDescribe (cmdTreeBuild []) (bytesOf "list")).cr = false ∧
      ((cmdExecute run (cmdTreeBuild []) (bytesOf "list") opt).call.map (·.1)) =
        some .list_commands := by
  have hfacts : (findBestNode (cmdTreeBuild []).children (bytesOf "list")).any (fun p =>
      p.2.type == .literal && p.1.tokens.length == 1 && p.1.func == some .list_commands &&
      p.1.optattr.isNone) = true := by
    decide
  obtain ⟨⟨n, t⟩, hfind, hprop⟩ := (Option.any_eq_true _ _).mp hfacts
  simp only [Bool.and_eq_true, beq_iff_eq, Option.isNone_iff_eq_none] at hprop
  obtain ⟨⟨⟨ht, hlen⟩, hf⟩, ho⟩ := hprop
  have hw : ValidWord (bytesOf "list") := validWord_iff_all.mpr (by decide)
  have hroot : (cmdTreeBuild []).func = none := by decide
  refine ⟨?_, by rw [cmdExecute_literal_word hw hfind hlen ht hf ho]; rfl⟩
  cases hcr : (cmdDescribe (cmdTreeBuild []) (bytesOf "list")).cr with
  | false => rfl
  | true => simpa [hroot] using cmdDescribe_one_word_cr hw hcr

end Chaconne.Cli
