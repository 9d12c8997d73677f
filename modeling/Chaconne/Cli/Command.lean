import Chaconne.Cli.Capacity

/-!
# `cmd_system` and `cmd_calc_exp`: the argument buffer

Both commands join their arguments into a local `char buf[1024]` with repeated
`sprintf`, the first argument with `"%s"` and each further one with `" %s"`,
and never compare `l` with the size of `buf`. On the repository's tree,
`system` or `calc` and any words hand the command exactly those words
(`cmdExecute_varargCommand`), so its `buf` receives the rest of the line after
the command word and a NUL (`system_calc_buf`). A line of 1029 bytes, well
inside the terminal's 8191, already writes 1025 bytes into `buf`.
-/

namespace Chaconne.Cli

open CLib

/-- The loop both commands run, from argument `i` on: `l += sprintf(buf + l,
"%s", argv[i])` for the first argument and `" %s"` for the others. The bytes
written before the NUL of the last `sprintf`. -/
def sprintfArgs : Nat → List (List UInt8) → List UInt8
  | _, [] => []
  | i, a :: rest => (if i = 0 then a else 32 :: a) ++ sprintfArgs (i + 1) rest

/-- What the two commands store in `buf` when `opt->argc` is not 0: the joined
arguments and the NUL. -/
def argsBuf (opt : CmdOpt) : Option (List UInt8) :=
  if opt.argv.length = 0 then none else some (sprintfArgs 0 opt.argv ++ [0])

/-- `buf` of `cmd_system`, which it passes to `system`. -/
def cmdSystemBuf (opt : CmdOpt) : Option (List UInt8) := argsBuf opt

/-- `buf` of `cmd_calc_exp`, which it passes to `calc_exp`. -/
def cmdCalcExpBuf (opt : CmdOpt) : Option (List UInt8) := argsBuf opt

theorem sprintfArgs_succ (i : Nat) (ws : List (List UInt8)) :
    sprintfArgs (i + 1) ws = ws.flatMap (32 :: ·) := by
  induction ws generalizing i with
  | nil => rfl
  | cons w ws ih => simp [sprintfArgs, ih]

/-- The loop writes the arguments joined by single spaces. -/
theorem sprintfArgs_zero (ws : List (List UInt8)) : sprintfArgs 0 ws = joinWords ws := by
  cases ws with
  | nil => rfl
  | cons w ws => rw [sprintfArgs, if_pos rfl, sprintfArgs_succ, joinWords_cons]

/-- On any tree, `cmd_execute` on a `word .ARGS` command and any words fills
the command's `buf` with the words after `word`, joined, and a NUL: one byte
less than the line has after the command word. -/
theorem argsBuf_of_varargCommand {tree : CmdNode} {word : List UInt8} {fn : String}
    (hcmd : (findBestNode tree.children word).any (varargCommand fn) = true)
    (hword : ValidWord word) {ws : List (List UInt8)} (hws : ∀ w ∈ ws, ValidWord w) (hne : ws ≠ [])
    (run : CmdFunc → CmdOpt → Int) (kpairs : Chaconne.Hashtable (List UInt8) (List UInt8)) :
    ((cmdExecute run tree (joinWords (word :: ws)) ⟨[], kpairs⟩).call.bind fun c => argsBuf c.2) =
        some (joinWords ws ++ [0]) ∧
      (joinWords ws ++ [0]).length + word.length = (joinWords (word :: ws)).length := by
  have hlen : ws.length ≠ 0 := fun h => hne (List.eq_nil_of_length_eq_zero h)
  obtain ⟨v, vs, rfl⟩ := List.exists_cons_of_ne_nil hne
  refine ⟨?_, ?_⟩
  · rw [cmdExecute_varargCommand hcmd hword hws hne run ⟨[], kpairs⟩]
    simp only [Option.bind_some, argsBuf, List.nil_append, if_neg hlen, sprintfArgs_zero]
  · -- the line is `word`, a space and the joined words
    rw [joinWords_cons word (v :: vs), List.flatMap_cons, joinWords_cons]
    simp only [List.length_append, List.length_cons, List.length_nil]
    omega

/-- On the repository's tree, `system` or `calc` and any words: the command's
`buf` receives the words after the command word, joined, and a NUL, as many
bytes as the line has less the command word. -/
theorem system_calc_buf {ws : List (List UInt8)} (hws : ∀ w ∈ ws, ValidWord w) (hne : ws ≠ [])
    (run : CmdFunc → CmdOpt → Int) (kpairs : Chaconne.Hashtable (List UInt8) (List UInt8)) :
    ((cmdExecute run repoTree (joinWords (bytesOf "system" :: ws)) ⟨[], kpairs⟩).call.bind
        fun c => cmdSystemBuf c.2) = some (joinWords ws ++ [0]) ∧
      ((cmdExecute run repoTree (joinWords (bytesOf "calc" :: ws)) ⟨[], kpairs⟩).call.bind
        fun c => cmdCalcExpBuf c.2) = some (joinWords ws ++ [0]) ∧
      (joinWords ws ++ [0]).length + 6 = (joinWords (bytesOf "system" :: ws)).length ∧
      (joinWords ws ++ [0]).length + 4 = (joinWords (bytesOf "calc" :: ws)).length := by
  have hsys := argsBuf_of_varargCommand repoTree_system validWord_system hws hne run kpairs
  have hcalc :=
    argsBuf_of_varargCommand repoTree_calc (validWord_iff_all.mpr (by decide)) hws hne run kpairs
  exact ⟨hsys.1, hcalc.1, hsys.2, hcalc.2⟩

/-- `system` or `calc` and one word of 1024 bytes: the line has 1031 or 1029
bytes, and the command writes 1025 bytes into its 1024-byte `buf`. -/
theorem command_buf_overflow (run : CmdFunc → CmdOpt → Int)
    (kpairs : Chaconne.Hashtable (List UInt8) (List UInt8)) :
    let ws := [List.replicate 1024 97]
    (joinWords (bytesOf "system" :: ws)).length ≤ 8191 ∧
      (((cmdExecute run repoTree (joinWords (bytesOf "system" :: ws)) ⟨[], kpairs⟩).call.bind
        fun c => cmdSystemBuf c.2).map List.length) = some 1025 ∧
      (joinWords (bytesOf "calc" :: ws)).length ≤ 8191 ∧
      (((cmdExecute run repoTree (joinWords (bytesOf "calc" :: ws)) ⟨[], kpairs⟩).call.bind
        fun c => cmdCalcExpBuf c.2).map List.length) = some 1025 := by
  intro ws
  have hvalid : ∀ w ∈ ws, ValidWord w := by
    intro w hw
    rw [List.mem_singleton.mp hw]
    refine ⟨List.ne_nil_of_length_pos (by rw [List.length_replicate]; norm_num), fun c hc => ?_⟩
    rw [(List.mem_replicate.mp hc).2]
    decide
  obtain ⟨hsys, hcalc, hsyslen, hcalclen⟩ := system_calc_buf hvalid (List.cons_ne_nil _ _) run kpairs
  have hbuf : (joinWords ws ++ [0]).length = 1025 := by
    simp only [ws, joinWords, List.length_append, List.length_replicate, List.length_singleton]
  refine ⟨by omega, ?_, by omega, ?_⟩
  · rw [hsys, Option.map_some, hbuf]
  · rw [hcalc, Option.map_some, hbuf]

end Chaconne.Cli
