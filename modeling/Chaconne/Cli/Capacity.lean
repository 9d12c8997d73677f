import Chaconne.Cli.Commands
import Chaconne.Cli.HelpSpec

/-!
# The capacity of `argv`

`cmd_search` never compares `*argi` with `argc`: a `.VARARG` copies every
remaining word into `argv`. On the repository's tree, `system .ARGS` therefore
stores every word after `system`, and a line of 66 short words makes
`cmd_execute` write `opt->argv[64]`, past `MAXARGC`; a line of 1003 words does
the same to the 1000 entries of `_cmd_complete`'s local `argv`. Both lines fit
the terminal's 8191-byte buffer.
-/

namespace Chaconne.Cli

open CLib

/-- The node a command word reaches is a literal without keyword entries whose
only child is the `.VARARG` of `fn`, which has no attributes: a definition
`word .ARGS`. -/
def varargCommand (fn : String) (p : CmdNode × Token) : Bool :=
  p.2.type == .literal && p.1.tokens.length == 1 && p.1.keyword.isEmpty &&
    p.1.children.map (fun c => c.tokens.map (·.type)) == [[.vararg]] &&
    p.1.children.map (fun c => (c.func, c.optattr.isNone)) == [(some (.command fn), true)]

/-- The search on a `word .ARGS` command and any words succeeds at its
`.VARARG` and stores all those words. -/
theorem cmdSearch_varargCommand {head : List CmdNode} {word : List UInt8} {fn : String}
    (hcmd : (findBestNode head word).any (varargCommand fn) = true) {ws : List (List UInt8)}
    (hne : ws ≠ []) (r : CmdNode) (argv : List (List UInt8))
    (h : Option (Chaconne.Hashtable (List UInt8) (List UInt8))) :
    ∃ v, v.func = some (.command fn) ∧ v.optattr = none ∧
      cmdSearch head ⟨r, word :: ws, argv, h⟩ = (CMD_SUCCESS, ⟨v, [], argv ++ ws, h⟩) := by
  obtain ⟨⟨n, t⟩, hfind, hprop⟩ := (Option.any_eq_true _ _).mp hcmd
  simp only [varargCommand, Bool.and_eq_true, beq_iff_eq, List.isEmpty_iff] at hprop
  obtain ⟨⟨⟨⟨ht, hlen⟩, hkw⟩, htypes⟩, hfunc⟩ := hprop
  obtain ⟨v, hch, hvtypes⟩ := List.map_eq_singleton_iff.mp htypes
  obtain ⟨tv, hvtok, htv⟩ := List.map_eq_singleton_iff.mp hvtypes
  rw [hch, List.map_cons, List.map_nil, List.cons.injEq, Prod.mk.injEq] at hfunc
  obtain ⟨⟨hvf, hvo⟩, -⟩ := hfunc
  exact ⟨v, hvf, Option.isNone_iff_eq_none.mp hvo,
    cmdSearch_vararg_command hfind ht hlen hkw hch hvtok htv hne r argv h⟩

/-- `cmd_execute` on a `word .ARGS` command and any words calls `fn` with all
the words in `argv`. -/
theorem cmdExecute_varargCommand {tree : CmdNode} {word : List UInt8} {fn : String}
    (hcmd : (findBestNode tree.children word).any (varargCommand fn) = true)
    (hword : ValidWord word) {ws : List (List UInt8)} (hws : ∀ w ∈ ws, ValidWord w) (hne : ws ≠ [])
    (run : CmdFunc → CmdOpt → Int) (opt : CmdOpt) :
    (cmdExecute run tree (joinWords (word :: ws)) opt).call =
      some (.command fn, ⟨opt.argv ++ ws, opt.kpairs⟩) := by
  have hall : ∀ w ∈ word :: ws, ValidWord w := by
    intro w hw
    rcases List.mem_cons.mp hw with rfl | hw
    · exact hword
    · exact hws w hw
  obtain ⟨v, hvf, hvo, hsearch⟩ := cmdSearch_varargCommand hcmd hne tree opt.argv (some opt.kpairs)
  rw [cmdExecute_joinWords hall (List.cons_ne_nil _ _)]
  simp only [hsearch, execNode, hvf, hvo, cmdoptParse]
  rfl

/-- The repository's tree, evaluated once: every definition is added without
error, `system` and `calc` each reach a `word .ARGS` node, and every key is
printable up to its NUL. The four facts are one evaluation, so that the
definitions' byte strings are decoded once. -/
theorem repoTree_eval :
    ((commonCmds ++ repoCmds).foldl
        (fun (acc : List Int × CmdNode) e => (acc.1 ++ [(cmdAddElem acc.2 e).1], (cmdAddElem acc.2 e).2))
        ([], CmdNode.root)).1 = List.replicate 11 0 ∧
      (findBestNode repoTree.children (bytesOf "system")).any (varargCommand "cmd_system") = true ∧
      (findBestNode repoTree.children (bytesOf "calc")).any (varargCommand "cmd_calc_exp") = true ∧
      repoTree.keysAll (fun k => (untilNul k).all fun c => 32 ≤ c && c ≤ 126) = true := by
  decide +kernel

/-- The node `system` reaches in the repository's tree is that of
`system .ARGS`. -/
theorem repoTree_system :
    (findBestNode repoTree.children (bytesOf "system")).any (varargCommand "cmd_system") = true :=
  repoTree_eval.2.1

/-- The node `calc` reaches in the repository's tree is that of `calc .EXP`. -/
theorem repoTree_calc :
    (findBestNode repoTree.children (bytesOf "calc")).any (varargCommand "cmd_calc_exp") = true :=
  repoTree_eval.2.2.1

/-- Every key of the repository's tree is printable up to its NUL. -/
theorem repoTree_keys :
    repoTree.keysAll (fun k => (untilNul k).all fun c => 32 ≤ c && c ≤ 126) = true :=
  repoTree_eval.2.2.2

theorem validWord_system : ValidWord (bytesOf "system") :=
  validWord_iff_all.mpr (by decide)

/-- The search from the root of the repository's tree on `system` and any words
succeeds at the `.VARARG` of `cmd_system` and stores all those words. -/
theorem repoTree_system_search {ws : List (List UInt8)} (hne : ws ≠ []) (r : CmdNode)
    (argv : List (List UInt8)) (h : Option (Chaconne.Hashtable (List UInt8) (List UInt8))) :
    ∃ v, v.func = some (.command "cmd_system") ∧ v.optattr = none ∧
      cmdSearch repoTree.children ⟨r, bytesOf "system" :: ws, argv, h⟩ =
        (CMD_SUCCESS, ⟨v, [], argv ++ ws, h⟩) :=
  cmdSearch_varargCommand repoTree_system hne r argv h

/-- On the repository's tree, `cmd_execute` on `system` and any words calls
`cmd_system` with all the words in `argv`. -/
theorem system_argv {ws : List (List UInt8)} (hws : ∀ w ∈ ws, ValidWord w) (hne : ws ≠ [])
    (run : CmdFunc → CmdOpt → Int) (opt : CmdOpt) :
    (cmdExecute run repoTree (joinWords (bytesOf "system" :: ws)) opt).call =
      some (.command "cmd_system", ⟨opt.argv ++ ws, opt.kpairs⟩) :=
  cmdExecute_varargCommand repoTree_system validWord_system hws hne run opt

/-- The word `a`, repeated. -/
def wordsA (k : Nat) : List (List UInt8) :=
  List.replicate k (bytesOf "a")

@[simp] theorem length_wordsA (k : Nat) : (wordsA k).length = k :=
  List.length_replicate

theorem wordsA_valid (k : Nat) : ∀ w ∈ wordsA k, ValidWord w := by
  intro w hw
  rw [wordsA, List.mem_replicate] at hw
  rw [hw.2]
  exact validWord_iff_all.mpr (by decide)

/-- A command word and `k` more words `a`: two bytes a word after the first. -/
theorem length_joinWords_wordsA (w : List UInt8) (k : Nat) :
    (joinWords (w :: wordsA k)).length = w.length + 2 * k := by
  simp only [joinWords_cons, wordsA, List.length_append, List.length_flatMap, List.map_replicate,
    List.sum_replicate, List.length_cons, smul_eq_mul]
  have ha : (bytesOf "a").length = 1 := by decide
  rw [ha]
  omega

/-- `system` and 65 more words, 136 bytes: `cmd_execute` hands `cmd_system` 65
arguments, so `cmd_search` has written `opt->argv[64]`. `system` and 1002 more
words, 2010 bytes and no final space: `_cmd_complete` searches all but the last
word and its search stores 1001 arguments in the 1000 entries of its `argv`. -/
theorem argv_overflow (run : CmdFunc → CmdOpt → Int)
    (kpairs : Chaconne.Hashtable (List UInt8) (List UInt8)) :
    (joinWords (bytesOf "system" :: wordsA 65)).length ≤ 8191 ∧ MAXARGC < 65 ∧
    ((cmdExecute run repoTree (joinWords (bytesOf "system" :: wordsA 65)) ⟨[], kpairs⟩).call.map
      fun c => c.2.argv.length) = some 65 ∧
    (joinWords (bytesOf "system" :: wordsA 1002)).length ≤ 8191 ∧
    (cmdSearch repoTree.children ⟨repoTree,
      (lineGetArgs (joinWords (bytesOf "system" :: wordsA 1002))).take
        (searchedWords (joinWords (bytesOf "system" :: wordsA 1002))
          (lineGetArgs (joinWords (bytesOf "system" :: wordsA 1002))).length), [], none⟩).2.argv.length =
      1001 := by
  have hall : ∀ k, ∀ w ∈ bytesOf "system" :: wordsA k, ValidWord w := by
    intro k w hw
    rcases List.mem_cons.mp hw with rfl | hw
    · exact validWord_system
    · exact wordsA_valid k w hw
  have hwords := lineGetArgs_joinWords (hall 1002)
  -- the line ends in a word, so `_cmd_complete` leaves the last one out
  have hsearched : searchedWords (joinWords (bytesOf "system" :: wordsA 1002)) 1003 = 1002 := by
    simpa using searchedWords_joinWords (hall 1002) (List.cons_ne_nil _ _)
  have hlen : ∀ k, (joinWords (bytesOf "system" :: wordsA k)).length = 6 + 2 * k := by
    intro k
    have hsys : (bytesOf "system").length = 6 := by decide
    rw [length_joinWords_wordsA, hsys]
  have htake : (bytesOf "system" :: wordsA 1002).take 1002 = bytesOf "system" :: wordsA 1001 := by
    rw [wordsA, List.take_succ_cons, List.take_replicate, wordsA]
    norm_num
  have hne : ∀ k, 0 < k → wordsA k ≠ [] := fun k hk =>
    List.ne_nil_of_length_pos (by rw [length_wordsA]; exact hk)
  obtain ⟨v, -, -, hsearch⟩ := repoTree_system_search (hne 1001 (by norm_num)) repoTree [] none
  refine ⟨by rw [hlen]; omega, by decide, ?_, by rw [hlen]; omega, ?_⟩
  · rw [system_argv (wordsA_valid 65) (hne 65 (by norm_num)) run ⟨[], kpairs⟩]
    simp only [Option.map_some, List.nil_append, length_wordsA]
  · rw [hwords, List.length_cons, length_wordsA, hsearched, htake, hsearch]
    simp only [List.nil_append, length_wordsA]

end Chaconne.Cli
