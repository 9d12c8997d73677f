import Chaconne.Cli.Tokens
import Chaconne.Cli.Complete
import Chaconne.CLib.Cursor
import Chaconne.CLib.Screen

/-!
# The word completion writes over

On a full or partial match `term_complete_command` redraws the line, steps
back over its last run of non-blank bytes (`term_backward_pure_word`) and
writes the key `cmd_complete` returns from there on. The key covers that run:

* a search that succeeds reads every word it is given (`cmdSearchAux_words`),
  so help takes the word after all the searched ones (`helpSearch_eq_some`);
* the key of a full or partial match extends the typed word and is a prefix of
  the key of a token below the node reached (`getComplete_key`);
* on a line of printable bytes with no `|` word, the typed word is the last run
  of non-blank bytes, or there is none when the line ends in a blank
  (`Tokenises.eq_append_getLast`, `Tokenises.drop_backOver`).

So the key extends the run the cursor steps back over, and it is part of a key
of a node of the tree (`cmdComplete_key`).
-/

namespace Chaconne.Cli

open CLib

/-! ## A successful search reads every word -/

theorem no_match_ne_success : CMD_ERR_NO_MATCH ≠ CMD_SUCCESS := by decide

/-- The keyword loop only consumes words, and it reads every word when it runs
out of them or returns success: each round consumes a word, so the fuel lasts
as long as the words. -/
theorem keywordLoop_words {keyword : List CmdNode} :
    ∀ {fuel : Nat} {s s' : Search} {x : LoopExit}, keywordLoop keyword fuel s = (x, s') →
      s'.words.length ≤ s.words.length ∧
        (s.words.length ≤ fuel → (x = .exhausted ∨ x = .returned CMD_SUCCESS) → s'.words = []) := by
  intro fuel
  induction fuel with
  | zero =>
    intro s s' x h
    cases h
    exact ⟨le_rfl, fun hlen _ => List.eq_nil_of_length_eq_zero (Nat.le_zero.mp hlen)⟩
  | succ fuel ih =>
    intro s s' x h
    rw [keywordLoop] at h
    split at h
    · -- no word left
      rename_i hwords
      cases h
      exact ⟨le_rfl, fun _ _ => hwords⟩
    · rename_i w rest hwords
      split at h
      · -- no entry takes the word: {break}
        cases h
        exact ⟨le_rfl, fun _ hx => by simp at hx⟩
      · dsimp only at h
        split at h
        · -- an entry word: the loop goes on after it
          obtain ⟨hle, hnil⟩ := ih h
          exact ⟨hle.trans (by simp [hwords]), fun hlen hx => hnil (by simp [hwords] at hlen ⊢; omega) hx⟩
        · split at h
          · -- an entry that takes an argument, with no word left for it
            cases h
            exact ⟨by simp, fun _ _ => rfl⟩
          · split at h
            · -- the argument matches none of the entry's children
              cases h
              exact ⟨by simp [hwords], fun _ hx => by simp [no_match_ne_success] at hx⟩
            · -- the entry and its argument read: the loop goes on
              obtain ⟨hle, hnil⟩ := ih h
              exact ⟨hle.trans (by simp [hwords]; omega),
                fun hlen hx => hnil (by simp [hwords] at hlen ⊢; omega) hx⟩

theorem consumeWords_words_length (target : CmdNode) (token : Token) (w : List UInt8) (s : Search) :
    (consumeWords target token w s).words.length ≤ s.words.length := by
  unfold consumeWords
  split_ifs <;> simp

/-- A search that succeeds has read every word: a round that does not finish
consumes a word, so the fuel lasts as long as the words. -/
theorem cmdSearchAux_words {head : List CmdNode} {s s' : Search} {code : Int} (fuel : Nat) :
    cmdSearchAux fuel head s = (code, s') → s.words.length ≤ fuel → code = CMD_SUCCESS →
      s'.words = [] := by
  induction fuel generalizing head s with
  | zero =>
    intro h _ hcode
    cases h
    exact absurd hcode no_match_ne_success
  | succ fuel ih =>
    intro h hlen hcode
    rw [cmdSearchAux] at h
    split at h
    · cases h
      exact absurd hcode no_match_ne_success
    · rename_i w rest hwords
      split at h
      · cases h
        exact absurd hcode no_match_ne_success
      · rename_i target token hfind
        dsimp only at h
        generalize hs1 : consumeWords target token w { s with ret := target, words := rest } = s1 at h
        have hs1len : s1.words.length ≤ fuel := by
          rw [← hs1]
          refine (consumeWords_words_length _ _ _ _).trans ?_
          simp only [hwords, List.length_cons] at hlen ⊢
          omega
        -- what the keyword loop leaves, when the node has one
        have hloop : ∀ {x : LoopExit} {s2 : Search},
            (if target.keyword.isEmpty then (LoopExit.broke, s1)
              else keywordLoop target.keyword fuel s1) = (x, s2) →
            s2.words.length ≤ s1.words.length ∧
              (x = .exhausted ∨ x = .returned CMD_SUCCESS → s2.words = []) := by
          intro x s2 hr
          split at hr
          · cases hr
            exact ⟨le_rfl, fun hx => by simp at hx⟩
          · obtain ⟨hle, hnil⟩ := keywordLoop_words hr
            exact ⟨hle, hnil hs1len⟩
        split at h
        · -- the best node took the last word
          rename_i hempty
          cases h
          exact List.isEmpty_iff.mp hempty
        · split at h
          · -- the keyword loop returned
            rename_i hr
            cases h
            exact (hloop hr).2 (.inr (by rw [hcode]))
          · -- the keyword loop read every word
            rename_i hr
            cases h
            exact (hloop hr).2 (.inl rfl)
          · -- the keyword loop stopped: on into the children
            rename_i hr
            split at h
            · cases h
              exact absurd hcode no_match_ne_success
            · exact ih h ((hloop hr).1.trans hs1len) hcode

/-! ## The node a search reaches is in the tree -/

section Reach

-- A set of nodes; the search lemmas below take it closed under going down to
-- children and keyword entries.
variable {P : CmdNode → Prop}

theorem consumeWords_ret (target : CmdNode) (token : Token) (w : List UInt8) (s : Search) :
    (consumeWords target token w s).ret = s.ret := by
  unfold consumeWords
  split_ifs <;> rfl

/-- The keyword loop moves to one of the entries, if anywhere. -/
theorem keywordLoop_ret {keyword : List CmdNode} (hkw : ∀ c ∈ keyword, P c) :
    ∀ {fuel : Nat} {s s' : Search} {x : LoopExit}, keywordLoop keyword fuel s = (x, s') →
      P s.ret → P s'.ret := by
  intro fuel
  induction fuel with
  | zero =>
    intro s s' x h hs
    cases h
    exact hs
  | succ fuel ih =>
    intro s s' x h hs
    rw [keywordLoop] at h
    split at h
    · cases h
      exact hs
    · split at h
      · cases h
        exact hs
      · rename_i entry _ hfind
        dsimp only at h
        split at h
        · exact ih h hs
        · split at h
          · -- the entry that takes the last word as its argument
            cases h
            exact hkw entry (findBestNode_mem hfind).1
          · split at h
            · cases h
              exact hs
            · exact ih h hs

variable (hP : ∀ n, P n → (∀ c ∈ n.children, P c) ∧ ∀ c ∈ n.keyword, P c)
include hP

/-- The search moves down from the sibling list it is given. -/
theorem cmdSearchAux_ret {s s' : Search} {code : Int} (fuel : Nat) {head : List CmdNode} :
    cmdSearchAux fuel head s = (code, s') → (∀ c ∈ head, P c) → P s.ret → P s'.ret := by
  induction fuel generalizing head s with
  | zero =>
    intro h _ hs
    cases h
    exact hs
  | succ fuel ih =>
    intro h hhead hs
    rw [cmdSearchAux] at h
    split at h
    · cases h
      exact hs
    · rename_i w rest hwords
      split at h
      · cases h
        exact hs
      · rename_i target token hfind
        dsimp only at h
        have htarget : P target := hhead target (findBestNode_mem hfind).1
        generalize hs1 : consumeWords target token w { s with ret := target, words := rest } = s1 at h
        have hs1 : P s1.ret := by
          rw [← hs1, consumeWords_ret]
          exact htarget
        -- the keyword loop, when the node has one, stays at the node or moves to an entry
        have hloop : ∀ {x : LoopExit} {s2 : Search},
            (if target.keyword.isEmpty then (LoopExit.broke, s1)
              else keywordLoop target.keyword fuel s1) = (x, s2) → P s2.ret := by
          intro x s2 hr
          split at hr
          · cases hr
            exact hs1
          · exact keywordLoop_ret (hP target htarget).2 hr hs1
        split at h
        · cases h
          exact hs1
        · split at h
          · rename_i hr
            cases h
            exact hloop hr
          · cases h
            exact htarget
          · rename_i hr
            split at h
            · cases h
              exact hloop hr
            · exact ih h (hP target htarget).1 (hloop hr)

end Reach

/-- The nodes at the paths of a tree are closed under going down. -/
theorem nodeAt?_closed {tree : CmdNode} (m : CmdNode) (hm : ∃ p, tree.nodeAt? p = some m) :
    (∀ c ∈ m.children, ∃ p, tree.nodeAt? p = some c) ∧ ∀ c ∈ m.keyword, ∃ p, tree.nodeAt? p = some c := by
  obtain ⟨p, hp⟩ := hm
  constructor
  · intro c hc
    obtain ⟨i, hi, rfl⟩ := List.getElem_of_mem hc
    exact ⟨p ++ [.child i], by simp [CmdNode.nodeAt?_append, hp, CmdNode.nodeAt?, hi]⟩
  · intro c hc
    obtain ⟨i, hi, rfl⟩ := List.getElem_of_mem hc
    exact ⟨p ++ [.keyword i], by simp [CmdNode.nodeAt?_append, hp, CmdNode.nodeAt?, hi]⟩

/-- When the search of the first `n` words succeeds, help looks at the word
after them, at a node of the tree. -/
theorem helpSearch_eq_some {tree : CmdNode} {words : List (List UInt8)} {n : Nat} {base : CmdNode}
    {wordi : Nat} (hn : n ≤ words.length) (h : helpSearch tree words n = some (base, wordi)) :
    wordi = n ∧ ∃ p, tree.nodeAt? p = some base := by
  unfold helpSearch at h
  split_ifs at h with hpos
  · dsimp only at h
    generalize hr : cmdSearch tree.children ⟨tree, words.take n, [], none⟩ = r at h
    obtain ⟨code, s'⟩ := r
    split_ifs at h with hcode
    cases h
    have hlen : (words.take n).length = n := List.length_take_of_le hn
    have hnil := cmdSearchAux_words _ hr le_rfl (not_not.mp hcode)
    refine ⟨by rw [hnil, List.length_nil, Nat.sub_zero], ?_⟩
    -- the search starts below the root and moves down
    have hroot : ∃ p, tree.nodeAt? p = some tree := ⟨[], rfl⟩
    exact cmdSearchAux_ret (P := fun m => ∃ p, tree.nodeAt? p = some m) nodeAt?_closed _ hr
      (nodeAt?_closed tree hroot).1 hroot
  · cases h
    exact ⟨by omega, [], rfl⟩

/-! ## The key of a match -/

/-- A candidate's key starts with the typed word. -/
theorem keyMatches_prefix {word : List UInt8} {tok : Token} (hword : NulFree word)
    (h : keyMatches word tok = true) : word <+: untilNul tok.key := by
  unfold keyMatches at h
  rcases Bool.or_eq_true_iff.mp h with h0 | hcmp
  · rw [List.eq_nil_of_length_eq_zero (of_decide_eq_true h0)]
    exact List.nil_prefix
  · exact prefix_untilNul hword ((strncmp_length_eq_zero_iff hword).mp (beq_iff_eq.mp hcmp))

theorem prefix_take_of_length_le {w l : List UInt8} {m : Nat} (h : w <+: l) (hm : w.length ≤ m) :
    w <+: l.take m := by
  obtain ⟨r, rfl⟩ := h
  rw [List.take_append, List.take_of_length_le hm]
  exact List.prefix_append _ _

/-- On a full or partial match, the key `get_complete` returns first extends
the typed word and is part of the key of a candidate. -/
theorem getComplete_key {base : CmdNode} {word : List UInt8} (hword : NulFree word)
    (hr : (getComplete base word).ret = CMD_COMPLETE_FULL_MATCH ∨
      (getComplete base word).ret = CMD_COMPLETE_MATCH) :
    word <+: untilNul ((getComplete base word).keys.headD []) ∧
      ∃ n ∈ base.children ++ base.keyword, ∃ tok ∈ n.tokens,
        untilNul ((getComplete base word).keys.headD []) <+: untilNul tok.key := by
  unfold getComplete at hr ⊢
  dsimp only at hr ⊢
  -- the first candidate
  obtain ⟨tok, rest, htoks⟩ : ∃ tok rest,
      candidateTokens base.children word ++ candidateTokens base.keyword word = tok :: rest := by
    cases htoks : candidateTokens base.children word ++ candidateTokens base.keyword word with
    | nil =>
      rw [htoks] at hr
      simp [CMD_ERR_NO_MATCH, CMD_COMPLETE_FULL_MATCH, CMD_COMPLETE_MATCH] at hr
    | cons tok rest => exact ⟨tok, rest, rfl⟩
  have hmem : tok ∈ candidateTokens base.children word ++ candidateTokens base.keyword word := by
    rw [htoks]
    exact List.mem_cons_self
  obtain ⟨n, hn, htok, hmatch⟩ : ∃ n ∈ base.children ++ base.keyword, tok ∈ n.tokens ∧
      keyMatches word tok = true := by
    simp only [candidateTokens, ← List.flatMap_append, List.mem_flatMap, List.mem_filter] at hmem
    exact hmem
  rw [htoks] at hr ⊢
  have hpre := keyMatches_prefix hword hmatch
  simp only [List.map_cons, List.length_cons, Nat.add_one_ne_zero, if_false] at hr ⊢
  split_ifs with hlcd
  · -- a partial match: the common prefix of the keys, longer than the word
    simp only [List.headD_cons]
    rw [untilNul, ← List.take_takeWhile]
    refine ⟨prefix_take_of_length_le hpre (by omega), n, hn, tok, htok, List.take_prefix _ _⟩
  -- a full match, or a list whose first key is kept
  all_goals
    simp only [List.headD_cons]
    exact ⟨hpre, n, hn, tok, htok, List.prefix_refl _⟩

/-! ## The run completion writes over -/

/-- A printable blank is a space. -/
theorem eq_space_of_isspace {c : UInt8} (hc : Printable c) (hs : isspace c = true) : c = 32 := by
  simp only [isspace, Bool.or_eq_true, beq_iff_eq, Bool.and_eq_true, decide_eq_true_eq] at hs
  rcases hs with h | ⟨-, h13⟩
  · exact h
  · exact absurd (UInt8.le_trans hc.1 h13) (by decide)

/-- On a printable line with no `|` word that does not end in a blank, the run
of non-blank bytes `term_backward_pure_word` steps back over is the last word. -/
theorem Tokenises.drop_backOver {line : List UInt8} {ws : List (List UInt8)}
    (htok : Tokenises line ws) (hpipe : ∀ w ∈ ws, w.head? ≠ some 124)
    (hprint : ∀ c ∈ line, Printable c) (hend : ¬line.getLast? = some 32) (hne : ws ≠ []) :
    line.drop (backOver (· != 32) line line.length) = ws.getLast hne := by
  have hvalid : ∀ w ∈ ws, ValidWord w := htok.valid_of_no_pipe hpipe
  obtain ⟨pre, rest, hsplit, hblank, hpreLast⟩ :=
    htok.eq_append_getLast hpipe _ (List.getLast?_eq_some_getLast hne)
  have hrest : rest = [] := by
    -- white space at the end of a printable line would be a space
    by_contra hrest
    apply hend
    have hmem := List.getLast_mem hrest
    have hpr := hprint _ (by rw [hsplit]; exact List.mem_append_right _ hmem)
    rw [hsplit, List.getLast?_append_of_ne_nil _ hrest, List.getLast?_eq_some_getLast hrest,
      eq_space_of_isspace hpr (hblank _ hmem)]
  rw [hrest, List.append_nil] at hsplit
  have hj : backOver (· != 32) line line.length = pre.length := by
    rw [hsplit]
    apply backOver_append_length
    · -- a key byte is not a space
      intro c hc
      have hkb := (hvalid _ (List.getLast_mem hne)).2 c hc
      have hc32 : c ≠ 32 := by
        rintro rfl
        exact absurd hkb (by decide)
      simpa using hc32
    · -- white space before the word is a space
      intro c hc
      have hpr := hprint c (by rw [hsplit]; exact List.mem_append_left _ (List.mem_of_getLast? hc))
      simp [eq_space_of_isspace hpr (hpreLast c hc)]
  rw [hj, hsplit, List.drop_left]

/-- On a full or partial match, the key completion writes extends the last run
of non-blank bytes of a printable line, the run `term_backward_pure_word`
steps back over; and it is part of the key of a token of a node of the tree. -/
theorem cmdComplete_key {tree : CmdNode} {line : List UInt8} (hline : NulFree line)
    (hprint : ∀ c ∈ line, Printable c)
    (hr : (cmdComplete tree line).ret = CMD_COMPLETE_FULL_MATCH ∨
      (cmdComplete tree line).ret = CMD_COMPLETE_MATCH) :
    line.drop (backOver (· != 32) line line.length) <+:
        untilNul ((cmdComplete tree line).keys.headD []) ∧
      ∃ p n, tree.nodeAt? p = some n ∧ ∃ tok ∈ n.tokens,
        untilNul ((cmdComplete tree line).keys.headD []) <+: untilNul tok.key := by
  have htok : Tokenises line (lineGetArgs line) := (lineGetArgs_eq_iff hline).mp rfl
  unfold cmdComplete at hr ⊢
  dsimp only at hr ⊢
  generalize lineGetArgs line = ws at htok hr ⊢
  -- `cmd_complete` returns success on a line with a `|` word or with no word
  split_ifs at hr ⊢ with hpipe
  · simp [CMD_SUCCESS, CMD_COMPLETE_FULL_MATCH, CMD_COMPLETE_MATCH] at hr
  have hpipe' : ∀ w ∈ ws, w.head? ≠ some 124 := by
    intro w hw h124
    apply hpipe
    exact List.any_eq_true.mpr ⟨w, hw, by simp [List.headD_eq_head?_getD, h124]⟩
  have hvalid : ∀ w ∈ ws, ValidWord w := htok.valid_of_no_pipe hpipe'
  unfold cmdCompleteWords at hr ⊢
  split_ifs at hr ⊢ with hnil
  · simp [CMD_SUCCESS, CMD_COMPLETE_FULL_MATCH, CMD_COMPLETE_MATCH] at hr
  have hn : searchedWords line ws.length ≤ ws.length := by
    unfold searchedWords
    split_ifs <;> omega
  cases hsearch : helpSearch tree ws (searchedWords line ws.length) with
  | none =>
    rw [hsearch] at hr
    simp [CMD_ERR_NO_MATCH, CMD_COMPLETE_FULL_MATCH, CMD_COMPLETE_MATCH] at hr
  | some bw =>
    obtain ⟨base, wordi⟩ := bw
    rw [hsearch] at hr
    dsimp only at hr ⊢
    obtain ⟨rfl, p, hp⟩ := helpSearch_eq_some hn hsearch
    have hword : NulFree (ws.getD (searchedWords line ws.length) []) := by
      rw [List.getD_eq_getElem?_getD]
      cases h : ws[searchedWords line ws.length]? with
      | none => exact nulFree_nil
      | some w => exact (hvalid w (List.mem_of_getElem? h)).nulFree
    obtain ⟨hpre, n, hn', tok, htok', hkey⟩ := getComplete_key hword hr
    -- the token's node is a child or a keyword entry of the node reached
    have hnode : ∃ p, tree.nodeAt? p = some n := by
      rcases List.mem_append.mp hn' with hc | hk
      · exact (nodeAt?_closed base ⟨p, hp⟩).1 n hc
      · exact (nodeAt?_closed base ⟨p, hp⟩).2 n hk
    obtain ⟨q, hq⟩ := hnode
    refine ⟨?_, q, n, hq, tok, htok', hkey⟩
    by_cases hend : line.getLast? = some 32
    · -- the line ends in a blank: the cursor steps back over nothing
      have hj : backOver (· != 32) line line.length = line.length := by
        simpa using backOver_append_length (· != 32) (s := line) (t := []) (by simp) (by simp [hend])
      rw [hj, List.drop_length]
      exact List.nil_prefix
    · -- otherwise the typed word is the last word, and it ends the line
      have hsw : searchedWords line ws.length = ws.length - 1 := by
        unfold searchedWords
        rw [untilNul_of_nulFree hline, if_pos ⟨hnil, hend⟩]
      have hne : ws ≠ [] := fun h => hnil (by rw [h, List.length_nil])
      have hwordeq : ws.getD (ws.length - 1) [] = ws.getLast hne := by
        rw [List.getD_eq_getElem?_getD, ← List.getLast?_eq_getElem?, List.getLast?_eq_some_getLast hne]
        rfl
      rw [hsw, hwordeq] at hpre ⊢
      rw [htok.drop_backOver hpipe' hprint hend hne]
      exact hpre

end Chaconne.Cli
