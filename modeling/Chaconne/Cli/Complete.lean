import Chaconne.Cli.Execute

/-!
# `cmd_complete` and `cmd_describe`: help on a partial line

Both search the words before the one being typed: all words when the line ends
in a space, all but the last otherwise. At the node reached (the root when
there are none), the candidates are the tokens of its children and keyword
entries whose key starts with the typed word.

* `cmd_complete` counts them, and returns the one key (`CMD_COMPLETE_FULL_MATCH`),
  their longest common prefix when it is longer than the typed word
  (`CMD_COMPLETE_MATCH`, computed by `cmd_lcd` over adjacent keys), or the list
  (`CMD_COMPLETE_LIST_MATCH`);
* `cmd_describe` lists them with their help lines and sets `*cr` when the line
  can be run as it is.
-/

namespace Chaconne.Cli

open CLib

/-! ## Candidates -/

/-- The test of `token_count`, `get_complete` and `get_desc`: every key when the
typed word is empty or absent, else the keys it is a `strncmp` prefix of. -/
def keyMatches (word : List UInt8) (token : Token) : Bool :=
  word.length = 0 || strncmp token.key word word.length == 0

/-- The tokens a sibling list offers for a typed word, in order. -/
def candidateTokens (head : List CmdNode) (word : List UInt8) : List Token :=
  head.flatMap fun n => n.tokens.filter (keyMatches word)

/-- The common-prefix loop of `cmd_lcd` on two keys: it stops at the first NUL
or difference. -/
def commonPrefixLen : List UInt8 → List UInt8 → Nat
  | a :: as, b :: bs => if a ≠ 0 ∧ b ≠ 0 ∧ a = b then commonPrefixLen as bs + 1 else 0
  | _, _ => 0

/-- The loop of `cmd_lcd`: the minimum of the common prefixes of adjacent keys,
`lcd` starting at `-1`. -/
def cmdLcdLoop (lcd : Int) : List (List UInt8) → Int
  | s1 :: s2 :: rest =>
    let j : Int := commonPrefixLen s1 s2
    cmdLcdLoop (if lcd < 0 then j else min lcd j) (s2 :: rest)
  | _ => lcd

/-- `cmd_lcd`: `0` for fewer than two keys. -/
def cmdLcd (matched : List (List UInt8)) : Int :=
  match matched with
  | _ :: _ :: _ => cmdLcdLoop (-1) matched
  | _ => 0

/-! ## Completion -/

/-- What `cmd_complete` returns through `ret`, `*n` and `*keys` (left as the
caller initialised them, `0` and `NULL`, when it returns early). -/
structure CompleteResult where
  ret : Int
  n : Nat
  keys : List (List UInt8)

/-- `get_complete` at a node for the typed word (`[]` for `NULL`). -/
def getComplete (tree : CmdNode) (word : List UInt8) : CompleteResult :=
  let keys := (candidateTokens tree.children word ++ candidateTokens tree.keyword word).map
    (·.key)
  let count := keys.length
  if count = 0 then ⟨CMD_ERR_NO_MATCH, 0, []⟩
  else
    let lcd := cmdLcd keys
    if lcd ≠ 0 ∧ lcd > word.length then
      ⟨CMD_COMPLETE_MATCH, count, (keys.headD []).take lcd.toNat :: keys.tail⟩
    else ⟨if count = 1 then CMD_COMPLETE_FULL_MATCH else CMD_COMPLETE_LIST_MATCH, count, keys⟩

/-- The number of words searched before the one being typed: all of them when
the line ends in a space. -/
def searchedWords (line : List UInt8) (wordc : Nat) : Nat :=
  if wordc ≠ 0 ∧ (untilNul line).getLast? ≠ some 32 then wordc - 1 else wordc

/-- The search of `_cmd_complete` and `_cmd_describe` on the first `n` words:
the node it reaches and the index of the next word, or none when it fails. -/
def helpSearch (tree : CmdNode) (words : List (List UInt8)) (n : Nat) :
    Option (CmdNode × Nat) :=
  if n > 0 then
    let r := cmdSearch tree.children ⟨tree, words.take n, [], none⟩
    if r.1 ≠ 0 then none else some (r.2.ret, n - r.2.words.length)
  else some (tree, 0)

/-- `_cmd_complete`. -/
def cmdCompleteWords (tree : CmdNode) (line : List UInt8) (words : List (List UInt8)) :
    CompleteResult :=
  if words.length = 0 then ⟨CMD_SUCCESS, 0, []⟩
  else
    match helpSearch tree words (searchedWords line words.length) with
    | none => ⟨CMD_ERR_NO_MATCH, 0, []⟩
    | some (base, wordi) => getComplete base (words.getD wordi [])

/-- `cmd_complete`: nothing to complete after a `|`. -/
def cmdComplete (tree : CmdNode) (line : List UInt8) : CompleteResult :=
  let words := lineGetArgs line
  if words.any (fun w => w.headD 0 == 124) then ⟨CMD_SUCCESS, 0, []⟩
  else cmdCompleteWords tree line words

/-- `{a} x` puts `a` among the root's keyword entries: completing `a` finds
exactly that key, and `cmd_search`, which starts from the root's children and
never looks at the root's keyword entries, rejects the word. -/
theorem complete_full_match_rejected :
    let t : CmdNode := cmdTreeBuild [⟨bytesOf "{a} x", bytesOf "A\nX\n", .command "f", none⟩]
    (cmdComplete t (bytesOf "a")).ret = CMD_COMPLETE_FULL_MATCH ∧
      (cmdComplete t (bytesOf "a")).keys = [bytesOf "a"] ∧
      (cmdSearch t.children ⟨t, [bytesOf "a"], [], none⟩).1 = CMD_ERR_NO_MATCH := by
  decide

/-! ## Description -/

/-- What `cmd_describe` returns through `ret`, `*n`, `*keys`, `*descs` and
`*cr` (`*cr` starts at `0`, as `term_describe_command` sets it). -/
structure DescribeResult where
  ret : Int
  n : Nat
  keys : List (List UInt8)
  descs : List (List UInt8)
  cr : Bool

/-- `get_desc` at a node for the typed word: the candidates and their help. -/
def getDesc (tree : CmdNode) (word : List UInt8) : Int × List Token :=
  let tokens := candidateTokens tree.children word ++ candidateTokens tree.keyword word
  if tokens.length = 0 then (CMD_ERR_NO_MATCH, [])
  else (if tokens.length = 1 then CMD_COMPLETE_FULL_MATCH else CMD_COMPLETE_LIST_MATCH, tokens)

/-- `_cmd_describe`. `*cr` is set when all words were searched and the node
reached has a function, or when the typed word is exactly a candidate's key and
the node reached before it has a function. -/
def cmdDescribeWords (tree : CmdNode) (line : List UInt8) (words : List (List UInt8)) :
    DescribeResult :=
  let n := searchedWords line words.length
  match helpSearch tree words n with
  | none => ⟨CMD_ERR_NO_MATCH, 0, [], [], false⟩
  | some (base, wordi) =>
    let word := words.getD wordi []
    let cr := n = words.length ∧ base.func.isSome
    let r := getDesc base word
    let exact := wordi < words.length ∧ r.2.any fun t => strcmp word t.key == 0
    ⟨r.1, r.2.length, r.2.map (·.key), r.2.map (·.desc), cr || (exact ∧ base.func.isSome)⟩

/-- `cmd_describe`: nothing to describe after a `|`. -/
def cmdDescribe (tree : CmdNode) (line : List UInt8) : DescribeResult :=
  let words := lineGetArgs line
  if words.any (fun w => w.headD 0 == 124) then ⟨CMD_SUCCESS, 0, [], [], false⟩
  else cmdDescribeWords tree line words

end Chaconne.Cli
