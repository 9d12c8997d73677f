import Chaconne.Cli.Cmdopt
import Chaconne.CLib.FirstBest

/-!
# `cmd_search`: matching words against the tree

`find_best_node` scans a sibling list and keeps the first token of the highest
rank a word reaches (`match_word`: a literal equal to the word, then a
`.VARARG`, then a variable or `[option]`). `cmd_search` follows the best node,
stores arguments in `argv` (every word of a multi-token node, of a variable,
and of a `.VARARG` with all the words after it), runs the keyword loop of the
node, and goes on into its children.

The search is recursive on the tree and consumes at least one word per level,
so it runs on fuel equal to the number of words (`cmdSearch`); the words are the
rest of the C array from `*wordi` on.
-/

namespace Chaconne.Cli

open CLib Hashtable

/-- `enum match_type`. -/
inductive MatchType
  | no_match
  | extend_match
  | vararg_match
  | exact_match
deriving DecidableEq, Repr

/-- The order of `enum match_type`. -/
def MatchType.rank : MatchType → Nat
  | .no_match => 0
  | .extend_match => 1
  | .vararg_match => 2
  | .exact_match => 3

/-- `match_word`. -/
def matchWord (token : Token) (word : List UInt8) : MatchType :=
  match token.type with
  | .literal => if strcmp token.key word = 0 then .exact_match else .no_match
  | .variable | .option => .extend_match
  | .vararg => .vararg_match

/-- The tokens `find_best_node` visits, node by node, each with its node. -/
def tokenScan (head : List CmdNode) : List (CmdNode × Token) :=
  head.flatMap fun n => n.tokens.map (n, ·)

/-- `find_best_node`: the nested loop over the siblings and their tokens keeps
the first token of the highest `match_type` (a later one must rank strictly
higher); none when every token is `no_match`. -/
def findBestNode (head : List CmdNode) (word : List UInt8) : Option (CmdNode × Token) :=
  firstBest (fun p => (matchWord p.2 word).rank) (tokenScan head)

/-- The state `cmd_search` updates through its pointers: `*ret`, the unread
words, `argv[0..*argi)` and the keyword table `h` (NULL for completion). -/
structure Search where
  ret : CmdNode
  words : List (List UInt8)
  argv : List (List UInt8)
  kpairs : Option (Hashtable (List UInt8) (List UInt8))

/-- `hashtable_set(h, key, value)` when `h` is not NULL. -/
def kpairsSet (h : Option (Hashtable (List UInt8) (List UInt8))) (key value : List UInt8) :
    Option (Hashtable (List UInt8) (List UInt8)) :=
  h.map (hashtableSet · key value)

/-- How the keyword loop of `cmd_search` ends. -/
inductive LoopExit
  /-- `cmd_search` returns this code from inside the loop. -/
  | returned (code : Int)
  /-- The loop condition failed: every word is read. -/
  | exhausted
  /-- No keyword entry matched the next word (`break`). -/
  | broke

/-- The keyword loop of `cmd_search` over the owner's keyword entries. An entry
word sets its key to `"1"`; an entry with children takes the next word as its
argument, which replaces the value. -/
def keywordLoop (keyword : List CmdNode) : Nat → Search → LoopExit × Search
  | 0, s => (.exhausted, s)
  | fuel + 1, s =>
    match s.words with
    | [] => (.exhausted, s)
    | w :: rest =>
      match findBestNode keyword w with
      | none => (.broke, s)
      | some (entry, _) =>
        let h := kpairsSet s.kpairs w (bytesOf "1")
        if entry.children.isEmpty then
          keywordLoop keyword fuel { s with words := rest, kpairs := h }
        else
          match rest with
          | [] => (.returned CMD_SUCCESS, { s with ret := entry, words := [], kpairs := h })
          | a :: rest' =>
            match findBestNode entry.children a with
            | none => (.returned CMD_ERR_NO_MATCH, { s with words := rest, kpairs := h })
            | some _ =>
              keywordLoop keyword fuel { s with words := rest', kpairs := kpairsSet h w a }

/-- The words `cmd_search` takes for the best node and where they go: a node with
several tokens or a non-literal token stores its word in `argv`, a `.VARARG`
stores all the words left, a literal only consumes its word. -/
def consumeWords (target : CmdNode) (token : Token) (w : List UInt8) (s : Search) : Search :=
  if target.tokens.length > 1 then { s with argv := s.argv ++ [w] }
  else if token.type ≠ .literal then
    if token.type = .vararg then { s with argv := s.argv ++ [w] ++ s.words, words := [] }
    else { s with argv := s.argv ++ [w] }
  else s

/-- `cmd_search` on fuel; the first word is `words[*wordi]`. -/
def cmdSearchAux : Nat → List CmdNode → Search → Int × Search
  | 0, _, s => (CMD_ERR_NO_MATCH, s)
  | fuel + 1, head, s =>
    match s.words with
    | [] => (CMD_ERR_NO_MATCH, s)
    | w :: rest =>
      match findBestNode head w with
      | none => (CMD_ERR_NO_MATCH, s)
      | some (target, token) =>
        let s := consumeWords target token w { s with ret := target, words := rest }
        if s.words.isEmpty then (CMD_SUCCESS, s)
        else
          -- the keyword loop runs only at a node with keyword entries
          let r : LoopExit × Search :=
            if target.keyword.isEmpty then (.broke, s) else keywordLoop target.keyword fuel s
          match r with
          | (.returned code, s) => (code, s)
          | (.exhausted, s) => (CMD_SUCCESS, { s with ret := target })
          | (.broke, s) =>
            if target.children.isEmpty then (CMD_ERR_NO_MATCH, s)
            else cmdSearchAux fuel target.children s

/-- `cmd_search(head, ret, wordc, words, wordi, argc, argv, argi, h)`. -/
def cmdSearch (head : List CmdNode) (s : Search) : Int × Search :=
  cmdSearchAux s.words.length head s

end Chaconne.Cli
