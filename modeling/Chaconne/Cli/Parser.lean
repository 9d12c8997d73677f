import Chaconne.Cli.Tree
import Chaconne.Cli.Search

/-!
# `cmd_add_elem`: the syntax-line parser

`cmd_add_elem` walks a definition's syntax line with a small state machine
(`struct parser_state`) and grows the command tree as it reads:

* a word becomes a node under the current parent, or reuses a child that already
  has a token with the same key (`cmd_node_find`); the first word of a keyword
  entry goes into the parent's keyword list instead (`in_keyword == 1`);
* `(a|b)` collects its words and becomes one node with several tokens;
* `{e1|e2 ARG}` keeps the node it started at (`save_parent`) and returns there at
  every `|` and at `}`;
* at the end of the line the definition's function is stored on the parent, and
  on the parent's parent too when the parent is a `.VARARG`.

Every handler either fails before touching the tree or succeeds; `cmd_add_elem`
returns the first failure and keeps what the earlier steps added, as the C code
does. The loop runs on explicit fuel: each iteration consumes a byte of the line
or a help line of the description, so `cmdAddElem`'s fuel is never exhausted
(`cmdAddElemLoop_fuel`).
-/

namespace Chaconne.Cli

open CLib

/-- `struct parser_state`. `cp` and `desc` are the unread rest of the line and
of the description; `parent` and `save_parent` are paths from the root.
(`just_read_word` is written but never read, and is left out.) -/
structure ParserState where
  cp : List UInt8
  desc : List UInt8
  inMultiple : Bool
  inKeyword : Nat
  token : List Token
  parent : List NodeStep
  saveParent : List NodeStep

/-- The state `cmd_add_elem` starts from: zeroed, at the root. -/
def ParserState.init (elem : CmdElem) : ParserState :=
  ⟨elem.line, elem.desc, false, 0, [], [], []⟩

/-! ## Reading words and help lines -/

/-- A byte that continues a word of a syntax line: not NUL, not one of
`"\r\n{}()|"`, not white space. -/
def isWordByte (c : UInt8) : Bool :=
  c != 0 && !([13, 10, 123, 125, 40, 41, 124] : List UInt8).contains c && !isspace c

/-- `next_help`: skip white space; `NULL` at the end of the description, else the
help line up to (not including) the next newline, and the rest after it. -/
def nextHelp (desc : List UInt8) : Option (List UInt8 × List UInt8) :=
  let line := desc.dropWhile fun c => c != 0 && isspace c
  match line.headD 0 with
  | 0 => none
  | _ => some (line.takeWhile (fun c => c != 0 && c != 10),
               line.dropWhile (fun c => c != 0 && c != 10))

/-- The type `token_record` gives a token, from the byte at the start of its
word. -/
def tokenType (c : UInt8) : TokenType :=
  if c = 91 then .option            -- '['
  else if c = 46 then .vararg       -- '.'
  else if 65 ≤ c ∧ c ≤ 90 then .variable
  else .literal

/-- `token_record`: the token of the word `start[0..cp)` with its help line. -/
def tokenRecord (start key desc : List UInt8) : Token :=
  ⟨key, desc, tokenType (start.headD 0)⟩

/-! ## Finding and inserting nodes -/

/-- The number of `token`'s keys that some token of `node` has (the inner count
of `cmd_node_find`). -/
def foundCount (node : CmdNode) (token : List Token) : Nat :=
  (token.filter fun t => node.tokens.any fun u => strcmp t.key u.key == 0).length

/-- `cmd_node_find`: the index of the first child that matches, and `*ret`.
A single token matches any child with a token of its key; several tokens skip
the single-token children and match the first child sharing at least one key. -/
def cmdNodeFind (children : List CmdNode) (token : List Token) : Option (Nat × Nat) :=
  match token with
  | [t] => (children.findIdx? fun n => n.tokens.any fun u => strcmp t.key u.key == 0).map (·, 1)
  | _ =>
    (children.findIdx? fun n => n.tokens.length != 1 && foundCount n token != 0).map
      fun i => (i, foundCount (children.getD i CmdNode.root) token)

/-- `cmd_node_insert` into a child list: appended at the end. -/
def CmdNode.addChild (new : CmdNode) (n : CmdNode) : CmdNode :=
  { n with children := n.children ++ [new] }

/-- `cmd_node_insert` into a keyword list: appended at the end. -/
def CmdNode.addKeyword (new : CmdNode) (n : CmdNode) : CmdNode :=
  { n with keyword := n.keyword ++ [new] }

/-- What `parser_end` stores on a node: the definition's function and
attributes. -/
def CmdNode.setFunc (elem : CmdElem) (n : CmdNode) : CmdNode :=
  { n with func := some elem.func, optattr := elem.optattr }

/-! ## The handlers -/

/-- `parser_read_word`. Outside `(...)` the word is found or inserted under the
parent and becomes the parent; inside, it is collected. -/
def parserReadWord (tree : CmdNode) (st : ParserState) :
    Except Int (CmdNode × ParserState) :=
  let key := st.cp.takeWhile isWordByte
  let cp := st.cp.dropWhile isWordByte
  match nextHelp st.desc with
  | none => .error (-EINVAL)
  | some (line, desc) =>
    let token := tokenRecord st.cp key line
    if !st.inMultiple then
      let children := tree.childrenAt st.parent
      match cmdNodeFind children [token] with
      | some (i, _) => .ok (tree, { st with cp, desc, parent := st.parent ++ [.child i] })
      | none =>
        if st.inKeyword = 1 then
          .ok (tree.modifyAt (CmdNode.addKeyword (cmdNodeNew [token])) st.parent,
               { st with cp, desc, inKeyword := 2,
                         parent := st.parent ++ [.keyword (tree.keywordAt st.parent).length] })
        else
          .ok (tree.modifyAt (CmdNode.addChild (cmdNodeNew [token])) st.parent,
               { st with cp, desc, parent := st.parent ++ [.child children.length] })
    else
      .ok (tree, { st with cp, desc, token := st.token ++ [token] })

/-- `parser_begin_multiple`: `(`. -/
def parserBeginMultiple (st : ParserState) : Except Int ParserState :=
  if st.inKeyword = 1 then .error (-EINVAL)
  else if st.inMultiple then .error (-EINVAL)
  else .ok { st with cp := st.cp.tail, inMultiple := true }

/-- `parser_end_multiple`: `)`. The collected tokens become one child, or reuse
a child with exactly those keys. -/
def parserEndMultiple (tree : CmdNode) (st : ParserState) :
    Except Int (CmdNode × ParserState) :=
  if !st.inMultiple then .error (-EINVAL)
  else if st.token.length = 0 then .error (-EINVAL)
  else
    let children := tree.childrenAt st.parent
    let st' := { st with cp := st.cp.tail, inMultiple := false, token := [] }
    match cmdNodeFind children st.token with
    | some (i, found) =>
      if found ≠ st.token.length then .error (-EINVAL)
      else .ok (tree, { st' with parent := st.parent ++ [.child i] })
    | none =>
      .ok (tree.modifyAt (CmdNode.addChild (cmdNodeNew st.token)) st.parent,
           { st' with parent := st.parent ++ [.child children.length] })

/-- `parser_begin_keyword`: `{`. -/
def parserBeginKeyword (st : ParserState) : Except Int ParserState :=
  if st.inKeyword ≠ 0 || st.inMultiple then .error (-EINVAL)
  else .ok { st with cp := st.cp.tail, inKeyword := 1, saveParent := st.parent }

/-- `parser_end_keyword`: `}`, back at the node the group started at. -/
def parserEndKeyword (st : ParserState) : Except Int ParserState :=
  if st.inMultiple || st.inKeyword = 0 then .error (-EINVAL)
  else if st.inKeyword = 1 then .error (-EINVAL)
  else .ok { st with cp := st.cp.tail, inKeyword := 0, parent := st.saveParent }

/-- `parser_handle_pipe`: `|` between alternatives or between keyword entries. -/
def parserHandlePipe (st : ParserState) : Except Int ParserState :=
  if st.inMultiple then .ok { st with cp := st.cp.tail }
  else if st.inKeyword ≠ 0 then
    .ok { st with cp := st.cp.tail, inKeyword := 1, parent := st.saveParent }
  else .error (-EINVAL)

/-- Whether a node's first token is a `.VARARG` (`tokens[0].type`; the root has
no token, and is not one). -/
def CmdNode.isVararg (n : CmdNode) : Bool :=
  n.tokens.head?.map (·.type) == some .vararg

/-- `parser_end`: the function goes to the parent, and to its parent as well
when it is a `.VARARG`. -/
def parserEnd (elem : CmdElem) (tree : CmdNode) (st : ParserState) : Except Int CmdNode :=
  if st.inMultiple || st.inKeyword ≠ 0 then .error (-EINVAL)
  else
    let tree' := tree.modifyAt (CmdNode.setFunc elem) st.parent
    if ((tree.nodeAt? st.parent).map CmdNode.isVararg).getD false then
      .ok (tree'.modifyAt (CmdNode.setFunc elem) st.parent.dropLast)
    else .ok tree'

/-! ## The loop -/

/-- The handler the byte at `cp` selects (`cmd_add_elem`'s `switch`, the end of
the line apart). -/
def parserStep (tree : CmdNode) (st : ParserState) : Except Int (CmdNode × ParserState) :=
  match st.cp.headD 0 with
  | 123 => (parserBeginKeyword st).map (tree, ·)    -- '{'
  | 40 => (parserBeginMultiple st).map (tree, ·)    -- '('
  | 125 => (parserEndKeyword st).map (tree, ·)      -- '}'
  | 41 => parserEndMultiple tree st                 -- ')'
  | 124 => (parserHandlePipe st).map (tree, ·)      -- '|'
  | _ => parserReadWord tree st

/-- `cmd_add_elem`'s loop: skip blanks, stop at the end of the line, else run one
handler. The return code and the tree as the loop leaves it. -/
def cmdAddElemLoop (elem : CmdElem) : Nat → CmdNode → ParserState → Int × CmdNode
  | 0, tree, _ => (-EINVAL, tree)
  | fuel + 1, tree, st =>
    let st := { st with cp := st.cp.dropWhile (· == 32) }
    match st.cp.headD 0 with
    | 0 =>
      match parserEnd elem tree st with
      | .ok t => (0, t)
      | .error e => (e, tree)
    | _ =>
      match parserStep tree st with
      | .ok (t, s) => cmdAddElemLoop elem fuel t s
      | .error e => (e, tree)

/-- `cmd_add_elem`: the return code and the tree after adding `elem`. -/
def cmdAddElem (tree : CmdNode) (elem : CmdElem) : Int × CmdNode :=
  cmdAddElemLoop elem (elem.line.length + elem.desc.length + 1) tree (ParserState.init elem)

/-! ## Building the tree -/

/-- The common commands of `cli-tree.c`, added before any definition. -/
def commonCmds : List CmdElem :=
  [⟨bytesOf "list", bytesOf "List all defined commands\n", .list_commands, none⟩,
   ⟨bytesOf "quit", bytesOf "Exit current terminal\n", .quit_terminal, none⟩,
   ⟨bytesOf "exit", bytesOf "Exit current terminal\n", .exit_terminal, none⟩]

/-- `cmd_tree_build`: the common commands, then the definitions, added to an
empty root; a definition that fails is reported and the build goes on. -/
def cmdTreeBuild (elems : List CmdElem) : CmdNode :=
  (commonCmds ++ elems).foldl (fun t e => (cmdAddElem t e).2) CmdNode.root

/-! ## What the rejected and the accepted definitions leave

`cmd_add_elem` grows the tree while it reads and never takes anything back, so
the nodes a rejected definition added before its error stay. They are not
inert: `find_best_node` prefers an exact literal to a variable, so a literal
left behind takes the words the variable beside it used to match. A keyword
entry is looked up among the children but inserted among the keyword entries,
so the same entry added twice is there twice; and the parser accepts words
after a `.VARARG`, which no search can reach. -/

/-- `show WORD`, bound to `f`, and `show foo bar` with help for two words only,
which `cmd_add_elem` rejects after it has added `foo`: before, `show foo`
reaches the variable and `f`; after, the literal `foo`, which has no function. -/
theorem rejected_definition_changes_search :
    let t : CmdNode :=
      cmdTreeBuild [⟨bytesOf "show WORD", bytesOf "Show\nA word\n", .command "f", none⟩]
    let r := cmdAddElem t ⟨bytesOf "show foo bar", bytesOf "Show\nFoo\n", .command "g", none⟩
    let ws := [bytesOf "show", bytesOf "foo"]
    r.1 = -EINVAL ∧
      (cmdSearch t.children ⟨t, ws, [], none⟩).1 = CMD_SUCCESS ∧
      (cmdSearch t.children ⟨t, ws, [], none⟩).2.ret.func = some (.command "f") ∧
      (cmdSearch r.2.children ⟨r.2, ws, [], none⟩).1 = CMD_SUCCESS ∧
      (cmdSearch r.2.children ⟨r.2, ws, [], none⟩).2.ret.func = none := by
  decide

/-- `c {a|b}` and then `c {a}`: both are added, and the keyword list of `c`
holds `a` twice. -/
theorem keyword_entry_duplicated :
    let d1 : CmdElem := ⟨bytesOf "c {a|b}", bytesOf "C\nA\nB\n", .command "f", none⟩
    let d2 : CmdElem := ⟨bytesOf "c {a}", bytesOf "C\nA\n", .command "g", none⟩
    (cmdAddElem (cmdTreeBuild []) d1).1 = 0 ∧ (cmdAddElem (cmdTreeBuild [d1]) d2).1 = 0 ∧
      ((cmdTreeBuild [d1, d2]).keywordAt [.child 3]).map (fun n => n.tokens.map (·.key)) =
        [[bytesOf "a"], [bytesOf "b"], [bytesOf "a"]] := by
  decide

/-- `a .X b` is added without error, and `b` is out of reach: the search on
`a 1 b` stops at the `.VARARG`, which has no function. -/
theorem vararg_before_word_accepted :
    let t : Int × CmdNode :=
      cmdAddElem (cmdTreeBuild []) ⟨bytesOf "a .X b", bytesOf "A\nX\nB\n", .command "f", none⟩
    let r := cmdSearch t.2.children ⟨t.2, [bytesOf "a", bytesOf "1", bytesOf "b"], [], none⟩
    t.1 = 0 ∧ r.1 = CMD_SUCCESS ∧ r.2.ret.tokens.map (·.type) = [.vararg] ∧ r.2.ret.func = none := by
  decide

end Chaconne.Cli
