import Chaconne.Cli.Search
import Chaconne.Cli.Parser

/-!
# `cmd_execute`: running a command line

`line_get_args` splits the line into words at white space; a word starting with
`|` is the whole rest of the line. `cmd_execute` searches the words before the
first `|` word from the root's children, runs the function of the node it
reaches after `cmdopt_parse` has handed the arguments to the option
attributes, clears the options, reports a failed search or an incomplete
command, and sends the output through the pipe action after `|`.

A command function is user code: the model takes its return code as a
parameter `run`, and records which function was called with which options.
The engine's own messages are recorded in order; the pipe action is recorded
as what the engine does with the output (`stream_flush_regexp` through a
pattern, or `cmd_pipe` through the shell).
-/

namespace Chaconne.Cli

open CLib Hashtable

/-! ## Words of a line -/

/-- A byte of a word that `next_key` reads: not NUL, not `|`, not white space. -/
def isKeyByte (c : UInt8) : Bool :=
  c != 0 && c != 124 && !isspace c

/-- `next_key`: skip white space; none at the end of the line; a `|` starts a
word that runs to the end of the line; any other byte a word up to the next
`|` or white space. The word and the rest of the line after it. -/
def nextKey (s : List UInt8) : Option (List UInt8 × List UInt8) :=
  let s := s.dropWhile fun c => c != 0 && isspace c
  match s.headD 0 with
  | 0 => none
  | 10 => none
  | 124 => some (untilNul s, [])
  | _ => some (s.takeWhile isKeyByte, s.dropWhile isKeyByte)

/-- The `next_key` loop of `line_get_args`, on fuel. -/
def lineGetArgsAux : Nat → List UInt8 → List (List UInt8)
  | 0, _ => []
  | fuel + 1, s =>
    match nextKey s with
    | none => []
    | some (w, rest) => w :: lineGetArgsAux fuel rest

/-- `line_get_args`: the words of a line (each `next_key` consumes a byte at
least, so the length of the line bounds the loop). -/
def lineGetArgs (line : List UInt8) : List (List UInt8) :=
  lineGetArgsAux (line.length + 1) line

/-! ## Option attributes -/

/-- The decimal digits `%d` prints for a count. -/
def decimal (n : Nat) : List UInt8 :=
  bytesOf (toString n)

/-- The attribute loop of `cmdopt_parse` from attribute `i` on: the return code
and the messages printed. -/
def cmdoptParseLoop (opt : CmdOpt) : Nat → List OptAttr → Int × List (List UInt8)
  | _, [] => (0, [])
  | i, attr :: rest =>
    if 0 ≤ attr.index ∧ attr.index < opt.argv.length then
      let arg := opt.argv.getD attr.index.toNat []
      if attr.set arg < 0 then (-1, [bytesOf "invalid option " ++ arg ++ bytesOf ".\r\n"])
      else cmdoptParseLoop opt (i + 1) rest
    else
      match attr.key with
      | some key =>
        match hashtableGet opt.kpairs key with
        | none => cmdoptParseLoop opt (i + 1) rest
        | some value =>
          if attr.set value < 0 then
            (-1, [bytesOf "invalid keyword " ++ key ++ bytesOf ":" ++ value ++ bytesOf ".\r\n"])
          else cmdoptParseLoop opt (i + 1) rest
      | none =>
        let r := cmdoptParseLoop opt (i + 1) rest
        (r.1, (bytesOf "invalid attribute at " ++ decimal i ++ bytesOf "\n") :: r.2)

/-- `cmdopt_parse`: nothing to do without attributes, or without arguments and
keywords; else each attribute takes its `argv` entry or its keyword's value. -/
def cmdoptParse (opt : CmdOpt) (optattr : Option CmdOptAttr) : Int × List (List UInt8) :=
  match optattr with
  | none => (0, [])
  | some oa =>
    if hashtableCount opt.kpairs = 0 ∧ opt.argv.length = 0 then (0, [])
    else cmdoptParseLoop opt 0 oa.attrs

/-! ## The pipe -/

/-- What `cmd_execute` does with the output after `|`. -/
inductive PipeAction
  /-- `| include PATTERN`: `stream_flush_regexp` keeps the matching lines. -/
  | include (pattern : List UInt8)
  /-- Anything else: `cmd_pipe` runs it through `/bin/sh -c`. -/
  | shell (cmd : List UInt8)
deriving DecidableEq, Repr

/-- The pipe handling of `cmd_execute` on the text after the `|`: a first word
`include` followed by a pattern (blanks trimmed) filters, anything else is a
shell command. -/
def pipeAction (cmd : List UInt8) : PipeAction :=
  let p := cmd.dropWhile (· == 32)
  let key := p.takeWhile (· != 32)
  let next := ((p.dropWhile (· != 32)).dropWhile (· == 32)).reverse.dropWhile (· == 32) |>.reverse
  if key ≠ [] ∧ next ≠ [] ∧ key = bytesOf "include" then .include next else .shell cmd

/-! ## Execution -/

/-- What one `cmd_execute` does: its return code, the function it called with
the options it passed, the messages it printed, the pipe action, and the options
it leaves. -/
structure ExecResult where
  ret : Int
  call : Option (CmdFunc × CmdOpt)
  msgs : List (List UInt8)
  pipe : Option PipeAction
  opt : CmdOpt

/-- The message `cmd_execute` prints for a return code. -/
def execMessage (ret : Int) (line : List UInt8) : List (List UInt8) :=
  if ret = CMD_ERR_NO_MATCH then [bytesOf "% Unknown command - " ++ untilNul line ++ bytesOf ".\r\n"]
  else if ret = CMD_ERR_INCOMPLETE then [bytesOf "% Command incomplete.\r\n"]
  else []

/-- The outcome at the node the search reached: not found, no function, or the
attributes parsed and the function run. -/
def execNode (run : CmdFunc → CmdOpt → Int) (code : Int) (node : CmdNode) (opt : CmdOpt) :
    Int × Option (CmdFunc × CmdOpt) × List (List UInt8) :=
  if code ≠ 0 then (CMD_ERR_NO_MATCH, none, [])
  else
    match node.func with
    | none => (CMD_ERR_INCOMPLETE, none, [])
    | some f =>
      let r := cmdoptParse opt node.optattr
      if r.1 = 0 then (run f opt, some (f, opt), r.2) else (r.1, none, r.2)

/-- `cmd_execute`. The search starts with `*ret` at the root (C leaves it
unset; it is read only after a successful search). -/
def cmdExecute (run : CmdFunc → CmdOpt → Int) (tree : CmdNode) (line : List UInt8)
    (opt : CmdOpt) : ExecResult :=
  let words := lineGetArgs line
  if words.length = 0 then ⟨CMD_SUCCESS, none, [], none, opt⟩
  else
    let i := words.findIdx fun w => w.headD 0 == 124
    if i = 0 then
      ⟨CMD_ERR_NO_MATCH, none,
       [bytesOf "% Invalid command - " ++ untilNul line ++ bytesOf ".\r\n"], none, opt⟩
    else
      let r := cmdSearch tree.children ⟨tree, words.take i, opt.argv, some opt.kpairs⟩
      let opt' : CmdOpt := ⟨r.2.argv, r.2.kpairs.getD opt.kpairs⟩
      let e := execNode run r.1 r.2.ret opt'
      let pipe := if i < words.length ∧ e.1 = CMD_SUCCESS then
        some (pipeAction (words.getD i []).tail) else none
      ⟨e.1, e.2.1, e.2.2 ++ execMessage e.1 line, pipe, cmdoptClear opt'⟩

/-! ## The matcher is greedy

`find_best_node` takes the first token of the highest `match_type` among the
siblings, a literal equal to the word being the highest of all, and the
keyword loop of `cmd_search` takes every word that names an entry; neither
goes back. So a word is not read the way the definition it belongs to reads
it when a keyword group is followed by a literal that is also one of its
entries, or when another definition adds a literal beside the variable that
used to take the word. -/

/-- `cmd {a|b} a`: `cmd b a` is the group with `b` and then the literal `a`,
but the keyword loop takes `a` as an entry, and the search ends at `cmd`,
which has no function. -/
theorem keyword_entry_shadows_literal :
    let d : CmdElem := ⟨bytesOf "cmd {a|b} a", bytesOf "Cmd\nA\nB\nA\n", .command "f", none⟩
    let t := cmdAddElem (cmdTreeBuild []) d
    t.1 = 0 ∧
      (cmdoptCreate.map fun opt =>
        ((cmdExecute (fun _ _ => 0) t.2 (bytesOf "cmd b a") opt).ret,
          ((cmdExecute (fun _ _ => 0) t.2 (bytesOf "cmd b a") opt).call.map (·.1)))) =
        some (CMD_ERR_INCOMPLETE, none) := by
  decide

/-- `cmd X` alone runs its function on `cmd a`; with `cmd a b` beside it, the
literal `a` takes the word, and `cmd a` is incomplete. -/
theorem merged_literal_captures_variable :
    let d1 : CmdElem := ⟨bytesOf "cmd X", bytesOf "Cmd\nX\n", .command "f", none⟩
    let d2 : CmdElem := ⟨bytesOf "cmd a b", bytesOf "Cmd\nA\nB\n", .command "g", none⟩
    (cmdAddElem (cmdTreeBuild []) d1).1 = 0 ∧ (cmdAddElem (cmdTreeBuild [d1]) d2).1 = 0 ∧
      (cmdoptCreate.map fun opt =>
        (cmdExecute (fun _ _ => 0) (cmdTreeBuild [d1]) (bytesOf "cmd a") opt).call.map
          fun c => (c.1, c.2.argv)) = some (some (.command "f", [bytesOf "a"])) ∧
      (cmdoptCreate.map fun opt =>
        ((cmdExecute (fun _ _ => 0) (cmdTreeBuild [d1, d2]) (bytesOf "cmd a") opt).ret,
          (cmdExecute (fun _ _ => 0) (cmdTreeBuild [d1, d2]) (bytesOf "cmd a") opt).call.map (·.1))) =
        some (CMD_ERR_INCOMPLETE, none) := by
  decide

end Chaconne.Cli
