import Chaconne.Cli.Complete
import Chaconne.CLib.ByteArray
import Chaconne.CLib.Loop
import Chaconne.CLib.CInt

/-!
# `cli-term.c`: the terminal line editor

A terminal keeps the line being typed in a `struct buffer` (`buf[8192]`, the
cursor `cp`, the length `len` and the capacity `max`), a ring of the last
`TERM_MAXHIST` lines, and the state of an escape sequence. `term_read` takes
one input byte: an editing key changes the buffer and echoes to the output
stream what redraws the line; `?`, TAB and Enter print help, complete the last
word, or run the line, each followed by a new prompt.

The output stream is the list of bytes appended to it (`Stream.Fifo` shows a
stream is a byte queue; `stream_put` is taken to succeed here). What running a
line prints is the parameter `exec`: `cmd_execute`'s messages and the output of
the command it calls. Loops run on fuel: each round of a cursor loop moves
`cp` and each round of a kill loop removes a byte, so the distance to the end
they walk to is enough.
-/

namespace Chaconne.Cli

open CLib

/-- `TERM_MAXHIST`: the lines the history keeps. -/
def TERM_MAXHIST : Nat := 32

/-- `CTRL(c)`: the control code of a letter. -/
def CTRL (c : Char) : Int := c.toNat - 64

/-- `CTRL_DEL`. -/
def CTRL_DEL : Int := 0x7f

/-- `ESCAPE`. -/
def ESCAPE : Int := 0x1b

/-- `struct buffer`. -/
structure Buffer where
  buf : List UInt8
  cp : Nat
  len : Nat
  max : Nat

/-- `struct history`: the ring `buf` (`none` for `NULL`), the recall position
`cp` and the next free slot `index`. -/
structure History where
  buf : List (Option (List UInt8))
  cp : Nat
  index : Nat

/-- The escape states `term_read` enters (`TERM_LITERAL` is never set). -/
inductive Escape
  | normal
  | preEscape
  | escape
deriving DecidableEq

/-- `struct term`: the fields `term_read` uses. -/
structure Term where
  name : List UInt8
  tree : CmdNode
  input : Buffer
  out : List UInt8
  hist : History
  escape : Escape

/-- Append bytes to `term->out`. -/
def Term.emit (t : Term) (bytes : List UInt8) : Term :=
  { t with out := t.out ++ bytes }

/-! ## History -/

/-- `history_create`: every slot `NULL` (`calloc`). -/
def historyCreate : History := ⟨List.replicate TERM_MAXHIST none, 0, 0⟩

/-- `history_previous`: the line before the recall position, if any. -/
def historyPrevious (h : History) : Option (List UInt8) × History :=
  let tryIndex := if h.cp = 0 then TERM_MAXHIST - 1 else h.cp - 1
  if tryIndex = h.index then (none, h)
  else match h.buf.getD tryIndex none with
    | none => (none, h)
    | some line => (some line, { h with cp := tryIndex })

/-- `history_next`: the line after the recall position; the empty line on
reaching the free slot. -/
def historyNext (h : History) : Option (List UInt8) × History :=
  if h.cp = h.index then (none, h)
  else
    let tryIndex := if h.cp = TERM_MAXHIST - 1 then 0 else h.cp + 1
    if tryIndex = h.index then (some [], { h with cp := h.index })
    else match h.buf.getD tryIndex none with
      | none => (none, h)
      | some line => (some line, { h with cp := tryIndex })

/-- `history_add`: store a non-empty line unless it repeats the last one. -/
def historyAdd (h : History) (line : List UInt8) : History :=
  if line = [] then h
  else
    let prev := if h.index ≠ 0 then h.index - 1 else TERM_MAXHIST - 1
    let repeated : Bool := match h.buf.getD prev none with
      | some last => strcmp line last == 0
      | none => false
    if repeated then { h with cp := h.index }
    else
      let index := if h.index + 1 = TERM_MAXHIST then 0 else h.index + 1
      ⟨h.buf.set h.index (some line), index, index⟩

/-- What `history_print` prints for one slot: `"  %s\n"` for a line, nothing
for `NULL`. -/
def historyLine : Option (List UInt8) → List UInt8
  | some line => bytesOf "  " ++ line ++ bytesOf "\n"
  | none => []

/-- The loop of `history_print` from the slot `index`, for at most `fuel`
rounds. -/
def historyPrintLoop (h : History) : Nat → Nat → List UInt8
  | 0, _ => []
  | fuel + 1, index =>
    if index = h.index then []
    else if index = TERM_MAXHIST then historyPrintLoop h fuel 0
    else historyLine (h.buf.getD index none) ++ historyPrintLoop h fuel (index + 1)

/-- `history_print`: the slots from the one after `index` round to the one
before it. -/
def historyPrint (h : History) : List UInt8 :=
  historyPrintLoop h (TERM_MAXHIST + 1) (h.index + 1)

/-! ## Editing -/

/-- `term_prompt`: `"%s > "`. -/
def termPrompt (t : Term) : Term :=
  t.emit (t.name ++ bytesOf " > ")

/-- `term_backward_char`. -/
def termBackwardChar (t : Term) : Term :=
  if t.input.cp ≠ 0 then { t.emit [8] with input := { t.input with cp := t.input.cp - 1 } }
  else t

/-- `term_forward_char`. -/
def termForwardChar (t : Term) : Term :=
  if t.input.cp < t.input.len then
    { t.emit [t.input.buf.getD t.input.cp 0] with input := { t.input with cp := t.input.cp + 1 } }
  else t

/-- `term_delete_backward_char`: shift the rest down over `buf[cp - 1]`, then
redraw the rest, blank the old last cell and move back. -/
def termDeleteBackwardChar (t : Term) : Term :=
  let b := t.input
  if b.cp ≠ 0 then
    let buf := moveDown b.cp (b.len - b.cp) b.buf
    let cp := b.cp - 1
    let len := b.len - 1
    let buf := buf.set len 0
    let mv := len - cp
    { t.emit ([8] ++ (buf.drop cp).take mv ++ [32] ++ List.replicate (mv + 1) 8) with
      input := { b with buf, cp, len } }
  else t

/-- `term_delete_char`: shift the rest down over `buf[cp]`, then redraw. -/
def termDeleteChar (t : Term) : Term :=
  let b := t.input
  if b.cp < b.len then
    let buf := moveDown (b.cp + 1) (b.len - (b.cp + 1)) b.buf
    let len := b.len - 1
    let buf := buf.set len 0
    let mv := len - b.cp
    { t.emit ((buf.drop b.cp).take mv ++ [32] ++ List.replicate (mv + 1) 8) with
      input := { b with buf, len } }
  else t

/-- `term_self_insert`: shift the rest and its NUL up, store `c` at `cp`, echo
it and the rest, and move back over the rest. -/
def termSelfInsert (t : Term) (c : UInt8) : Term :=
  let b := t.input
  if b.len + 1 ≥ b.max then t
  else
    let buf := if b.cp < b.len then moveUp b.cp (b.len + 1) b.buf else b.buf
    let buf := buf.set b.cp c
    let cp := b.cp + 1
    let len := b.len + 1
    let buf := buf.set len 0
    let mv := len - cp
    { t.emit (c :: if mv ≠ 0 then (buf.drop cp).take mv ++ List.replicate mv 8 else []) with
      input := { b with buf, cp, len } }

/-- `term_execute`: run the line, keep it in the history, start an empty one. -/
def termExecute (exec : List UInt8 → List UInt8) (t : Term) : Term :=
  let t := t.emit (bytesOf "\r\n")
  let line := untilNul t.input.buf
  let t := t.emit (exec line)
  termPrompt { t with
    hist := historyAdd t.hist line
    input := { t.input with cp := 0, len := 0, buf := t.input.buf.set 0 0 } }

/-- `term_redraw_line`: echo the line, with the cursor at its end. -/
def termRedrawLine (t : Term) : Term :=
  { t.emit (t.input.buf.take t.input.len) with input := { t.input with cp := t.input.len } }

/-- `term_backward_pure_word`: back to the start of the word before the cursor. -/
def termBackwardPureWord (t : Term) : Term :=
  loopWhile (fun t => t.input.cp > 0 && t.input.buf.getD (t.input.cp - 1) 0 != 32)
    termBackwardChar t.input.cp t

/-- `term_insert_word_overwrite`: write `str` at the cursor, as much as fits,
and end the line after it. -/
def termInsertWordOverwrite (t : Term) (str : List UInt8) : Term :=
  let b := t.input
  let n := (untilNul str).length
  let n := if n > b.max - b.cp - 1 then b.max - b.cp - 1 else n
  let buf := memcpyAt b.buf b.cp (str.take n)
  let cp := b.cp + n
  { t.emit (str.take n) with input := { b with buf := buf.set cp 0, cp, len := cp } }

/-- `"%-*s"`: a string padded with spaces to a width. -/
def padRight (width : Nat) (s : List UInt8) : List UInt8 :=
  s ++ List.replicate (width - s.length) 32

/-- The key list `term_complete_command` prints: `"%-16s"` each, five to a
line. -/
def completeListing (keys : List (List UInt8)) : List UInt8 :=
  keys.zipIdx.flatMap fun (k, i) =>
    (if i ≠ 0 ∧ i % 5 = 0 then bytesOf "\r\n" else []) ++ padRight 16 (untilNul k)

/-- `term_complete_command`. -/
def termCompleteCommand (t : Term) : Term :=
  let t := t.emit (bytesOf "\r\n")
  let r := cmdComplete t.tree (untilNul t.input.buf)
  if r.ret = CMD_ERR_NO_MATCH then
    termRedrawLine (termPrompt (t.emit (bytesOf "% No matched command.\r\n")))
  else if r.ret = CMD_COMPLETE_FULL_MATCH then
    termSelfInsert (termInsertWordOverwrite (termBackwardPureWord (termRedrawLine (termPrompt t)))
      (r.keys.headD [])) 32
  else if r.ret = CMD_COMPLETE_MATCH then
    termInsertWordOverwrite (termBackwardPureWord (termRedrawLine (termPrompt t))) (r.keys.headD [])
  else if r.ret = CMD_COMPLETE_LIST_MATCH then
    termRedrawLine (termPrompt ((t.emit (completeListing (r.keys.take r.n))).emit (bytesOf "\r\n")))
  else termRedrawLine (termPrompt t)

/-- The help list `term_describe_command` prints: `"  %-*s  %s\r\n"` for each
key, padded to the longest. -/
def describeListing (keys descs : List (List UInt8)) : List UInt8 :=
  let width := (keys.map fun k => (untilNul k).length).foldl max 0
  (keys.zip descs).flatMap fun (k, d) =>
    bytesOf "  " ++ padRight width (untilNul k) ++ bytesOf "  " ++ untilNul d ++ bytesOf "\r\n"

/-- `term_describe_command`. -/
def termDescribeCommand (t : Term) : Term :=
  let r := cmdDescribe t.tree (untilNul t.input.buf)
  let t := t.emit (bytesOf "\r\n")
  let t :=
    if r.ret = CMD_ERR_NO_MATCH then t.emit (bytesOf "% No matched command.\n")
    else
      let t := if r.n ≠ 0 then t.emit (describeListing (r.keys.take r.n) (r.descs.take r.n)) else t
      if r.cr then t.emit (bytesOf "  <cr>\r\n") else t
  termRedrawLine (termPrompt t)

/-- `term_beginning_of_line`. -/
def termBeginningOfLine (t : Term) : Term :=
  loopWhile (fun t => t.input.cp != 0) termBackwardChar t.input.cp t

/-- `term_end_of_line`. -/
def termEndOfLine (t : Term) : Term :=
  loopWhile (fun t => decide (t.input.cp < t.input.len)) termForwardChar
    (t.input.len - t.input.cp) t

/-- `term_kill_line`: blank the rest of the line on screen, zero it in `buf`,
and end the line at the cursor. -/
def termKillLine (t : Term) : Term :=
  let b := t.input
  let len := b.len - b.cp
  if len = 0 then t
  else
    { t.emit (List.replicate len 32 ++ List.replicate len 8) with
      input := { b with buf := memcpyAt b.buf b.cp (List.replicate len 0), len := b.cp } }

/-- `term_kill_line_from_beginning`. -/
def termKillLineFromBeginning (t : Term) : Term :=
  termKillLine (termBeginningOfLine t)

/-- The cursor is after a byte that is (`space = true`) or is not a space. -/
def afterSpace (space : Bool) (t : Term) : Bool :=
  t.input.cp > 0 && (t.input.buf.getD (t.input.cp - 1) 0 == 32) == space

/-- The cursor is on a byte of the line that is (`space = true`) or is not a
space. -/
def onSpace (space : Bool) (t : Term) : Bool :=
  t.input.cp < t.input.len && (t.input.buf.getD t.input.cp 0 == 32) == space

/-- `term_backward_word`: back over spaces, then over the word. -/
def termBackwardWord (t : Term) : Term :=
  let t := loopWhile (afterSpace true) termBackwardChar t.input.cp t
  loopWhile (afterSpace false) termBackwardChar t.input.cp t

/-- `term_forward_word`: over spaces, then over the word. -/
def termForwardWord (t : Term) : Term :=
  let t := loopWhile (onSpace true) termForwardChar (t.input.len - t.input.cp) t
  loopWhile (onSpace false) termForwardChar (t.input.len - t.input.cp) t

/-- `term_backward_kill_word`: delete back over spaces, then over the word. -/
def termBackwardKillWord (t : Term) : Term :=
  let t := loopWhile (afterSpace true) termDeleteBackwardChar t.input.cp t
  loopWhile (afterSpace false) termDeleteBackwardChar t.input.cp t

/-- `term_forward_kill_word`: delete spaces at the cursor, then the word. -/
def termForwardKillWord (t : Term) : Term :=
  let t := loopWhile (onSpace true) termDeleteChar (t.input.len - t.input.cp) t
  loopWhile (onSpace false) termDeleteChar (t.input.len - t.input.cp) t

/-- `term_history_print`: replace the line by a history line. -/
def termHistoryPrint (t : Term) (line : List UInt8) : Term :=
  let t := termKillLineFromBeginning t
  let len := (untilNul line).length
  let buf := memcpyAt t.input.buf 0 (line.take len)
  termRedrawLine { t with input := { t.input with buf := buf.set len 0, cp := len, len } }

/-- `term_next_line`. -/
def termNextLine (t : Term) : Term :=
  match historyNext t.hist with
  | (none, h) => { t with hist := h }
  | (some line, h) => termHistoryPrint { t with hist := h } line

/-- `term_previous_line`. -/
def termPreviousLine (t : Term) : Term :=
  match historyPrevious t.hist with
  | (none, h) => { t with hist := h }
  | (some line, h) => termHistoryPrint { t with hist := h } line

/-! ## Input -/

/-- `term_read`: one input byte, as the `int` of a `char`. -/
def termRead (exec : List UInt8 → List UInt8) (t : Term) (c : Int) : Term :=
  match t.escape with
  | .escape =>
    let t :=
      if c = 65 then termPreviousLine t        -- 'A'
      else if c = 66 then termNextLine t       -- 'B'
      else if c = 67 then termForwardChar t    -- 'C'
      else if c = 68 then termBackwardChar t   -- 'D'
      else t
    { t with escape := .normal }
  | .preEscape =>
    if c = 98 then { termBackwardWord t with escape := .normal }            -- 'b'
    else if c = 102 then { termForwardWord t with escape := .normal }       -- 'f'
    else if c = 100 then { termForwardKillWord t with escape := .normal }   -- 'd'
    else if c = CTRL 'H' ∨ c = CTRL_DEL then { termBackwardKillWord t with escape := .normal }
    else if c = 91 then { t with escape := .escape }                        -- '['
    else { t with escape := .normal }
  | .normal =>
    if c = CTRL 'B' then termBackwardChar t
    else if c = CTRL 'F' then termForwardChar t
    else if c = CTRL 'H' ∨ c = CTRL_DEL then termDeleteBackwardChar t
    else if c = CTRL 'D' then termDeleteChar t
    else if c = CTRL 'A' then termBeginningOfLine t
    else if c = CTRL 'E' then termEndOfLine t
    else if c = CTRL 'N' then termNextLine t
    else if c = CTRL 'P' then termPreviousLine t
    else if c = CTRL 'U' then termKillLineFromBeginning t
    else if c = CTRL 'K' then termKillLine t
    else if c = CTRL 'W' then termForwardKillWord t
    else if c = ESCAPE then { t with escape := .preEscape }
    else if c = 63 then termDescribeCommand t                               -- '?'
    else if c = 9 then termCompleteCommand t                                -- '\t'
    else if c = 10 ∨ c = 13 then termExecute exec t                         -- '\n', '\r'
    else if 31 < c ∧ c < 127 then termSelfInsert t (UInt8.ofNat c.toNat)
    else t

/-- `term_create`: an empty buffer (`calloc`, `max = sizeof(buf)`), an empty
history, the help line and the first prompt. -/
def termCreate (name : List UInt8) (tree : CmdNode) : Term :=
  let name := if name = [] then bytesOf "Chaconne" else name
  { name, tree
    input := ⟨List.replicate 8192 0, 0, 0, 8192⟩
    out := bytesOf "\r\n? - help, TAB - completion, list - all commands\r\n\r\n" ++ name ++
      bytesOf " > "
    hist := historyCreate
    escape := .normal }

/-- The terminal after reading bytes, each as `term_handle_input` passes it. -/
def termFeed (exec : List UInt8 → List UInt8) (t : Term) (bytes : List UInt8) : Term :=
  bytes.foldl (fun t b => termRead exec t (signedChar b)) t

end Chaconne.Cli
