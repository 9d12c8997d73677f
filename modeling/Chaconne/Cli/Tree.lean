import Chaconne.CLib.CString
import Chaconne.CLib.CInt

/-!
# `cli-tree.c`: the command tree

The data model of the command engine. A definition (`struct cmd_elem`) is a
syntax line, a description with one help line per word, the command function
and an optional option-attribute table. `cmd_add_elem` parses the line into the
command tree, whose nodes (`struct cmd_node`) carry one token, or several for an
option `(a|b)`, a list of children and a list of keyword entries.

The C tree is linked: a node's `children` and `keyword` point to sibling chains
and each node points to its `parent`. Here the two chains are lists in sibling
order, and a node is named by its path from the root (`NodeStep`), which is
what the parser's `parent` and `save_parent` pointers hold; a node's C parent is
the node its path's prefix names.
-/

namespace Chaconne.Cli

open CLib

/-! ## Return codes (`cli-term.h`) -/

def CMD_SUCCESS : Int := 0
def CMD_ERR_NO_MATCH : Int := 2
def CMD_ERR_INCOMPLETE : Int := 4
def CMD_COMPLETE_FULL_MATCH : Int := 7
def CMD_COMPLETE_MATCH : Int := 8
def CMD_COMPLETE_LIST_MATCH : Int := 9

/-- `MAXARGC`: the capacity of `struct cmdopt`'s `argv`. -/
def MAXARGC : Nat := 64

/-! ## Tokens, nodes and definitions -/

/-- `enum token_type`. -/
inductive TokenType
  | literal
  | option
  | variable
  | vararg
deriving DecidableEq, Repr

/-- `struct token`: the key as written in the syntax line, its help line, and
its type. -/
structure Token where
  key : List UInt8
  desc : List UInt8
  type : TokenType
deriving DecidableEq, Repr

/-- `struct optattr`: where an argument goes (`index` into `argv`, or the
keyword `key`) and the return value of its `set` callback on a source string.
The destination buffer the callback writes is the command's own data. -/
structure OptAttr where
  index : Int
  key : Option (List UInt8)
  set : List UInt8 → Int

/-- `struct cmdoptattr`: the attribute table of a command. -/
structure CmdOptAttr where
  attrs : List OptAttr

/-- The command functions the engine calls: the three common commands of
`cli-tree.c`, and each function a `COMMAND` definition declares, named by its
symbol. -/
inductive CmdFunc
  | list_commands
  | quit_terminal
  | exit_terminal
  | command (name : String)
deriving DecidableEq, Repr

/-- `struct cmd_elem`: one command definition. -/
structure CmdElem where
  line : List UInt8
  desc : List UInt8
  func : CmdFunc
  optattr : Option CmdOptAttr

/-- `struct cmd_node`: its tokens, its children and keyword entries in sibling
order, and the function and attributes of the definition that ends here. -/
structure CmdNode where
  tokens : List Token
  children : List CmdNode
  keyword : List CmdNode
  optattr : Option CmdOptAttr
  func : Option CmdFunc

/-- The root `cmd_tree_build` starts from: `calloc`'d, no tokens. -/
def CmdNode.root : CmdNode := ⟨[], [], [], none, none⟩

/-- `cmd_node_new`: a node with the given tokens and nothing below it. -/
def cmdNodeNew (token : List Token) : CmdNode := ⟨token, [], [], none, none⟩

/-! ## Paths -/

/-- One link from a node: into its `i`-th child or its `i`-th keyword entry. -/
inductive NodeStep
  | child (i : Nat)
  | keyword (i : Nat)
deriving DecidableEq, Repr

/-- The node a path names. -/
def CmdNode.nodeAt? : CmdNode → List NodeStep → Option CmdNode
  | n, [] => some n
  | n, .child i :: p => n.children[i]?.bind fun c => c.nodeAt? p
  | n, .keyword i :: p => n.keyword[i]?.bind fun c => c.nodeAt? p

/-- Apply `f` to the node a path names (nothing changes when it names none). -/
def CmdNode.modifyAt (f : CmdNode → CmdNode) : List NodeStep → CmdNode → CmdNode
  | [], n => f n
  | .child i :: p, n => { n with children := n.children.modify i (CmdNode.modifyAt f p) }
  | .keyword i :: p, n => { n with keyword := n.keyword.modify i (CmdNode.modifyAt f p) }

/-- The children of the node a path names. -/
def CmdNode.childrenAt (t : CmdNode) (p : List NodeStep) : List CmdNode :=
  ((t.nodeAt? p).map (·.children)).getD []

/-- The keyword entries of the node a path names. -/
def CmdNode.keywordAt (t : CmdNode) (p : List NodeStep) : List CmdNode :=
  ((t.nodeAt? p).map (·.keyword)).getD []

@[simp] theorem CmdNode.nodeAt?_nil (n : CmdNode) : n.nodeAt? [] = some n := rfl

@[simp] theorem CmdNode.modifyAt_nil (f : CmdNode → CmdNode) (n : CmdNode) :
    n.modifyAt f [] = f n := rfl

theorem CmdNode.nodeAt?_append (n : CmdNode) (p q : List NodeStep) :
    n.nodeAt? (p ++ q) = (n.nodeAt? p).bind fun m => m.nodeAt? q := by
  induction p generalizing n with
  | nil => rfl
  | cons s p ih =>
    cases s with
    | child i =>
      simp only [List.cons_append, nodeAt?]
      cases n.children[i]? with
      | none => rfl
      | some c => exact ih c
    | keyword i =>
      simp only [List.cons_append, nodeAt?]
      cases n.keyword[i]? with
      | none => rfl
      | some c => exact ih c

/-! ## Keys -/

mutual
/-- Whether `p` holds of the key of every token in the tree. -/
def CmdNode.keysAll (p : List UInt8 → Bool) : CmdNode → Bool
  | ⟨tokens, children, keyword, _, _⟩ =>
    tokens.all (fun tok => p tok.key) && CmdNode.keysAllList p children &&
      CmdNode.keysAllList p keyword

/-- Whether `p` holds of the key of every token in each tree of a list. -/
def CmdNode.keysAllList (p : List UInt8 → Bool) : List CmdNode → Bool
  | [] => true
  | n :: ns => n.keysAll p && CmdNode.keysAllList p ns
end

theorem CmdNode.keysAllList_iff (p : List UInt8 → Bool) (ns : List CmdNode) :
    CmdNode.keysAllList p ns = true ↔ ∀ n ∈ ns, n.keysAll p = true := by
  induction ns with
  | nil => simp [keysAllList]
  | cons n ns ih => simp [keysAllList, ih]

theorem CmdNode.keysAll_iff (p : List UInt8 → Bool) (n : CmdNode) :
    n.keysAll p = true ↔ (∀ tok ∈ n.tokens, p tok.key = true) ∧
      (∀ c ∈ n.children, c.keysAll p = true) ∧ ∀ c ∈ n.keyword, c.keysAll p = true := by
  obtain ⟨tokens, children, keyword, _, _⟩ := n
  simp [keysAll, keysAllList_iff, and_assoc]

/-- What the check asks of the root's keys holds of the keys of every node a
path names. -/
theorem CmdNode.keysAll_nodeAt? {p : List UInt8 → Bool} {n m : CmdNode} (h : n.keysAll p = true)
    (q : List NodeStep) (hq : n.nodeAt? q = some m) : ∀ tok ∈ m.tokens, p tok.key = true := by
  -- induction on the path, the check passing from a node to the child it names
  induction q generalizing n with
  | nil =>
    cases hq
    exact ((keysAll_iff p _).mp h).1
  | cons s q ih =>
    have hn := (keysAll_iff p n).mp h
    cases s with
    | child i =>
      obtain ⟨c, hc, hq⟩ := Option.bind_eq_some_iff.mp hq
      exact ih (hn.2.1 c (List.mem_of_getElem? hc)) hq
    | keyword i =>
      obtain ⟨c, hc, hq⟩ := Option.bind_eq_some_iff.mp hq
      exact ih (hn.2.2 c (List.mem_of_getElem? hc)) hq

end Chaconne.Cli
