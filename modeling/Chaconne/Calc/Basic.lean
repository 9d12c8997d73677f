import Chaconne.CLib.Strtol

/-!
# `calc.y` and `calc.l`: the calculator

`calc_exp` scans its string with the rules of `calc.l` and parses it with the
grammar of `calc.y`, whose actions compute each `expr` when it is reduced: a
`NUMBER` is the value the scanner gave it (`strtol` for `[0-9]+`, `strtod` for
`[0-9]+\.[0-9]+`), and each operator calls `calc` on the values of its
operands, the left one reduced first. An `expr` is taken here as its
derivation tree (`Expr`); the scanner's other rules and the parser tables are
not modelled.

`struct number` holds a `long` or a `double`. An integer operation whose exact
result is not a `long`, and an integer division by zero, have no defined
result in C; `calc` stops there with the fault, as an `Except`.
-/

namespace Chaconne.Calc

open CLib

/-- `struct number`: the `type` and the member of the union it selects. -/
inductive Number
  | integer (ival : Int)
  | double (fval : Float)

/-- Why an integer operation of `calc` has no defined result. -/
inductive CalcFault
  | divideByZero
  | overflow
deriving DecidableEq, Repr

/-- A `long` result whose exact value is `v`: defined when `v` is a `long`. -/
def longResult (v : Int) : Except CalcFault Number :=
  if LONG_MIN ≤ v ∧ v ≤ LONG_MAX then .ok (.integer v) else .error .overflow

/-- `a.type == DOUBLE ? a.fval : a.ival`. -/
def Number.toDouble : Number → Float
  | .integer i => Float.ofInt i
  | .double f => f

/-- `a.ival / b.ival` on two `long`s: truncating toward zero, and no result for
a zero divisor. -/
def longDiv (x y : Int) : Except CalcFault Number :=
  if y = 0 then .error .divideByZero else longResult (x.tdiv y)

/-- The binary cases of `calc`: the `long` operation on two integers, else the
`double` operation on both operands converted. -/
def calcBinary (iop : Int → Int → Except CalcFault Number) (fop : Float → Float → Float)
    (a b : Number) : Except CalcFault Number :=
  match a, b with
  | .integer x, .integer y => iop x y
  | _, _ => .ok (.double (fop a.toDouble b.toDouble))

/-- `calc(op, opsize, a, b)`. -/
def «calc» (op : UInt8) (opsize : Nat) (a b : Number) : Except CalcFault Number :=
  if op = 45 ∧ opsize = 1 then
    match a with
    | .integer i => longResult (-i)
    | .double f => .ok (.double (-f))
  else if op = 43 then calcBinary (fun x y => longResult (x + y)) (· + ·) a b    -- '+'
  else if op = 45 then calcBinary (fun x y => longResult (x - y)) (· - ·) a b    -- '-'
  else if op = 42 then calcBinary (fun x y => longResult (x * y)) (· * ·) a b    -- '*'
  else if op = 47 then calcBinary longDiv (· / ·) a b                             -- '/'
  else .ok (.integer 0)

/-! ## The scanner's numbers -/

/-- The text of a `[0-9]+` match. -/
structure Digits where
  bytes : List UInt8
  nonempty : bytes ≠ []
  digit : ∀ d ∈ bytes, isdigit d = true

/-- `strtod(yytext, NULL)` on `[0-9]+\.[0-9]+`: the decimal `i.f` rounded to a
`double`. -/
def strtod (i f : Digits) : Float :=
  Float.ofScientific (decimalValue (i.bytes ++ f.bytes)) true f.bytes.length

/-! ## Expressions -/

/-- The four binary operators of `expr`. -/
inductive BinOp
  | plus
  | minus
  | times
  | divide
deriving DecidableEq, Repr

/-- The character the action passes to `calc`. -/
def BinOp.char : BinOp → UInt8
  | .plus => 43
  | .minus => 45
  | .times => 42
  | .divide => 47

/-- The derivation trees of `expr`. -/
inductive Expr
  /-- `NUMBER` from `[0-9]+`. -/
  | integer (ds : Digits)
  /-- `NUMBER` from `[0-9]+\.[0-9]+`. -/
  | decimal (i f : Digits)
  /-- `expr op expr`. -/
  | bin (op : BinOp) (a b : Expr)
  /-- `'(' expr ')'`. -/
  | paren (e : Expr)
  /-- `'-' expr %prec UMINUS`. -/
  | neg (e : Expr)

/-- The value the actions of `calc.y` give an `expr`. -/
def Expr.eval : Expr → Except CalcFault Number
  | .integer ds => .ok (.integer (strtol ds.bytes))
  | .decimal i f => .ok (.double (strtod i f))
  | .bin op a b => do «calc» op.char 2 (← a.eval) (← b.eval)
  | .paren e => e.eval
  | .neg e => do
    let v ← e.eval
    «calc» 45 1 v v

end Chaconne.Calc
