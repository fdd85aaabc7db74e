import SymbolicRegression.Error
import SymbolicRegression.Numeric.Binary64

/-!
Operators of programs: their names, arities and values.
-/

namespace SymbolicRegression

inductive Operator where
  | add
  | sub
  | mul
  | div
  | pow
  | min
  | max
  | cos
  | sin
  | exp
  | log
  | abs
  | neg
  | sqrt
deriving DecidableEq, Repr

namespace Operator

/-- Every operator, in the order in which they are listed to users. -/
def all : List Operator :=
  [add, sub, mul, div, pow, min, max, cos, sin, exp, log, abs, neg, sqrt]

def arity : Operator → Nat
  | add | sub | mul | div | pow | min | max => 2
  | cos | sin | exp | log | abs | neg | sqrt => 1

def name : Operator → String
  | add => "add"
  | sub => "sub"
  | mul => "mul"
  | div => "div"
  | pow => "pow"
  | min => "min"
  | max => "max"
  | cos => "cos"
  | sin => "sin"
  | exp => "exp"
  | log => "log"
  | abs => "abs"
  | neg => "neg"
  | sqrt => "sqrt"

/-- The operator of a name, in any case and with blanks around it; addition is also
called a sum. -/
def ofName? (s : String) : Option Operator :=
  let folded := Text.fold s
  if folded = "sum" then some add else all.find? fun op => op.name = folded

def parse (s : String) : Except Error Operator :=
  match ofName? s with
  | some op => .ok op
  | none => .error (.unknownFunction (Text.strip s))

/-- The value of an operator of two operands.  A quotient by zero is one. -/
def binary (op : Operator) (a b : Float) : Float :=
  match op with
  | add => a + b
  | sub => a - b
  | mul => a * b
  | div => if b == 0.0 then 1.0 else a / b
  | pow => a ^ b
  | min => Comparable.lesser a b
  | max => Comparable.greater a b
  | _ => a

/-- The value of an operator of one operand. -/
def unary (op : Operator) (a : Float) : Float :=
  match op with
  | cos => Float.cos a
  | sin => Float.sin a
  | exp => Float.exp a
  | log => Float.log a
  | abs => Float.abs a
  | neg => -a
  | sqrt => Float.sqrt a
  | _ => a

/-- The value at one operand each.  Operands past the arity are ignored. -/
def apply (op : Operator) (args : List Float) : Except Misuse Float :=
  match op.arity, args with
  | 1, a :: _ => .ok (op.unary a)
  | 1, [] => .error (.missingOperand 0)
  | _, a :: b :: _ => .ok (op.binary a b)
  | _, args => .error (.missingOperand args.length)

/-- The values at one column of operands each, as long as the shorter column. -/
def applyColumns (op : Operator) (args : List (List Float)) : Except Misuse (List Float) :=
  match op.arity, args with
  | 1, a :: _ => .ok (a.map op.unary)
  | 1, [] => .error (.missingOperand 0)
  | _, a :: b :: _ => .ok (List.zipWith op.binary a b)
  | _, args => .error (.missingOperand args.length)

end Operator

/-- The operators a program may be built from, at least one.  A repeated operator
is drawn more often. -/
structure FunctionSet where
  ops : List Operator
  ops_ne_nil : ops ≠ []

namespace FunctionSet

def ofList (ops : List Operator) : Except Error FunctionSet :=
  if h : ops = [] then misconfigured .emptyFunctionSet else .ok ⟨ops, h⟩

/-- The set written as names with commas between them.  Empty names are skipped and
repetitions dropped. -/
def parse (spec : String) : Except Error FunctionSet := do
  let names := ((spec.splitOn ",").map Text.strip).filter fun s => !s.isEmpty
  let ops ← names.mapM Operator.parse
  ofList ops.eraseDups

end FunctionSet

end SymbolicRegression
