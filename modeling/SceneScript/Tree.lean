import SceneScript.Number.Basic
import SceneScript.Position

/-! The tree of a script: expressions, statements and programs. Every expression and statement
remembers the place it was read from. -/

namespace SceneScript

/-- Operators before one operand. -/
inductive UnaryOp where
  | neg
  | not
deriving DecidableEq, Repr

/-- How an operator is written. -/
def UnaryOp.symbol : UnaryOp → String
  | .neg => "-"
  | .not => "not"

/-- Operators that look at their right operand only when the left one does not settle the result. -/
inductive LogicOp where
  | or
  | and
deriving DecidableEq, Repr

/-- Operators that compare two numbers. -/
inductive CompareOp where
  | eq
  | ne
  | lt
  | le
  | gt
  | ge
deriving DecidableEq, Repr

/-- Operators that make a number of two. -/
inductive ArithOp where
  | add
  | sub
  | mul
  | div
  | mod
deriving DecidableEq, Repr

/-- Operators between two operands. -/
inductive BinaryOp where
  | logic (op : LogicOp)
  | compare (op : CompareOp)
  | arith (op : ArithOp)
deriving DecidableEq, Repr

namespace BinaryOp

/-- Every operator, from the loosest to the tightest. -/
def all : List BinaryOp :=
  [.logic .or, .logic .and, .compare .eq, .compare .ne, .compare .lt, .compare .le, .compare .gt,
    .compare .ge, .arith .add, .arith .sub, .arith .mul, .arith .div, .arith .mod]

/-- How an operator is written. -/
def symbol : BinaryOp → String
  | .logic .or => "or"
  | .logic .and => "and"
  | .compare .eq => "=="
  | .compare .ne => "!="
  | .compare .lt => "<"
  | .compare .le => "<="
  | .compare .gt => ">"
  | .compare .ge => ">="
  | .arith .add => "+"
  | .arith .sub => "-"
  | .arith .mul => "*"
  | .arith .div => "/"
  | .arith .mod => "%"

/-- How tightly an operator binds. Operators of one level group from the left. -/
def precedence : BinaryOp → Nat
  | .logic .or => 1
  | .logic .and => 2
  | .compare _ => 3
  | .arith .add | .arith .sub => 4
  | .arith .mul | .arith .div | .arith .mod => 5

/-- Whether an operator is a word rather than a sign. -/
def isWord : BinaryOp → Bool
  | .logic _ => true
  | _ => false

end BinaryOp

/-- Expressions. Whole and fractional literals both hold a number. -/
inductive Expr where
  | int (pos : Pos) (value : Number)
  | float (pos : Pos) (value : Number)
  | str (pos : Pos) (value : String)
  | bool (pos : Pos) (value : Bool)
  | ident (pos : Pos) (name : String)
  | unary (pos : Pos) (op : UnaryOp) (operand : Expr)
  | binary (pos : Pos) (op : BinaryOp) (left right : Expr)
  | call (pos : Pos) (name : String) (args : List Expr)
deriving Inhabited, Repr

/-- The place of an expression. That of a binary expression is the place of its operator. -/
def Expr.pos : Expr → Pos
  | .int p _ | .float p _ | .str p _ | .bool p _ | .ident p _ | .unary p _ _ | .binary p _ _ _
  | .call p _ _ => p

/-- A parameter with the name of its type, which is not checked. -/
structure Param where
  name : String
  type : String
deriving DecidableEq, Repr, Inhabited

mutual

/-- Statements. -/
inductive Stmt where
  | expr (pos : Pos) (e : Expr)
  | var (pos : Pos) (name : String) (init : Expr)
  | let (pos : Pos) (name : String) (init : Expr)
  | assign (pos : Pos) (name : String) (value : Expr)
  | cond (pos : Pos) (test : Expr) (body : List Stmt) (rest : Alternative)
  | loop (pos : Pos) (name : String) (start stop : Expr) (body : List Stmt)
  | proc (pos : Pos) (name : String) (params : List Param) (body : List Stmt)
  | ret (pos : Pos) (value : Expr)
  | block (pos : Pos) (body : List Stmt)

/-- What follows the first branch of a conditional: further branches with tests of their own, and
at the end a branch without a test or nothing. -/
inductive Alternative where
  | none
  | otherwise (body : List Stmt)
  | elif (test : Expr) (body : List Stmt) (rest : Alternative)

end

instance : Inhabited Stmt := ⟨.block default []⟩

/-- The place of a statement. -/
def Stmt.pos : Stmt → Pos
  | .expr p _ | .var p _ _ | .let p _ _ | .assign p _ _ | .cond p _ _ _ | .loop p _ _ _ _
  | .proc p _ _ _ | .ret p _ | .block p _ => p

/-- Whether a statement is written with a block at its end, whose close also ends its line. -/
def Stmt.endsInBlock : Stmt → Bool
  | .cond .. | .loop .. | .proc .. => true
  | _ => false

/-- A program is a list of statements. -/
abbrev Program := List Stmt

end SceneScript
