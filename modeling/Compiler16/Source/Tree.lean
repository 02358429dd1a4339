import Compiler16.Source.Operator

/-!
# Syntax trees

Programs after scope checking.  Every node that names something carries a
number, under which the symbol table knows what it stands for; the name itself
is only for reading.
-/

namespace Compiler16.Source

/-- An expression. -/
inductive Expr where
  | bool (value : Bool)
  | number (value : Int)
  | string (value : String)
  | ident (node : Nat) (name : String)
  /-- An operator between two operands; an assignment is one of them. -/
  | binary (op : Operator) (lhs rhs : Expr)
  | unary (op : Operator) (operand : Expr)
  | call (node : Nat) (callee : String) (args : List Expr)
  deriving Inhabited

/-- The declaration of a variable or a parameter. -/
structure VarDecl where
  /-- The node of the declaration. -/
  node : Nat
  /-- The name of the variable. -/
  name : String
  /-- Its first value. -/
  init : Option Expr
  /-- Whether it is a parameter. -/
  isParameter : Bool := false

/-- A statement. -/
inductive Stmt where
  | compound (body : List Stmt)
  | declare (decl : VarDecl)
  | ifThen (cond : Expr) (body : List Stmt)
  | whileDo (cond : Expr) (body : List Stmt)
  | ret (value : Option Expr)
  | print (value : Expr)
  | scan (target : Expr)
  | expr (value : Expr)
  deriving Inhabited

/-- The declaration of a function. -/
structure FunctionDecl where
  /-- The node of the declaration. -/
  node : Nat
  /-- The name of the function. -/
  name : String
  /-- Its parameters in order. -/
  params : List VarDecl
  /-- Its statements. -/
  body : List Stmt

/-- A declaration at the top of a program. -/
inductive Decl where
  | function (decl : FunctionDecl)
  | var (decl : VarDecl)

/-- A program: its declarations in order. -/
abbrev Program : Type := List Decl

end Compiler16.Source
