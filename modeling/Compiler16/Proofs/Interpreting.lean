import Compiler16.Proofs.Running
import Compiler16.Ssa.Lowering

/-!
# Running programs as they are written

What a function does when its statements run one after the other over a store of
variables, over any meaning of literals, operations and calls.  The operands of an
operator are evaluated from left to right, and always both.  A text stands for the number
of its array, which is the number of texts before it in the program.  Nothing is printed
or read, and a declaration without a first value does nothing.

Loops run for a bounded number of rounds, so that there is no result if the bound is too
small.

## Main definitions

* `Expr.texts`, `Stmt.texts`: the number of texts in a piece of a program
* `assignedBy`, `assignedByStmt`: the variables that are written there
* `evalExpr`, `exec`, `interpret`: running expressions, statements and functions
-/

namespace Compiler16.Source

/-! ## Texts -/

mutual

/-- The number of texts in an expression. -/
def Expr.texts : Expr → Nat
  | .string _ => 1
  | .binary _ lhs rhs => lhs.texts + rhs.texts
  | .unary _ operand => operand.texts
  | .call _ _ args => Expr.textsOf args
  | _ => 0

/-- The number of texts in the arguments of a call. -/
def Expr.textsOf : List Expr → Nat
  | [] => 0
  | arg :: args => arg.texts + Expr.textsOf args

end

/-- The first value of a variable, if the declaration gives it one. -/
def VarDecl.value? (d : VarDecl) : Option Expr := if d.isParameter then none else d.init

/-- The number of texts in the declaration of a variable. -/
def VarDecl.texts (d : VarDecl) : Nat :=
  match d.value? with
  | some init => init.texts
  | none => 0

mutual

/-- The number of texts in a statement that is run. -/
def Stmt.texts : Stmt → Nat
  | .compound body => Stmt.textsOf body
  | .declare d => d.texts
  | .ifThen cond body | .whileDo cond body => cond.texts + Stmt.textsOf body
  | .ret (some value) | .expr value => value.texts
  | .ret none | .print _ | .scan _ => 0

/-- The number of texts in statements. -/
def Stmt.textsOf : List Stmt → Nat
  | [] => 0
  | s :: rest => s.texts + Stmt.textsOf rest

end

/-- The number of texts in a declaration at the top of a program. -/
def Decl.texts : Decl → Nat
  | .function d => Stmt.textsOf d.body
  | .var d => d.texts

/-- The number of texts in declarations. -/
def Decl.textsOf : List Decl → Nat
  | [] => 0
  | d :: rest => d.texts + Decl.textsOf rest

theorem Decl.textsOf_append (p q : List Decl) :
    Decl.textsOf (p ++ q) = Decl.textsOf p + Decl.textsOf q := by
  induction p with
  | nil => simp [textsOf]
  | cons d p ih => rw [List.cons_append, textsOf, textsOf, ih, Nat.add_assoc]

end Compiler16.Source

namespace Compiler16.Ssa

open Compiler16.Source

/-- The variable that a node stands for. -/
def Context.symbol? (c : Context) (node : Nat) : Option Nat :=
  (c.symbols.resolve? node).map Prod.fst

/-! ## Variables that are written -/

section Assigned

variable (c : Context)

mutual

/-- The variables that an expression writes. -/
def assignedBy : Expr → List Nat
  | .binary op lhs rhs =>
    if op = .assignment then
      match lhs with
      | .ident node _ => (c.symbol? node).toList ++ assignedBy rhs
      | _ => []
    else assignedBy lhs ++ assignedBy rhs
  | .unary _ operand => assignedBy operand
  | .call _ _ args => assignedByArgs args
  | _ => []

/-- The variables that the arguments of a call write. -/
def assignedByArgs : List Expr → List Nat
  | [] => []
  | arg :: args => assignedBy arg ++ assignedByArgs args

end

/-- The variables that a declaration writes. -/
def assignedByVar (d : VarDecl) : List Nat :=
  match d.value? with
  | some init => (c.symbol? d.node).toList ++ assignedBy c init
  | none => []

mutual

/-- The variables that a statement writes. -/
def assignedByStmt : Stmt → List Nat
  | .compound body => assignedByBody body
  | .declare d => assignedByVar c d
  | .ifThen cond body | .whileDo cond body => assignedBy c cond ++ assignedByBody body
  | .ret (some value) | .expr value => assignedBy c value
  | .ret none | .print _ | .scan _ => []

/-- The variables that statements write. -/
def assignedByBody : List Stmt → List Nat
  | [] => []
  | s :: rest => assignedByStmt s ++ assignedByBody rest

end

end Assigned

/-! ## Running statements -/

/-- The variables and the world that calls are made in. -/
structure Memory (V W : Type) where
  store : Nat → V
  world : W

/-- How a statement ends. -/
inductive Outcome (V : Type) where
  | normal
  | returned (value : Option V)

/-- The value that a function returns if its statements end so. -/
def Outcome.value {V : Type} : Outcome V → Option V
  | normal => none
  | returned value => value

section Run

variable {V W : Type} (I : Interpretation V W) (c : Context)

mutual

/-- The value of an expression.  `slot` is the number of the first array that is free for
its texts. -/
def evalExpr : Expr → Nat → Memory V W → Option (V × Memory V W)
  | .bool b, _, μ => some (I.literal (if b then 1 else 0), μ)
  | .number n, _, μ => some (I.literal n, μ)
  | .string _, slot, μ => some (I.literal slot, μ)
  | .ident node _, _, μ => do
    let x ← c.symbol? node
    return (μ.store x, μ)
  | .binary op lhs rhs, slot, μ =>
    if op = .assignment then
      match lhs with
      | .ident node _ => do
        let x ← c.symbol? node
        let (v, μ) ← evalExpr rhs slot μ
        return (v, { μ with store := Function.update μ.store x v })
      | _ => none
    else do
      let op ← Lowering.binaryOp? op
      let (x, μ) ← evalExpr lhs slot μ
      let (y, μ) ← evalExpr rhs (slot + lhs.texts) μ
      return (I.operate op [x, y], μ)
  | .unary op operand, slot, μ => do
    let op ← Lowering.unaryOp? op
    let (x, μ) ← evalExpr operand slot μ
    return (I.operate op [x], μ)
  | .call _ callee args, slot, μ => do
    let (vs, μ) ← evalArgs args slot μ
    let (v, w) := I.call (some callee) vs μ.world
    return (v, { μ with world := w })

/-- The values of the arguments of a call. -/
def evalArgs : List Expr → Nat → Memory V W → Option (List V × Memory V W)
  | [], _, μ => some ([], μ)
  | arg :: args, slot, μ => do
    let (v, μ) ← evalExpr arg slot μ
    let (vs, μ) ← evalArgs args (slot + arg.texts) μ
    return (v :: vs, μ)

end

/-- The declaration of a variable. -/
def execVar (d : VarDecl) (slot : Nat) (μ : Memory V W) : Option (Memory V W) :=
  match d.value? with
  | some init => do
    let (v, μ) ← evalExpr I c init slot μ
    let x ← c.symbol? d.node
    return { μ with store := Function.update μ.store x v }
  | none => some μ

/-- Goes on after a statement that did not return. -/
def andThen (r : Option (Outcome V × Memory V W))
    (next : Memory V W → Option (Outcome V × Memory V W)) : Option (Outcome V × Memory V W) :=
  match r with
  | some (.normal, μ) => next μ
  | some (.returned v, μ) => some (.returned v, μ)
  | none => none

/-- A loop, for at most the given number of rounds. -/
def iterate (cond : Memory V W → Option (V × Memory V W))
    (body : Memory V W → Option (Outcome V × Memory V W)) :
    Nat → Memory V W → Option (Outcome V × Memory V W)
  | 0, _ => none
  | n + 1, μ => do
    let (v, μ) ← cond μ
    if I.isTrue v then andThen (body μ) (iterate cond body n) else some (.normal, μ)

mutual

/-- Runs a statement, with at most `n` rounds for every loop. -/
def exec (n : Nat) : Stmt → Nat → Memory V W → Option (Outcome V × Memory V W)
  | .compound body, slot, μ => execBody n body slot μ
  | .declare d, slot, μ => do
    let μ ← execVar I c d slot μ
    return (.normal, μ)
  | .ifThen cond body, slot, μ => do
    let (v, μ) ← evalExpr I c cond slot μ
    if I.isTrue v then execBody n body (slot + cond.texts) μ else some (.normal, μ)
  | .whileDo cond body, slot, μ =>
    iterate I (evalExpr I c cond slot) (execBody n body (slot + cond.texts)) n μ
  | .ret none, _, μ => some (.returned none, μ)
  | .ret (some value), slot, μ => do
    let (v, μ) ← evalExpr I c value slot μ
    return (.returned (some v), μ)
  | .print _, _, μ => some (.normal, μ)
  | .scan _, _, μ => some (.normal, μ)
  | .expr value, slot, μ => do
    let (_, μ) ← evalExpr I c value slot μ
    return (.normal, μ)

/-- Runs statements one after the other, until one of them returns. -/
def execBody (n : Nat) : List Stmt → Nat → Memory V W → Option (Outcome V × Memory V W)
  | [], _, μ => some (.normal, μ)
  | s :: rest, slot, μ => andThen (exec n s slot μ) (execBody n rest (slot + s.texts))

end

/-- The store in which the parameters have their values; where there are fewer values than
parameters, the rest is undefined. -/
def bindParams : List VarDecl → List V → (Nat → V) → Option (Nat → V)
  | [], _, σ => some σ
  | d :: params, values, σ => do
    let x ← c.symbol? d.node
    bindParams params values.tail (Function.update σ x (values.headD I.undefined))

/-- Runs a function over the store of the variables before it. -/
def interpret (d : FunctionDecl) (slot : Nat) (σ : Nat → V) (values : List V) (w : W) (n : Nat) :
    Option (Option V × W) := do
  let σ ← bindParams I c d.params values σ
  let (o, μ) ← execBody I c n d.body slot ⟨σ, w⟩
  return (o.value, μ.world)

end Run

end Compiler16.Ssa
