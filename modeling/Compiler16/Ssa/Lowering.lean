import Compiler16.Source.Symbols
import Compiler16.Source.Tree
import Compiler16.Ssa.Reading

/-!
# Lowering of programs

A program is lowered declaration by declaration.  Outside of functions
instructions go among the global ones; a function is built block by block, and
its variables are read and written as `Builder.readVariable` and
`Builder.writeVariable` lay down.

* A condition branches from the end of its block to the body and to the exit; the
  end of the body goes on to the exit.
* A loop has its condition in a block of its own, the header, which is sealed
  only when the body leads back to it.
* What follows a return statement in the same list of statements goes into a new
  block without predecessors.
-/

namespace Compiler16.Ssa

open Compiler16.Source Compiler16.Ssa.Builder

/-- What a lowering is given besides the program. -/
structure Context where
  /-- What the nodes of the program stand for. -/
  symbols : SymbolTable
  /-- What the construction is free to choose. -/
  options : Options := {}

namespace Lowering

/-- The operation of an operator between two operands. -/
def binaryOp? : Operator → Option Op
  | .andBool | .andInt => some .and
  | .divide => some .div
  | .equal => some .eq
  | .greaterThan => some .gt
  | .leftShift => some .lshift
  | .lessThan => some .lt
  | .minus => some .sub
  | .modulo => some .mod
  | .mult => some .mul
  | .orBool | .orInt => some .or
  | .plus => some .add
  | .rightShift => some .rshift
  | .xor => some .xor
  | .assignment | .not | .negate => none

/-- The operation of an operator before one operand. -/
def unaryOp? : Operator → Option Op
  | .not => some .not
  | .negate | .minus => some .neg
  | _ => none

variable (c : Context)

/-- The symbol that a node stands for. -/
def symbolOf (role : NodeRole) (node : Nat) : Build Nat :=
  match c.symbols.resolve? node with
  | some (symbol, _) => pure symbol
  | none => fail (.unbound role node)

/-- Gives a variable a value in the current block.  A variable of the outermost
scope also takes it for the functions that follow, and so does every variable
outside of a function. -/
def assignVariable (symbol : Nat) (v : Value) : Build Unit := modify fun s =>
  match s.current with
  | some block =>
    { s with
      defs := s.defs.insert (symbol, block) v
      globalDefs := if c.symbols.isGlobal symbol then s.globalDefs.insert symbol v
        else s.globalDefs }
  | none => { s with globalDefs := s.globalDefs.insert symbol v }

/-- The value of a variable in the current block, or before all functions. -/
def readCurrent (symbol : Nat) : Build Value := do
  let s ← get
  match s.current with
  | some block => readVariable c.options symbol block
  | none => return s.globalValue symbol

/-- Adds an array of the text's bytes. -/
def internString (text : String) : Build Nat := modifyGet fun s =>
  let (slot, compiled) := s.compiled.insertArray text text.toUTF8.toList
  (slot, { s with compiled })

mutual

/-- Emits an expression; the result is its value. -/
def lowerExpr : Expr → Build Value
  | .bool b => do emit .mov [← freshLiteral (if b then 1 else 0)]
  | .number n => do emit .mov [← freshLiteral n]
  | .string text => do
    let slot ← internString text
    emit .mov [← freshLiteral slot]
  | .ident node _ => do
    let symbol ← symbolOf c .identifier node
    emit .mov [← readCurrent c symbol]
  | .binary op lhs rhs =>
    if op = .assignment then
      match lhs with
      | .ident node _ => do
        let symbol ← symbolOf c .identifier node
        let v ← lowerExpr rhs
        let copy ← emit .mov [v]
        assignVariable c symbol copy
        return copy
      | _ => fail .badTarget
    else
      match binaryOp? op with
      | some op => do
        let x ← lowerExpr lhs
        let y ← lowerExpr rhs
        emit op [x, y]
      | none => fail (.notBinary op)
  | .unary op operand =>
    match unaryOp? op with
    | some op => do emit op [← lowerExpr operand]
    | none => fail (.notUnary op)
  | .call node callee args => do
    let _ ← symbolOf c .call node
    emitCall callee (← lowerArgs args)

/-- Emits the arguments of a call; a variable is handed over as it is, without a
copy. -/
def lowerArgs : List Expr → Build (List Value)
  | [] => return []
  | arg :: args => do
    let v ← match arg with
      | .ident node _ => do readCurrent c (← symbolOf c .argument node)
      | _ => lowerExpr arg
    return v :: (← lowerArgs args)

end

/-- Lowers the declaration of a variable: without a first value, and for a
parameter, there is nothing to do. -/
def lowerVar (d : VarDecl) : Build Unit :=
  if d.isParameter then pure ()
  else
    match d.init with
    | none => pure ()
    | some init => do
      let v ← lowerExpr c init
      assignVariable c (← symbolOf c .declaration d.node) v

/-- Opens a new block if control has left the current one. -/
def ensureOpenBlock : Build Unit := do
  let current ← getCurrent
  if (← get).isTerminated current then
    let block ← createBlock
    sealBlock c.options block
    setCurrent block

/-- Opens a new block that control enters only from `source`. -/
def enterBlock (source : Nat) : Build Nat := do
  let block ← createBlock
  addEdge source block
  sealBlock c.options block
  setCurrent block
  return block

/-- Creates the block that control enters from `source` if `cond` is zero, and
branches there or to `body`. -/
def branchOn (source : Nat) (cond : Value) (body : Nat) : Build Nat := do
  let exit ← createBlock
  emitBranch source (some cond) [body, exit]
  addEdge source exit
  return exit

mutual

/-- Lowers a statement. -/
def lowerStmt (s : Stmt) : Build Unit := do
  ensureOpenBlock c
  match s with
  | .compound body => lowerBody body
  | .declare d => lowerVar c d
  | .ifThen cond body => do
    let v ← lowerExpr c cond
    let source ← getCurrent
    let thenBlock ← enterBlock c source
    lowerBody body
    let thenEnd ← getCurrent
    let exit ← branchOn source v thenBlock
    branchTo thenEnd exit
    sealBlock c.options exit
    setCurrent exit
  | .whileDo cond body => do
    let before ← getCurrent
    let header ← createBlock
    branchTo before header
    setCurrent header
    let v ← lowerExpr c cond
    let headerEnd ← getCurrent
    let bodyBlock ← enterBlock c headerEnd
    lowerBody body
    let bodyEnd ← getCurrent
    let exit ← branchOn headerEnd v bodyBlock
    branchTo bodyEnd header
    sealBlock c.options header
    sealBlock c.options exit
    setCurrent exit
  | .ret none => do let _ ← emit .ret []
  | .ret (some value) => do
    let v ← lowerExpr c value
    let _ ← emit .ret [v]
  | .print _ => pure ()
  | .scan _ => pure ()
  | .expr value => do let _ ← lowerExpr c value

/-- Lowers statements one after the other. -/
def lowerBody : List Stmt → Build Unit
  | [] => pure ()
  | s :: rest => do
    lowerStmt s
    lowerBody rest

end

/-- Gives a parameter an argument of its own. -/
def lowerParam (entry : Nat) (d : VarDecl) : Build Unit := do
  let symbol ← symbolOf c .parameter d.node
  let v := Value.argument (← freshId)
  changeBody fun body => .ok ((), body.addArgument v)
  writeVariable symbol entry v

/-- Begins a function and lowers its statements. -/
def buildFunction (d : FunctionDecl) : Build Unit := do
  let entry ← beginFunction d.name
  d.params.forM (lowerParam c entry)
  lowerBody c d.body

/-- Lowers the declaration of a function. -/
def lowerFunction (d : FunctionDecl) : Build Unit := do
  buildFunction c d
  endFunction

/-- Lowers a declaration at the top of a program. -/
def lowerDecl : Decl → Build Unit
  | .function d => lowerFunction c d
  | .var d => lowerVar c d

/-- Lowers a program from a clean state and hands over what it compiles to.  After
an error the state is that of the failure. -/
def run (p : Program) : Build CompiledUnit := do
  set ({} : Builder)
  p.forM (lowerDecl c)
  modifyGet fun s => (s.compiled, { s with compiled := {} })

end Lowering

/-- What a program compiles to. -/
def compile (c : Context) (p : Program) : Except Error CompiledUnit :=
  match Lowering.run c p {} with
  | .ok u _ => .ok u
  | .error e _ => .error e

end Compiler16.Ssa
