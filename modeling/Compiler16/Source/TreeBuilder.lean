import Compiler16.Source.Symbols
import Compiler16.Source.Tree

/-!
# Building trees

Trees whose nodes are bound as they are made: every node that names a symbol
takes the next free number, and it is written down which symbol it stands for.
The order in which nodes are made therefore fixes their numbers.  When the tree
is finished, the nodes are bound in the symbol table.
-/

namespace Compiler16.Source

/-- What has been declared and made so far. -/
structure TreeBuilder where
  /-- The next free number of a node. -/
  nextNode : Nat := 0
  /-- The symbols that have been declared. -/
  symbols : SymbolTable := {}
  /-- The nodes that have been made, each with the number of its symbol. -/
  bindings : List (Nat × Nat) := []

/-- A computation that makes nodes. -/
abbrev TreeM := StateM TreeBuilder

namespace TreeBuilder

/-- Declares a symbol. -/
def declare (s : Symbol) : TreeM Nat := modifyGet fun b =>
  let (symbol, symbols) := b.symbols.add s
  (symbol, { b with symbols })

/-- A new node that stands for the symbol. -/
def boundNode (symbol : Nat) : TreeM Nat := modifyGet fun b =>
  (b.nextNode,
    { b with nextNode := b.nextNode + 1, bindings := b.bindings ++ [(b.nextNode, symbol)] })

/-- The name of a symbol. -/
def symbolName (symbol : Nat) : TreeM String := do
  return (← get).symbols.nameOf symbol

/-- A use of a variable. -/
def ident (symbol : Nat) : TreeM Expr := do
  return .ident (← boundNode symbol) (← symbolName symbol)

/-- An assignment of a value that was made before. -/
def assign (symbol : Nat) (value : Expr) : TreeM Expr := do
  return .binary .assignment (← ident symbol) value

/-- A call with arguments that were made before. -/
def call (symbol : Nat) (args : List Expr) : TreeM Expr := do
  return .call (← boundNode symbol) (← symbolName symbol) args

/-- The declaration of a variable. -/
def var (symbol : Nat) (init : Option Expr) : TreeM VarDecl := do
  return { node := ← boundNode symbol, name := ← symbolName symbol, init }

/-- The declaration of a parameter. -/
def param (symbol : Nat) : TreeM VarDecl := do
  return { ← var symbol none with isParameter := true }

/-- The symbol of the function of this name, which is declared if there is none. -/
def functionSymbol (name : String) : TreeM Nat := do
  match (← get).symbols.findFunction? name with
  | some symbol => return symbol
  | none => declare (.ofFunction name)

/-- The declaration of a function. -/
def function (name : String) (params : List VarDecl) (body : List Stmt) : TreeM Decl := do
  let symbol ← functionSymbol name
  return .function { node := ← boundNode symbol, name, params, body }

/-- The program and the symbol table in which all nodes are bound. -/
def finish (b : TreeBuilder) (decls : List Decl) : Program × SymbolTable :=
  (decls, b.bindings.foldl (fun table binding => table.bind binding.1 binding.2) b.symbols)

end TreeBuilder

end Compiler16.Source
