import Compiler16.OrderedMap

/-!
# Symbols

The symbol table of a program: what the names stand for, and which node of the
tree stands for which symbol.  Symbols and nodes are known by numbers; the number
of a symbol is its place in the table.
-/

namespace Compiler16.Source

/-- What a symbol names. -/
inductive SymbolKind where
  | var
  | function
  deriving DecidableEq, Repr

/-- A named thing of the program. -/
structure Symbol where
  /-- Its name. -/
  name : String
  /-- The scope in which it is declared; zero is the outermost one. -/
  scope : Nat
  /-- What it is. -/
  kind : SymbolKind
  deriving DecidableEq, Repr

namespace Symbol

/-- A variable. -/
def ofVariable (name : String) (scope : Nat) : Symbol :=
  { name, scope, kind := .var }

/-- A function, which always belongs to the outermost scope. -/
def ofFunction (name : String) : Symbol := { name, scope := 0, kind := .function }

/-- Whether the symbol belongs to the outermost scope. -/
def isGlobal (s : Symbol) : Bool := s.scope == 0

end Symbol

/-- The text of a symbol's number. -/
def symbolText (id : Nat) : String := s!"sym{id}"

/-- All symbols, and the nodes that are bound to them. -/
structure SymbolTable where
  /-- The symbols by number. -/
  symbols : List Symbol := []
  /-- The number of the symbol that a node is bound to. -/
  bindings : OrderedMap Nat Nat := {}

namespace SymbolTable

/-- The number of symbols. -/
def size (t : SymbolTable) : Nat := t.symbols.length

/-- Adds a symbol, which takes the next free number. -/
def add (t : SymbolTable) (s : Symbol) : Nat × SymbolTable :=
  (t.size, { t with symbols := t.symbols ++ [s] })

/-- Binds a node to a symbol; an earlier binding of the node is lost.  The symbol
need not exist. -/
def bind (t : SymbolTable) (node symbol : Nat) : SymbolTable :=
  { t with bindings := t.bindings.insert node symbol }

/-- The symbol of this number. -/
def get? (t : SymbolTable) (symbol : Nat) : Option Symbol := t.symbols[symbol]?

/-- The symbol that a node is bound to, if it is bound and the symbol exists. -/
def resolve? (t : SymbolTable) (node : Nat) : Option (Nat × Symbol) := do
  let symbol ← t.bindings.get? node
  let s ← t.get? symbol
  return (symbol, s)

/-- The first function of this name. -/
def findFunction? (t : SymbolTable) (name : String) : Option Nat :=
  t.symbols.findIdx? fun s => s.kind = .function ∧ s.name = name

/-- The name of a symbol, empty if there is none. -/
def nameOf (t : SymbolTable) (symbol : Nat) : String :=
  match t.get? symbol with
  | some s => s.name
  | none => ""

/-- Whether the symbol exists and belongs to the outermost scope. -/
def isGlobal (t : SymbolTable) (symbol : Nat) : Bool :=
  (t.get? symbol).any Symbol.isGlobal

@[simp] theorem get?_bind (t : SymbolTable) (node symbol id : Nat) :
    (t.bind node symbol).get? id = t.get? id := rfl

theorem get?_add (t : SymbolTable) (s : Symbol) : (t.add s).2.get? (t.add s).1 = some s := by
  simp [add, get?, size]

theorem resolve?_bind (t : SymbolTable) (node symbol other : Nat) :
    (t.bind node symbol).resolve? other =
      if node = other then (t.get? symbol).map (symbol, ·) else t.resolve? other := by
  simp only [resolve?, bind, OrderedMap.get?_insert]
  split
  · cases h : t.get? symbol <;> simp_all [get?]
  · rfl

end SymbolTable

end Compiler16.Source
