import Compiler16.Proofs.Outcome
import Compiler16.Source.TreeBuilder
import Mathlib.Data.List.Forall2

/-!
# Trees whose nodes are bound

Symbols are declared and nodes are made in any order.  The nodes are bound only in the end, all at
once; but a symbol keeps its place, and no number is given to two nodes, so it makes no difference
if each node is bound as soon as it is made.  `TreeBuilder.table` is the table that comes from
binding the nodes made so far.  It only grows, and what a call makes stands in it for what the call
says.  A tree of such nodes can be lowered if its operators stand where they can.

## Main definitions

* `SymbolTable.Extends`: no symbol and no binding is lost
* `TreeBuilder.Call`, `TreeBuilder.Result`: calls of a builder and what they make
* `TreeBuilder.Returns`: the result of a call stands for what the call says
* `TreeBuilder.Makes`: the nodes that are made between two states of a builder
* `Decl.nodes`, `Decl.fits`: the nodes of a tree, and that its operators stand where they can

## Main results

* `TreeBuilder.makes_perform`, `TreeBuilder.makes_mapM_perform`: what a call and what calls make
* `wellFormed_of_fits`: bound nodes and operators in their places make a tree well formed
* `TreeBuilder.fullyBound`: the trees of a builder are bound, and they can be lowered
-/

namespace Compiler16.Source

/-! ## Tables that grow -/

namespace SymbolTable

variable {t t' t'' : SymbolTable}

/-- The node stands for the symbol, which is called by this name. -/
def Refers (t : SymbolTable) (node : Nat) (name : String) (symbol : Nat) : Prop :=
  ∃ s, t.resolve? node = some (symbol, s) ∧ s.name = name

/-- The symbol is the first function of this name. -/
def IsFirstFunction (t : SymbolTable) (name : String) (symbol : Nat) : Prop :=
  (∃ s, t.get? symbol = some s ∧ s.kind = .function ∧ s.name = name) ∧
    ∀ earlier < symbol, ∀ s, t.get? earlier = some s → ¬(s.kind = .function ∧ s.name = name)

theorem findFunction?_eq_some_iff {name : String} {symbol : Nat} :
    t.findFunction? name = some symbol ↔ t.IsFirstFunction name symbol := by
  unfold findFunction? IsFirstFunction get?
  rw [List.findIdx?_eq_some_iff_getElem]
  constructor
  · rintro ⟨hlt, hfound, hearlier⟩
    refine ⟨⟨_, List.getElem?_eq_getElem hlt, by simpa using hfound⟩, fun j hj s hs => ?_⟩
    obtain ⟨_, rfl⟩ := List.getElem?_eq_some_iff.mp hs
    simpa using hearlier j hj
  · rintro ⟨⟨s, hs, hfound⟩, hearlier⟩
    obtain ⟨hlt, rfl⟩ := List.getElem?_eq_some_iff.mp hs
    refine ⟨hlt, by simpa using hfound, fun j hj => ?_⟩
    simpa using hearlier j hj _ (List.getElem?_eq_getElem (hj.trans hlt))

/-- The symbols keep their places, and the nodes stand for what they stood for. -/
structure Extends (t t' : SymbolTable) : Prop where
  symbols : t.symbols <+: t'.symbols
  resolve? : ∀ node x, t.resolve? node = some x → t'.resolve? node = some x

namespace Extends

theorem refl (t : SymbolTable) : t.Extends t := ⟨List.prefix_refl _, fun _ _ h => h⟩

theorem trans (h : t.Extends t') (h' : t'.Extends t'') : t.Extends t'' :=
  ⟨h.symbols.trans h'.symbols, fun node x hx => h'.resolve? node x (h.resolve? node x hx)⟩

theorem get? (h : t.Extends t') {symbol : Nat} {s : Symbol} (hs : t.get? symbol = some s) :
    t'.get? symbol = some s := by
  obtain ⟨hlt, rfl⟩ := List.getElem?_eq_some_iff.mp hs
  exact List.prefix_iff_getElem?.mp h.symbols symbol hlt

theorem refers (h : t.Extends t') {node symbol : Nat} {name : String}
    (hnode : t.Refers node name symbol) : t'.Refers node name symbol := by
  obtain ⟨s, hs, hname⟩ := hnode
  exact ⟨s, h.resolve? node _ hs, hname⟩

theorem isFirstFunction (h : t.Extends t') {name : String} {symbol : Nat}
    (hs : t.IsFirstFunction name symbol) : t'.IsFirstFunction name symbol := by
  rw [← findFunction?_eq_some_iff] at hs ⊢
  obtain ⟨more, hmore⟩ := h.symbols
  unfold findFunction? at hs ⊢
  rw [← hmore, List.findIdx?_append, hs, Option.some_or]

/-- A new symbol takes a place that was free. -/
theorem add (t : SymbolTable) (s : Symbol) : t.Extends (t.add s).2 := by
  have hsymbols : t.symbols <+: (t.add s).2.symbols := List.prefix_append _ _
  refine ⟨hsymbols, fun node x hx => ?_⟩
  obtain ⟨symbol, hsymbol, hx⟩ := Option.bind_eq_some_iff.mp hx
  obtain ⟨s', hs', hx⟩ := Option.bind_eq_some_iff.mp hx
  obtain ⟨hlt, rfl⟩ := List.getElem?_eq_some_iff.mp hs'
  refine Option.bind_eq_some_iff.mpr ⟨symbol, hsymbol, ?_⟩
  exact Option.bind_eq_some_iff.mpr ⟨_, List.prefix_iff_getElem?.mp hsymbols symbol hlt, hx⟩

/-- A node is bound that was not bound before. -/
theorem bind {node : Nat} (h : t.bindings.get? node = none) (symbol : Nat) :
    t.Extends (t.bind node symbol) := by
  refine ⟨List.prefix_refl _, fun other x hx => ?_⟩
  -- a node that stands for something is bound, so its binding is not the one that changes
  have hne : node ≠ other := by
    rintro rfl
    simp [SymbolTable.resolve?, h] at hx
  rw [resolve?_bind, if_neg hne, hx]

end Extends

end SymbolTable

namespace TreeBuilder

variable {b b' b'' : TreeBuilder} {nodes nodes' : List Nat}

/-! ## Calls of a builder -/

/-- A call of a builder that declares a symbol or makes a node with a number. -/
inductive Call where
  | declare (s : Symbol)
  | ident (symbol : Nat)
  | assign (symbol : Nat) (value : Expr)
  | call (symbol : Nat) (args : List Expr)
  | var (symbol : Nat) (init : Option Expr)
  | param (symbol : Nat)
  | function (name : String) (params : List VarDecl) (body : List Stmt)

/-- What a call returns. -/
inductive Result where
  | symbol (id : Nat)
  | expr (e : Expr)
  | var (d : VarDecl)
  | decl (d : Decl)

/-- The call on a builder. -/
def Call.perform : Call → TreeM Result
  | .declare s => Result.symbol <$> TreeBuilder.declare s
  | .ident symbol => Result.expr <$> TreeBuilder.ident symbol
  | .assign symbol value => Result.expr <$> TreeBuilder.assign symbol value
  | .call symbol args => Result.expr <$> TreeBuilder.call symbol args
  | .var symbol init => Result.var <$> TreeBuilder.var symbol init
  | .param symbol => Result.var <$> TreeBuilder.param symbol
  | .function name params body => Result.decl <$> TreeBuilder.function name params body

/-- The symbol that a call is given. -/
def Call.symbol? : Call → Option Nat
  | .ident symbol | .assign symbol _ | .call symbol _ | .var symbol _ | .param symbol => some symbol
  | .declare _ | .function .. => none

/-- Every call is given a symbol that has been declared by then, such as the number that an earlier
declaration has returned. -/
def declaredFirst (b : TreeBuilder) : List Call → Bool
  | [] => true
  | c :: calls =>
    c.symbol?.all (· < b.symbols.size) && declaredFirst (c.perform.run b).2 calls

/-- The node that was made for the result; the nodes of its parts were made before. -/
def Result.node? : Result → Option Nat
  | .symbol _ => none
  | .expr (.ident node _) | .expr (.binary _ (.ident node _) _) | .expr (.call node _ _) =>
    some node
  | .expr _ => none
  | .var d => some d.node
  | .decl (.function d) => some d.node
  | .decl (.var d) => some d.node

/-- What a call returns is what it says, and the node stands for the symbol that the call was given.
The node of a function stands for the first function of its name. -/
inductive Returns (t : SymbolTable) : Call → Result → Prop
  | declare {s : Symbol} {id : Nat} (hid : t.get? id = some s) :
    Returns t (.declare s) (.symbol id)
  | ident {symbol node : Nat} {name : String} (hnode : t.Refers node name symbol) :
    Returns t (.ident symbol) (.expr (.ident node name))
  | assign {symbol node : Nat} {name : String} {value : Expr} (hnode : t.Refers node name symbol) :
    Returns t (.assign symbol value) (.expr (.binary .assignment (.ident node name) value))
  | call {symbol node : Nat} {name : String} {args : List Expr}
    (hnode : t.Refers node name symbol) :
    Returns t (.call symbol args) (.expr (.call node name args))
  | var {symbol node : Nat} {name : String} {init : Option Expr}
    (hnode : t.Refers node name symbol) :
    Returns t (.var symbol init) (.var { node, name, init, isParameter := false })
  | param {symbol node : Nat} {name : String} (hnode : t.Refers node name symbol) :
    Returns t (.param symbol) (.var { node, name, init := none, isParameter := true })
  | function {name : String} {params : List VarDecl} {body : List Stmt} {symbol node : Nat}
    (hfirst : t.IsFirstFunction name symbol) (hnode : t.Refers node name symbol) :
    Returns t (.function name params body) (.decl (.function { node, name, params, body }))

theorem Returns.mono {t t' : SymbolTable} {c : Call} {r : Result} (h : Returns t c r)
    (ht : t.Extends t') : Returns t' c r := by
  cases h with
  | declare hid => exact .declare (ht.get? hid)
  | ident hnode => exact .ident (ht.refers hnode)
  | assign hnode => exact .assign (ht.refers hnode)
  | call hnode => exact .call (ht.refers hnode)
  | var hnode => exact .var (ht.refers hnode)
  | param hnode => exact .param (ht.refers hnode)
  | function hfirst hnode => exact .function (ht.isFirstFunction hfirst) (ht.refers hnode)

/-- The node that is made for the result of a call is bound to a symbol. -/
theorem Returns.isSome_resolve? {t : SymbolTable} {c : Call} {r : Result} {node : Nat}
    (h : Returns t c r) (hr : r.node? = some node) : (t.resolve? node).isSome = true := by
  cases h with
  | declare hid => cases hr
  | ident hnode | assign hnode | call hnode | var hnode | param hnode | function _ hnode =>
    cases hr
    obtain ⟨s, hs, _⟩ := hnode
    rw [hs, Option.isSome_some]

theorem Returns.exists_of_mem {t : SymbolTable} {calls : List Call} {results : List Result}
    (h : List.Forall₂ (Returns t) calls results) {r : Result} (hr : r ∈ results) :
    ∃ c, Returns t c r := by
  induction h with
  | nil => cases hr
  | cons hc _ ih =>
    rcases List.mem_cons.mp hr with rfl | hr
    · exact ⟨_, hc⟩
    · exact ih hr

/-! ## The table of the nodes made so far -/

/-- The table in which all nodes made so far are bound. -/
def table (b : TreeBuilder) : SymbolTable := (b.finish []).2

theorem foldl_bind_add (bindings : List (Nat × Nat)) (t : SymbolTable) (s : Symbol) :
    bindings.foldl (fun table binding => table.bind binding.1 binding.2) (t.add s).2 =
      ((bindings.foldl (fun table binding => table.bind binding.1 binding.2) t).add s).2 := by
  -- symbols and bindings are different parts of a table
  induction bindings generalizing t with
  | nil => rfl
  | cons binding bindings ih => exact ih (t.bind binding.1 binding.2)

/-- It makes no difference whether a symbol is declared before or after the nodes are bound. -/
theorem table_declare (b : TreeBuilder) (s : Symbol) :
    ((declare s).run b).2.table = (b.table.add s).2 := foldl_bind_add b.bindings b.symbols s

theorem table_boundNode (b : TreeBuilder) (symbol : Nat) :
    ((boundNode symbol).run b).2.table = b.table.bind b.nextNode symbol := by
  unfold table finish
  exact List.foldl_append

theorem symbols_foldl_bind (bindings : List (Nat × Nat)) (t : SymbolTable) :
    (bindings.foldl (fun table binding => table.bind binding.1 binding.2) t).symbols =
      t.symbols := by
  induction bindings generalizing t with
  | nil => rfl
  | cons binding bindings ih => exact ih (t.bind binding.1 binding.2)

theorem symbols_table (b : TreeBuilder) : b.table.symbols = b.symbols.symbols :=
  symbols_foldl_bind b.bindings b.symbols

theorem get?_table (b : TreeBuilder) (symbol : Nat) :
    b.table.get? symbol = b.symbols.get? symbol := by
  rw [SymbolTable.get?, symbols_table, ← SymbolTable.get?]

theorem findFunction?_table (b : TreeBuilder) (name : String) :
    b.table.findFunction? name = b.symbols.findFunction? name := by
  rw [SymbolTable.findFunction?, symbols_table, ← SymbolTable.findFunction?]

/-- The nodes made so far have the numbers below the next one, in order, and no other is bound. -/
structure Orderly (b : TreeBuilder) : Prop where
  nodes : b.bindings.map Prod.fst = List.range b.nextNode
  unbound : ∀ node, b.nextNode ≤ node → b.table.bindings.get? node = none

theorem Orderly.empty : ({} : TreeBuilder).Orderly := ⟨rfl, fun _ _ => rfl⟩

/-- These nodes are made between two states of a builder, and nothing is lost. -/
structure Makes (b : TreeBuilder) (nodes : List Nat) (b' : TreeBuilder) : Prop where
  orderly : b'.Orderly
  extends_table : b.table.Extends b'.table
  nodes : b'.bindings.map Prod.fst = b.bindings.map Prod.fst ++ nodes

namespace Makes

theorem refl (h : b.Orderly) : b.Makes [] b := ⟨h, .refl _, (List.append_nil _).symm⟩

theorem trans (h : b.Makes nodes b') (h' : b'.Makes nodes' b'') :
    b.Makes (nodes ++ nodes') b'' :=
  ⟨h'.orderly, h.extends_table.trans h'.extends_table, by
    rw [h'.nodes, h.nodes, List.append_assoc]⟩

theorem declare (h : b.Orderly) (s : Symbol) : b.Makes [] ((declare s).run b).2 where
  orderly := by
    refine ⟨h.nodes, fun node hnode => ?_⟩
    rw [table_declare]
    exact h.unbound node hnode
  extends_table := by
    rw [table_declare]
    exact .add b.table s
  nodes := (List.append_nil _).symm

theorem boundNode (h : b.Orderly) (symbol : Nat) :
    b.Makes [b.nextNode] ((boundNode symbol).run b).2 where
  orderly := by
    constructor
    · show (b.bindings ++ [(b.nextNode, symbol)]).map Prod.fst = List.range (b.nextNode + 1)
      rw [List.map_append, h.nodes, List.range_succ]
      rfl
    · intro node (hnode : b.nextNode + 1 ≤ node)
      rw [table_boundNode, SymbolTable.bind, OrderedMap.get?_insert, if_neg (by omega)]
      exact h.unbound node (by omega)
  extends_table := by
    rw [table_boundNode]
    exact .bind (h.unbound b.nextNode le_rfl) symbol
  nodes := List.map_append

end Makes

/-- The node stands for the symbol as soon as it is made. -/
theorem refers_boundNode {symbol : Nat} {s : Symbol} (hs : b.table.get? symbol = some s) :
    ((boundNode symbol).run b).2.table.Refers b.nextNode s.name symbol := by
  refine ⟨s, ?_, rfl⟩
  rw [table_boundNode, SymbolTable.resolve?_bind, if_pos rfl, hs, Option.map_some]

/-- The function of a name is there afterwards, whether it was declared before or not. -/
theorem makes_functionSymbol (h : b.Orderly) (name : String) :
    b.Makes [] ((functionSymbol name).run b).2 ∧
      ((functionSymbol name).run b).2.table.IsFirstFunction name
        ((functionSymbol name).run b).1 := by
  rw [← SymbolTable.findFunction?_eq_some_iff]
  cases hfind : b.symbols.findFunction? name with
  | some symbol =>
    have hrun : (functionSymbol name).run b = (symbol, b) := by
      simp only [functionSymbol, StateT.run_bind, StateT.run_get, pure_bind, hfind]
      rfl
    rw [hrun, findFunction?_table]
    exact ⟨.refl h, hfind⟩
  | none =>
    have hrun : (functionSymbol name).run b = (declare (.ofFunction name)).run b := by
      simp [functionSymbol, hfind]
    rw [hrun, findFunction?_table]
    refine ⟨.declare h _, ?_⟩
    show (b.symbols.symbols ++ [Symbol.ofFunction name]).findIdx? _ = some b.symbols.size
    unfold SymbolTable.findFunction? at hfind
    rw [List.findIdx?_append, hfind]
    simp [Symbol.ofFunction, SymbolTable.size]

/-! ## What calls make -/

/-- **What a call makes.** -/
theorem makes_perform (h : b.Orderly) {c : Call}
    (hc : c.symbol?.all (· < b.symbols.size) = true) :
    b.Makes (c.perform.run b).1.node?.toList (c.perform.run b).2 ∧
      Returns (c.perform.run b).2.table c (c.perform.run b).1 := by
  -- a call with a symbol makes one node, which has the name of the symbol
  have hsymbol : ∀ symbol, c.symbol? = some symbol →
      ((boundNode symbol).run b).2.table.Refers b.nextNode (b.symbols.nameOf symbol) symbol := by
    intro symbol hsome
    rw [hsome] at hc
    have hlt : symbol < b.symbols.size := of_decide_eq_true hc
    have hget : b.symbols.get? symbol = some b.symbols.symbols[symbol] :=
      List.getElem?_eq_getElem hlt
    have hname : b.symbols.nameOf symbol = b.symbols.symbols[symbol].name := by
      rw [SymbolTable.nameOf, hget]
    rw [hname]
    exact refers_boundNode ((get?_table b symbol).trans hget)
  cases c with
  | declare s =>
    refine ⟨.declare h s, .declare ?_⟩
    show ((TreeBuilder.declare s).run b).2.table.get? b.symbols.size = some s
    rw [table_declare, SymbolTable.size, ← symbols_table]
    exact b.table.get?_add s
  | ident symbol => exact ⟨.boundNode h symbol, .ident (hsymbol symbol rfl)⟩
  | assign symbol value => exact ⟨.boundNode h symbol, .assign (hsymbol symbol rfl)⟩
  | call symbol args => exact ⟨.boundNode h symbol, .call (hsymbol symbol rfl)⟩
  | var symbol init => exact ⟨.boundNode h symbol, .var (hsymbol symbol rfl)⟩
  | param symbol => exact ⟨.boundNode h symbol, .param (hsymbol symbol rfl)⟩
  | function name params body =>
    obtain ⟨hmakes, hfirst⟩ := makes_functionSymbol h name
    obtain ⟨s, hs, _, hname⟩ := hfirst.1
    have hbound := Makes.boundNode hmakes.orderly ((functionSymbol name).run b).1
    refine ⟨hmakes.trans hbound, .function (hbound.extends_table.isFirstFunction hfirst) ?_⟩
    have hnode := refers_boundNode hs
    rwa [hname] at hnode

/-- **What calls make.**  The results are read in the table of the end, which holds all that was in
the tables on the way. -/
theorem makes_mapM_perform {calls : List Call} (h : b.Orderly)
    (hcalls : b.declaredFirst calls = true) :
    b.Makes (((calls.mapM Call.perform).run b).1.filterMap Result.node?)
        ((calls.mapM Call.perform).run b).2 ∧
      List.Forall₂ (Returns ((calls.mapM Call.perform).run b).2.table) calls
        ((calls.mapM Call.perform).run b).1 := by
  -- by the calls, from any state in which the nodes are in order
  induction calls generalizing b with
  | nil => exact ⟨.refl h, .nil⟩
  | cons c calls ih =>
    rw [declaredFirst, Bool.and_eq_true] at hcalls
    obtain ⟨hmakes, hreturns⟩ := makes_perform h hcalls.1
    obtain ⟨hrest, hall⟩ := ih hmakes.orderly hcalls.2
    have hrun : ((c :: calls).mapM Call.perform).run b =
        ((c.perform.run b).1 :: ((calls.mapM Call.perform).run (c.perform.run b).2).1,
          ((calls.mapM Call.perform).run (c.perform.run b).2).2) := by
      rw [List.mapM_cons]
      rfl
    rw [hrun]
    constructor
    · have hnodes := hmakes.trans hrest
      rw [List.filterMap_cons]
      cases hnode : (c.perform.run b).1.node? with
      | none => rwa [hnode] at hnodes
      | some node => rwa [hnode] at hnodes
    · exact .cons (hreturns.mono hrest.extends_table) hall

end TreeBuilder

/-! ## Trees that can be lowered -/

/-- The operator can stand between two operands. -/
def Operator.isBinary (op : Operator) : Bool := op ≠ .not && op ≠ .negate

/-- The operator can stand before an operand. -/
def Operator.isUnary (op : Operator) : Bool := op = .not || op = .negate || op = .minus

/-- The expression is an identifier. -/
def Expr.isIdent : Expr → Bool
  | .ident .. => true
  | _ => false

mutual

/-- The nodes of an expression that have a number. -/
def Expr.nodes : Expr → List Nat
  | .bool _ | .number _ | .string _ => []
  | .ident node _ => [node]
  | .binary _ lhs rhs => lhs.nodes ++ rhs.nodes
  | .unary _ operand => operand.nodes
  | .call node _ args => node :: Expr.nodesOf args

/-- The nodes of the arguments of a call. -/
def Expr.nodesOf : List Expr → List Nat
  | [] => []
  | arg :: args => arg.nodes ++ Expr.nodesOf args

end

mutual

/-- The operators of an expression stand where they can, and assignments go to identifiers. -/
def Expr.fits : Expr → Bool
  | .bool _ | .number _ | .string _ | .ident .. => true
  | .binary op lhs rhs =>
    op.isBinary && (op ≠ .assignment || lhs.isIdent) && lhs.fits && rhs.fits
  | .unary op operand => op.isUnary && operand.fits
  | .call _ _ args => Expr.allFit args

/-- The same for the arguments of a call. -/
def Expr.allFit : List Expr → Bool
  | [] => true
  | arg :: args => arg.fits && Expr.allFit args

end

/-- The nodes of the declaration of a variable. -/
def VarDecl.nodes (d : VarDecl) : List Nat :=
  d.node ::
    match d.init with
    | none => []
    | some init => init.nodes

/-- The operators in the first value of a variable stand where they can. -/
def VarDecl.fits (d : VarDecl) : Bool := d.init.all Expr.fits

mutual

/-- The nodes of a statement that have a number. -/
def Stmt.nodes : Stmt → List Nat
  | .compound body => Stmt.nodesOf body
  | .declare d => d.nodes
  | .ifThen cond body | .whileDo cond body => cond.nodes ++ Stmt.nodesOf body
  | .ret none => []
  | .ret (some value) | .print value | .scan value | .expr value => value.nodes

/-- The nodes of statements. -/
def Stmt.nodesOf : List Stmt → List Nat
  | [] => []
  | s :: rest => s.nodes ++ Stmt.nodesOf rest

end

mutual

/-- The operators of a statement stand where they can, and assignments go to identifiers. -/
def Stmt.fits : Stmt → Bool
  | .compound body => Stmt.allFit body
  | .declare d => d.fits
  | .ifThen cond body | .whileDo cond body => cond.fits && Stmt.allFit body
  | .ret none => true
  | .ret (some value) | .print value | .scan value | .expr value => value.fits

/-- The same for statements. -/
def Stmt.allFit : List Stmt → Bool
  | [] => true
  | s :: rest => s.fits && Stmt.allFit rest

end

/-- The nodes of a declaration at the top of a program. -/
def Decl.nodes : Decl → List Nat
  | .function d => d.node :: (d.params.flatMap VarDecl.nodes ++ Stmt.nodesOf d.body)
  | .var d => d.nodes

/-- The operators of a declaration stand where they can, and assignments go to identifiers. -/
def Decl.fits : Decl → Bool
  | .function d => d.params.all VarDecl.fits && Stmt.allFit d.body
  | .var d => d.fits

end Compiler16.Source

namespace Compiler16.Ssa

open Compiler16.Source Compiler16.Ssa.Builder

section

variable {c : Context}

mutual

theorem wellFormedExpr_of_fits : ∀ e : Expr, (∀ node ∈ e.nodes, c.binds node = true) →
    e.fits = true → wellFormedExpr c e = true
  | .bool _, _, _ | .number _, _, _ | .string _, _, _ => by rw [wellFormedExpr]
  | .ident node _, hnodes, _ => by
    rw [wellFormedExpr]
    exact hnodes node (List.mem_singleton_self node)
  | .binary op lhs rhs, hnodes, hfits => by
    rw [Expr.fits, Bool.and_eq_true, Bool.and_eq_true, Bool.and_eq_true] at hfits
    obtain ⟨⟨⟨hop, htarget⟩, hlhs⟩, hrhs⟩ := hfits
    rw [Expr.nodes, List.forall_mem_append] at hnodes
    have hl := wellFormedExpr_of_fits lhs hnodes.1 hlhs
    have hr := wellFormedExpr_of_fits rhs hnodes.2 hrhs
    unfold wellFormedExpr
    by_cases hassign : op = .assignment
    · -- the target is not read, but the identifier has to be bound all the same
      subst hassign
      cases lhs with
      | ident node name =>
        rw [wellFormedExpr] at hl
        rw [if_pos rfl]
        simp only [hl, hr, Bool.and_true]
      | _ => cases htarget
    · rw [if_neg hassign, hl, hr, Bool.and_true, Bool.and_true]
      exact hop
  | .unary op operand, hnodes, hfits => by
    rw [Expr.fits, Bool.and_eq_true] at hfits
    rw [Expr.nodes] at hnodes
    rw [wellFormedExpr, wellFormedExpr_of_fits operand hnodes hfits.2, Bool.and_true]
    exact hfits.1
  | .call node _ args, hnodes, hfits => by
    rw [Expr.nodes, List.forall_mem_cons] at hnodes
    rw [Expr.fits] at hfits
    rw [wellFormedExpr, hnodes.1, wellFormedArgs_of_fits args hnodes.2 hfits, Bool.and_true]

theorem wellFormedArgs_of_fits : ∀ args : List Expr,
    (∀ node ∈ Expr.nodesOf args, c.binds node = true) → Expr.allFit args = true →
    wellFormedArgs c args = true
  | [], _, _ => by rw [wellFormedArgs]
  | arg :: args, hnodes, hfits => by
    rw [Expr.nodesOf, List.forall_mem_append] at hnodes
    rw [Expr.allFit, Bool.and_eq_true] at hfits
    rw [wellFormedArgs, wellFormedExpr_of_fits arg hnodes.1 hfits.1,
      wellFormedArgs_of_fits args hnodes.2 hfits.2, Bool.and_true]

end

theorem wellFormedVar_of_fits {d : VarDecl} (hnodes : ∀ node ∈ d.nodes, c.binds node = true)
    (hfits : d.fits = true) : wellFormedVar c d = true := by
  rw [VarDecl.nodes, List.forall_mem_cons] at hnodes
  rw [VarDecl.fits] at hfits
  rw [wellFormedVar, Bool.or_eq_true]
  -- what is enough for a variable is enough for a parameter
  right
  cases hinit : d.init with
  | none => rfl
  | some init =>
    simp only [hinit] at hnodes hfits ⊢
    rw [wellFormedExpr_of_fits init hnodes.2 hfits, hnodes.1, Bool.and_true]

mutual

theorem wellFormedStmt_of_fits : ∀ s : Stmt, (∀ node ∈ s.nodes, c.binds node = true) →
    s.fits = true → wellFormedStmt c s = true
  | .compound body, hnodes, hfits => by
    rw [Stmt.nodes] at hnodes
    rw [Stmt.fits] at hfits
    rw [wellFormedStmt, wellFormedBody_of_fits body hnodes hfits]
  | .declare d, hnodes, hfits => by
    rw [Stmt.nodes] at hnodes
    rw [Stmt.fits] at hfits
    rw [wellFormedStmt, wellFormedVar_of_fits hnodes hfits]
  | .ifThen cond body, hnodes, hfits | .whileDo cond body, hnodes, hfits => by
    rw [Stmt.nodes, List.forall_mem_append] at hnodes
    rw [Stmt.fits, Bool.and_eq_true] at hfits
    rw [wellFormedStmt, wellFormedExpr_of_fits cond hnodes.1 hfits.1,
      wellFormedBody_of_fits body hnodes.2 hfits.2, Bool.and_true]
  | .ret none, _, _ | .print _, _, _ | .scan _, _, _ => by rw [wellFormedStmt]
  | .ret (some value), hnodes, hfits | .expr value, hnodes, hfits => by
    rw [Stmt.nodes] at hnodes
    rw [Stmt.fits] at hfits
    rw [wellFormedStmt, wellFormedExpr_of_fits value hnodes hfits]

theorem wellFormedBody_of_fits : ∀ body : List Stmt,
    (∀ node ∈ Stmt.nodesOf body, c.binds node = true) → Stmt.allFit body = true →
    wellFormedBody c body = true
  | [], _, _ => by rw [wellFormedBody]
  | s :: rest, hnodes, hfits => by
    rw [Stmt.nodesOf, List.forall_mem_append] at hnodes
    rw [Stmt.allFit, Bool.and_eq_true] at hfits
    rw [wellFormedBody, wellFormedStmt_of_fits s hnodes.1 hfits.1,
      wellFormedBody_of_fits rest hnodes.2 hfits.2, Bool.and_true]

end

theorem wellFormedDecl_of_fits {d : Decl} (hnodes : ∀ node ∈ d.nodes, c.binds node = true)
    (hfits : d.fits = true) : wellFormedDecl c d = true := by
  cases d with
  | function d =>
    rw [Decl.nodes, List.forall_mem_cons, List.forall_mem_append] at hnodes
    rw [Decl.fits, Bool.and_eq_true] at hfits
    rw [wellFormedDecl, wellFormedBody_of_fits d.body hnodes.2.2 hfits.2, Bool.and_true,
      List.all_eq_true]
    intro param hparam
    exact hnodes.2.1 param.node (List.mem_flatMap.mpr ⟨param, hparam, List.mem_cons_self⟩)
  | var d => exact wellFormedVar_of_fits hnodes hfits

/-- **A tree is well formed if its nodes are bound and its operators stand where they can.** -/
theorem wellFormed_of_fits {p : Program}
    (hnodes : ∀ node ∈ p.flatMap Decl.nodes, c.binds node = true)
    (hfits : p.all Decl.fits = true) : wellFormed c p = true := by
  rw [wellFormed, List.all_eq_true]
  intro d hd
  refine wellFormedDecl_of_fits (fun node hnode => ?_) (List.all_eq_true.mp hfits d hd)
  exact hnodes node (List.mem_flatMap.mpr ⟨d, hd, hnode⟩)

/-- A well-formed program is lowered. -/
theorem exists_run_of_wellFormed {p : Program} (h : wellFormed c p = true) (s₀ : Builder) :
    ∃ u s, Lowering.run c p s₀ = .ok u s := by
  have hends := ((Watch.nothing_keptByLowering (W := Nat) c).run (w := 0) trivial p s₀).ends
  rw [Traced.result_run] at hends
  cases hrun : Lowering.run c p s₀ with
  | ok u s => exact ⟨u, s, rfl⟩
  | error e s => exact absurd ((hends.error hrun).1.symm.trans h) (by simp)

end

end Compiler16.Ssa

namespace Compiler16.Source.TreeBuilder

/-- **The trees of a builder are bound.**  Whatever symbols are declared and whatever nodes are made
for symbols that are there, no two nodes get the same number, and in the table of the end each node
stands for the symbol that it was made for.  A program of these nodes is lowered if its assignments
go to identifiers and its operators stand where they can. -/
theorem fullyBound (calls : List Call) (hcalls : declaredFirst {} calls = true) (p : List Decl) :
    let made := (calls.mapM Call.perform).run {}
    let nodes := made.1.filterMap Result.node?
    let program := made.2.finish p
    nodes.Nodup ∧ List.Forall₂ (Returns program.2) calls made.1 ∧
      ((∀ node ∈ p.flatMap Decl.nodes, node ∈ nodes) → p.all Decl.fits = true →
        ∀ (options : Ssa.Options) (s₀ : Ssa.Builder),
          ∃ u s, Ssa.Lowering.run { symbols := program.2, options } program.1 s₀ = .ok u s) := by
  intro made nodes program
  obtain ⟨hmakes, hreturns⟩ := makes_mapM_perform .empty hcalls
  refine ⟨?_, hreturns, fun hnodes hfits options s₀ => ?_⟩
  · -- the nodes are numbered in the order in which they are made
    have hrange : nodes = List.range made.2.nextNode :=
      hmakes.nodes.symm.trans hmakes.orderly.nodes
    rw [hrange]
    exact List.nodup_range
  · -- a node that was handed out comes from a call, so it is bound
    refine Ssa.exists_run_of_wellFormed (Ssa.wellFormed_of_fits (fun node hnode => ?_) hfits) s₀
    obtain ⟨r, hr, hnode⟩ := List.mem_filterMap.mp (hnodes node hnode)
    obtain ⟨c, hc⟩ := Returns.exists_of_mem hreturns hr
    exact hc.isSome_resolve? hnode

/-- A global variable, a function that returns its parameter, and a function that was not declared
and puts the result of a call into the global variable. -/
def sampleProgram : List Decl :=
  [.var { node := 0, name := "g", init := some (.number 1) },
    .function { node := 3, name := "f",
                params := [{ node := 1, name := "x", init := none, isParameter := true }],
                body := [.ret (some (.ident 2 "x"))] },
    .function { node := 7, name := "main", params := [],
                body := [.expr (.binary .assignment (.ident 6 "g")
                  (.call 5 "f" [.ident 4 "g"]))] }]

/-- The calls that make `sampleProgram`, from the leaves to the roots. -/
def sampleCalls : List Call :=
  [.declare (.ofVariable "g" 0), .declare (.ofVariable "x" 1), .declare (.ofFunction "f"),
    .var 0 (some (.number 1)), .param 1, .ident 1,
    .function "f" [{ node := 1, name := "x", init := none, isParameter := true }]
      [.ret (some (.ident 2 "x"))],
    .ident 0, .call 2 [.ident 4 "g"], .assign 0 (.call 5 "f" [.ident 4 "g"]),
    .function "main" []
      [.expr (.binary .assignment (.ident 6 "g") (.call 5 "f" [.ident 4 "g"]))]]

theorem fullyBound_sample :
    let made := (sampleCalls.mapM Call.perform).run {}
    let program := made.2.finish sampleProgram
    declaredFirst {} sampleCalls = true ∧ (made.1.filterMap Result.node?).Nodup ∧
      program.2.resolve? 7 = some (3, .ofFunction "main") ∧
      ∃ u s, Ssa.Lowering.run { symbols := program.2 } program.1 {} = .ok u s := by
  have hcalls : declaredFirst {} sampleCalls = true := by decide
  obtain ⟨hnodup, _, hrun⟩ := fullyBound sampleCalls hcalls sampleProgram
  exact ⟨hcalls, hnodup, by decide +kernel, hrun (by decide +kernel) (by decide) {} {}⟩

end Compiler16.Source.TreeBuilder
