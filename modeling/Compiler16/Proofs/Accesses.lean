import Compiler16.Proofs.Tracing

/-!
# What a lowering reads and writes

Variables are read where an expression names them, and written where it assigns them.  All else
that a lowering does is silent: blocks and edges are made, and instructions are emitted.  So what a
piece of a program accesses is put together from what its parts access.

## Main definitions

* `Traced.Silent`: a computation that neither reads nor writes a variable

## Main results

* `Traced.accesses_ident`, `Traced.accesses_assignment`: an access to a variable
* `Traced.accesses_operation`, `Traced.accesses_unary`, `Traced.accesses_callExpr`: what operands
  access
* `Traced.accesses_args_ident`, `Traced.accesses_args_expr`: what the arguments of a call access
* `Traced.accesses_guarded`: what a body accesses that is entered on a condition
-/

namespace Compiler16.Ssa.Traced

open Compiler16.Source Compiler16.Ssa.Builder

variable {α β : Type} {c : Context} {m : Traced α} {f : α → Traced β} {a : α} {s s' : Builder}

/-- What is computed, with the notes or without. -/
theorem result_eq_ok {m' : Build α} (hm : m.result = m') (h : m' s = .ok a s') :
    m.result s = .ok a s' := by
  rw [hm]
  exact h

/-- No variable is read or written. -/
def Silent (m : Traced α) : Prop := ∀ s, m.accesses s = []

namespace Silent

theorem call (m : Build α) : Silent (Traced.call m) := fun _ => accesses_call m

theorem pure (a : α) : Silent (Pure.pure a : Traced α) := fun _ => rfl

theorem bind (h : Silent m) (hf : ∀ a, Silent (f a)) : Silent (m >>= f) := by
  intro s
  cases hrun : m.result s with
  | ok a s' => rw [accesses_bind hrun, h s, hf a s', List.nil_append]
  | error e s' => rw [accesses_bind_of_error hrun, h s]

theorem next (h : Silent m) (hrun : m.result s = .ok a s') :
    (m >>= f).accesses s = (f a).accesses s' := by
  rw [accesses_bind hrun, h s, List.append_nil]

theorem literal (payload : Int) : Silent (Traced.literal payload) :=
  (call _).bind fun _ => call _

theorem ensureOpenBlock : Silent (Traced.ensureOpenBlock c) := by
  refine (call _).bind fun b => (call _).bind fun s => ?_
  by_cases h : s.isTerminated b = true
  · rw [if_pos h]
    exact (call _).bind fun _ => (call _).bind fun _ => call _
  · rw [if_neg h]
    exact pure _

theorem enterBlock (source : Nat) : Silent (Traced.enterBlock c source) :=
  (call _).bind fun _ => (call _).bind fun _ => (call _).bind fun _ => (call _).bind fun _ => pure _

theorem branchOn (source : Nat) (cond : Value) (body : Nat) :
    Silent (Traced.branchOn source cond body) :=
  (call _).bind fun _ => (call _).bind fun _ => (call _).bind fun _ => pure _

theorem branchTo (source target : Nat) : Silent (Traced.branchTo source target) := by
  refine (call _).bind fun s => ?_
  by_cases h : s.isTerminated source = true
  · rw [if_pos h]
    exact pure _
  · rw [if_neg h]
    exact (call _).bind fun _ => call _

end Silent

/-- A call that accesses nothing comes first. -/
theorem accesses_call_bind {m : Build α} (h : m s = .ok a s') :
    (call m >>= f).accesses s = (f a).accesses s' :=
  (Silent.call m).next (result_eq_ok (result_noted _ _) h)

theorem accesses_symbolOf_bind {role : NodeRole} {node x : Nat} {f : Nat → Traced β}
    (h : Lowering.symbolOf c role node s = .ok x s') :
    (symbolOf c role node >>= f).accesses s = (f x).accesses s' := accesses_call_bind h

/-- What comes after is silent. -/
theorem accesses_bind_silent (hrun : m.result s = .ok a s') (hf : ∀ a, Silent (f a)) :
    (m >>= f).accesses s = m.accesses s := by
  rw [accesses_bind hrun, hf a s', List.nil_append]

/-! ## Expressions -/

section Expressions

variable {node x b : Nat} {name : String} {u v w : Value} {s₁ s₂ : Builder} {e lhs rhs : Expr}
  {es : List Expr} {vs : List Value} {op : Operator} {o : Op}

theorem accesses_read (hread : Lowering.readCurrent c x s = .ok v s') (hcur : s.current = some b) :
    (read c x).accesses s = [(.read x b, some v)] := by
  rw [read, accesses_noted hread, hcur]
  rfl

theorem accesses_assign (hassign : Lowering.assignVariable c x v s = .ok () s')
    (hcur : s.current = some b) : (assign c x v).accesses s = [(.write x b v, none)] := by
  rw [assign, accesses_noted hassign, hcur]
  rfl

/-- A variable is read. -/
theorem accesses_ident (hx : Lowering.symbolOf c .identifier node s = .ok x s)
    (hread : Lowering.readCurrent c x s = .ok v s') (hcur : s.current = some b) :
    (lowerExpr c (.ident node name)).accesses s = [(.read x b, some v)] := by
  rw [lowerExpr, accesses_symbolOf_bind hx,
    accesses_bind_silent (result_eq_ok (result_noted _ _) hread) fun _ => Silent.call _]
  exact accesses_read hread hcur

/-- A variable is assigned. -/
theorem accesses_assignment (hx : Lowering.symbolOf c .identifier node s = .ok x s)
    (hrhs : Lowering.lowerExpr c rhs s = .ok u s₁) (hemit : emit .mov [u] s₁ = .ok v s₂)
    (hassign : Lowering.assignVariable c x v s₂ = .ok () s') (hcur : s₂.current = some b) :
    (lowerExpr c (.binary .assignment (.ident node name) rhs)).accesses s =
      (.write x b v, none) :: (lowerExpr c rhs).accesses s := by
  rw [lowerExpr.eq_def]
  show (do
    let symbol ← symbolOf c .identifier node
    let v ← lowerExpr c rhs
    let copy ← call (emit .mov [v])
    assign c symbol copy
    return copy : Traced Value).accesses s = _
  rw [accesses_symbolOf_bind hx,
    accesses_bind (result_eq_ok (result_lowerExpr _ _) hrhs),
    accesses_call_bind hemit,
    accesses_bind_silent (result_eq_ok (result_noted _ _) hassign) fun _ => Silent.pure _,
    accesses_assign hassign hcur]
  rfl

theorem accesses_operation (hop : op ≠ .assignment) (ho : Lowering.binaryOp? op = some o)
    (hlhs : Lowering.lowerExpr c lhs s = .ok u s₁) (hrhs : Lowering.lowerExpr c rhs s₁ = .ok v s₂) :
    (lowerExpr c (.binary op lhs rhs)).accesses s =
      (lowerExpr c rhs).accesses s₁ ++ (lowerExpr c lhs).accesses s := by
  rw [lowerExpr.eq_def]
  simp only [if_neg hop, ho]
  rw [accesses_bind (result_eq_ok (result_lowerExpr _ _) hlhs),
    accesses_bind_silent (result_eq_ok (result_lowerExpr _ _) hrhs) fun _ => Silent.call _]

theorem accesses_unary (ho : Lowering.unaryOp? op = some o)
    (he : Lowering.lowerExpr c e s = .ok v s') :
    (lowerExpr c (.unary op e)).accesses s = (lowerExpr c e).accesses s := by
  rw [lowerExpr, ho]
  exact accesses_bind_silent (result_eq_ok (result_lowerExpr _ _) he) fun _ => Silent.call _

theorem accesses_callExpr {callee : String} (hx : Lowering.symbolOf c .call node s = .ok x s)
    (hargs : Lowering.lowerArgs c es s = .ok vs s') :
    (lowerExpr c (.call node callee es)).accesses s = (lowerArgs c es).accesses s := by
  rw [lowerExpr, accesses_symbolOf_bind hx]
  exact accesses_bind_silent (result_eq_ok (result_lowerArgs _ _) hargs) fun _ => Silent.call _

/-- An argument that is a variable is only read. -/
theorem accesses_args_ident (hx : Lowering.symbolOf c .argument node s = .ok x s)
    (hread : Lowering.readCurrent c x s = .ok v s₁) (hcur : s.current = some b)
    (hrest : Lowering.lowerArgs c es s₁ = .ok vs s') :
    (lowerArgs c (.ident node name :: es)).accesses s =
      (lowerArgs c es).accesses s₁ ++ [(.read x b, some v)] := by
  rw [lowerArgs, accesses_symbolOf_bind hx,
    accesses_bind (result_eq_ok (result_noted _ _) hread),
    accesses_bind_silent (result_eq_ok (result_lowerArgs _ _) hrest) fun _ => Silent.pure _,
    accesses_read hread hcur]

theorem accesses_args_expr (he : ∀ node name, e ≠ .ident node name)
    (hexpr : Lowering.lowerExpr c e s = .ok v s₁) (hrest : Lowering.lowerArgs c es s₁ = .ok vs s') :
    (lowerArgs c (e :: es)).accesses s =
      (lowerArgs c es).accesses s₁ ++ (lowerExpr c e).accesses s := by
  rw [lowerArgs, accesses_bind (result_eq_ok (result_lowerExpr _ _) hexpr),
    accesses_bind_silent (result_eq_ok (result_lowerArgs _ _) hrest) fun _ => Silent.pure _]
  exact he

/-- A variable is declared with a value. -/
theorem accesses_declaration {d : VarDecl} (hparam : ¬ d.isParameter = true)
    (hinit : d.init = some e) (he : Lowering.lowerExpr c e s = .ok v s₁)
    (hx : Lowering.symbolOf c .declaration d.node s₁ = .ok x s₁)
    (hassign : Lowering.assignVariable c x v s₁ = .ok () s') (hcur : s₁.current = some b) :
    (lowerVar c d).accesses s = (.write x b v, none) :: (lowerExpr c e).accesses s := by
  rw [lowerVar, if_neg hparam, hinit]
  show (do
    let v ← lowerExpr c e
    let symbol ← symbolOf c .declaration d.node
    assign c symbol v : Traced Unit).accesses s = _
  rw [accesses_bind (result_eq_ok (result_lowerExpr _ _) he),
    accesses_symbolOf_bind hx,
    accesses_assign hassign hcur]
  rfl

end Expressions

/-! ## Bodies -/

/-- A body that control enters from the current block, and nothing but branches after it. -/
theorem accesses_guarded {source block : Nat} {body : List Stmt} {s₁ s₂ : Builder}
    {rest : Nat → Nat → Traced Unit} (hsource : getCurrent s = .ok source s)
    (henter : Lowering.enterBlock c source s = .ok block s₁)
    (hbody : Lowering.lowerBody c body s₁ = .ok () s₂)
    (hrest : ∀ source block, Silent (rest source block)) :
    (do
      let source ← call getCurrent
      let block ← enterBlock c source
      lowerBody c body
      rest source block : Traced Unit).accesses s = (lowerBody c body).accesses s₁ := by
  rw [accesses_call_bind hsource,
    (Silent.enterBlock _).next (result_eq_ok (result_enterBlock _ _) henter),
    accesses_bind_silent (result_eq_ok (result_lowerBody _ _) hbody) fun _ => hrest _ _]

end Compiler16.Ssa.Traced
