import Compiler16.Proofs.Building

/-!
# Well-formed trees

What a lowering asks of the tree: that the nodes that stand for something are bound, that
assignments go to variables, and that operators stand where they can.  The lowering finds out as it
goes along, so it may have emitted much before it fails.  `Decides` says that a part of it succeeds
or fails as one of these conditions tells, and that nothing else goes wrong.

## Main definitions

* `wellFormedExpr`, `wellFormedStmt`, `wellFormedDecl`, `wellFormed`: the conditions
* `BuildError.Faults`: the error is a fault of the tree
* `Decides`: a part of the lowering succeeds or fails as a condition tells

## Main results

* `Decides.bind`: one part after another
* `Decides.next`: a call that does not fail decides nothing
-/

namespace Compiler16.Ssa

open Compiler16.Source Compiler16.Ssa.Builder

/-! ## Conditions on the tree -/

/-- The node is bound to a symbol that exists. -/
def Context.binds (c : Context) (node : Nat) : Bool := (c.symbols.resolve? node).isSome

section

variable (c : Context)

mutual

/-- An expression can be lowered. -/
def wellFormedExpr : Expr → Bool
  | .bool _ | .number _ | .string _ => true
  | .ident node _ => c.binds node
  | .binary op lhs rhs =>
    if op = .assignment then
      -- what is assigned to is not read
      match lhs with
      | .ident node _ => c.binds node && wellFormedExpr rhs
      | _ => false
    else op ≠ .not && op ≠ .negate && wellFormedExpr lhs && wellFormedExpr rhs
  | .unary op operand => (op = .not || op = .negate || op = .minus) && wellFormedExpr operand
  | .call node _ args => c.binds node && wellFormedArgs args

/-- All arguments of a call can be lowered. -/
def wellFormedArgs : List Expr → Bool
  | [] => true
  | arg :: args => wellFormedExpr arg && wellFormedArgs args

end

/-- The declaration of a variable can be lowered.  Of a parameter nothing is asked here. -/
def wellFormedVar (d : VarDecl) : Bool :=
  d.isParameter ||
    match d.init with
    | none => true
    | some init => wellFormedExpr c init && c.binds d.node

mutual

/-- A statement can be lowered.  Input and output are left out of the lowering. -/
def wellFormedStmt : Stmt → Bool
  | .compound body => wellFormedBody body
  | .declare d => wellFormedVar c d
  | .ifThen cond body | .whileDo cond body => wellFormedExpr c cond && wellFormedBody body
  | .ret none => true
  | .ret (some value) => wellFormedExpr c value
  | .print _ | .scan _ => true
  | .expr value => wellFormedExpr c value

/-- All statements can be lowered. -/
def wellFormedBody : List Stmt → Bool
  | [] => true
  | s :: rest => wellFormedStmt s && wellFormedBody rest

end

/-- A declaration at the top can be lowered. -/
def wellFormedDecl : Decl → Bool
  -- of the parameters only the binding counts
  | .function d => d.params.all (fun param => c.binds param.node) && wellFormedBody c d.body
  | .var d => wellFormedVar c d

/-- The program can be lowered. -/
def wellFormed (p : Program) : Bool := p.all (wellFormedDecl c)

/-- The error is a fault of the tree, and one that is there. -/
def BuildError.Faults : BuildError → Prop
  | .unbound _ node => c.binds node = false
  | .badTarget => True
  | .notBinary op => op = .not ∨ op = .negate
  | .notUnary op => op ≠ .not ∧ op ≠ .negate ∧ op ≠ .minus
  | _ => False

end

/-! ## Conditions that are decided on the way -/

/-- The computation succeeds, with a result and a state with `Q`, if `k` is true, and otherwise it
ends in an error for which the tree is to blame.  The bodies on the way are fit for reads. -/
def Decides {α : Type} (c : Context) (m : Traced α) (s : Builder) (k : Bool)
    (Q : α → Builder → Prop) : Prop :=
  Along Fit m s (fun a s' => k = true ∧ Q a s')
    fun e s' => k = false ∧ s'.Fit ∧ ∃ cause, e = .construction cause ∧ cause.Faults c

namespace Decides

variable {α β : Type} {c : Context} {m : Traced α} {f : α → Traced β} {s : Builder} {k k' : Bool}
  {Q Q' : α → Builder → Prop} {R : β → Builder → Prop}

theorem pure {a : α} (hQ : Q a s) : Decides c (Pure.pure a) s true Q := Along.pure ⟨rfl, hQ⟩

theorem imp (h : Decides c m s k Q) (hQ : ∀ a s', Q a s' → Q' a s') : Decides c m s k Q' :=
  Along.imp h (fun a s' hs' => ⟨hs'.1, hQ a s' hs'.2⟩) fun _ _ he => he

/-- One part after another. -/
theorem bind (h : Decides c m s k Q) (hf : ∀ a s', Q a s' → Decides c (f a) s' k' R) :
    Decides c (m >>= f) s (k && k') R := by
  refine Along.bind (Q := fun a s' => k = true ∧ Q a s') ?_ ?_
  · refine Along.imp h (fun _ _ hQ => hQ) ?_
    rintro e s' ⟨rfl, he⟩
    exact ⟨rfl, he⟩
  · rintro a s' ⟨rfl, hQ⟩
    exact hf a s' hQ

/-- The condition of the rest is the condition of the whole if the first part does not fail. -/
theorem bind_true (h : Decides c m s true Q) (hf : ∀ a s', Q a s' → Decides c (f a) s' k R) :
    Decides c (m >>= f) s k R := by
  have := h.bind hf
  rwa [Bool.true_and] at this

/-- A call that does not fail decides nothing. -/
theorem call {access : Builder → α → Option (Call × Option Value)} {m : Build α}
    (h : Ends m s Q fun _ _ => False) (hfit : ∀ a s', Q a s' → s'.Fit) :
    Decides c (Traced.noted access m) s true Q :=
  Along.call (h.imp (fun a s' hQ => ⟨hfit a s' hQ, rfl, hQ⟩) fun _ _ => False.elim)

theorem next {access : Builder → α → Option (Call × Option Value)} {m : Build α}
    (h : Ends m s Q fun _ _ => False) (hfit : ∀ a s', Q a s' → s'.Fit)
    (hf : ∀ a s', Q a s' → Decides c (f a) s' k R) :
    Decides c (Traced.noted access m >>= f) s k R :=
  (call h hfit).bind_true hf

/-- A call whose outcome is known. -/
theorem next_ok {m : Build α} {a : α} {s' : Builder} (h : m s = .ok a s') (hfit : s'.Fit)
    (hf : Decides c (f a) s' k R) : Decides c (Traced.call m >>= f) s k R := by
  refine next (Q := fun a' t => a = a' ∧ s' = t) (.of_ok h ⟨rfl, rfl⟩) ?_ ?_
  · rintro _ _ ⟨_, rfl⟩
    exact hfit
  · rintro _ _ ⟨rfl, rfl⟩
    exact hf

theorem get {f : Builder → Traced β} (hs : s.Fit) (hf : Decides c (f s) s k R) :
    Decides c (Traced.call MonadState.get >>= f) s k R :=
  next_ok (show (MonadState.get : Build Builder) s = .ok s s from rfl) hs hf

theorem fail {cause : BuildError} (hs : s.Fit) (hcause : cause.Faults c) :
    Decides c (Traced.call (Builder.fail cause) : Traced α) s false Q :=
  Along.call (.of_error rfl ⟨hs, rfl, hs, cause, rfl, hcause⟩)

theorem symbolOf (hs : s.Fit) (role : NodeRole) (node : Nat) :
    Decides c (Traced.symbolOf c role node) s (c.binds node) fun _ s' => s = s' := by
  unfold Traced.symbolOf Lowering.symbolOf Context.binds
  cases hnode : c.symbols.resolve? node with
  | none =>
    refine fail hs ?_
    show (c.symbols.resolve? node).isSome = false
    rw [hnode]
    rfl
  | some x => exact call (.pure rfl) fun _ _ hs' => hs' ▸ hs

/-- What is known of the result can also use that it is the result. -/
theorem with_result (h : Decides c m s k Q) :
    Decides c m s k fun a s' => m.result s = .ok a s' ∧ Q a s' := by
  refine ⟨h.states, ?_⟩
  cases hrun : m.result s with
  | ok a s' => exact .of_ok hrun ⟨(h.ends.ok hrun).1, rfl, (h.ends.ok hrun).2⟩
  | error e s' => exact .of_error hrun (h.ends.error hrun)

/-- A loop decides whether all elements have a property. -/
theorem forM {f : α → Traced Unit} {p : α → Bool} {I : Builder → Prop}
    (step : ∀ a s, I s → Decides c (f a) s (p a) fun _ => I) :
    ∀ (l : List α) (s : Builder), I s → Decides c (l.forM f) s (l.all p) fun _ => I := by
  intro l
  induction l with
  | nil => exact fun s hs => pure hs
  | cons a l ih =>
    intro s hs
    exact (step a s hs).bind fun _ s' hs' => ih s' hs'

end Decides

end Compiler16.Ssa
