import Compiler16.Proofs.Termination

/-!
# What all calls keep

Operations of the construction may be made in any order, and each may fail and leave the state of
its failure, the lowering of a program included.  So what is to hold in every state that is reached
has to be kept by every single call, whether it succeeds or not.  This suffices: the lowering is
made of such calls.  Only of the values that global variables get is it known what they are, namely
results of instructions.

## Main definitions

* `KeptByCalls`: every call keeps the property
* `Builder.Emitted`: a value is the result of an instruction

## Main results

* `KeptByCalls.lowerExpr`, `KeptByCalls.lowerStmt`, `KeptByCalls.run`: the lowering keeps it
* `KeptByCalls.exec`: every operation keeps it
* `KeptByCalls.reached`: it holds in every state that is reached
-/

namespace Compiler16.Ssa

open Compiler16.Source Compiler16.Ssa.Builder

/-- What comes next may say more about the answer. -/
theorem Leaves.next {α β : Type} {m : Build α} {f : α → Build β} {P : Builder → Prop}
    {Q : β → Builder → Prop} {s : Builder} (h : Leaves m s P)
    (hf : ∀ a t, P t → Ends (f a) t Q fun _ => P) : Ends (m >>= f) s Q fun _ => P :=
  Ends.bind h hf

/-- The value is the result of an instruction that has its number. -/
def Builder.Emitted (s : Builder) (v : Value) : Prop := ∃ i < s.nextId, v = .result i

/-- Every call leaves a state with the property, whether it succeeds or not. -/
structure KeptByCalls (o : Options) (I : Builder → Prop) : Prop where
  new : I {}
  draw : ∀ {s}, I s → I { s with nextId := s.nextId + 1 }
  compiled : ∀ {s} (u : CompiledUnit), I s → I { s with compiled := u }
  current : ∀ {s} (b : Option Nat), I s → I { s with current := b }
  publish : ∀ {s v} (x : Nat), s.Emitted v → I s →
    I { s with globalDefs := s.globalDefs.insert x v }
  write : ∀ {s} (k : Nat × Nat) (v : Value), I s → I { s with defs := s.defs.insert k v }
  begin : ∀ {s} (name : String), I s → Leaves (beginFunction name) s I
  finish : ∀ {s}, I s → Leaves endFunction s I
  createBlock : ∀ {s}, I s → Leaves createBlock s I
  addEdge : ∀ {s} (source target : Nat), I s → Leaves (addEdge source target) s I
  argument : ∀ {s} (v : Value), I s →
    Leaves (changeBody fun body => .ok ((), body.addArgument v)) s I
  append : ∀ {s} (i : Inst), i.id = s.nextId → i.users = [] → I s →
    Leaves (append i) { s with nextId := s.nextId + 1 } I
  read : ∀ {s} (x b : Nat), I s → Leaves (readVariable o x b) s I
  sealBlock : ∀ {s} (b : Nat), I s → Leaves (sealBlock o b) s I
  remove : ∀ {s} (phi : Nat), I s → Leaves (removeTrivialPhi phi) s I

namespace KeptByCalls

variable {c : Context} {I : Builder → Prop} {s : Builder}

/-! ## Calls that are made of others -/

theorem freshLiteral (h : KeptByCalls c.options I) (n : Int) (hs : I s) :
    Leaves (Builder.freshLiteral n) s I := .of_ok rfl (h.draw hs)

/-- The answer is the result of an instruction. -/
theorem emitInst (h : KeptByCalls c.options I) (op : Op) (operands : List Value)
    (callee : Option String) (hs : I s) :
    Ends (Builder.emitInst op operands callee) s (fun v t => I t ∧ t.Emitted v) fun _ => I := by
  refine Ends.get_bind (Ends.bind (Q := fun i t => i = s.nextId ∧
    t = { s with nextId := s.nextId + 1 }) (.of_ok rfl ⟨rfl, rfl⟩) ?_)
  rintro _ _ ⟨rfl, rfl⟩
  split
  · next b _ =>
    -- the answer is known to be a result only if the instruction has come in
    have happend := h.append { op, id := s.nextId, block := b, operands, callee } rfl rfl hs
    cases hrun : Builder.append { op, id := s.nextId, block := b, operands, callee }
        { s with nextId := s.nextId + 1 } with
    | error e t =>
      exact Ends.bind (Q := fun _ _ => False) (.of_error hrun (Ends.error happend hrun))
        fun _ _ => False.elim
    | ok u t =>
      obtain ⟨fn, B', _, _, ht⟩ := append_eq_ok.mp hrun
      refine Ends.bind (Q := fun _ t' => t = t') (.of_ok hrun rfl) ?_
      rintro _ _ rfl
      exact .pure ⟨Ends.ok happend hrun, s.nextId, by simp [ht], rfl⟩
  · exact .of_ok rfl ⟨h.compiled _ (h.draw hs), s.nextId, Nat.lt_succ_self _, rfl⟩

theorem emitBranch (h : KeptByCalls c.options I) (block : Nat) (cond : Option Value)
    (targets : List Nat) (hs : I s) : Leaves (Builder.emitBranch block cond targets) s I := by
  refine Ends.bind (Q := fun i t => i = s.nextId ∧ t = { s with nextId := s.nextId + 1 })
    (.of_ok rfl ⟨rfl, rfl⟩) ?_
  rintro _ _ ⟨rfl, rfl⟩
  exact h.append _ rfl rfl hs

theorem getCurrent (hs : I s) : Leaves Builder.getCurrent s I := by
  refine Ends.get_bind ?_
  split
  · exact .pure hs
  · exact .of_error rfl hs

theorem branchTo (h : KeptByCalls c.options I) (source target : Nat) (hs : I s) :
    Leaves (Builder.branchTo source target) s I := by
  refine Ends.get_bind ?_
  split
  · exact .pure hs
  · exact (h.emitBranch source none [target] hs).bind fun _ _ => h.addEdge source target

theorem symbolOf {P : Builder → Prop} (role : NodeRole) (node : Nat) (hs : P s)
    (hI : ∀ {s}, P s → I s) : Ends (Lowering.symbolOf c role node) s (fun _ => P) fun _ => I := by
  unfold Lowering.symbolOf
  split
  · exact .pure hs
  · exact .of_error rfl (hI hs)

theorem assignVariable (h : KeptByCalls c.options I) (x : Nat) {v : Value} (hs : I s)
    (hv : s.Emitted v) :
    Ends (Lowering.assignVariable c x v) s (fun _ t => I t ∧ t.Emitted v) fun _ => I := by
  refine .of_ok rfl ?_
  dsimp only
  split
  · next b _ =>
    -- a variable of the outermost scope is written for later functions too
    have hwrite := h.write (x, b) v hs
    have hv' : Builder.Emitted { s with defs := s.defs.insert (x, b) v } v := hv
    split
    · exact ⟨h.publish x hv' hwrite, hv⟩
    · exact ⟨hwrite, hv⟩
  · exact ⟨h.publish x hv hs, hv⟩

theorem readCurrent (h : KeptByCalls c.options I) (x : Nat) (hs : I s) :
    Leaves (Lowering.readCurrent c x) s I := by
  refine Ends.get_bind ?_
  split
  · exact h.read x _ hs
  · exact .pure hs

/-! ## Lowering -/

mutual

/-- Expressions.  An expression ends with an instruction, and its value is the result of that. -/
theorem lowerExpr (h : KeptByCalls c.options I) : ∀ (e : Expr) {s : Builder}, I s →
    Ends (Lowering.lowerExpr c e) s (fun v t => I t ∧ t.Emitted v) fun _ => I
  | .bool _, s, hs | .number _, s, hs => by
    rw [Lowering.lowerExpr]
    exact (h.freshLiteral _ hs).next fun _ _ => h.emitInst _ _ _
  | .string text, s, hs => by
    rw [Lowering.lowerExpr]
    refine Leaves.next (.of_ok rfl (h.compiled _ hs)) fun _ _ hs => ?_
    exact (h.freshLiteral _ hs).next fun _ _ => h.emitInst _ _ _
  | .ident node _, s, hs => by
    rw [Lowering.lowerExpr]
    refine (symbolOf .identifier node hs id).bind fun x _ hs => ?_
    exact (h.readCurrent x hs).next fun _ _ => h.emitInst _ _ _
  | .binary op lhs rhs, s, hs => by
    unfold Lowering.lowerExpr
    split
    · cases lhs with
      | ident node name =>
        -- what the variable gets is the copy, which has just been emitted
        refine (symbolOf .identifier node hs id).bind fun x _ hs => ?_
        refine (lowerExpr h rhs hs).bind fun v _ hs => ?_
        refine (h.emitInst .mov [v] none hs.1).bind fun copy _ hs => ?_
        exact (h.assignVariable x hs.1 hs.2).bind fun _ _ hs => .pure hs
      | _ => exact .of_error rfl hs
    · cases Lowering.binaryOp? op with
      | none => exact .of_error rfl hs
      | some _ =>
        refine (lowerExpr h lhs hs).bind fun _ _ hs => ?_
        exact (lowerExpr h rhs hs.1).bind fun _ _ hs => h.emitInst _ _ _ hs.1
  | .unary op operand, s, hs => by
    rw [Lowering.lowerExpr]
    cases Lowering.unaryOp? op with
    | none => exact .of_error rfl hs
    | some _ => exact (lowerExpr h operand hs).bind fun _ _ hs => h.emitInst _ _ _ hs.1
  | .call node callee args, s, hs => by
    rw [Lowering.lowerExpr]
    refine (symbolOf .call node hs id).bind fun _ _ hs => ?_
    exact (lowerArgs h args hs).next fun _ _ => h.emitInst _ _ _

/-- Arguments of a call. -/
theorem lowerArgs (h : KeptByCalls c.options I) : ∀ (es : List Expr) {s : Builder}, I s →
    Leaves (Lowering.lowerArgs c es) s I
  | [], s, hs => by
    rw [Lowering.lowerArgs]
    exact .pure hs
  | e :: es, s, hs => by
    unfold Lowering.lowerArgs
    have hrest : ∀ (v : Value) t, I t →
        Leaves (Lowering.lowerArgs c es >>= fun vs => pure (v :: vs)) t I :=
      fun v t ht => (lowerArgs h es ht).bind fun _ _ => .pure
    -- a variable is handed over as it is, and its value need not be a result
    have hexpr := lowerExpr h e hs
    cases e with
    | ident node name =>
      exact (symbolOf .argument node hs id).bind fun x _ hs => (h.readCurrent x hs).bind hrest
    | _ => exact hexpr.bind fun v t ht => hrest v t ht.1

end

theorem lowerVar (h : KeptByCalls c.options I) (d : VarDecl) (hs : I s) :
    Leaves (Lowering.lowerVar c d) s I := by
  unfold Lowering.lowerVar
  split
  · exact .pure hs
  · cases d.init with
    | none => exact .pure hs
    | some init =>
      refine (h.lowerExpr init hs).bind fun v _ hs => ?_
      refine (symbolOf (P := fun t => I t ∧ t.Emitted v) .declaration d.node hs And.left).bind
        fun x _ hs => ?_
      exact (h.assignVariable x hs.1 hs.2).imp (fun _ _ => And.left) fun _ _ => id

theorem ensureOpenBlock (h : KeptByCalls c.options I) (hs : I s) :
    Leaves (Lowering.ensureOpenBlock c) s I := by
  refine (getCurrent hs).bind fun b t ht => Ends.get_bind ?_
  split
  · refine (h.createBlock ht).bind fun k _ hs => ?_
    exact (h.sealBlock k hs).bind fun _ _ hs => .of_ok rfl (h.current _ hs)
  · exact .pure ht

theorem enterBlock (h : KeptByCalls c.options I) (source : Nat) (hs : I s) :
    Leaves (Lowering.enterBlock c source) s I := by
  refine (h.createBlock hs).bind fun k _ hs => (h.addEdge source k hs).bind fun _ _ hs => ?_
  exact (h.sealBlock k hs).bind fun _ _ hs => .of_ok rfl (h.current _ hs)

theorem branchOn (h : KeptByCalls c.options I) (source : Nat) (cond : Value) (body : Nat)
    (hs : I s) : Leaves (Lowering.branchOn source cond body) s I := by
  refine (h.createBlock hs).bind fun exit _ hs => ?_
  refine (h.emitBranch source (some cond) [body, exit] hs).bind fun _ _ hs => ?_
  exact (h.addEdge source exit hs).bind fun _ _ => .pure

mutual

/-- Statements. -/
theorem lowerStmt (h : KeptByCalls c.options I) : ∀ (st : Stmt) {s : Builder}, I s →
    Leaves (Lowering.lowerStmt c st) s I
  | .compound body, s, hs => by
    rw [Lowering.lowerStmt]
    exact (h.ensureOpenBlock hs).bind fun _ _ => lowerBody h body
  | .declare d, s, hs => by
    rw [Lowering.lowerStmt]
    exact (h.ensureOpenBlock hs).bind fun _ _ => h.lowerVar d
  | .ifThen cond body, s, hs => by
    rw [Lowering.lowerStmt]
    refine (h.ensureOpenBlock hs).bind fun _ _ hs => (h.lowerExpr cond hs).bind fun v _ hs => ?_
    refine (getCurrent hs.1).bind fun source _ hs => (h.enterBlock source hs).bind fun k _ hs => ?_
    refine (lowerBody h body hs).bind fun _ _ hs => (getCurrent hs).bind fun thenEnd _ hs => ?_
    refine (h.branchOn source v k hs).bind fun exit _ hs => ?_
    refine (h.branchTo thenEnd exit hs).bind fun _ _ hs => ?_
    exact (h.sealBlock exit hs).bind fun _ _ hs => .of_ok rfl (h.current _ hs)
  | .whileDo cond body, s, hs => by
    rw [Lowering.lowerStmt]
    refine (h.ensureOpenBlock hs).bind fun _ _ hs => (getCurrent hs).bind fun before _ hs => ?_
    refine (h.createBlock hs).bind fun header _ hs =>
      (h.branchTo before header hs).bind fun _ _ hs => ?_
    refine Leaves.bind (.of_ok rfl (h.current _ hs)) fun _ _ hs => ?_
    refine (h.lowerExpr cond hs).bind fun v _ hs => (getCurrent hs.1).bind fun headerEnd _ hs => ?_
    refine (h.enterBlock headerEnd hs).bind fun k _ hs =>
      (lowerBody h body hs).bind fun _ _ hs => ?_
    refine (getCurrent hs).bind fun bodyEnd _ hs =>
      (h.branchOn headerEnd v k hs).bind fun exit _ hs => ?_
    refine (h.branchTo bodyEnd header hs).bind fun _ _ hs => ?_
    refine (h.sealBlock header hs).bind fun _ _ hs => (h.sealBlock exit hs).bind fun _ _ hs => ?_
    exact .of_ok rfl (h.current _ hs)
  | .ret none, s, hs => by
    rw [Lowering.lowerStmt]
    refine (h.ensureOpenBlock hs).bind fun _ _ hs => ?_
    exact (h.emitInst .ret [] none hs).bind fun _ _ hs => .pure hs.1
  | .ret (some value), s, hs => by
    rw [Lowering.lowerStmt]
    refine (h.ensureOpenBlock hs).bind fun _ _ hs => (h.lowerExpr value hs).bind fun v _ hs => ?_
    exact (h.emitInst .ret [v] none hs.1).bind fun _ _ hs => .pure hs.1
  | .print _, s, hs | .scan _, s, hs => by
    rw [Lowering.lowerStmt]
    exact (h.ensureOpenBlock hs).bind fun _ _ => .pure
  | .expr value, s, hs => by
    rw [Lowering.lowerStmt]
    refine (h.ensureOpenBlock hs).bind fun _ _ hs => ?_
    exact (h.lowerExpr value hs).bind fun _ _ hs => .pure hs.1

/-- Statements one after the other. -/
theorem lowerBody (h : KeptByCalls c.options I) : ∀ (body : List Stmt) {s : Builder}, I s →
    Leaves (Lowering.lowerBody c body) s I
  | [], s, hs => by
    rw [Lowering.lowerBody]
    exact .pure hs
  | st :: rest, s, hs => by
    rw [Lowering.lowerBody]
    exact (lowerStmt h st hs).bind fun _ _ => lowerBody h rest

end

theorem lowerParam (h : KeptByCalls c.options I) (entry : Nat) (d : VarDecl) (hs : I s) :
    Leaves (Lowering.lowerParam c entry d) s I := by
  refine (symbolOf .parameter d.node hs id).bind fun x _ hs => ?_
  refine Leaves.bind (.of_ok rfl (h.draw hs)) fun i _ hs => ?_
  exact (h.argument _ hs).bind fun _ _ hs => .of_ok rfl (h.write _ _ hs)

theorem lowerDecl (h : KeptByCalls c.options I) (d : Decl) (hs : I s) :
    Leaves (Lowering.lowerDecl c d) s I := by
  cases d with
  | var d => exact h.lowerVar d hs
  | function d =>
    -- the function is begun, built and finished, and what is kept does not see how far it got
    refine Leaves.bind ?_ fun _ _ => h.finish
    refine (h.begin d.name hs).bind fun entry _ hs => Leaves.bind ?_ fun _ _ => h.lowerBody d.body
    exact Ends.forM (I := fun _ => I) (fun d _ _ => h.lowerParam entry d) d.params _ hs

/-- A program is lowered from a clean state, so nothing is asked of the state before. -/
theorem run (h : KeptByCalls c.options I) (p : Program) (s : Builder) :
    Leaves (Lowering.run c p) s I := by
  refine Leaves.bind (.of_ok rfl h.new) fun _ _ hs => Leaves.bind ?_ fun _ _ hs => ?_
  · exact Ends.forM (I := fun _ => I) (fun d _ _ => h.lowerDecl d) p _ hs
  · exact .of_ok rfl (h.compiled _ hs)

/-! ## Operations -/

theorem call (h : KeptByCalls c.options I) (k : Call) (hs : I s) :
    Leaves (k.exec c.options) s I := by
  cases k with
  | createBlock => exact (h.createBlock hs).bind fun _ _ => .pure
  | addEdge p q => exact (h.addEdge p q hs).bind fun _ _ => .pure
  | sealBlock b => exact (h.sealBlock b hs).bind fun _ _ => .pure
  | setCurrent b => exact .of_ok rfl (h.current _ hs)
  | argument =>
    refine Leaves.bind (.of_ok rfl (h.draw hs)) fun i _ hs => ?_
    exact (h.argument _ hs).bind fun _ _ => .pure
  | literal n => exact .of_ok rfl (h.draw hs)
  | emit op operands callee =>
    exact (h.emitInst op operands callee hs).bind fun _ _ hs => .pure hs.1
  | write x b v => exact .of_ok rfl (h.write _ _ hs)
  | read x b => exact (h.read x b hs).bind fun _ _ => .pure

theorem exec (h : KeptByCalls c.options I) (op : Operation) (hs : I s) :
    Leaves (op.exec c) s I := by
  cases op with
  | run p => exact (h.run p s).bind fun _ _ => .pure
  | begin name => exact (h.begin name hs).bind fun _ _ => .pure
  | finish => exact h.finish hs
  | call k => exact (h.call k hs).bind fun _ _ => .pure
  | remove phi => exact (h.remove phi hs).bind fun _ _ => .pure

/-- **What every call keeps holds in every state that is reached.** -/
theorem reached (h : KeptByCalls c.options I) (hs : Reached c s) : I s := by
  induction hs with
  | new => exact h.new
  | step op _ ih => exact (h.exec op ih).stateAfter

end KeptByCalls

end Compiler16.Ssa
