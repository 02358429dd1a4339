import Compiler16.Proofs.Programs
import Compiler16.Proofs.WellFormed

/-!
# How lowering ends

The calls of the lowering do not fail, so it fails exactly if the tree is not well formed.  The
induction over the tree is done for any property that the calls keep; along the way it is seen what
holds of the states in between and in the end.

## Main definitions

* `Watch.Here`: a property that is kept, at the place where instructions go

## Main results

* `Watch.Here.lowerExpr`, `Watch.At.lowerStmt`, `Watch.Here.lowerDecl`: expressions, statements and
  declarations are lowered if and only if they are well formed
* `Watch.KeptByLowering.run`: the same for programs, and a property that the calls keep holds in the
  end
* `run_eq_ok_iff_wellFormed`: a program is compiled if and only if it is well formed
-/

namespace Compiler16.Ssa

open Compiler16.Source Compiler16.Flow Compiler16.Ssa.Builder

namespace Builder

variable {W : Type} [Preorder W] {X : Watch W} {c : Context} {w w' : W} {s s' : Builder}
  {B B' : Body} {b k p : Nat} {v : Value} {place : Option (Body × Nat)}

/-! ## Places -/

/-- The property holds where no function is open, or at a block of a function with the same blocks
and edges as a given body. -/
def Watch.Here (X : Watch W) : Option (Body × Nat) → W → Builder → Prop
  | none, w, s => s.opened = none ∧ s.current = none ∧ X.holds w s
  | some (B, b), w, s => ∃ B', X.At w s B' b ∧ B.SameFrame B'

/-- The place is the same. -/
def Watch.Rests (X : Watch W) (place : Option (Body × Nat)) (w : W) (s' : Builder) : Prop :=
  ∃ w', w ≤ w' ∧ X.Here place w' s'

/-- The place is the same, and the value is one that the property allows. -/
def Watch.Yields (X : Watch W) (place : Option (Body × Nat)) (w : W) (v : Value) (s' : Builder) :
    Prop :=
  ∃ w', w ≤ w' ∧ X.Here place w' s' ∧ X.value w' v

theorem Watch.Yields.mono (hw : w ≤ w') (h : X.Yields place w' v s) : X.Yields place w v s := by
  obtain ⟨w'', hw', h⟩ := h
  exact ⟨w'', hw.trans hw', h⟩

theorem Watch.Gives.yields (h : X.Gives w B' b v s) (hB : B.SameFrame B') :
    X.Yields (some (B, b)) w v s := by
  obtain ⟨w', B'', hw, hat, hframe, hv⟩ := h
  exact ⟨w', hw, ⟨B'', hat, hB.trans hframe⟩, hv⟩

theorem Watch.Stays.rests (h : X.Stays w B' b s) (hB : B.SameFrame B') :
    X.Rests (some (B, b)) w s := by
  obtain ⟨w', B'', hw, hat, hframe⟩ := h
  exact ⟨w', hw, B'', hat, hB.trans hframe⟩

theorem Watch.Here.fit (h : X.Here place w s) : s.Fit := by
  cases place with
  | none => exact .of_opened h.1
  | some place =>
    obtain ⟨B', hat, _⟩ := h
    exact hat.built.fit

theorem Watch.Yields.fit (h : X.Yields place w v s) : s.Fit := by
  obtain ⟨w', _, hs, _⟩ := h
  exact hs.fit

theorem Watch.Rests.fit (h : X.Rests place w s) : s.Fit := by
  obtain ⟨w', _, hs⟩ := h
  exact hs.fit

namespace Watch.Here

theorem holds (h : X.Here place w s) : X.holds w s := by
  cases place with
  | none => exact h.2.2
  | some place =>
    obtain ⟨B', hat, _⟩ := h
    exact hat.holds

theorem emitInst (hX : X.KeptByLowering c) (h : X.Here place w s) {op : Op} {operands : List Value}
    (callee : Option String) (hop : op ≠ .phi) (hoperands : ∀ v ∈ operands, X.value w v) :
    Ends (Builder.emitInst op operands callee) s (X.Yields place w) fun _ _ => False := by
  cases place with
  | none =>
    obtain ⟨w', hw, hs', hv⟩ := hX.global
      (i := { op, id := s.nextId, block := 0, operands, callee }) h.holds rfl hoperands
    refine Ends.get_bind ?_
    rw [h.2.1]
    exact .of_ok rfl ⟨w', hw, ⟨h.1, h.2.1, hs'⟩, hv⟩
  | some place =>
    obtain ⟨B', hat, hB⟩ := h
    exact (hat.emitInst hX callee hop hoperands).imp (fun _ _ hs' => hs'.yields hB) fun _ _ => id

theorem freshLiteral (hX : X.KeptByLowering c) (h : X.Here place w s) (n : Int) :
    Ends (Builder.freshLiteral n) s (X.Yields place w) fun _ _ => False := by
  cases place with
  | none =>
    obtain ⟨w', hw, hs', hv⟩ := hX.literal n h.holds
    exact .of_ok rfl ⟨w', hw, ⟨h.1, h.2.1, hs'⟩, hv⟩
  | some place =>
    obtain ⟨B', hat, hB⟩ := h
    exact (hat.freshLiteral hX n).imp (fun _ _ hs' => hs'.yields hB) fun _ _ => id

theorem internString (hX : X.KeptByLowering c) (h : X.Here place w s) (text : String) :
    Ends (Lowering.internString text) s (fun _ => X.Rests place w) fun _ _ => False := by
  cases place with
  | none => exact .of_ok rfl ⟨w, le_rfl, h.1, h.2.1, hX.arrays _ h.holds⟩
  | some place =>
    obtain ⟨B', hat, hB⟩ := h
    exact (hat.internString hX text).imp (fun _ _ hs' => hs'.rests hB) fun _ _ => id

theorem readCurrent (hX : X.KeptByLowering c) (h : X.Here place w s) (x : Nat) :
    Ends (Lowering.readCurrent c x) s (X.Yields place w) fun _ _ => False := by
  cases place with
  | none =>
    refine Ends.get_bind ?_
    rw [h.2.1]
    exact .pure ⟨w, le_rfl, h, hX.outside x h.holds⟩
  | some place =>
    obtain ⟨B', hat, hB⟩ := h
    exact (hat.readCurrent hX.toKeptByReads x).imp (fun _ _ hs' => hs'.yields hB) fun _ _ => id

theorem assignVariable (hX : X.KeptByLowering c) (h : X.Here place w s) (hv : X.value w v)
    (x : Nat) :
    Ends (Lowering.assignVariable c x v) s (fun _ => X.Rests place w) fun _ _ => False := by
  cases place with
  | none =>
    refine .of_ok rfl ⟨w, le_rfl, ?_⟩
    simp only [h.2.1]
    refine ⟨h.1, rfl, ?_⟩
    rw [← h.2.1]
    exact hX.publish x h.holds hv
  | some place =>
    obtain ⟨B', hat, hB⟩ := h
    exact (hat.assignVariable hX hv x).imp (fun _ _ hs' => hs'.rests hB) fun _ _ => id

/-! ## Expressions -/

theorem literal (hX : X.KeptByLowering c) (h : X.Here place w s) (n : Int) :
    Decides c (Traced.literal n) s true (X.Yields place w) := by
  refine Decides.next (h.freshLiteral hX n) (fun _ _ hs' => hs'.fit) ?_
  rintro v s' ⟨w', hw, hs', hv⟩
  refine Decides.call ((hs'.emitInst hX none (by simp) (by simpa using hv)).imp
    (fun _ _ => Yields.mono hw) fun _ _ => id) fun _ _ hs' => hs'.fit

/-- The call that an expression ends with. -/
theorem emit_decides (hX : X.KeptByLowering c) (h : X.Here place w' s) (hw : w ≤ w') {op : Op}
    {operands : List Value} (callee : Option String) (hop : op ≠ .phi)
    (hoperands : ∀ v ∈ operands, X.value w' v) :
    Decides c (Traced.call (Builder.emitInst op operands callee)) s true (X.Yields place w) :=
  Decides.call ((h.emitInst hX callee hop hoperands).imp (fun _ _ => Yields.mono hw) fun _ _ => id)
    fun _ _ hs' => hs'.fit

mutual

/-- **An expression is lowered if and only if it is well formed.** -/
theorem lowerExpr (hX : X.KeptByLowering c) : ∀ (e : Expr) {w : W} {s : Builder},
    X.Here place w s → Decides c (Traced.lowerExpr c e) s (wellFormedExpr c e) (X.Yields place w)
  | .bool _, w, s, h | .number _, w, s, h => by
    rw [Traced.lowerExpr, wellFormedExpr]
    exact h.literal hX _
  | .string text, w, s, h => by
    rw [Traced.lowerExpr, wellFormedExpr]
    refine Decides.next (h.internString hX text) (fun _ _ hs' => hs'.fit) ?_
    rintro slot s' ⟨w', hw, hs'⟩
    exact (hs'.literal hX _).imp fun _ _ => Yields.mono hw
  | .ident node _, w, s, h => by
    rw [Traced.lowerExpr, wellFormedExpr, ← Bool.and_true (c.binds node)]
    refine (Decides.symbolOf h.fit .identifier node).bind ?_
    rintro x _ rfl
    refine Decides.next (h.readCurrent hX x) (fun _ _ hs' => hs'.fit) ?_
    rintro v s' ⟨w', hw, hs', hv⟩
    exact hs'.emit_decides hX hw none (by simp) (by simpa using hv)
  | .binary op lhs rhs, w, s, h => by
    unfold Traced.lowerExpr wellFormedExpr
    by_cases hop : op = .assignment
    · rw [if_pos hop, if_pos hop]
      cases lhs with
      | ident node name =>
        refine (Decides.symbolOf h.fit .identifier node).bind ?_
        rintro x _ rfl
        rw [← Bool.and_true (wellFormedExpr c rhs)]
        refine (lowerExpr hX rhs h).bind ?_
        rintro v s₁ ⟨w₁, hw₁, hs₁, hv⟩
        refine (hs₁.emit_decides hX hw₁ none (by simp) (by simpa using hv)).bind_true ?_
        rintro copy s₂ ⟨w₂, hw₂, hs₂, hcopy⟩
        refine Decides.next (hs₂.assignVariable hX hcopy x) (fun _ _ hs' => hs'.fit) ?_
        rintro _ s₃ ⟨w₃, hw₃, hs₃⟩
        exact .pure ⟨w₃, hw₂.trans hw₃, hs₃, X.mono hw₃ hcopy⟩
      | _ => exact .fail h.fit trivial
    · rw [if_neg hop, if_neg hop]
      -- the operator is looked up before the operands are lowered
      cases ho : Lowering.binaryOp? op with
      | none =>
        have hfault : op = .not ∨ op = .negate := by
          cases op <;> simp [Lowering.binaryOp?] at ho hop ⊢
        have hfalse : (op ≠ .not && op ≠ .negate && wellFormedExpr c lhs &&
            wellFormedExpr c rhs) = false := by
          rcases hfault with rfl | rfl <;> simp
        rw [hfalse]
        exact .fail h.fit hfault
      | some o =>
        have htrue : (op ≠ .not && op ≠ .negate && wellFormedExpr c lhs &&
            wellFormedExpr c rhs) = (wellFormedExpr c lhs && (wellFormedExpr c rhs && true)) := by
          cases op <;> simp [Lowering.binaryOp?] at ho ⊢
        rw [htrue]
        refine (lowerExpr hX lhs h).bind ?_
        rintro x s₁ ⟨w₁, hw₁, hs₁, hx⟩
        refine (lowerExpr hX rhs hs₁).bind ?_
        rintro y s₂ ⟨w₂, hw₂, hs₂, hy⟩
        refine hs₂.emit_decides hX (hw₁.trans hw₂) none (binaryOp?_isTerminator ho).1.1 ?_
        simpa using ⟨X.mono hw₂ hx, hy⟩
  | .unary op operand, w, s, h => by
    rw [Traced.lowerExpr, wellFormedExpr]
    cases ho : Lowering.unaryOp? op with
    | none =>
      have hfault : op ≠ .not ∧ op ≠ .negate ∧ op ≠ .minus := by
        cases op <;> simp [Lowering.unaryOp?] at ho ⊢
      have hfalse : ((op = .not || op = .negate || op = .minus) && wellFormedExpr c operand) =
          false := by
        simp [hfault]
      rw [hfalse]
      exact .fail h.fit hfault
    | some o =>
      have htrue : ((op = .not || op = .negate || op = .minus) && wellFormedExpr c operand) =
          (wellFormedExpr c operand && true) := by
        cases op <;> simp [Lowering.unaryOp?] at ho ⊢
      rw [htrue]
      refine (lowerExpr hX operand h).bind ?_
      rintro v s₁ ⟨w₁, hw₁, hs₁, hv⟩
      exact hs₁.emit_decides hX hw₁ none (unaryOp?_isTerminator ho).1.1 (by simpa using hv)
  | .call node callee args, w, s, h => by
    rw [Traced.lowerExpr, wellFormedExpr]
    refine (Decides.symbolOf h.fit .call node).bind ?_
    rintro x _ rfl
    rw [← Bool.and_true (wellFormedArgs c args)]
    refine (lowerArgs hX args h).bind ?_
    rintro vs s₁ ⟨w₁, hw₁, hs₁, hvs⟩
    exact hs₁.emit_decides hX hw₁ (some callee) (by simp) hvs

/-- The arguments of a call are lowered if and only if they are well formed. -/
theorem lowerArgs (hX : X.KeptByLowering c) : ∀ (es : List Expr) {w : W} {s : Builder},
    X.Here place w s →
    Decides c (Traced.lowerArgs c es) s (wellFormedArgs c es) fun vs s' =>
      ∃ w', w ≤ w' ∧ X.Here place w' s' ∧ ∀ v ∈ vs, X.value w' v
  | [], w, s, h => by
    rw [Traced.lowerArgs, wellFormedArgs]
    exact .pure ⟨w, le_rfl, h, by simp⟩
  | e :: es, w, s, h => by
    unfold Traced.lowerArgs wellFormedArgs
    have hrest : ∀ v s', X.Yields place w v s' →
        Decides c (Traced.lowerArgs c es >>= fun vs => Pure.pure (v :: vs)) s' (wellFormedArgs c es)
          fun vs s' => ∃ w', w ≤ w' ∧ X.Here place w' s' ∧ ∀ v ∈ vs, X.value w' v := by
      rintro v s₁ ⟨w₁, hw₁, hs₁, hv⟩
      rw [← Bool.and_true (wellFormedArgs c es)]
      refine (lowerArgs hX es hs₁).bind ?_
      rintro vs s₂ ⟨w₂, hw₂, hs₂, hvs⟩
      refine .pure ⟨w₂, hw₁.trans hw₂, hs₂, fun u hu => ?_⟩
      rcases List.mem_cons.mp hu with rfl | hu
      · exact X.mono hw₂ hv
      · exact hvs u hu
    have hexpr := lowerExpr hX e h
    cases e with
    | ident node name =>
      -- a variable is handed over without a copy, but the same is asked of it
      rw [wellFormedExpr]
      refine (Decides.symbolOf h.fit .argument node).bind ?_
      rintro x _ rfl
      exact Decides.next (h.readCurrent hX x) (fun _ _ hs' => hs'.fit) hrest
    | _ => exact hexpr.bind hrest

end

/-- The declaration of a variable is lowered if and only if it is well formed. -/
theorem lowerVar (hX : X.KeptByLowering c) (d : VarDecl) (h : X.Here place w s) :
    Decides c (Traced.lowerVar c d) s (wellFormedVar c d) fun _ => X.Rests place w := by
  unfold Traced.lowerVar wellFormedVar
  by_cases hparam : d.isParameter = true
  · rw [if_pos hparam, hparam, Bool.true_or]
    exact .pure ⟨w, le_rfl, h⟩
  · rw [if_neg hparam, Bool.eq_false_of_not_eq_true hparam, Bool.false_or]
    cases d.init with
    | none => exact .pure ⟨w, le_rfl, h⟩
    | some init =>
      -- the symbol is looked up last, and its own value can be read in the initialiser
      refine (h.lowerExpr hX init).bind ?_
      rintro v s₁ ⟨w₁, hw₁, hs₁, hv⟩
      rw [← Bool.and_true (c.binds d.node)]
      refine (Decides.symbolOf hs₁.fit .declaration d.node).bind ?_
      rintro x _ rfl
      refine Decides.call ((hs₁.assignVariable hX hv x).imp ?_ fun _ _ => id)
        fun _ _ hs' => hs'.fit
      rintro _ s₂ ⟨w₂, hw₂, hs₂⟩
      exact ⟨w₂, hw₁.trans hw₂, hs₂⟩

end Watch.Here

/-! ## Blocks and edges -/

/-- Blocks and edges may have come, and this is the current block. -/
def Watch.Goes (X : Watch W) (w : W) (B : Body) (b : Nat) (s' : Builder) : Prop :=
  ∃ w' B', w ≤ w' ∧ X.At w' s' B' b ∧ B.Grown B'

theorem Watch.Goes.fit (h : X.Goes w B b s) : s.Fit := by
  obtain ⟨w', B', _, hat, _⟩ := h
  exact hat.built.fit

theorem Watch.Goes.after (h : X.Goes w' B' b s) (hw : w ≤ w') (hB : B.Grown B') :
    X.Goes w B b s := by
  obtain ⟨w'', B'', hw', hat, hgrown⟩ := h
  exact ⟨w'', B'', hw.trans hw', hat, hB.trans hgrown⟩

/-- Sealing a block for which nothing waits leaves the body alone. -/
theorem body?_of_sealBlock {o : Options} (hpending : s.pending.get? k = none)
    (hrun : sealBlock o k s = .ok () s') : s'.body? = s.body? := by
  unfold sealBlock at hrun
  simp only [bind_eq_ok, get_eq_ok] at hrun
  obtain ⟨_, _, ⟨rfl, rfl⟩, hrun⟩ := hrun
  by_cases hsealed : s.isSealed k = true
  · simp only [hsealed, if_true] at hrun
    obtain ⟨_, rfl⟩ := pure_eq_ok.mp hrun
    rfl
  · simp only [hsealed, hpending] at hrun
    cases hrun
    rfl

theorem Coded.isTerminated_eq (h : Coded s B) (b : Nat) :
    s.isTerminated b = (B.code b).getLast?.any (·.op.isTerminator) := by
  rw [isTerminated, h.body]
  exact Body.any_isTerminated B b

namespace Watch.At

theorem here (h : X.At w s B b) : X.Here (some (B, b)) w s := ⟨B, h, .refl⟩

/-- Control has not left the block into which instructions go. -/
theorem ensureOpenBlock (hX : X.KeptByLowering c) (h : X.At w s B b) :
    Decides c (Traced.ensureOpenBlock c) s true fun _ s' =>
      ∃ b', X.Goes w B b' s' ∧ s'.isTerminated b' = false := by
  unfold Traced.ensureOpenBlock
  refine Decides.next_ok h.getCurrent h.built.fit ?_
  refine Decides.get h.built.fit ?_
  by_cases hterm : s.isTerminated b = true
  · rw [if_pos hterm]
    refine Decides.next (h.createBlock hX) (fun _ _ hs' => hs'.2.1.built.fit) ?_
    rintro k s₁ ⟨rfl, hs₁, hpending⟩
    -- no PHI waits for a block that is new, so nothing is read when it is sealed
    have hnone : s₁.pending.get? B.graph.size = none := by
      cases hl : s₁.pending.get? B.graph.size with
      | none => rfl
      | some l =>
        rw [hpending] at hl
        exact absurd (h.built.queued _ l hl).1 (lt_irrefl _)
    obtain ⟨_, s₂, hrun, w₂, B₂, hw₂, hs₂, _⟩ := (hs₁.sealBlock hX.toKeptByReads _).exists_ok
    have hbody := body?_of_sealBlock hnone hrun
    rw [hs₂.built.coded.body, hs₁.built.coded.body] at hbody
    obtain rfl := Option.some.inj hbody
    refine Decides.next_ok hrun hs₂.built.fit ?_
    refine Decides.call ((hs₂.setCurrent (k := B.graph.size) hX ?_).imp ?_ fun _ _ => id) ?_
    · rw [Body.size_createBlock]
      exact Nat.lt_succ_self _
    · intro _ s₃ hs₃
      refine ⟨_, ⟨w₂, _, hw₂, hs₃, .createBlock⟩, ?_⟩
      rw [hs₃.built.coded.isTerminated_eq, Body.code_createBlock, Body.code_eq_nil le_rfl]
      rfl
    · rintro _ s' ⟨_, hgoes, _⟩
      exact hgoes.fit
  · rw [if_neg hterm]
    exact .pure ⟨b, ⟨w, B, le_rfl, h, .refl⟩, Bool.eq_false_of_not_eq_true hterm⟩

/-- Control goes on from a block, unless it has left the block before. -/
theorem branchTo (hX : X.KeptByLowering c) (h : X.At w s B b) (hp : p < B.graph.size)
    (hk : k < B.graph.size) (hforward : p < k ∨ B.preds k ≠ []) :
    Decides c (Traced.branchTo p k) s true fun _ s' =>
      ∃ w' B', w ≤ w' ∧ X.At w' s' B' b ∧ B.Grown B' ∧
        (s.isTerminated p = false → B'.preds k ≠ []) := by
  unfold Traced.branchTo
  refine Decides.get h.built.fit ?_
  by_cases hterm : s.isTerminated p = true
  · rw [if_pos hterm]
    exact .pure ⟨w, B, le_rfl, h, .refl, fun hopen => absurd (hterm.symm.trans hopen) (by simp)⟩
  · rw [if_neg hterm]
    refine Decides.next (h.emitBranch hX none [k] hp (by simp))
      (fun _ _ hs' => hs'.fit) ?_
    rintro _ s₁ ⟨w₁, B₁, hw₁, hs₁, hframe⟩
    refine Decides.call ((hs₁.addEdge hX (p := p) (k := k) ?_ ?_ ?_).imp ?_ fun _ _ => id) ?_
    · exact hframe.size ▸ hp
    · exact hframe.size ▸ hk
    · exact hforward.imp_right fun hpreds => hframe.preds k ▸ hpreds
    · rintro _ s₂ ⟨B₂, hs₂, hgrown, _, hpreds⟩
      exact ⟨w₁, B₂, hw₁, hs₂, hframe.grown.trans hgrown, fun _ => hpreds⟩
    · rintro _ s₂ ⟨_, _, _, hs₂, _⟩
      exact hs₂.built.fit

/-- A block is entered from another. -/
theorem enterBlock (hX : X.KeptByLowering c) (h : X.At w s B b) (hp : p < B.graph.size) :
    Decides c (Traced.enterBlock c p) s true fun k s' => X.Goes w B k s' := by
  unfold Traced.enterBlock
  refine Decides.next (h.createBlock hX) (fun _ _ hs' => hs'.2.1.built.fit) ?_
  rintro k s₁ ⟨rfl, hs₁, _⟩
  refine Decides.next (hs₁.addEdge hX (p := p) (k := B.graph.size) ?_ ?_ (Or.inl hp))
    (fun _ _ hs' => hs'.choose_spec.1.built.fit) ?_
  · rw [Body.size_createBlock]
    exact hp.trans (Nat.lt_succ_self _)
  · rw [Body.size_createBlock]
    exact Nat.lt_succ_self _
  rintro _ s₂ ⟨B₂, hs₂, hgrown, hsize, _⟩
  refine Decides.next (hs₂.sealBlock hX.toKeptByReads B.graph.size)
    (fun _ _ hs' => hs'.fit) ?_
  rintro _ s₃ ⟨w₃, B₃, hw₃, hs₃, hframe⟩
  refine Decides.next (hs₃.setCurrent (k := B.graph.size) hX ?_) (fun _ _ hs' => hs'.built.fit) ?_
  · rw [hframe.size, hsize, Body.size_createBlock]
    exact Nat.lt_succ_self _
  intro _ s₄ hs₄
  exact .pure ⟨w₃, B₃, hw₃, hs₄, Body.Grown.createBlock.trans (hgrown.trans hframe.grown)⟩

/-- A block branches to a new one if the condition does not hold. -/
theorem branchOn (hX : X.KeptByLowering c) (h : X.At w s B b) (hp : p < B.graph.size)
    (hv : X.value w v) (body : Nat) :
    Decides c (Traced.branchOn p v body) s true fun exit s' =>
      ∃ w' B', w ≤ w' ∧ X.At w' s' B' b ∧ B.Grown B' ∧ exit = B.graph.size ∧
        exit < B'.graph.size := by
  unfold Traced.branchOn
  refine Decides.next (h.createBlock hX) (fun _ _ hs' => hs'.2.1.built.fit) ?_
  rintro exit s₁ ⟨rfl, hs₁, _⟩
  have hp₁ : p < (B.createBlock none).2.graph.size := lt_of_lt_of_le hp Body.Grown.createBlock.size
  refine Decides.next (hs₁.emitBranch hX (some v) [body, B.graph.size] hp₁
    (by simpa using hv)) (fun _ _ hs' => hs'.fit) ?_
  rintro _ s₂ ⟨w₂, B₂, hw₂, hs₂, hframe⟩
  have hexit : B.graph.size < B₂.graph.size := by
    rw [hframe.size, Body.size_createBlock]
    exact Nat.lt_succ_self _
  refine Decides.next (hs₂.addEdge hX (hp.trans hexit) hexit (Or.inl hp))
    (fun _ _ hs' => hs'.choose_spec.1.built.fit) ?_
  rintro _ s₃ ⟨B₃, hs₃, hgrown, hsize, _⟩
  exact .pure ⟨w₂, B₃, hw₂, hs₃, Body.Grown.createBlock.trans (hframe.grown.trans hgrown), rfl,
    hsize ▸ hexit⟩

/-- A block is sealed, and control goes on there. -/
theorem sealAndEnter (hX : X.KeptByLowering c) (h : X.At w s B b) (hk : k < B.graph.size) :
    Decides c (do Traced.call (Builder.sealBlock c.options k); Traced.call (Builder.setCurrent k))
      s true fun _ => X.Goes w B k := by
  refine Decides.next (h.sealBlock hX.toKeptByReads k)
    (fun _ _ hs' => hs'.fit) ?_
  rintro _ s₁ ⟨w₁, B₁, hw₁, hs₁, hframe⟩
  refine Decides.call ((hs₁.setCurrent (k := k) hX (hframe.size ▸ hk)).imp ?_ fun _ _ => id)
    fun _ _ hgoes => hgoes.fit
  intro _ s₂ hs₂
  exact ⟨w₁, B₁, hw₁, hs₂, hframe.grown⟩

/-! ## Statements -/

mutual

/-- **A statement is lowered if and only if it is well formed.** -/
theorem lowerStmt (hX : X.KeptByLowering c) : ∀ (st : Stmt) {w : W} {s : Builder} {B : Body}
    {b : Nat}, X.At w s B b →
    Decides c (Traced.lowerStmt c st) s (wellFormedStmt c st) fun _ s' => ∃ b', X.Goes w B b' s'
  | .compound body, w, s, B, b, h => by
    rw [Traced.lowerStmt, wellFormedStmt]
    refine (h.ensureOpenBlock hX).bind_true ?_
    rintro _ s₁ ⟨b₁, ⟨w₁, B₁, hw₁, hs₁, hB₁⟩, _⟩
    refine (lowerBody hX body hs₁).imp ?_
    rintro _ s₂ ⟨b₂, hs₂⟩
    exact ⟨b₂, hs₂.after hw₁ hB₁⟩
  | .declare d, w, s, B, b, h => by
    rw [Traced.lowerStmt, wellFormedStmt]
    refine (h.ensureOpenBlock hX).bind_true ?_
    rintro _ s₁ ⟨b₁, ⟨w₁, B₁, hw₁, hs₁, hB₁⟩, _⟩
    refine (hs₁.here.lowerVar hX d).imp ?_
    rintro _ s₂ ⟨w₂, hw₂, B₂, hs₂, hframe⟩
    exact ⟨b₁, w₂, B₂, hw₁.trans hw₂, hs₂, hB₁.trans hframe.grown⟩
  | .ifThen cond body, w, s, B, b, h => by
    rw [Traced.lowerStmt, wellFormedStmt]
    refine (h.ensureOpenBlock hX).bind_true ?_
    rintro _ s₁ ⟨b₁, ⟨w₁, B₁, hw₁, hs₁, hB₁⟩, _⟩
    refine (hs₁.here.lowerExpr hX cond).bind ?_
    rintro v s₂ ⟨w₂, hw₂, ⟨B₂, hs₂, hframe₂⟩, hv⟩
    refine Decides.next_ok hs₂.getCurrent hs₂.built.fit ?_
    refine (hs₂.enterBlock hX hs₂.built.lt).bind_true ?_
    rintro thenBlock s₃ ⟨w₃, B₃, hw₃, hs₃, hB₃⟩
    rw [← Bool.and_true (wellFormedBody c body)]
    refine (lowerBody hX body hs₃).bind ?_
    rintro _ s₄ ⟨thenEnd, w₄, B₄, hw₄, hs₄, hB₄⟩
    refine Decides.next_ok hs₄.getCurrent hs₄.built.fit ?_
    have hsource : b₁ < B₄.graph.size :=
      lt_of_lt_of_le hs₂.built.lt (hB₃.size.trans hB₄.size)
    refine (hs₄.branchOn hX hsource (X.mono (hw₃.trans hw₄) hv) thenBlock).bind_true ?_
    rintro exit s₅ ⟨w₅, B₅, hw₅, hs₅, hB₅, hexit, hlt⟩
    -- the exit is made after the statements, so the edge to it goes up
    have hend : thenEnd < exit := hexit ▸ hs₄.built.lt
    refine (hs₅.branchTo hX (hend.trans hlt) hlt (Or.inl hend)).bind_true ?_
    rintro _ s₆ ⟨w₆, B₆, hw₆, hs₆, hB₆, _⟩
    refine (hs₆.sealAndEnter hX (lt_of_lt_of_le hlt hB₆.size)).imp fun _ s₇ hs₇ => ⟨exit, ?_⟩
    have hw := hw₁.trans (hw₂.trans (hw₃.trans (hw₄.trans (hw₅.trans hw₆))))
    exact hs₇.after hw
      (hB₁.trans (hframe₂.grown.trans (hB₃.trans (hB₄.trans (hB₅.trans hB₆)))))
  | .whileDo cond body, w, s, B, b, h => by
    rw [Traced.lowerStmt, wellFormedStmt]
    refine (h.ensureOpenBlock hX).bind_true ?_
    rintro _ s₁ ⟨before, ⟨w₁, B₁, hw₁, hs₁, hB₁⟩, hopen⟩
    refine Decides.next_ok hs₁.getCurrent hs₁.built.fit ?_
    refine Decides.next (hs₁.createBlock hX) (fun _ _ hs' => hs'.2.1.built.fit) ?_
    rintro header s₂ ⟨hheader, hs₂, _⟩
    have hbefore : before < header := hheader ▸ hs₁.built.lt
    have hlt₂ : header < (B₁.createBlock none).2.graph.size := by
      rw [hheader, Body.size_createBlock]
      exact Nat.lt_succ_self _
    refine (hs₂.branchTo hX (hbefore.trans hlt₂) hlt₂ (Or.inl hbefore)).bind_true ?_
    rintro _ s₃ ⟨w₃, B₃, hw₃, hs₃, hB₃, hpreds⟩
    -- control has not left the block before the loop, so the header has a predecessor
    have hpreds₃ : B₃.preds header ≠ [] := by
      apply hpreds
      rw [hs₁.built.coded.isTerminated_eq] at hopen
      rw [hs₂.built.coded.isTerminated_eq, Body.code_createBlock, hopen]
    have hlt₃ := lt_of_lt_of_le hlt₂ hB₃.size
    refine Decides.next (hs₃.setCurrent hX hlt₃) (fun _ _ hs' => hs'.built.fit) ?_
    intro _ s₄ hs₄
    refine (hs₄.here.lowerExpr hX cond).bind ?_
    rintro v s₅ ⟨w₅, hw₅, ⟨B₅, hs₅, hframe₅⟩, hv⟩
    refine Decides.next_ok hs₅.getCurrent hs₅.built.fit ?_
    refine (hs₅.enterBlock hX hs₅.built.lt).bind_true ?_
    rintro bodyBlock s₆ ⟨w₆, B₆, hw₆, hs₆, hB₆⟩
    rw [← Bool.and_true (wellFormedBody c body)]
    refine (lowerBody hX body hs₆).bind ?_
    rintro _ s₇ ⟨bodyEnd, w₇, B₇, hw₇, hs₇, hB₇⟩
    refine Decides.next_ok hs₇.getCurrent hs₇.built.fit ?_
    have hB₃₇ : B₃.Grown B₇ := hframe₅.grown.trans (hB₆.trans hB₇)
    refine (hs₇.branchOn hX (lt_of_lt_of_le hlt₃ hB₃₇.size) (X.mono (hw₆.trans hw₇) hv)
      bodyBlock).bind_true ?_
    rintro exit s₈ ⟨w₈, B₈, hw₈, hs₈, hB₈, hexit, hlt₈⟩
    have hB₃₈ : B₃.Grown B₈ := hB₃₇.trans hB₈
    -- the edge back goes down, and the header has the edge from before the loop besides
    refine (hs₈.branchTo hX (lt_of_lt_of_le hs₇.built.lt hB₈.size)
      (lt_of_lt_of_le hlt₃ hB₃₈.size) (Or.inr (hB₃₈.preds_ne_nil hpreds₃))).bind_true ?_
    rintro _ s₉ ⟨w₉, B₉, hw₉, hs₉, hB₉, _⟩
    refine Decides.next (hs₉.sealBlock hX.toKeptByReads header)
      (fun _ _ hs' => hs'.fit) ?_
    rintro _ s₁₀ ⟨w₁₀, B₁₀, hw₁₀, hs₁₀, hframe₁₀⟩
    refine (hs₁₀.sealAndEnter hX (hframe₁₀.size ▸ lt_of_lt_of_le hlt₈ hB₉.size)).imp
      fun _ s₁₁ hs₁₁ => ⟨exit, ?_⟩
    have hw :=
      hw₁.trans (hw₃.trans (hw₅.trans (hw₆.trans (hw₇.trans (hw₈.trans (hw₉.trans hw₁₀))))))
    exact hs₁₁.after hw (hB₁.trans (Body.Grown.createBlock.trans (hB₃.trans
      (hB₃₈.trans (hB₉.trans hframe₁₀.grown)))))
  | .ret none, w, s, B, b, h => by
    rw [Traced.lowerStmt, wellFormedStmt]
    refine (h.ensureOpenBlock hX).bind_true ?_
    rintro _ s₁ ⟨b₁, ⟨w₁, B₁, hw₁, hs₁, hB₁⟩, _⟩
    refine (hs₁.here.emit_decides hX le_rfl none (by simp) (by simp)).bind_true ?_
    rintro v s₂ ⟨w₂, hw₂, ⟨B₂, hs₂, hframe⟩, _⟩
    exact .pure ⟨b₁, w₂, B₂, hw₁.trans hw₂, hs₂, hB₁.trans hframe.grown⟩
  | .ret (some value), w, s, B, b, h => by
    rw [Traced.lowerStmt, wellFormedStmt]
    refine (h.ensureOpenBlock hX).bind_true ?_
    rintro _ s₁ ⟨b₁, ⟨w₁, B₁, hw₁, hs₁, hB₁⟩, _⟩
    rw [← Bool.and_true (wellFormedExpr c value)]
    refine (hs₁.here.lowerExpr hX value).bind ?_
    rintro v s₂ ⟨w₂, hw₂, hs₂, hv⟩
    refine (hs₂.emit_decides hX le_rfl none (by simp) (by simpa using hv)).bind_true ?_
    rintro _ s₃ ⟨w₃, hw₃, ⟨B₃, hs₃, hframe⟩, _⟩
    exact .pure ⟨b₁, w₃, B₃, hw₁.trans (hw₂.trans hw₃), hs₃, hB₁.trans hframe.grown⟩
  | .print _, w, s, B, b, h | .scan _, w, s, B, b, h => by
    rw [Traced.lowerStmt, wellFormedStmt]
    refine (h.ensureOpenBlock hX).bind_true ?_
    rintro _ s₁ ⟨b₁, hs₁, _⟩
    exact .pure ⟨b₁, hs₁⟩
  | .expr value, w, s, B, b, h => by
    rw [Traced.lowerStmt, wellFormedStmt]
    refine (h.ensureOpenBlock hX).bind_true ?_
    rintro _ s₁ ⟨b₁, ⟨w₁, B₁, hw₁, hs₁, hB₁⟩, _⟩
    rw [← Bool.and_true (wellFormedExpr c value)]
    refine (hs₁.here.lowerExpr hX value).bind ?_
    rintro v s₂ ⟨w₂, hw₂, ⟨B₂, hs₂, hframe⟩, _⟩
    exact .pure ⟨b₁, w₂, B₂, hw₁.trans hw₂, hs₂, hB₁.trans hframe.grown⟩

/-- Statements are lowered if and only if they are well formed. -/
theorem lowerBody (hX : X.KeptByLowering c) : ∀ (body : List Stmt) {w : W} {s : Builder} {B : Body}
    {b : Nat}, X.At w s B b →
    Decides c (Traced.lowerBody c body) s (wellFormedBody c body) fun _ s' => ∃ b', X.Goes w B b' s'
  | [], w, s, B, b, h => by
    rw [Traced.lowerBody, wellFormedBody]
    exact .pure ⟨b, w, B, le_rfl, h, .refl⟩
  | st :: rest, w, s, B, b, h => by
    rw [Traced.lowerBody, wellFormedBody]
    refine (lowerStmt hX st h).bind ?_
    rintro _ s₁ ⟨b₁, w₁, B₁, hw₁, hs₁, hB₁⟩
    refine (lowerBody hX rest hs₁).imp ?_
    rintro _ s₂ ⟨b₂, hs₂⟩
    exact ⟨b₂, hs₂.after hw₁ hB₁⟩

end

/-! ## Functions -/

/-- A parameter is lowered if and only if it is bound. -/
theorem lowerParam (hX : X.KeptByLowering c) (h : X.At w s B b) (entry : Nat) (d : VarDecl) :
    Decides c (Traced.lowerParam c entry d) s (c.binds d.node) fun _ => X.Goes w B b := by
  unfold Traced.lowerParam
  rw [← Bool.and_true (c.binds d.node)]
  refine (Decides.symbolOf h.built.fit .parameter d.node).bind ?_
  rintro x _ rfl
  have hdrawn : Built { s with nextId := s.nextId + 1 } B b :=
    h.built.same rfl (Nat.le_succ _) rfl rfl
  refine Decides.next_ok (a := s.nextId) rfl hdrawn.fit ?_
  obtain ⟨fn, hfn, rfl⟩ := h.built.coded.exists_opened
  obtain ⟨w', hw, hs', hv⟩ := hX.argument hfn h.holds
  have hadded := hdrawn.addArgument (.argument s.nextId)
  refine Decides.next_ok (changeBody_eq_ok.mpr ⟨fn, _, hfn, rfl, rfl⟩) hadded.fit ?_
  refine Decides.call ((?_ : X.Goes w fn.body b _) |> .of_ok rfl) fun _ _ hgoes => hgoes.fit
  exact ⟨w', _, hw, ⟨hadded.same rfl le_rfl rfl rfl, hX.remember (x, entry) hs' hv⟩, .addArgument⟩

end Watch.At

namespace Watch.Here

theorem beginFunction (hX : X.KeptByLowering c) (h : X.Here none w s) (name : String) :
    Ends (Builder.beginFunction name) s
      (fun entry s' => entry = 0 ∧ ∃ w' B, w ≤ w' ∧ X.At w' s' B 0) fun _ _ => False := by
  obtain ⟨entry, s', hrun⟩ := exists_beginFunction h.1 name
  obtain ⟨w', hw, hs'⟩ := hX.begin h.holds hrun
  obtain ⟨rfl, B, hsound, hsize, _, _, hpreds, _, heq⟩ := Sound.begin hrun
  refine .of_ok hrun ⟨rfl, w', B, hw, ⟨hsound.coded, ?_, ?_, ?_, ?_, ?_⟩, hs'⟩
  · intro k l hl
    rw [heq] at hl
    cases hl
  · rw [heq]
  · rw [hsize]
    exact Nat.one_pos
  · intro k q hq
    rw [hpreds] at hq
    cases hq
  · intro k q l hl
    rw [hpreds] at hl
    cases hl

/-- The statements of a function are lowered if and only if it is well formed. -/
theorem buildFunction (hX : X.KeptByLowering c) (h : X.Here none w s) (d : FunctionDecl) :
    Decides c (Traced.buildFunction c d) s (wellFormedDecl c (.function d)) fun _ s' =>
      ∃ w' B b, w ≤ w' ∧ X.At w' s' B b := by
  rw [Traced.buildFunction, wellFormedDecl]
  refine Decides.next (h.beginFunction hX d.name) ?_ ?_
  · rintro _ s₁ ⟨_, w₁, B, _, hs₁⟩
    exact hs₁.built.fit
  rintro _ s₁ ⟨rfl, w₁, B, hw₁, hs₁⟩
  -- parameters add arguments only, so the entry stays the current block
  refine Decides.bind (Decides.forM (I := X.Goes w₁ B 0) ?_ d.params s₁
    ⟨w₁, B, le_rfl, hs₁, .refl⟩) ?_
  · rintro param s₂ ⟨w₂, B₂, hw₂, hs₂, hB₂⟩
    exact (hs₂.lowerParam hX 0 param).imp fun _ _ hs' => hs'.after hw₂ hB₂
  · rintro _ s₂ ⟨w₂, B₂, hw₂, hs₂, _⟩
    refine (hs₂.lowerBody hX d.body).imp ?_
    rintro _ s₃ ⟨b₃, w₃, B₃, hw₃, hs₃, _⟩
    exact ⟨w₃, B₃, b₃, hw₁.trans (hw₂.trans hw₃), hs₃⟩

/-- At the end of a function no PHI waits, so it can be ended. -/
theorem endFunction (hX : X.KeptByLowering c) {d : FunctionDecl} (hs : s.Resting)
    (hbuild : Lowering.buildFunction c d s = .ok () s') (h : X.At w s' B b) :
    Ends Builder.endFunction s' (fun _ => X.Rests none w) fun _ _ => False := by
  obtain ⟨S, rfl, hS⟩ := buildFunction_complete (Setting.free_fits (c := c) hs.globals)
    Setting.free_allows hbuild
  have hpending : S.state.pending.keys.min? = none := by
    rw [List.min?_eq_none_iff, List.eq_nil_iff_forall_not_mem]
    intro k hk
    obtain ⟨l, hl⟩ := Option.ne_none_iff_exists'.mp fun hnone =>
      (OrderedMap.get?_eq_none_iff _ _).mp hnone hk
    -- a list of waiting PHIs has an element, and that waits
    obtain ⟨⟨x, p⟩, l', rfl⟩ := List.exists_cons_of_ne_nil (h.built.queued k l hl).2
    exact hS.finished.waits x k p ⟨_, hl, List.mem_cons_self⟩
  have hrun := endFunction_eq_ok.mpr ⟨_, hS.name, hpending, rfl⟩
  obtain ⟨w', hw, hs'⟩ := hX.finish h.built.coded h.holds hrun
  exact .of_ok hrun ⟨w', hw, rfl, rfl, hs'⟩

/-! ## Programs -/

/-- **A declaration is lowered if and only if it is well formed.** -/
theorem lowerDecl (hX : X.KeptByLowering c) (hs : s.Resting) (h : X.Here none w s) (D : Decl) :
    Decides c (Traced.lowerDecl c D) s (wellFormedDecl c D) fun _ s' =>
      s'.Resting ∧ X.Rests none w s' := by
  have hdecl : Decides c (Traced.lowerDecl c D) s (wellFormedDecl c D) fun _ => X.Rests none w := by
    cases D with
    | function d =>
      rw [Traced.lowerDecl, ← Bool.and_true (wellFormedDecl c (.function d))]
      refine (h.buildFunction hX d).with_result.bind ?_
      rintro _ s₁ ⟨hbuild, w₁, B, b, hw₁, hs₁⟩
      rw [Traced.result_buildFunction] at hbuild
      refine Decides.call ((endFunction hX hs hbuild hs₁).imp ?_ fun _ _ => id)
        fun _ _ hs' => hs'.fit
      rintro _ s₂ ⟨w₂, hw₂, hs₂⟩
      exact ⟨w₂, hw₁.trans hw₂, hs₂⟩
    | var d => exact h.lowerVar hX d
  refine hdecl.with_result.imp ?_
  rintro _ s' ⟨hrun, hs'⟩
  rw [Traced.result_lowerDecl] at hrun
  exact ⟨(lowerDecl_evolves hs hrun).resting, hs'⟩

end Watch.Here

/-- A program is lowered if and only if it is well formed.  What is handed over is the unit of a
state in which the property holds. -/
theorem Watch.KeptByLowering.run (hX : X.KeptByLowering c) (h : X.holds w {}) (p : Program)
    (s₀ : Builder) :
    Decides c (Traced.run c p) s₀ (wellFormed c p) fun u s' =>
      ∃ w' s₁, w ≤ w' ∧ X.Here none w' s₁ ∧ u = s₁.compiled ∧ s' = { s₁ with compiled := {} } := by
  unfold Traced.run wellFormed
  refine Decides.next_ok (show (set ({} : Builder) : Build PUnit) s₀ = .ok () {} from rfl)
    (.of_opened rfl) ?_
  rw [← Bool.and_true (p.all _)]
  refine Decides.bind (Decides.forM (I := fun s => s.Resting ∧ X.Rests none w s) ?_ p {}
    ⟨resting_empty, w, le_rfl, rfl, rfl, h⟩) ?_
  · rintro D s ⟨hs, w₁, hw₁, hs₁⟩
    refine (hs₁.lowerDecl hX hs D).imp ?_
    rintro _ s' ⟨hs', w₂, hw₂, hs₂⟩
    exact ⟨hs', w₂, hw₁.trans hw₂, hs₂⟩
  · rintro _ s₁ ⟨_, w₁, hw₁, hs₁⟩
    refine Decides.call (.of_ok rfl ⟨w₁, s₁, hw₁, hs₁, rfl, rfl⟩) ?_
    rintro _ _ ⟨_, s₂, _, hs₂, _, rfl⟩
    exact .of_opened hs₂.1

end Builder

/-- **A program is compiled if and only if it is well formed, and otherwise the error is a fault of
the tree.** -/
theorem run_eq_ok_iff_wellFormed (c : Context) (p : Program) (s₀ : Builder) :
    ((∃ u s, Lowering.run c p s₀ = .ok u s) ↔ wellFormed c p = true) ∧
      ∀ e s, Lowering.run c p s₀ = .error e s →
        ∃ cause, e = .construction cause ∧ cause.Faults c := by
  have h := ((Watch.nothing_keptByLowering (W := Nat) c).run (w := 0) trivial p s₀).ends
  rw [Traced.result_run] at h
  cases hrun : Lowering.run c p s₀ with
  | ok u s =>
    have hwell := (h.ok hrun).1
    refine ⟨⟨fun _ => hwell, fun _ => ⟨u, s, rfl⟩⟩, ?_⟩
    intro e s' he
    cases he
  | error e s =>
    obtain ⟨hill, _, hcause⟩ := h.error hrun
    refine ⟨⟨?_, fun hwell => absurd (hill.symm.trans hwell) (by simp)⟩, ?_⟩
    · rintro ⟨u, s', hu⟩
      cases hu
    · intro e' s' he
      cases he
      exact hcause

end Compiler16.Ssa
