import Compiler16.Proofs.Accesses
import Compiler16.Proofs.Stages

/-!
# Lowering of expressions

An expression is lowered in the current block: instructions are emitted there that
compute its value, and variables are written there.  The block is left open.

## Main definitions

* `Extends`: instructions were emitted into a block, and nothing else has happened
* `Emits`, `Hands`: an expression was lowered, and the arguments of a call

## Main results

* `lowerExpr_emits`, `lowerArgs_hands`: what lowering does
-/

namespace Compiler16.Ssa

open Compiler16.Source Compiler16.Flow Compiler16.Ssa.Builder Compiler16.Ssa.Lowering

variable {F : Setting} {c : Context}

/-! ## Symbols -/

section Symbols

variable {s s' : Builder} {x b node : Nat} {v : Value}

theorem symbolOf_eq_ok {role : NodeRole} :
    symbolOf c role node s = .ok x s' ↔ c.symbol? node = some x ∧ s = s' := by
  unfold symbolOf Context.symbol?
  cases c.symbols.resolve? node with
  | none => simp
  | some r =>
    obtain ⟨y, info⟩ := r
    simp

theorem readCurrent_eq_ok (hcur : s.current = some b) :
    readCurrent c x s = .ok v s' ↔ readVariable c.options x b s = .ok v s' := by
  unfold readCurrent
  simp only [bind_eq_ok, get_eq_ok]
  constructor
  · rintro ⟨_, _, ⟨rfl, rfl⟩, hrun⟩
    simpa only [hcur] using hrun
  · intro hrun
    exact ⟨s, s, ⟨rfl, rfl⟩, by simpa only [hcur] using hrun⟩

theorem assignVariable_eq_ok (hcur : s.current = some b) :
    assignVariable c x v s = .ok () s' ↔ { s with
      defs := s.defs.insert (x, b) v
      globalDefs := if c.symbols.isGlobal x then s.globalDefs.insert x v else s.globalDefs } =
      s' := by
  unfold assignVariable
  rw [modify_eq_ok, hcur]

end Symbols

/-! ## Runs of the lowering -/

section Inversion

variable {s s' : Builder} {v : Value} {e lhs rhs : Expr} {es : List Expr} {node : Nat}
  {name : String} {op : Operator}

theorem lowerExpr_ident (h : lowerExpr c (.ident node name) s = .ok v s') :
    ∃ x a s₁, c.symbol? node = some x ∧ readCurrent c x s = .ok a s₁ ∧
      emit .mov [a] s₁ = .ok v s' := by
  simp only [lowerExpr, bind_eq_ok, symbolOf_eq_ok] at h
  obtain ⟨x, _, ⟨hx, rfl⟩, a, s₁, hread, hemit⟩ := h
  exact ⟨x, a, s₁, hx, hread, hemit⟩

/-- An operator between two operands: an assignment, or an operation. -/
theorem lowerExpr_binary (h : lowerExpr c (.binary op lhs rhs) s = .ok v s') :
    (∃ node name x a s₁ s₂, op = .assignment ∧ lhs = .ident node name ∧ c.symbol? node = some x ∧
      lowerExpr c rhs s = .ok a s₁ ∧ emit .mov [a] s₁ = .ok v s₂ ∧
      assignVariable c x v s₂ = .ok () s') ∨
    ∃ o a b s₁ s₂, op ≠ .assignment ∧ binaryOp? op = some o ∧ lowerExpr c lhs s = .ok a s₁ ∧
      lowerExpr c rhs s₁ = .ok b s₂ ∧ emit o [a, b] s₂ = .ok v s' := by
  by_cases hop : op = .assignment
  · subst hop
    cases lhs with
    | ident node name =>
      simp only [lowerExpr, if_true, bind_eq_ok, symbolOf_eq_ok, pure_eq_ok] at h
      obtain ⟨x, _, ⟨hx, rfl⟩, a, s₁, hrhs, copy, s₂, hemit, _, _, hassign, rfl, rfl⟩ := h
      exact Or.inl ⟨node, name, x, a, s₁, s₂, rfl, rfl, hx, hrhs, hemit, hassign⟩
    | _ => simp [lowerExpr] at h
  · rw [lowerExpr.eq_def] at h
    simp only [if_neg hop] at h
    cases ho : binaryOp? op with
    | none => simp [ho] at h
    | some o =>
      simp only [ho, bind_eq_ok] at h
      obtain ⟨a, s₁, hlhs, b, s₂, hrhs, hemit⟩ := h
      exact Or.inr ⟨o, a, b, s₁, s₂, hop, rfl, hlhs, hrhs, hemit⟩

theorem lowerExpr_unary (h : lowerExpr c (.unary op e) s = .ok v s') :
    ∃ o a s₁, unaryOp? op = some o ∧ lowerExpr c e s = .ok a s₁ ∧ emit o [a] s₁ = .ok v s' := by
  rw [lowerExpr] at h
  cases ho : unaryOp? op with
  | none => simp [ho] at h
  | some o =>
    simp only [ho, bind_eq_ok] at h
    obtain ⟨a, s₁, he, hemit⟩ := h
    exact ⟨o, a, s₁, rfl, he, hemit⟩

theorem lowerExpr_call {callee : String} (h : lowerExpr c (.call node callee es) s = .ok v s') :
    ∃ x vs s₁, c.symbol? node = some x ∧ lowerArgs c es s = .ok vs s₁ ∧
      emitCall callee vs s₁ = .ok v s' := by
  simp only [lowerExpr, bind_eq_ok, symbolOf_eq_ok] at h
  obtain ⟨x, _, ⟨hx, rfl⟩, vs, s₁, hargs, hcall⟩ := h
  exact ⟨x, vs, s₁, hx, hargs, hcall⟩

/-- An argument of a call: a variable, which is only read, or another expression. -/
theorem lowerArgs_cons {vs : List Value} (h : lowerArgs c (e :: es) s = .ok vs s') :
    ∃ v us s₁, vs = v :: us ∧ lowerArgs c es s₁ = .ok us s' ∧
      ((∃ node name x, e = .ident node name ∧ c.symbol? node = some x ∧
          readCurrent c x s = .ok v s₁) ∨
        (∀ node name, e ≠ .ident node name) ∧ lowerExpr c e s = .ok v s₁) := by
  cases e with
  | ident node name =>
    simp only [lowerArgs, bind_eq_ok, symbolOf_eq_ok, pure_eq_ok] at h
    obtain ⟨x, _, ⟨hx, rfl⟩, v, s₁, hread, us, _, hargs, rfl, rfl⟩ := h
    exact ⟨v, us, s₁, rfl, hargs, Or.inl ⟨node, name, x, rfl, hx, hread⟩⟩
  | _ =>
    simp only [lowerArgs, bind_eq_ok, pure_eq_ok] at h
    obtain ⟨v, s₁, hexpr, us, _, hargs, rfl, rfl⟩ := h
    exact ⟨v, us, s₁, rfl, hargs, Or.inr ⟨fun _ _ => Expr.noConfusion, hexpr⟩⟩

end Inversion

/-! ## Instructions in a block -/

namespace View

variable {V : View} {b : Nat} {seg seg' : List Emitted} {known known' : Nat → Option Value}

@[simp] theorem emit_nil : V.emit b [] = V := by
  ext1 <;> simp

@[simp] theorem learn_self : V.learn b (V.known b) = V := by
  ext1 <;> simp

theorem learn_emit_learn : (((V.emit b seg).learn b known).emit b seg').learn b known' =
    (V.emit b (seg ++ seg')).learn b known' := by
  ext1 <;> simp

end View

/-- Instructions were emitted into a block, and nothing else has changed but what was
written there, and the texts.  What was in use is not removed. -/
structure Extends (b : Nat) (seg : List Emitted) (t : Nat) (log : Log) (S S' : Stage F) : Prop where
  onward : Onward t log S S'
  view : S'.view = (S.view.emit b seg).learn b (S'.view.known b)
  live : ∀ w, S.state.Live w → S'.state.Live w

namespace Extends

variable {b t t' : Nat} {seg seg' : List Emitted} {log log' : Log} {S S' S'' : Stage F}

/-- Nothing is seen of the change. -/
theorem of_view_eq (h : Onward t log S S') (hview : S'.view = S.view)
    (hlive : ∀ w, S.state.Live w → S'.state.Live w) : Extends b [] t log S S' :=
  ⟨h, by simp [hview], hlive⟩

theorem refl : Extends b [] 0 [] S S := of_view_eq .refl rfl fun _ hw => hw

/-- Nothing is removed. -/
theorem of_removed (h : Onward t log S S')
    (hview : S'.view = (S.view.emit b seg).learn b (S'.view.known b))
    (hremoved : S'.state.removed = S.state.removed) : Extends b seg t log S S' :=
  ⟨h, hview, fun _ hw => hw.mono h.advances.nextId hremoved⟩

theorem trans (h : Extends b seg t log S S') (h' : Extends b seg' t' log' S' S'') :
    Extends b (seg ++ seg') (t + t') (log' ++ log) S S'' where
  onward := h.onward.trans h'.onward
  view := by
    have hview := h'.view
    rw [h.view] at hview
    rw [hview, View.learn_emit_learn]
    simp
  live w hw := h'.live w (h.live w hw)

theorem emitted (h : Extends b seg t log S S') : S'.view.emitted b = S.view.emitted b ++ seg := by
  rw [h.view]
  simp

theorem stays (h : Extends b seg t log S S') (hat : S.At b) : S'.At b := by
  constructor <;> rw [h.view]
  · exact hat.current
  · exact hat.last
  · exact hat.leaves

theorem closed_eq_false (h : Extends b seg t log S S') (hopen : S.view.closed b = false)
    (hplain : ∀ d ∈ seg, d.op.isTerminator = false) : S'.view.closed b = false := by
  rw [View.closed, h.emitted, List.getLast?_append]
  cases hlast : seg.getLast? with
  | none => exact hopen
  | some d => exact hplain d (List.mem_of_getLast? hlast)

end Extends

namespace Stage

variable (S : Stage F) {b x : Nat} {v : Value} {s' : Builder}

theorem known_below (h : S.view.known b x = some v) : v.Below S.state.nextId :=
  fun i hi => (S.inside.sound.write_inert x b v h i hi).1

theorem below_roleOf : (roleOf (S.view.known b) x).Below S.state.nextId := by
  unfold roleOf
  cases hx : S.view.known b x with
  | none => trivial
  | some v => exact S.known_below hx

/-- A variable is read as an operand. -/
theorem provided_roleOf : S.Provided b [roleOf (S.view.known b) x] := by
  unfold Provided roleOf
  cases hx : S.view.known b x with
  | none => simp
  | some v =>
    simp only [List.mem_singleton, Role.fixed.injEq, reduceCtorEq, not_false_eq_true, forall_eq,
      true_and]
    rcases S.inside.tidy.write x b v hx with harg | ⟨e, he, hv, _⟩
    · exact Or.inl harg
    · exact Or.inr (Or.inr ⟨e, he, hv⟩)

/-- **A variable is assigned in the current block.** -/
theorem assign {e : Emitted} (hat : S.At b) (he : e ∈ S.view.emitted b) (hv : v = .result e.id)
    (hop : e.op.isTerminator = false)
    (hallowed : F.context.symbols.isGlobal x = true → F.before x v)
    (hrun : assignVariable F.context x v S.state = .ok () s') : ∃ S' : Stage F, S'.state = s' ∧
      S'.view.known b = Function.update (S.view.known b) x (some v) ∧
      Extends b [] 0 [(.write x b v, none)] S S' := by
  obtain rfl := (assignVariable_eq_ok hat.current).mp hrun
  have hglobals : (if F.context.symbols.isGlobal x then S.state.globalDefs.insert x v
      else S.state.globalDefs) = S.state.globalDefs ∨ F.context.symbols.isGlobal x = true ∧
        (if F.context.symbols.isGlobal x then S.state.globalDefs.insert x v
          else S.state.globalDefs) = S.state.globalDefs.insert x v ∧ F.before x v := by
    cases hx : F.context.symbols.isGlobal x with
    | true => exact Or.inr ⟨rfl, by simp, hallowed hx⟩
    | false => exact Or.inl (by simp)
  obtain ⟨S', hS', honward, hview⟩ := S.write hat he hv hop hglobals
  have hremoved : S'.state.removed = S.state.removed := by rw [hS']
  have hknown : S'.view.known b = Function.update (S.view.known b) x (some v) := by
    rw [hview]
    simp
  exact ⟨S', hS', hknown, .of_removed honward (by simp [hview]) hremoved⟩

end Stage

/-! ## What lowering does -/

/-- What a function may assign: a variable of the outermost scope only if it may have any
value before later functions. -/
def Setting.Allows (F : Setting) (xs : List Nat) : Prop :=
  ∀ x ∈ xs, F.context.symbols.isGlobal x = true → ∀ v, F.before x v

/-- An expression was lowered in a block. -/
structure Emits (e : Expr) (b : Nat) (S S' : Stage F) (seg : List Emitted) (v : Value) : Prop where
  step : Extends b seg e.texts ((Traced.lowerExpr F.context e).accesses S.state) S S'
  plain : ∀ d ∈ seg, d.op.isTerminator = false
  value : ∃ d ∈ seg, v = .result d.id
  computes : ∀ {V W : Type} (I : Interpretation V W) (args : Nat → V),
    Computes I args (evalExpr I F.context e S.slot) S.state.nextId (S.view.known b) seg
      (S'.view.known b) v

/-- The arguments of a call were lowered in a block. -/
structure Hands (es : List Expr) (log : Log) (b : Nat) (S S' : Stage F) (seg : List Emitted)
    (roles : List Role) (vs : List Value) : Prop where
  step : Extends b seg (Expr.textsOf es) log S S'
  plain : ∀ d ∈ seg, d.op.isTerminator = false
  plays : List.Forall₂ (S'.ledger.Plays S'.state.nextId S'.body.preds b) roles vs
  provided : S'.Provided b roles
  live : ∀ w ∈ vs, S'.state.Live w
  computes : ∀ {V W : Type} (I : Interpretation V W) (args : Nat → V),
    Prepares I args (evalArgs I F.context es S.slot) S.state.nextId (S.view.known b) seg
      (S'.view.known b) roles

section Parts

variable {S S₁ S₂ : Stage F} {b x node : Nat} {v : Value} {s' : Builder} {e : Expr} {es : List Expr}
  {seg seg' : List Emitted} {roles : List Role} {vs : List Value} {name : String} {log log' : Log}

theorem Emits.mem_emitted (h : Emits e b S S₁ seg v) :
    ∃ d ∈ S₁.view.emitted b, v = .result d.id := by
  obtain ⟨d, hd, hv⟩ := h.value
  refine ⟨d, ?_, hv⟩
  rw [h.step.emitted]
  exact List.mem_append_right _ hd

theorem Emits.below (h : Emits e b S S₁ seg v) : v.Below S₁.state.nextId := by
  obtain ⟨d, hd, rfl⟩ := h.mem_emitted
  exact fun i hi => (S₁.inside.base_of_emitted hd i hi).1

namespace Hands

theorem nil : Hands [] [] b S S [] [] [] where
  step := .refl
  plain := by simp
  plays := .nil
  provided := ⟨by simp, by simp⟩
  live := by simp
  computes I args := Prepares.nil

/-- The first operand is the value of an expression. -/
theorem cons (h : Emits e b S S₁ seg v) (hs : Hands es log b S₁ S₂ seg' roles vs) :
    Hands (e :: es) (log ++ (Traced.lowerExpr F.context e).accesses S.state) b S S₂ (seg ++ seg')
      (.fixed v :: roles) (v :: vs) := by
  obtain ⟨d, hd, hv⟩ := h.mem_emitted
  have hd₂ : d ∈ S₂.view.emitted b := by
    rw [hs.step.emitted]
    exact List.mem_append_left _ hd
  constructor
  case step => exact h.step.trans hs.step
  case plain =>
    intro e he
    rcases List.mem_append.mp he with he | he
    · exact h.plain e he
    · exact hs.plain e he
  case plays => exact .cons ⟨rfl, hv ▸ S₂.inside.base_of_emitted hd₂⟩ hs.plays
  case provided =>
    refine ⟨?_, fun w hw => ?_⟩
    · rw [List.mem_cons, not_or]
      exact ⟨nofun, hs.provided.1⟩
    · rcases List.mem_cons.mp hw with hw | hw
      · cases hw
        exact Or.inr (Or.inr ⟨d, hd₂, hv⟩)
      · exact hs.provided.2 w hw
  case live =>
    intro w hw
    rcases List.mem_cons.mp hw with rfl | hw
    · rw [hv]
      exact S₂.inside.live_of_emitted hd₂
    · exact hs.live w hw
  case computes =>
    intro V W I args
    have hrest := hs.computes I args
    rw [h.step.onward.slot] at hrest
    exact Prepares.cons (h.computes I args) h.step.onward.advances.nextId h.below hrest

/-- The first operand is a variable. -/
theorem consVar (hx : F.context.symbol? node = some x) (hstep : Extends b [] 0 log S S₁)
    (hview : S₁.view = S.view) (hlive : S₁.state.Live v)
    (hplays : S₁.ledger.Plays S₁.state.nextId S₁.body.preds b (roleOf (S.view.known b) x) v)
    (hs : Hands es log' b S₁ S₂ seg roles vs) :
    Hands (.ident node name :: es) (log' ++ log) b S S₂ seg (roleOf (S.view.known b) x :: roles)
      (v :: vs) := by
  have hprovided : S₁.Provided b [roleOf (S.view.known b) x] := hview ▸ S₁.provided_roleOf
  have hbelow : (roleOf (S.view.known b) x).Below S₁.state.nextId := hview ▸ S₁.below_roleOf
  have honward := hstep.onward
  have hadv := hs.step.onward.advances
  have hmem : ∀ d ∈ S₁.view.emitted b, d ∈ S₂.view.emitted b := by
    intro d hd
    rw [hs.step.emitted]
    exact List.mem_append_left _ hd
  constructor
  case step => exact hstep.trans hs.step
  case plain => exact hs.plain
  case plays =>
    refine .cons ?_ hs.plays
    -- what is computed for the later arguments leaves the variable as it was read
    revert hplays
    cases roleOf (S.view.known b) x with
    | fixed w => exact fun hp => ⟨hp.1, hadv.base hp.2⟩
    | entry y => exact fun hp => hadv.atEntry hp
    | free => exact fun _ => trivial
  case provided =>
    refine ⟨?_, fun w hw => ?_⟩
    · rw [List.mem_cons, not_or]
      exact ⟨fun hfree => hprovided.1 (List.mem_singleton.mpr hfree), hs.provided.1⟩
    · rcases List.mem_cons.mp hw with hw | hw
      · rcases hprovided.2 w (List.mem_singleton.mpr hw) with harg | hlit | ⟨d, hd, hv⟩
        · exact Or.inl (hs.step.onward.arguments ▸ harg)
        · exact Or.inr (Or.inl hlit)
        · exact Or.inr (Or.inr ⟨d, hmem d hd, hv⟩)
      · exact hs.provided.2 w hw
  case live =>
    intro w hw
    rcases List.mem_cons.mp hw with rfl | hw
    · exact hs.step.live _ hlive
    · exact hs.live w hw
  case computes =>
    intro V W I args
    have hrest := hs.computes I args
    rw [honward.slot, hview] at hrest
    exact (hrest.mono honward.advances.nextId).consVar hx S.below_roleOf

/-- **An instruction is emitted for its operands.** -/
theorem emit {op : Op} {callee : Option String} (h : Hands es log b S S₁ seg roles vs)
    (hat : S.At b) (hopen : S.view.closed b = false) (hphi : op ≠ .phi)
    (hop : op.isTerminator = false) (hmov : op = .mov → roles.length = 1)
    (hrun : emitInst op vs callee S₁.state = .ok v s') : v = .result S₁.state.nextId ∧
      ∃ S' : Stage F, S'.state = s' ∧ S'.view.known b = S₁.view.known b ∧
        Extends b (seg ++ [⟨S₁.state.nextId, op, [], callee, roles⟩]) (Expr.textsOf es) log S S' ∧
        ∀ d ∈ seg ++ [⟨S₁.state.nextId, op, [], callee, roles⟩], d.op.isTerminator = false := by
  have hbr : op ≠ .br := by
    rintro rfl
    cases hop
  obtain ⟨hv, S', hS', honward, hremoved, hview⟩ := S₁.emitAt (h.step.stays hat)
    (h.step.closed_eq_false hopen h.plain) hphi hbr hmov h.plays h.provided h.live hrun
  have hknown : S'.view.known b = S₁.view.known b := by rw [hview]; rfl
  have hstep : Extends b [⟨S₁.state.nextId, op, [], callee, roles⟩] 0 [] S₁ S' :=
    .of_removed honward (by rw [hknown, hview]; exact View.learn_self.symm) hremoved
  refine ⟨hv, S', hS', hknown, h.step.trans hstep, fun d hd => ?_⟩
  rcases List.mem_append.mp hd with hd | hd
  · exact h.plain d hd
  · rw [List.mem_singleton.mp hd]
    exact hop

end Hands

/-- A new literal is copied. -/
theorem Stage.emitLiteral {payload : Int} {t : Nat} (compiled : CompiledUnit) (hat : S.At b)
    (hopen : S.view.closed b = false)
    (hquiet : Onward t [] S (S.quiet S.state.nextId le_rfl S.state.current compiled))
    (hf : ∀ {V W : Type} (I : Interpretation V W) (μ : Memory V W),
      evalExpr I F.context e S.slot μ = some (I.literal payload, μ)) (ht : e.texts = t)
    (hsilent : (Traced.lowerExpr F.context e).Silent)
    (hrun : (do emit .mov [← freshLiteral payload] : Build Value)
      { S.state with compiled } = .ok v s') :
    ∃ (S' : Stage F) (seg : List Emitted), S'.state = s' ∧ Emits e b S S' seg v := by
  obtain ⟨l, s₁, hlit, hemit⟩ := bind_eq_ok.mp hrun
  obtain ⟨i, s₂, hfresh, hpure⟩ := bind_eq_ok.mp hlit
  obtain ⟨rfl, rfl⟩ := freshId_eq_ok.mp hfresh
  obtain ⟨rfl, rfl⟩ := pure_eq_ok.mp hpure
  let S₁ := S.quiet (S.state.nextId + 1) (Nat.le_succ _) S.state.current compiled
  have honward : Onward t [] S S₁ :=
    .quiet ⟨Nat.le_succ _, fun _ _ => rfl, fun ha => ha⟩ rfl hquiet.slot hquiet.functions
      hquiet.globals rfl rfl rfl rfl
  have hat₁ : S₁.At b := ⟨hat.current, hat.last, hat.leaves⟩
  have hplays : List.Forall₂ (S₁.ledger.Plays S₁.state.nextId S₁.body.preds b)
      [.fixed (.literal S.state.nextId payload)] [.literal S.state.nextId payload] :=
    .cons ⟨rfl, nofun⟩ .nil
  have hprovided : S₁.Provided b [.fixed (.literal S.state.nextId payload)] := by
    refine ⟨by simp, fun w hw => ?_⟩
    rw [List.mem_singleton, Role.fixed.injEq] at hw
    exact Or.inr (Or.inl ⟨_, _, hw⟩)
  have hlive : ∀ w ∈ [Value.literal S.state.nextId payload], S₁.state.Live w := by
    intro w hw d hd
    rw [List.mem_singleton.mp hw] at hd
    cases hd
  obtain ⟨rfl, S', rfl, honward', hremoved, hview⟩ :=
    S₁.emitAt hat₁ hopen Op.noConfusion Op.noConfusion (fun _ => rfl) hplays hprovided hlive hemit
  have hknown : S'.view.known b = S.view.known b := by rw [hview]; rfl
  let d : Emitted := ⟨S₁.state.nextId, .mov, [], none, [.fixed (.literal S.state.nextId payload)]⟩
  refine ⟨S', [d], rfl, .of_removed ?_ ?_ hremoved, ?_, ⟨d, List.mem_singleton_self _, rfl⟩,
    fun I args => ?_⟩
  · rw [hsilent]
    exact ht ▸ honward.trans honward'
  · rw [hknown, hview]
    exact View.learn_self.symm
  · intro d hd
    rw [List.mem_singleton.mp hd]
    rfl
  · rw [hknown]
    exact Computes.literal (Nat.le_succ _) (fun _ _ hx => (S.known_below hx).mono (Nat.le_succ _))
      (hf I)

end Parts

/-! ## Expressions and arguments -/

theorem Setting.Allows.left {xs ys : List Nat} (h : F.Allows (xs ++ ys)) : F.Allows xs :=
  fun x hx => h x (List.mem_append_left _ hx)

theorem Setting.Allows.right {xs ys : List Nat} (h : F.Allows (xs ++ ys)) : F.Allows ys :=
  fun x hx => h x (List.mem_append_right _ hx)

theorem assignedBy_assignment {node : Nat} {name : String} {rhs : Expr} :
    assignedBy c (.binary .assignment (.ident node name) rhs) =
      (c.symbol? node).toList ++ assignedBy c rhs := by
  simp [assignedBy]

theorem assignedBy_operation {op : Operator} {lhs rhs : Expr} (hop : op ≠ .assignment) :
    assignedBy c (.binary op lhs rhs) = assignedBy c lhs ++ assignedBy c rhs := by
  rw [assignedBy.eq_def]
  simp [hop]

theorem unaryOp?_isTerminator {o : Operator} {op : Op} (h : unaryOp? o = some op) :
    (op ≠ .phi ∧ op.isTerminator = false) ∧ op ≠ .mov := by
  cases o <;> cases h <;> exact ⟨⟨nofun, rfl⟩, nofun⟩

theorem binaryOp?_isTerminator {o : Operator} {op : Op} (h : binaryOp? o = some op) :
    (op ≠ .phi ∧ op.isTerminator = false) ∧ op ≠ .mov := by
  cases o <;> cases h <;> exact ⟨⟨nofun, rfl⟩, nofun⟩

section Operations

variable {S S₁ : Stage F} {b : Nat} {v : Value} {s' : Builder} {e : Expr} {es : List Expr}
  {seg : List Emitted} {roles : List Role} {vs : List Value} {log : Log}

/-- An expression that comes down to one operation on the values of others. -/
theorem Hands.emits {op : Op} {callee : Option String} (h : Hands es log b S S₁ seg roles vs)
    (hat : S.At b) (hopen : S.view.closed b = false) (hop : op ≠ .phi ∧ op.isTerminator = false)
    (hmov : op = .mov → roles.length = 1) (htexts : e.texts = Expr.textsOf es)
    (haccesses : (Traced.lowerExpr F.context e).accesses S.state = log)
    (hcomputes : ∀ {V W : Type} (I : Interpretation V W) (args : Nat → V),
      Computes I args (evalExpr I F.context e S.slot) S.state.nextId (S.view.known b)
        (seg ++ [⟨S₁.state.nextId, op, [], callee, roles⟩]) (S₁.view.known b)
        (.result S₁.state.nextId))
    (hrun : emitInst op vs callee S₁.state = .ok v s') :
    ∃ (S' : Stage F) (seg : List Emitted), S'.state = s' ∧ Emits e b S S' seg v := by
  obtain ⟨rfl, S', hS', hknown, hstep, hplain⟩ := h.emit hat hopen hop.1 hop.2 hmov hrun
  let d : Emitted := ⟨S₁.state.nextId, op, [], callee, roles⟩
  refine ⟨S', seg ++ [d], hS', htexts ▸ haccesses ▸ hstep, hplain, ⟨d, ?_, rfl⟩, fun I args => ?_⟩
  · exact List.mem_append_right _ (List.mem_singleton_self _)
  · rw [hknown]
    exact hcomputes I args

end Operations

mutual

/-- **Lowering an expression emits instructions that compute it.** -/
theorem lowerExpr_emits {b : Nat} {v : Value} {s' : Builder} : ∀ (e : Expr) {S : Stage F},
    S.At b → S.view.closed b = false → F.Allows (assignedBy F.context e) →
    lowerExpr F.context e S.state = .ok v s' →
    ∃ (S' : Stage F) (seg : List Emitted), S'.state = s' ∧ Emits e b S S' seg v
  | .bool _, S, hat, hopen, _, hrun => by
    rw [lowerExpr] at hrun
    exact Stage.emitLiteral S.state.compiled hat hopen (S.onward_quiet le_rfl _)
      (fun I μ => by rw [evalExpr]) rfl (by rw [Traced.lowerExpr]; exact .literal _) hrun
  | .number _, S, hat, hopen, _, hrun => by
    rw [lowerExpr] at hrun
    exact Stage.emitLiteral S.state.compiled hat hopen (S.onward_quiet le_rfl _)
      (fun I μ => by rw [evalExpr]) rfl (by rw [Traced.lowerExpr]; exact .literal _) hrun
  | .string text, S, hat, hopen, _, hrun => by
    rw [lowerExpr] at hrun
    obtain ⟨slot, s₁, hslot, hrun⟩ := bind_eq_ok.mp hrun
    obtain ⟨rfl, rfl⟩ := modifyGet_eq_ok.mp hslot
    refine Stage.emitLiteral (S.state.compiled.insertArray text text.toUTF8.toList).2 hat hopen
      (.quiet ⟨le_rfl, fun _ _ => rfl, fun ha => ha⟩ rfl ?_ rfl rfl rfl rfl rfl rfl)
      (fun I μ => by rw [evalExpr]) rfl
      (by rw [Traced.lowerExpr]; exact (Traced.Silent.call _).bind fun _ => .literal _) hrun
    simp [Stage.slot, Stage.quiet, CompilationUnit.insertArray, Expr.texts]
  | .ident node name, S, hat, hopen, _, hrun => by
    obtain ⟨x, a, s₁, hx, hread, hemit⟩ := lowerExpr_ident hrun
    obtain ⟨S₁, rfl, hview, honward, hkept, hlive, hplays⟩ :=
      S.read hat ((readCurrent_eq_ok hat.current).mp hread)
    have hhands : Hands [.ident node name] [(.read x b, some a)] b S S₁ []
        [roleOf (S.view.known b) x] [a] :=
      Hands.nil.consVar hx (.of_view_eq honward hview hkept) hview hlive hplays
    refine hhands.emits hat hopen (by decide) (fun _ => rfl) rfl
      (Traced.accesses_ident (symbolOf_eq_ok.mpr ⟨hx, rfl⟩) hread hat.current)
      (fun I args => ?_) hemit
    rw [hview]
    exact Computes.ident honward.advances.nextId hx
      fun _ _ hy => (S.known_below hy).mono honward.advances.nextId
  | .binary op lhs rhs, S, hat, hopen, hallowed, hrun => by
    obtain ⟨node, name, x, a, s₁, s₂, rfl, rfl, hx, hrhs, hemit, hassign⟩ |
      ⟨o, a, a', s₁, s₂, hne, ho, hlhs, hrhs, hemit⟩ := lowerExpr_binary hrun
    · -- an assignment copies the value
      rw [assignedBy_assignment] at hallowed
      obtain ⟨S₁, seg, rfl, h₁⟩ := lowerExpr_emits rhs hat hopen hallowed.right hrhs
      have hhands := Hands.cons h₁ Hands.nil
      obtain ⟨rfl, S₂, rfl, hknown, hstep, hplain⟩ := hhands.emit hat hopen Op.noConfusion rfl
        (fun _ => rfl) hemit
      have hmem : ⟨S₁.state.nextId, .mov, [], none, [.fixed a]⟩ ∈ S₂.view.emitted b := by
        rw [hstep.emitted]
        simp
      have hmay : F.context.symbols.isGlobal x = true → F.before x (.result S₁.state.nextId) :=
        fun hglobal => hallowed.left x (by simp [hx]) hglobal _
      obtain ⟨S₃, rfl, hknown₃, hstep₃⟩ :=
        S₂.assign (hstep.stays hat) hmem rfl rfl hmay hassign
      have htexts : Expr.textsOf [rhs] + 0 =
          (Expr.binary .assignment (.ident node name) rhs).texts := by
        simp [Expr.texts, Expr.textsOf]
      have haccesses : (Traced.lowerExpr F.context
          (.binary .assignment (.ident node name) rhs)).accesses S.state =
          (.write x b (.result S₁.state.nextId), none) ::
            (Traced.lowerExpr F.context rhs).accesses S.state :=
        Traced.accesses_assignment (symbolOf_eq_ok.mpr ⟨hx, rfl⟩) hrhs hemit hassign
          (hstep.stays hat).current
      have hext := hstep.trans hstep₃
      rw [htexts, List.nil_append, List.singleton_append, ← haccesses] at hext
      refine ⟨S₃, _, rfl, hext, ?_,
        ⟨⟨S₁.state.nextId, .mov, [], none, [.fixed a]⟩, ?_, rfl⟩, fun I args => ?_⟩
      · simpa using hplain
      · simp
      · rw [hknown₃, hknown, List.append_nil (_ ++ [_])]
        exact Computes.assignment h₁.step.onward.advances.nextId
          (fun _ _ hy => S₁.known_below hy) hx (hhands.computes I args)
    · rw [assignedBy_operation hne] at hallowed
      obtain ⟨S₁, seg₁, rfl, h₁⟩ := lowerExpr_emits lhs hat hopen hallowed.left hlhs
      obtain ⟨S₂, seg₂, rfl, h₂⟩ := lowerExpr_emits rhs (h₁.step.stays hat)
        (h₁.step.closed_eq_false hopen h₁.plain) hallowed.right hrhs
      have hhands := Hands.cons h₁ (Hands.cons h₂ Hands.nil)
      have hop := binaryOp?_isTerminator ho
      exact hhands.emits hat hopen hop.1 (absurd · hop.2) rfl
        (Traced.accesses_operation hne ho hlhs hrhs) (fun I args => Computes.binary
        hhands.step.onward.advances.nextId (fun _ _ hy => S₂.known_below hy) ho
        (hhands.computes I args)) hemit
  | .unary op operand, S, hat, hopen, hallowed, hrun => by
    rw [assignedBy] at hallowed
    obtain ⟨o, a, s₁, ho, hoperand, hemit⟩ := lowerExpr_unary hrun
    obtain ⟨S₁, seg, rfl, h₁⟩ := lowerExpr_emits operand hat hopen hallowed hoperand
    have hhands := Hands.cons h₁ Hands.nil
    have hop := unaryOp?_isTerminator ho
    exact hhands.emits hat hopen hop.1 (absurd · hop.2) rfl (Traced.accesses_unary ho hoperand)
      (fun I args => Computes.unary
      hhands.step.onward.advances.nextId (fun _ _ hy => S₁.known_below hy) ho
      (hhands.computes I args)) hemit
  | .call node callee args, S, hat, hopen, hallowed, hrun => by
    rw [assignedBy] at hallowed
    obtain ⟨x, vs, s₁, hx, hargs, hemit⟩ := lowerExpr_call hrun
    obtain ⟨S₁, seg, roles, rfl, hhands⟩ := lowerArgs_hands args hat hopen hallowed hargs
    exact hhands.emits hat hopen (by decide) Op.noConfusion rfl
      (Traced.accesses_callExpr (symbolOf_eq_ok.mpr ⟨hx, rfl⟩) hargs) (fun I args => Computes.call
      hhands.step.onward.advances.nextId (fun _ _ hy => S₁.known_below hy)
      (hhands.computes I args)) hemit

/-- **Lowering the arguments of a call prepares the operands.** -/
theorem lowerArgs_hands {b : Nat} {vs : List Value} {s' : Builder} :
    ∀ (es : List Expr) {S : Stage F},
    S.At b → S.view.closed b = false → F.Allows (assignedByArgs F.context es) →
    lowerArgs F.context es S.state = .ok vs s' →
    ∃ (S' : Stage F) (seg : List Emitted) (roles : List Role), S'.state = s' ∧
      Hands es ((Traced.lowerArgs F.context es).accesses S.state) b S S' seg roles vs
  | [], S, _, _, _, hrun => by
    rw [lowerArgs] at hrun
    obtain ⟨rfl, rfl⟩ := pure_eq_ok.mp hrun
    exact ⟨S, [], [], rfl, by rw [Traced.lowerArgs]; exact Hands.nil⟩
  | e :: es, S, hat, hopen, hallowed, hrun => by
    rw [assignedByArgs] at hallowed
    obtain ⟨v, us, s₁, rfl, hrest, ⟨node, name, x, rfl, hx, hread⟩ | ⟨hne, hexpr⟩⟩ :=
      lowerArgs_cons hrun
    · obtain ⟨S₁, rfl, hview, honward, hkept, hlive, hplays⟩ :=
        S.read hat ((readCurrent_eq_ok hat.current).mp hread)
      have hstep : Extends b [] 0 [(.read x b, some v)] S S₁ := .of_view_eq honward hview hkept
      obtain ⟨S₂, seg, roles, rfl, h₂⟩ := lowerArgs_hands es (hstep.stays hat)
        (hview ▸ hopen) hallowed.right hrest
      rw [Traced.accesses_args_ident (symbolOf_eq_ok.mpr ⟨hx, rfl⟩) hread hat.current hrest]
      exact ⟨S₂, seg, _, rfl, Hands.consVar hx hstep hview hlive hplays h₂⟩
    · obtain ⟨S₁, seg₁, rfl, h₁⟩ := lowerExpr_emits e hat hopen hallowed.left hexpr
      obtain ⟨S₂, seg₂, roles, rfl, h₂⟩ := lowerArgs_hands es (h₁.step.stays hat)
        (h₁.step.closed_eq_false hopen h₁.plain) hallowed.right hrest
      rw [Traced.accesses_args_expr hne hexpr hrest]
      exact ⟨S₂, _, _, rfl, Hands.cons h₁ h₂⟩

end

end Compiler16.Ssa
