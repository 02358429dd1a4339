import Compiler16.Proofs.Functions

/-!
# Programs

A program is lowered declaration by declaration.  Between two of them no function is open, and
the values of global variables come from the instructions that there are.  So each function
begins as it should, and what holds of the stages of a function holds of all functions of a
compiled program.

## Main definitions

* `Builder.Resting`: what holds between two declarations
* `Declares`, `Evolves`: what the declaration of a variable does, and what declarations do
* `LeavesGlobals`: no function writes a variable of the outermost scope
* `Compiles`: a function of a program was compiled

## Main results

* `lowerExpr_yields`, `lowerVar_declares`, `lowerDecls_evolves`: what lowering does between
  functions
* `exists_compiles`, `compiles_of_get?`: where the functions of a compiled program come from
-/

namespace Compiler16.Ssa

open Compiler16.Source Compiler16.Flow Compiler16.Ssa.Builder Compiler16.Ssa.Lowering

variable {c : Context} {s s' s'' : Builder} {v : Value} {t t' : Nat}

/-! ## Outside of functions -/

namespace Builder

/-- No function is open. -/
structure Resting (s : Builder) : Prop where
  opened : s.opened = none
  current : s.current = none
  globals : s.Known

theorem Resting.known (h : s.Resting) (x i : Nat) (hi : s.globalValue x = .result i) :
    i < s.nextId :=
  (h.globals.live x i hi).1

/-- The value is the result of a global instruction. -/
def IsGlobal (s : Builder) (v : Value) : Prop := ∃ g ∈ s.compiled.globals.insts, v = .result g.id

/-- What variables have before a function comes from global instructions. -/
def Grounded (s : Builder) : Prop :=
  ∀ x, s.globalValue x = .unknown ∨ s.IsGlobal (s.globalValue x)

end Builder

/-- Nothing but global instructions and texts has come. -/
structure Declares (t : Nat) (s s' : Builder) : Prop where
  resting : s'.Resting
  nextId : s.nextId ≤ s'.nextId
  slot : s'.compiled.arrays.length = s.compiled.arrays.length + t
  functions : s'.compiled.functions = s.compiled.functions
  removed : s'.removed = s.removed
  globals : ∀ g ∈ s.compiled.globals.insts, g ∈ s'.compiled.globals.insts
  grounded : s.Grounded → s'.Grounded

/-- A global instruction has come last, and this is its result. -/
structure Yields (t : Nat) (s s' : Builder) (v : Value) : Prop extends Declares t s s' where
  isGlobal : s'.IsGlobal v
  live : s'.Live v

namespace Declares

theorem refl (hs : s.Resting) : Declares 0 s s :=
  ⟨hs, le_rfl, rfl, rfl, rfl, fun _ hg => hg, fun h => h⟩

theorem trans (h : Declares t s s') (h' : Declares t' s' s'') : Declares (t + t') s s'' where
  resting := h'.resting
  nextId := h.nextId.trans h'.nextId
  slot := by rw [h'.slot, h.slot, Nat.add_assoc]
  functions := h'.functions.trans h.functions
  removed := h'.removed.trans h.removed
  globals g hg := h'.globals g (h.globals g hg)
  grounded hs := h'.grounded (h.grounded hs)

theorem yields (h : Declares t s s') (h' : Yields t' s' s'' v) : Yields (t + t') s s'' v :=
  { h.trans h'.toDeclares with isGlobal := h'.isGlobal, live := h'.live }

/-- Numbers are drawn, and texts are added. -/
theorem quiet {n : Nat} {arrays : List (String × List UInt8)} (hs : s.Resting)
    (hn : s.nextId ≤ n) (ht : arrays.length = s.compiled.arrays.length + t) :
    Declares t s { s with nextId := n, compiled := { s.compiled with arrays } } where
  resting := ⟨hs.opened, hs.current, hs.globals.mono hn rfl rfl⟩
  nextId := hn
  slot := ht
  functions := rfl
  removed := rfl
  globals _ hg := hg
  grounded h := h

/-- **A variable is written.** -/
theorem write {x : Nat} (h : Yields t s s' v) :
    Declares t s { s' with globalDefs := s'.globalDefs.insert x v } := by
  have hvalue : ∀ y, globalValue { s' with globalDefs := s'.globalDefs.insert x v } y =
      if x = y then v else s'.globalValue y := by
    intro y
    rw [globalValue, OrderedMap.get?_insert]
    by_cases hy : x = y
    · rw [if_pos hy, if_pos hy]
      rfl
    · rw [if_neg hy, if_neg hy]
      rfl
  refine ⟨⟨h.resting.opened, h.resting.current, fun y => ?_, h.resting.globals.removed_lt⟩,
    h.nextId, h.slot, h.functions, h.removed, h.globals, fun hs y => ?_⟩
  · rw [hvalue]
    split
    · exact h.live
    · exact h.resting.globals.live y
  · rw [hvalue]
    split
    · exact Or.inr h.isGlobal
    · exact h.grounded hs y

end Declares

theorem emitInst_yields {op : Op} {operands : List Value} {callee : Option String}
    (hs : s.Resting) (hrun : emitInst op operands callee s = .ok v s') : Yields 0 s s' v := by
  unfold emitInst at hrun
  simp only [bind_eq_ok, get_eq_ok, freshId_eq_ok] at hrun
  obtain ⟨_, _, ⟨rfl, rfl⟩, _, _, ⟨rfl, rfl⟩, hrun⟩ := hrun
  rw [hs.current] at hrun
  simp only [bind_eq_ok, modify_eq_ok, pure_eq_ok] at hrun
  obtain ⟨_, _, rfl, rfl, rfl⟩ := hrun
  have hold : ∀ (i : Inst), ∀ g ∈ s.compiled.globals.insts,
      g ∈ (s.compiled.insertGlobal i).globals.insts := by
    intro i g hg
    simp [CompilationUnit.insertGlobal, hg]
  constructor
  case toDeclares =>
    refine ⟨⟨hs.opened, rfl, hs.globals.mono (Nat.le_succ _) rfl rfl⟩, Nat.le_succ _, rfl, rfl, rfl,
      hold _, fun h x => (h x).imp_right ?_⟩
    rintro ⟨g, hg, hv⟩
    exact ⟨g, hold _ g hg, hv⟩
  case isGlobal =>
    exact ⟨{ op, id := s.nextId, block := 0, operands, callee },
      by simp [CompilationUnit.insertGlobal], rfl⟩
  case live => exact hs.globals.live_nextId (Nat.lt_succ_self _) rfl

theorem readCurrent_resting {x : Nat} (hs : s.Resting) (hrun : readCurrent c x s = .ok v s') :
    s' = s := by
  unfold readCurrent at hrun
  simp only [bind_eq_ok, get_eq_ok] at hrun
  obtain ⟨_, _, ⟨rfl, rfl⟩, hrun⟩ := hrun
  rw [hs.current] at hrun
  exact (pure_eq_ok.mp hrun).2.symm

theorem assignVariable_resting {x : Nat} (hs : s.Resting)
    (hrun : assignVariable c x v s = .ok () s') :
    s' = { s with globalDefs := s.globalDefs.insert x v } := by
  unfold assignVariable at hrun
  rw [modify_eq_ok, hs.current] at hrun
  rw [hs.current]
  exact hrun.symm

/-- A new literal is copied. -/
theorem emitLiteral_yields {payload : Int} {arrays : List (String × List UInt8)} (hs : s.Resting)
    (ht : arrays.length = s.compiled.arrays.length + t)
    (hrun : (do emit .mov [← freshLiteral payload] : Build Value)
      { s with compiled := { s.compiled with arrays } } = .ok v s') : Yields t s s' v := by
  obtain ⟨l, s₁, hlit, hemit⟩ := bind_eq_ok.mp hrun
  obtain ⟨i, s₂, hfresh, hpure⟩ := bind_eq_ok.mp hlit
  obtain ⟨rfl, rfl⟩ := freshId_eq_ok.mp hfresh
  obtain ⟨rfl, rfl⟩ := pure_eq_ok.mp hpure
  have hquiet := Declares.quiet hs (Nat.le_succ s.nextId) ht
  exact hquiet.yields (emitInst_yields hquiet.resting hemit)

mutual

/-- **Lowering an expression outside of functions.** -/
theorem lowerExpr_yields : ∀ (e : Expr) {s s' : Builder} {v : Value}, s.Resting →
    lowerExpr c e s = .ok v s' → Yields e.texts s s' v
  | .bool _, s, s', v, hs, hrun | .number _, s, s', v, hs, hrun => by
    rw [lowerExpr] at hrun
    exact emitLiteral_yields hs rfl hrun
  | .string text, s, s', v, hs, hrun => by
    rw [lowerExpr] at hrun
    obtain ⟨slot, s₁, hslot, hrun⟩ := bind_eq_ok.mp hrun
    obtain ⟨rfl, rfl⟩ := modifyGet_eq_ok.mp hslot
    exact emitLiteral_yields hs (by simp [Expr.texts]) hrun
  | .ident node name, s, s', v, hs, hrun => by
    obtain ⟨x, a, s₁, _, hread, hemit⟩ := lowerExpr_ident hrun
    obtain rfl := readCurrent_resting hs hread
    exact emitInst_yields hs hemit
  | .binary op lhs rhs, s, s', v, hs, hrun => by
    obtain ⟨node, name, x, a, s₁, s₂, rfl, rfl, _, hrhs, hemit, hassign⟩ |
      ⟨o, a, b, s₁, s₂, hop, ho, hlhs, hrhs, hemit⟩ := lowerExpr_binary hrun
    · have h₁ := lowerExpr_yields rhs hs hrhs
      have h₂ := h₁.toDeclares.yields (emitInst_yields h₁.resting hemit)
      obtain rfl := assignVariable_resting h₂.resting hassign
      have htexts : (Expr.binary .assignment (.ident node name) rhs).texts = rhs.texts + 0 := by
        simp [Expr.texts]
      rw [htexts]
      exact { Declares.write h₂ with isGlobal := h₂.isGlobal, live := h₂.live }
    · have h₁ := lowerExpr_yields lhs hs hlhs
      have h₂ := lowerExpr_yields rhs h₁.resting hrhs
      exact (h₁.toDeclares.trans h₂.toDeclares).yields (emitInst_yields h₂.resting hemit)
  | .unary op operand, s, s', v, hs, hrun => by
    obtain ⟨o, a, s₁, _, hoperand, hemit⟩ := lowerExpr_unary hrun
    have h₁ := lowerExpr_yields operand hs hoperand
    exact h₁.toDeclares.yields (emitInst_yields h₁.resting hemit)
  | .call node callee args, s, s', v, hs, hrun => by
    obtain ⟨_, vs, s₁, _, hargs, hemit⟩ := lowerExpr_call hrun
    have h₁ := lowerArgs_declares args hs hargs
    exact h₁.yields (emitInst_yields h₁.resting hemit)

/-- Lowering the arguments of a call outside of functions. -/
theorem lowerArgs_declares : ∀ (es : List Expr) {s s' : Builder} {vs : List Value}, s.Resting →
    lowerArgs c es s = .ok vs s' → Declares (Expr.textsOf es) s s'
  | [], s, s', vs, hs, hrun => by
    rw [lowerArgs] at hrun
    obtain ⟨_, rfl⟩ := pure_eq_ok.mp hrun
    exact .refl hs
  | e :: es, s, s', vs, hs, hrun => by
    rw [Expr.textsOf]
    obtain ⟨v, us, s₁, rfl, hrest, ⟨node, name, x, rfl, _, hread⟩ | ⟨_, hexpr⟩⟩ :=
      lowerArgs_cons hrun
    · obtain rfl := readCurrent_resting hs hread
      exact (Declares.refl hs).trans (lowerArgs_declares es hs hrest)
    · have h₁ := lowerExpr_yields e hs hexpr
      exact h₁.toDeclares.trans (lowerArgs_declares es h₁.resting hrest)

end

/-- The declaration of a variable outside of functions. -/
theorem lowerVar_declares {d : VarDecl} (hs : s.Resting) (hrun : lowerVar c d s = .ok () s') :
    Declares d.texts s s' := by
  unfold lowerVar at hrun
  by_cases hparam : d.isParameter = true
  · rw [if_pos hparam] at hrun
    obtain ⟨_, rfl⟩ := pure_eq_ok.mp hrun
    rw [VarDecl.texts, VarDecl.value?, if_pos hparam]
    exact .refl hs
  · rw [if_neg hparam] at hrun
    rw [VarDecl.texts, VarDecl.value?, if_neg hparam]
    cases hinit : d.init with
    | none =>
      rw [hinit] at hrun
      obtain ⟨_, rfl⟩ := pure_eq_ok.mp hrun
      exact .refl hs
    | some init =>
      rw [hinit] at hrun
      simp only [bind_eq_ok, symbolOf_eq_ok] at hrun
      obtain ⟨v, s₁, hexpr, x, _, ⟨_, rfl⟩, hassign⟩ := hrun
      have h₁ := lowerExpr_yields init hs hexpr
      obtain rfl := assignVariable_resting h₁.resting hassign
      exact Declares.write h₁

/-! ## Declaration after declaration -/

/-- No function writes a variable of the outermost scope. -/
def LeavesGlobals (c : Context) (p : Program) : Prop :=
  ∀ d, .function d ∈ p → ∀ x ∈ assignedByBody c d.body, c.symbols.isGlobal x = false

/-- Declarations were lowered. -/
structure Evolves (c : Context) (p : Program) (s s' : Builder) : Prop where
  resting : s'.Resting
  nextId : s.nextId ≤ s'.nextId
  removed_before : ∀ d ∈ s.removed, d ∈ s'.removed
  removed : ∀ d ∈ s'.removed, d ∈ s.removed ∨ s.nextId ≤ d
  slot : s'.compiled.arrays.length = s.compiled.arrays.length + Decl.textsOf p
  globals : ∀ g ∈ s.compiled.globals.insts, g ∈ s'.compiled.globals.insts
  grounded : LeavesGlobals c p → s.Grounded → s'.Grounded
  functions : ∀ name, (∀ d, .function d ∈ p → d.name ≠ name) →
    s'.compiled.functions.get? name = s.compiled.functions.get? name

theorem endFunction_eq_ok : endFunction s = .ok () s' ↔ ∃ f, s.opened = some f ∧
    s.pending.keys.min? = none ∧ s' = { s with
      opened := none, current := none
      compiled := s.compiled.insertFunction f.name f.body } := by
  unfold endFunction
  simp only [bind_eq_ok, get_eq_ok]
  constructor
  · rintro ⟨_, _, ⟨rfl, rfl⟩, hrun⟩
    cases hf : s.opened with
    | none => simp [hf] at hrun
    | some f =>
      simp only [hf, bind_eq_ok, set_eq_ok] at hrun
      obtain ⟨_, _, rfl, hrun⟩ := hrun
      cases hmin : s.pending.keys.min? with
      | some b => simp [hmin] at hrun
      | none =>
        rw [hmin] at hrun
        exact ⟨f, rfl, rfl, (modify_eq_ok.mp hrun).symm⟩
  · rintro ⟨f, hf, hmin, rfl⟩
    refine ⟨s, s, ⟨rfl, rfl⟩, ?_⟩
    simp only [hf, hmin, bind_eq_ok, set_eq_ok]
    exact ⟨(), _, rfl, modify_eq_ok.mpr rfl⟩

/-- A setting in which a function may write everything. -/
def Setting.free (c : Context) (s : Builder) : Setting := ⟨c, fun _ _ => True, s.nextId, s.removed⟩

/-- A setting in which variables of the outermost scope keep the values that they have. -/
def Setting.frozen (c : Context) (s : Builder) : Setting :=
  ⟨c, fun x v => v = s.globalValue x, s.nextId, s.removed⟩

theorem Setting.free_fits (hs : s.Known) : (Setting.free c s).Fits s :=
  ⟨rfl, rfl, fun _ => trivial, hs⟩

theorem Setting.frozen_fits (hs : s.Known) : (Setting.frozen c s).Fits s :=
  ⟨rfl, rfl, fun _ => rfl, hs⟩

theorem Setting.free_allows {xs : List Nat} : (Setting.free c s).Allows xs :=
  fun _ _ _ _ => trivial

theorem Setting.frozen_allows {xs : List Nat} (h : ∀ x ∈ xs, c.symbols.isGlobal x = false) :
    (Setting.frozen c s).Allows xs := by
  intro x hx hglobal
  rw [show (Setting.frozen c s).context = c from rfl, h x hx] at hglobal
  cases hglobal

/-- **The declaration of a function.** -/
theorem lowerFunction_evolves {d : FunctionDecl} (hs : s.Resting)
    (hrun : lowerFunction c d s = .ok () s') : Evolves c [.function d] s s' := by
  obtain ⟨_, s₁, hbuild, hend⟩ := bind_eq_ok.mp hrun
  obtain ⟨S, rfl, hS⟩ := buildFunction_complete (Setting.free_fits (c := c) hs.globals)
    Setting.free_allows hbuild
  obtain ⟨f, hf, _, rfl⟩ := endFunction_eq_ok.mp hend
  obtain rfl := Option.some.inj (hS.name.symm.trans hf)
  obtain ⟨hfunctions, hglobals, hslot⟩ := hS.compiled
  constructor
  case resting => exact ⟨rfl, rfl, S.inside.neat.known.mono le_rfl rfl rfl⟩
  case nextId => exact S.inside.first
  case removed_before => exact S.inside.removed_before
  case removed => exact S.inside.removed
  case slot =>
    show S.slot = _
    rw [hslot, Decl.textsOf, Decl.textsOf, Decl.texts, Nat.add_zero]
  case globals =>
    intro g hg
    show g ∈ S.state.compiled.globals.insts
    rwa [hglobals]
  case grounded =>
    intro hleaves hground x
    -- the values of variables of the outermost scope are what they were
    obtain ⟨T, hT, _⟩ := buildFunction_complete (Setting.frozen_fits (c := c) hs.globals)
      (Setting.frozen_allows (hleaves d (List.mem_singleton_self _))) hbuild
    have hvalue : S.state.globalValue x = s.globalValue x := hT ▸ T.inside.globals x
    show S.state.globalValue x = .unknown ∨
      ∃ g ∈ S.state.compiled.globals.insts, S.state.globalValue x = .result g.id
    rw [hvalue, hglobals]
    exact hground x
  case functions =>
    intro name hname
    have hne : d.name ≠ name := hname d (List.mem_singleton_self _)
    show (S.state.compiled.functions.insert d.name S.body).get? name = _
    rw [IndexedMap.get?_insert, if_neg hne, hfunctions]

theorem lowerDecl_evolves {D : Decl} (hs : s.Resting) (hrun : lowerDecl c D s = .ok () s') :
    Evolves c [D] s s' := by
  cases D with
  | function d => exact lowerFunction_evolves hs hrun
  | var d =>
    have h := lowerVar_declares hs hrun
    exact ⟨h.resting, h.nextId, fun d hd => h.removed ▸ hd, fun d hd => Or.inl (h.removed ▸ hd),
      h.slot, h.globals, fun _ => h.grounded, fun name _ => by rw [h.functions]⟩

theorem Evolves.trans {p q : Program} (h : Evolves c p s s') (h' : Evolves c q s' s'') :
    Evolves c (p ++ q) s s'' where
  resting := h'.resting
  nextId := h.nextId.trans h'.nextId
  removed_before d hd := h'.removed_before d (h.removed_before d hd)
  removed d hd := by
    rcases h'.removed d hd with hd | hd
    · exact h.removed d hd
    · exact Or.inr (h.nextId.trans hd)
  slot := by rw [h'.slot, h.slot, Decl.textsOf_append, Nat.add_assoc]
  globals g hg := h'.globals g (h.globals g hg)
  grounded hleaves hs := by
    refine h'.grounded (fun d hd => hleaves d (List.mem_append_right _ hd)) (h.grounded ?_ hs)
    exact fun d hd => hleaves d (List.mem_append_left _ hd)
  functions name hname := by
    rw [h'.functions name fun d hd => hname d (List.mem_append_right _ hd),
      h.functions name fun d hd => hname d (List.mem_append_left _ hd)]

/-- **Declarations one after the other.** -/
theorem lowerDecls_evolves {p : Program} : ∀ {s : Builder}, s.Resting →
    p.forM (lowerDecl c) s = .ok () s' → Evolves c p s s' := by
  induction p with
  | nil =>
    intro s hs hrun
    obtain ⟨_, rfl⟩ := pure_eq_ok.mp hrun
    exact ⟨hs, le_rfl, fun _ hd => hd, fun _ => Or.inl, rfl, fun _ hg => hg, fun _ h => h,
      fun _ _ => rfl⟩
  | cons D p ih =>
    intro s hs hrun
    rw [forM_cons, bind_eq_ok] at hrun
    obtain ⟨_, s₁, hdecl, hrest⟩ := hrun
    have h₁ := lowerDecl_evolves hs hdecl
    exact h₁.trans (ih h₁.resting hrest)

/-! ## Compiled functions -/

/-- The declaration `d` of a program, between those in `before` and `after`, was compiled to
`B`.  The state is `s` before the declaration, `s'` before its end, and `t` when all is done. -/
structure Compiles (c : Context) (before after : Program) (d : FunctionDecl) (s s' t : Builder)
    (B : Body) : Prop where
  run : before.forM (lowerDecl c) {} = .ok () s
  evolves : Evolves c before {} s
  build : buildFunction c d s = .ok () s'
  opened : s'.opened = some ⟨d.name, B⟩
  pending : s'.pending.keys = []
  rest : Evolves c after { s' with
    opened := none, current := none, compiled := s'.compiled.insertFunction d.name B } t

theorem run_eq_ok {p : Program} {u : CompiledUnit} {s₀ : Builder} :
    Lowering.run c p s₀ = .ok u s ↔ ∃ s₁, p.forM (lowerDecl c) {} = .ok () s₁ ∧
      u = s₁.compiled ∧ s = { s₁ with compiled := {} } := by
  simp only [Lowering.run, bind_eq_ok, set_eq_ok, modifyGet_eq_ok, Prod.mk.injEq]
  constructor
  · rintro ⟨_, _, rfl, _, s₁, hrun, rfl, rfl⟩
    exact ⟨s₁, hrun, rfl, rfl⟩
  · rintro ⟨s₁, hrun, rfl, rfl⟩
    exact ⟨(), _, rfl, (), s₁, hrun, rfl, rfl⟩

theorem resting_empty : Resting {} := by
  refine ⟨rfl, rfl, fun x i hi => ?_, fun d hd => ?_⟩
  · cases hi
  · cases hd

/-- Every declaration of a function is compiled, and it is what gets into the unit if it is the
last one of its name. -/
theorem exists_compiles {before after : Program} {d : FunctionDecl} {t : Builder}
    (hrun : (before ++ .function d :: after).forM (lowerDecl c) {} = .ok () t) :
    ∃ s s' B, Compiles c before after d s s' t B ∧
      ((∀ d', .function d' ∈ after → d'.name ≠ d.name) →
        t.compiled.functions.get? d.name = some B) := by
  obtain ⟨s, hbefore, hrest⟩ := forM_append_eq_ok.mp hrun
  rw [forM_cons, bind_eq_ok] at hrest
  obtain ⟨_, s₂, hfunction, hafter⟩ := hrest
  have hevolves := lowerDecls_evolves resting_empty hbefore
  have hevolves₂ := lowerFunction_evolves hevolves.resting hfunction
  obtain ⟨_, s', hbuild, hend⟩ := bind_eq_ok.mp hfunction
  obtain ⟨S, rfl, hS⟩ := buildFunction_complete
    (Setting.free_fits (c := c) hevolves.resting.globals) Setting.free_allows hbuild
  obtain ⟨f, hf, hpending, rfl⟩ := endFunction_eq_ok.mp hend
  obtain rfl := Option.some.inj (hS.name.symm.trans hf)
  have hrest := lowerDecls_evolves hevolves₂.resting hafter
  refine ⟨s, S.state, S.body, ⟨hbefore, hevolves, hbuild, hS.name,
    List.min?_eq_none_iff.mp hpending, hrest⟩, fun hlast => ?_⟩
  rw [hrest.functions d.name hlast]
  show (S.state.compiled.functions.insert d.name S.body).get? d.name = _
  rw [IndexedMap.get?_insert, if_pos rfl]

/-- The last function of a name, if there is one. -/
theorem exists_last_function (p : Program) (name : String) :
    (∀ d, .function d ∈ p → d.name ≠ name) ∨ ∃ before d after, p = before ++ .function d :: after ∧
      d.name = name ∧ ∀ d', .function d' ∈ after → d'.name ≠ name := by
  induction p with
  | nil =>
    refine Or.inl fun d hd => ?_
    cases hd
  | cons D p ih =>
    rcases ih with hnone | ⟨before, d, after, rfl, hd, hlast⟩
    · by_cases hD : ∃ d, D = .function d ∧ d.name = name
      · obtain ⟨d, rfl, hd⟩ := hD
        exact Or.inr ⟨[], d, p, rfl, hd, hnone⟩
      · refine Or.inl fun d hd => ?_
        rcases List.mem_cons.mp hd with hd | hd
        · exact fun hname => hD ⟨d, hd.symm, hname⟩
        · exact hnone d hd
    · exact Or.inr ⟨D :: before, d, after, rfl, hd, hlast⟩

/-- **A compiled function comes from a declaration of the program.** -/
theorem compiles_of_get? {p : Program} {u : CompiledUnit} {s₀ s₁ : Builder} {name : String}
    {B : Body} (hrun : Lowering.run c p s₀ = .ok u s₁) (hB : u.functions.get? name = some B) :
    ∃ before d after s s' t, p = before ++ .function d :: after ∧ u = t.compiled ∧
      s₁ = { t with compiled := {} } ∧ Compiles c before after d s s' t B := by
  obtain ⟨t, hdecls, rfl, hs₁⟩ := run_eq_ok.mp hrun
  rcases exists_last_function p name with hnone | ⟨before, d, after, rfl, rfl, hlast⟩
  · rw [(lowerDecls_evolves resting_empty hdecls).functions name hnone] at hB
    cases hB
  · obtain ⟨s, s', B', hcompiles, hget⟩ := exists_compiles hdecls
    obtain rfl := Option.some.inj ((hget hlast).symm.trans hB)
    exact ⟨before, d, after, s, s', t, rfl, rfl, hs₁, hcompiles⟩

namespace Compiles

variable {before after : Program} {d : FunctionDecl} {t : Builder} {B : Body}
  (h : Compiles c before after d s s' t B)

include h

/-- The stages of the function, whatever it may write. -/
theorem exists_stage : ∃ S : Stage (Setting.free c s),
    S.state = s' ∧ S.body = B ∧ Complete d s S := by
  obtain ⟨S, rfl, hS⟩ := buildFunction_complete
    (Setting.free_fits (c := c) h.evolves.resting.globals) Setting.free_allows h.build
  exact ⟨S, rfl, congrArg OpenFunction.body (Option.some.inj (hS.name.symm.trans h.opened)), hS⟩

/-- The stages of a function that does not write variables of the outermost scope. -/
theorem exists_frozen_stage (hd : ∀ x ∈ assignedByBody c d.body, c.symbols.isGlobal x = false) :
    ∃ S : Stage (Setting.frozen c s), S.state = s' ∧ S.body = B ∧ Complete d s S := by
  obtain ⟨S, rfl, hS⟩ := buildFunction_complete
    (Setting.frozen_fits (c := c) h.evolves.resting.globals) (Setting.frozen_allows hd) h.build
  exact ⟨S, rfl, congrArg OpenFunction.body (Option.some.inj (hS.name.symm.trans h.opened)), hS⟩

/-- Global instructions from before the function are there in the end. -/
theorem globals : ∀ g ∈ s.compiled.globals.insts, g ∈ t.compiled.globals.insts := by
  intro g hg
  obtain ⟨S, rfl, _, hS⟩ := h.exists_stage
  refine h.rest.globals g ?_
  show g ∈ S.state.compiled.globals.insts
  rwa [hS.compiled.2.1]

/-- If no function before writes a variable of the outermost scope, those have the values of
global instructions. -/
theorem grounded (hleaves : LeavesGlobals c (before ++ .function d :: after)) : s.Grounded := by
  refine h.evolves.grounded (fun d' hd' => hleaves d' (List.mem_append_left _ hd')) fun x => ?_
  exact Or.inl rfl

end Compiles

/-! ## A program to look at -/

/-- A compiled function can be looked at by evaluation. -/
theorem exists_body_of_compile (c : Context) (p : Program) (name : String) (P : Body → Prop)
    [DecidablePred P]
    (h : (compile c p).toOption.bind (fun u => (u.functions.get? name).map (decide <| P ·)) =
      some true) :
    ∃ u s B, Lowering.run c p {} = .ok u s ∧ u.functions.get? name = some B ∧ P B := by
  obtain ⟨u, hu, hP⟩ := Option.bind_eq_some_iff.mp h
  obtain ⟨B, hB, hP⟩ := Option.map_eq_some_iff.mp hP
  unfold compile at hu
  cases hrun : Lowering.run c p {} with
  | ok u' s =>
    rw [hrun] at hu
    cases hu
    exact ⟨u, s, B, rfl, hB, of_decide_eq_true hP⟩
  | error e s =>
    rw [hrun] at hu
    cases hu

/-- The variables `g` of the outermost scope, and `n` and `r` of a function. -/
def sampleContext : Context where
  symbols :=
    { symbols := [.ofVariable "g" 0, .ofVariable "n" 1, .ofVariable "r" 1]
      bindings := { entries := [(0, 0), (1, 1), (2, 2)] } }

/-- The same variables; no PHI is removed unless by hand. -/
def keepingContext : Context := { sampleContext with options := { removeTrivialPhis := false } }

/-- The global variable `g`, which is 7. -/
def sampleVariable : VarDecl where
  node := 0
  name := "g"
  init := some (.number 7)

/-- The sum of `g` and of the numbers up to `n`, in a loop with a condition that always holds.
The PHIs of `g` are removed, and so is one of `n`. -/
def sampleFunction : FunctionDecl where
  node := 3
  name := "sum"
  params := [{ node := 1, name := "n", init := none, isParameter := true }]
  body :=
    [.declare { node := 2, name := "r", init := some (.ident 0 "g") },
      .whileDo (.ident 1 "n")
        [.ifThen (.ident 0 "g")
            [.expr (.binary .assignment (.ident 2 "r")
              (.binary .plus (.ident 2 "r") (.ident 1 "n")))],
          .expr (.binary .assignment (.ident 1 "n") (.binary .minus (.ident 1 "n") (.number 1)))],
      .ret (some (.ident 2 "r"))]

/-- A variable and a function. -/
def sampleProgram : Program := [.var sampleVariable, .function sampleFunction]

theorem sampleProgram_leavesGlobals : LeavesGlobals sampleContext sampleProgram := by
  intro d hd
  obtain rfl : d = sampleFunction := by simpa [sampleProgram] using hd
  decide

theorem sampleProgram_compiles : ∃ u s B, Lowering.run sampleContext sampleProgram {} = .ok u s ∧
    u.functions.get? "sum" = some B := by
  obtain ⟨u, s, B, hrun, hB, _⟩ := exists_body_of_compile sampleContext sampleProgram "sum"
    (fun _ => True) (by decide +kernel)
  exact ⟨u, s, B, hrun, hB⟩

end Compiler16.Ssa
