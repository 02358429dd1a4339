import Compiler16.Proofs.Interpreting

/-!
# Code that does what statements do

When a piece of a program is right for a piece of a ledger.  A *spot* is a place in the
code of a block, with the values that are known there of the variables written in the
block before.  Emitted instructions compute an expression if they run through and leave
its value; the code at a spot achieves a statement if its run leads to another spot, or
returns, or goes on without an end as the statement does.

The rules below say so of each kind of expression and statement, given that it is so of
the parts.  They know nothing of how the code came to be.

## Main definitions

* `Config`, `Ledger.resume`, `Leads`: a run in the middle of a block, and where it leads
* `Computes`, `Prepares`: instructions that compute a value, or the operands of another
* `Spot`, `Achieves`: code that does what a statement does

## Main results

* `Prepares.emit`, `Computes.assign`: the rules for expressions
* `Achieves.seq`, `Achieves.branch`, `Achieves.loop`: the rules for statements
-/

namespace Compiler16.Ssa

open Compiler16.Source

variable {V W : Type}

/-! ## Runs in the middle of a block -/

/-- A run in the middle of a block: what is still to run there, the values of variables
where control has entered the block, and the results in the block. -/
structure Config (V W : Type) where
  block : Nat
  rest : List Emitted
  entry : Nat → V
  results : Nat → V
  world : W

section Runs

variable (I : Interpretation V W) (args : Nat → V) (L : Ledger)

/-- Goes on with a run, for at most the given number of further blocks. -/
def Ledger.resume (m : Nat) (C : Config V W) : Option (Option V × W) :=
  L.finish I args C.block C.entry (L.run I args m)
    (runReady I (C.rest.map (Emitted.ready I args C.entry)) C.results C.world)

/-- A run gets from one place to another. -/
def Leads (C C' : Config V W) : Prop := ∃ j, ∀ m, L.resume I args (j + m) C = L.resume I args m C'

/-- A run that has just entered a block. -/
def Ledger.entering (b : Nat) (σ : Nat → V) (w : W) : Config V W := ⟨b, L.emitted b, σ, I.global, w⟩

end Runs

section Runs

variable {I : Interpretation V W} {args : Nat → V} {L : Ledger} {C C' C'' : Config V W} {m n : Nat}
  {r : Option V × W}

theorem Ledger.run_succ {b : Nat} {σ : Nat → V} {w : W} :
    L.run I args (m + 1) b σ w = L.resume I args m (L.entering I b σ w) := rfl

theorem Ledger.resume_leave {results : Nat → V} {w : W} {v : Option V}
    (h : runReady I (C.rest.map (Emitted.ready I args C.entry)) C.results C.world =
      (results, w, .leave v)) : L.resume I args m C = some (v, w) := by
  rw [Ledger.resume, h]
  rfl

theorem Ledger.resume_goto {results : Nat → V} {w : W} {t : Nat}
    (h : runReady I (C.rest.map (Emitted.ready I args C.entry)) C.results C.world =
      (results, w, .goto t)) : L.resume I args m C =
        L.run I args m t (storeOf I args (L.write · C.block) C.entry results) w := by
  rw [Ledger.resume, h]
  rfl

/-- More blocks do no harm. -/
theorem Ledger.run_mono : ∀ {m : Nat} {b : Nat} {σ : Nat → V} {w : W},
    L.run I args m b σ w = some r → ∀ {n}, m ≤ n → L.run I args n b σ w = some r := by
  intro m
  induction m with
  | zero => intro _ _ _ h; cases h
  | succ m ih =>
    intro b σ w h n hn
    obtain ⟨n, rfl⟩ : ∃ k, n = k + 1 := ⟨n - 1, by omega⟩
    rw [run_succ] at h ⊢
    rcases hrun : runReady I ((L.emitted b).map (Emitted.ready I args σ)) I.global w with
      ⟨results, w', v | t⟩
    · rw [resume_goto hrun] at h ⊢
      exact ih h (by omega)
    · rwa [resume_leave hrun] at h ⊢

theorem Ledger.resume_mono (h : L.resume I args m C = some r) (hn : m ≤ n) :
    L.resume I args n C = some r := by
  rcases hrun : runReady I (C.rest.map (Emitted.ready I args C.entry)) C.results C.world with
    ⟨results, w', v | t⟩
  · rw [resume_goto hrun] at h ⊢
    exact run_mono h hn
  · rwa [resume_leave hrun] at h ⊢

theorem Ledger.resume_unique {r' : Option V × W} (h : L.resume I args m C = some r)
    (h' : L.resume I args n C = some r') : r = r' := by
  have hm := resume_mono h (Nat.le_max_left m n)
  have hn := resume_mono h' (Nat.le_max_right m n)
  exact Option.some.inj (hm.symm.trans hn)

namespace Leads

theorem refl : Leads I args L C C := ⟨0, fun m => by rw [Nat.zero_add]⟩

theorem trans (h : Leads I args L C C') (h' : Leads I args L C' C'') : Leads I args L C C'' := by
  obtain ⟨j, hj⟩ := h
  obtain ⟨j', hj'⟩ := h'
  refine ⟨j + j', fun m => ?_⟩
  rw [Nat.add_assoc, hj, hj']

theorem of_eq (h : ∀ m, L.resume I args m C = L.resume I args m C') : Leads I args L C C' :=
  ⟨0, fun m => by rw [Nat.zero_add, h]⟩

/-- Control has left the block. -/
theorem of_run {t : Nat} {σ : Nat → V} {w : W}
    (h : ∀ m, L.resume I args m C = L.run I args m t σ w) :
    Leads I args L C (L.entering I t σ w) :=
  ⟨1, fun m => by rw [h, Nat.add_comm, Ledger.run_succ]⟩

theorem resume_eq_none (h : Leads I args L C C') (hn : L.resume I args n C' = none) :
    L.resume I args n C = none := by
  obtain ⟨j, hj⟩ := h
  cases hr : L.resume I args n C with
  | none => rfl
  | some r =>
    have hmore := Ledger.resume_mono hr (Nat.le_add_left n j)
    rw [hj, hn] at hmore
    cases hmore

theorem resume_eq_some (h : Leads I args L C C') (hr : L.resume I args m C' = some r) :
    ∃ m, L.resume I args m C = some r := by
  obtain ⟨j, hj⟩ := h
  exact ⟨j + m, (hj m).trans hr⟩

end Leads

end Runs

/-! ## Expressions -/

/-- The value is no result, or that of an instruction with a smaller number. -/
def Value.Below (n : Nat) (v : Value) : Prop := ∀ i, v = .result i → i < n

/-- What the operand is for has a value that is known before the instructions with numbers
from `n` on. -/
def Role.Below (n : Nat) : Role → Prop
  | .fixed v => v.Below n
  | _ => True

/-- How a variable is read: it was written in the block before, or control has entered the
block with its value. -/
def roleOf (known : Nat → Option Value) (x : Nat) : Role :=
  match known x with
  | some v => .fixed v
  | none => .entry x

section Expressions

variable (I : Interpretation V W) (args : Nat → V)

/-- Instructions compute the value of an expression.  They leave the results of those with
numbers below `n` alone. -/
def Computes (f : Memory V W → Option (V × Memory V W)) (n : Nat) (known : Nat → Option Value)
    (seg : List Emitted) (known' : Nat → Option Value) (v : Value) : Prop :=
  ∀ entry results w, ∃ results' w',
    f ⟨storeOf I args known entry results, w⟩ =
      some (denote I args results' v, ⟨storeOf I args known' entry results', w'⟩) ∧
    (∀ i < n, results' i = results i) ∧
    ∀ rest, runReady I ((seg ++ rest).map (Emitted.ready I args entry)) results w =
      runReady I (rest.map (Emitted.ready I args entry)) results' w'

/-- Instructions compute the operands of another. -/
def Prepares (f : Memory V W → Option (List V × Memory V W)) (n : Nat)
    (known : Nat → Option Value) (seg : List Emitted) (known' : Nat → Option Value)
    (roles : List Role) : Prop :=
  ∀ entry results w, ∃ results' w',
    f ⟨storeOf I args known entry results, w⟩ =
      some (roles.map (Role.value I args entry results'),
        ⟨storeOf I args known' entry results', w'⟩) ∧
    (∀ i < n, results' i = results i) ∧
    ∀ rest, runReady I ((seg ++ rest).map (Emitted.ready I args entry)) results w =
      runReady I (rest.map (Emitted.ready I args entry)) results' w'

end Expressions

section Expressions

variable {I : Interpretation V W} {args entry results results' : Nat → V} {w : W}
  {f : Memory V W → Option (V × Memory V W)} {n n' i x : Nat}
  {known known' known'' : Nat → Option Value}
  {seg seg' : List Emitted} {v : Value} {roles : List Role}

theorem Value.Below.mono (h : v.Below n) (hn : n ≤ n') : v.Below n' :=
  fun i hi => (h i hi).trans_le hn

theorem denote_congr (h : v.Below n) (hsame : ∀ i < n, results' i = results i) :
    denote I args results' v = denote I args results v := by
  cases v with
  | result i => exact hsame i (h i rfl)
  | _ => rfl

theorem Role.value_congr {r : Role} (h : r.Below n) (hsame : ∀ i < n, results' i = results i) :
    r.value I args entry results' = r.value I args entry results := by
  cases r with
  | fixed v => exact denote_congr h hsame
  | _ => rfl

theorem storeOf_congr (h : ∀ x v, known x = some v → v.Below n)
    (hsame : ∀ i < n, results' i = results i) :
    storeOf I args known entry results' = storeOf I args known entry results := by
  funext x
  cases hx : known x with
  | some v =>
    rw [storeOf_of_some hx, storeOf_of_some hx]
    exact denote_congr (h x v hx) hsame
  | none => rw [storeOf_of_none hx, storeOf_of_none hx]

theorem storeOf_update : storeOf I args (Function.update known x (some v)) entry results =
    Function.update (storeOf I args known entry results) x (denote I args results v) := by
  funext y
  by_cases hy : y = x
  · subst hy
    rw [Function.update_self, storeOf_of_some (Function.update_self ..)]
  · rw [Function.update_of_ne hy]
    unfold storeOf
    rw [Function.update_of_ne hy]

theorem value_roleOf :
    (roleOf known x).value I args entry results = storeOf I args known entry results x := by
  unfold roleOf storeOf
  cases known x <;> rfl

/-- An instruction runs that does not make control leave the block. -/
theorem runReady_cons {e : Emitted} {rest : List (Ready V)} (hop : e.op.isTerminator = false) :
    runReady I (e.ready I args entry :: rest) results w =
      runReady I rest (Function.update results e.id
        (effect I e.op e.callee (e.roles.map (Role.value I args entry results)) w).1)
        (effect I e.op e.callee (e.roles.map (Role.value I args entry results)) w).2 := by
  have hexit : exit? I e.op e.targets (e.roles.map (Role.value I args entry results)) = none := by
    rw [← Option.not_isSome_iff_eq_none, exit?_isSome, hop]
    exact Bool.false_ne_true
  simp only [runReady, Emitted.ready, hexit]

theorem Prepares.nil {c : Context} {slot : Nat} :
    Prepares I args (evalArgs I c [] slot) n known [] known [] :=
  fun _ results w => ⟨results, w, by simp [evalArgs], fun _ _ => rfl, fun _ => rfl⟩

theorem Prepares.literal {payload : Int} : Prepares I args (fun μ => some ([I.literal payload], μ))
    n known [] known [.fixed (.literal i payload)] :=
  fun _ results w => ⟨results, w, rfl, fun _ _ => rfl, fun _ => rfl⟩

theorem Prepares.read : Prepares I args (fun μ => some ([μ.store x], μ)) n known [] known
    [roleOf known x] := by
  intro entry results w
  refine ⟨results, w, ?_, fun _ _ => rfl, fun _ => rfl⟩
  rw [List.map_singleton, value_roleOf]

theorem Prepares.mono {f : Memory V W → Option (List V × Memory V W)}
    (h : Prepares I args f n' known seg known' roles) (hn : n ≤ n') :
    Prepares I args f n known seg known' roles := by
  intro entry results w
  obtain ⟨results', w', heval, hsame, hrun⟩ := h entry results w
  exact ⟨results', w', heval, fun i hi => hsame i (hi.trans_le hn), hrun⟩

/-- Nothing is computed for a variable that is handed over as it is. -/
theorem Prepares.consVar {c : Context} {node slot : Nat} {name : String} {rest : List Expr}
    (hx : c.symbol? node = some x) (hbelow : (roleOf known x).Below n)
    (h : Prepares I args (evalArgs I c rest slot) n known seg known' roles) :
    Prepares I args (evalArgs I c (.ident node name :: rest) slot) n known seg known'
      (roleOf known x :: roles) := by
  intro entry results w
  obtain ⟨results', w', heval, hsame, hrun⟩ := h entry results w
  refine ⟨results', w', ?_, hsame, hrun⟩
  have hslot : slot + (Expr.ident node name).texts = slot := rfl
  rw [List.map_cons, Role.value_congr hbelow hsame, value_roleOf]
  simp [evalArgs, evalExpr, hx, hslot, heval]

theorem Prepares.cons {c : Context} {slot : Nat} {arg : Expr} {rest : List Expr}
    (h : Computes I args (evalExpr I c arg slot) n known seg known' v) (hn : n ≤ n')
    (hv : v.Below n')
    (hrest : Prepares I args (evalArgs I c rest (slot + arg.texts)) n' known' seg' known'' roles) :
    Prepares I args (evalArgs I c (arg :: rest) slot) n known (seg ++ seg') known''
      (.fixed v :: roles) := by
  intro entry results w
  obtain ⟨results₁, w₁, heval₁, hsame₁, hrun₁⟩ := h entry results w
  obtain ⟨results₂, w₂, heval₂, hsame₂, hrun₂⟩ := hrest entry results₁ w₁
  refine ⟨results₂, w₂, ?_, fun i hi => ?_, fun rest => ?_⟩
  · have hvalue : Role.value I args entry results₂ (.fixed v) = denote I args results₁ v :=
      denote_congr hv hsame₂
    rw [List.map_cons, hvalue]
    simp [evalArgs, heval₁, heval₂]
  · rw [hsame₂ i (hi.trans_le hn), hsame₁ i hi]
  · rw [List.append_assoc, hrun₁, hrun₂]

/-- **An instruction is emitted for its operands.** -/
theorem Prepares.emit {g : Memory V W → Option (List V × Memory V W)} {op : Op}
    {callee : Option String} (h : Prepares I args g n known seg known' roles)
    (hop : op.isTerminator = false) (hi : n ≤ i) (hknown : ∀ x v, known' x = some v → v.Below i)
    (hf : ∀ μ vs μ', g μ = some (vs, μ') → f μ =
      some ((effect I op callee vs μ'.world).1, ⟨μ'.store, (effect I op callee vs μ'.world).2⟩)) :
    Computes I args f n known (seg ++ [⟨i, op, [], callee, roles⟩]) known' (.result i) := by
  intro entry results w
  obtain ⟨results', w', heval, hsame, hrun⟩ := h entry results w
  generalize hr : effect I op callee (roles.map (Role.value I args entry results')) w' = r
  have hkeep : ∀ j < i, Function.update results' i r.1 j = results' j :=
    fun j hj => Function.update_of_ne hj.ne _ _
  refine ⟨Function.update results' i r.1, r.2, ?_, fun j hj => ?_, fun rest => ?_⟩
  · rw [hf _ _ _ heval, hr, storeOf_congr hknown hkeep]
    simp [denote]
  · rw [hkeep j (hj.trans_le hi), hsame j hj]
  · rw [List.append_assoc, hrun, List.singleton_append, List.map_cons, runReady_cons hop, hr]

/-- A value is known of a variable from here on. -/
theorem Computes.assign {g : Memory V W → Option (V × Memory V W)}
    (h : Computes I args f n known seg known' v)
    (hg : ∀ μ a μ', f μ = some (a, μ') →
      g μ = some (a, { μ' with store := Function.update μ'.store x a })) :
    Computes I args g n known seg (Function.update known' x (some v)) v := by
  intro entry results w
  obtain ⟨results', w', heval, hsame, hrun⟩ := h entry results w
  refine ⟨results', w', ?_, hsame, hrun⟩
  rw [hg _ _ _ heval, storeOf_update]

/-! ### The rules -/

section Rules

variable {c : Context} {node slot j : Nat} {name : String} {e lhs rhs : Expr} {op : Op}
  {v' : Value} (hi : n ≤ i)

include hi

theorem Computes.literal {payload : Int} (hknown : ∀ x v, known x = some v → v.Below i)
    (hf : ∀ μ, f μ = some (I.literal payload, μ)) :
    Computes I args f n known [⟨i, .mov, [], none, [.fixed (.literal j payload)]⟩] known
      (.result i) := by
  refine Prepares.literal.emit rfl hi hknown fun μ vs μ' h => ?_
  cases h
  exact hf μ

theorem Computes.ident (hx : c.symbol? node = some x)
    (hknown : ∀ x v, known x = some v → v.Below i) :
    Computes I args (evalExpr I c (.ident node name) slot) n known
      [⟨i, .mov, [], none, [roleOf known x]⟩] known (.result i) := by
  refine Prepares.read.emit rfl hi hknown fun μ vs μ' h => ?_
  cases h
  simp [evalExpr, hx, effect]

omit hi in
theorem evalArgs_singleton {μ μ' : Memory V W} {vs : List V}
    (h : evalArgs I c [e] slot μ = some (vs, μ')) :
    ∃ a, vs = [a] ∧ evalExpr I c e slot μ = some (a, μ') := by
  simp only [evalArgs, Option.bind_eq_bind, Option.bind_eq_some_iff] at h
  obtain ⟨⟨a, μ₁⟩, he, ⟨us, μ₂⟩, ⟨⟩, ⟨⟩⟩ := h
  exact ⟨a, rfl, he⟩

variable (hknown : ∀ x v, known' x = some v → v.Below i)

include hknown

/-- **An assignment.** -/
theorem Computes.assignment (hx : c.symbol? node = some x)
    (h : Prepares I args (evalArgs I c [rhs] slot) n known seg known' roles) :
    Computes I args (evalExpr I c (.binary .assignment (.ident node name) rhs) slot) n known
      (seg ++ [⟨i, .mov, [], none, roles⟩]) (Function.update known' x (some (.result i)))
      (.result i) := by
  have hcopy : Computes I args (evalExpr I c rhs slot) n known
      (seg ++ [⟨i, .mov, [], none, roles⟩]) known' (.result i) := by
    refine h.emit rfl hi hknown fun μ vs μ' heval => ?_
    obtain ⟨a, rfl, ha⟩ := evalArgs_singleton heval
    exact ha
  refine hcopy.assign fun μ a μ' heval => ?_
  simp [evalExpr, hx, heval]

theorem Computes.unary {o : Operator} (ho : Lowering.unaryOp? o = some op)
    (h : Prepares I args (evalArgs I c [e] slot) n known seg known' roles) :
    Computes I args (evalExpr I c (.unary o e) slot) n known
      (seg ++ [⟨i, op, [], none, roles⟩]) known' (.result i) := by
  have hop : op = .not ∨ op = .neg := by
    cases o <;> cases ho <;> simp
  refine h.emit (by rcases hop with rfl | rfl <;> rfl) hi hknown fun μ vs μ' heval => ?_
  obtain ⟨a, rfl, ha⟩ := evalArgs_singleton heval
  rcases hop with rfl | rfl <;> simp [evalExpr, ho, ha, effect]

theorem Computes.binary {o : Operator} (ho : Lowering.binaryOp? o = some op)
    (h : Prepares I args (evalArgs I c [lhs, rhs] slot) n known seg known' roles) :
    Computes I args (evalExpr I c (.binary o lhs rhs) slot) n known
      (seg ++ [⟨i, op, [], none, roles⟩]) known' (.result i) := by
  have hop : op.isTerminator = false ∧ o ≠ .assignment ∧
      ∀ vs (w : W), effect I op none vs w = (I.operate op vs, w) := by
    cases o <;> cases ho <;> exact ⟨rfl, by decide, fun _ _ => rfl⟩
  refine h.emit hop.1 hi hknown fun μ vs μ' heval => ?_
  rw [hop.2.2]
  simp only [evalArgs, Option.bind_eq_bind, Option.bind_eq_some_iff] at heval
  obtain ⟨⟨a, μ₁⟩, hl, ⟨us, μ₂⟩, ⟨⟨b, μ₃⟩, hr, ⟨⟨⟩⟩, ⟨⟩, ⟨⟩⟩, ⟨⟩⟩ := heval
  simp [evalExpr, hop.2.1, ho, hl, hr]

theorem Computes.call {callee : String} {es : List Expr}
    (h : Prepares I args (evalArgs I c es slot) n known seg known' roles) :
    Computes I args (evalExpr I c (.call node callee es) slot) n known
      (seg ++ [⟨i, .call, [], some callee, roles⟩]) known' (.result i) := by
  refine h.emit rfl hi hknown fun μ vs μ' heval => ?_
  simp [evalExpr, heval, effect]

end Rules

end Expressions

/-! ## Statements -/

/-- A place in the code of a block, and what is known there of the variables written in the
block before. -/
structure Spot where
  block : Nat
  known : Nat → Option Value
  done : List Emitted

/-- The beginning of a block. -/
def Spot.first (b : Nat) : Spot := ⟨b, fun _ => none, []⟩

section Statements

variable (I : Interpretation V W) (args : Nat → V) (L : Ledger)

/-- A run is at a spot, with these values of variables. -/
structure Config.At (P : Spot) (μ : Memory V W) (C : Config V W) : Prop where
  block : C.block = P.block
  code : L.emitted P.block = P.done ++ C.rest
  store : storeOf I args P.known C.entry C.results = μ.store
  world : C.world = μ.world

/-- A run does what a statement did: there is no result yet, or it returns, or it gets to
the spot `X`. -/
inductive Follows (X : Option Spot) (n : Nat) (C : Config V W) :
    Option (Outcome V × Memory V W) → Prop where
  | unfinished : L.resume I args n C = none → Follows X n C none
  | returned {m : Nat} {v : Option V} {μ : Memory V W} :
    L.resume I args m C = some (v, μ.world) → Follows X n C (some (.returned v, μ))
  | normal {P : Spot} {C' : Config V W} {μ : Memory V W} : X = some P → C'.At I args L P μ →
    Leads I args L C C' → Follows X n C (some (.normal, μ))

/-- The code at a spot does what a statement does. -/
def Achieves (f : Nat → Memory V W → Option (Outcome V × Memory V W)) (P : Spot)
    (X : Option Spot) : Prop :=
  ∀ n μ C, Config.At I args L P μ C → Follows I args L X n C (f n μ)

end Statements

section Statements

variable {I : Interpretation V W} {args : Nat → V} {L : Ledger} {P Q : Spot} {X Y : Option Spot}
  {C C' : Config V W} {μ : Memory V W} {i j n t m : Nat}
  {f g : Nat → Memory V W → Option (Outcome V × Memory V W)}
  {cond : Memory V W → Option (V × Memory V W)} {known : Nat → Option Value}
  {seg : List Emitted} {v : Value}

theorem Config.at_entering : (L.entering I t μ.store μ.world).At I args L (.first t) μ :=
  ⟨rfl, rfl, rfl, rfl⟩

theorem Follows.of_leads {r : Option (Outcome V × Memory V W)} (hC : Leads I args L C C')
    (h : Follows I args L X n C' r) : Follows I args L X n C r := by
  cases h with
  | unfinished h => exact .unfinished (hC.resume_eq_none h)
  | returned h =>
    obtain ⟨m, hm⟩ := hC.resume_eq_some h
    exact .returned hm
  | normal hX hat h => exact .normal hX hat (hC.trans h)

theorem Follows.resume_eq_none (h : Follows I args L X n C none) : L.resume I args n C = none := by
  cases h with
  | unfinished h => exact h

/-- If nothing follows the statement, its result is that of the run. -/
theorem Follows.exists_resume {o : Outcome V × Memory V W} (h : Follows I args L X n C (some o))
    (hX : ∀ P, X = some P → L.emitted P.block = P.done) :
    ∃ m, L.resume I args m C = some (o.1.value, o.2.world) := by
  cases h with
  | returned h => exact ⟨_, h⟩
  | @normal P C' μ hP hat hleads =>
    have hrest : C'.rest = [] := by
      have hcode := hat.code
      rw [hX P hP] at hcode
      exact List.append_cancel_left (hcode.symm.trans (List.append_nil _).symm)
    refine hleads.resume_eq_some (m := 0) ?_
    rw [Ledger.resume, hrest, ← hat.world]
    rfl

theorem Follows.mono {r : Option (Outcome V × Memory V W)} (h : Follows I args L X n C r)
    (hm : m ≤ n) : Follows I args L X m C r := by
  cases h with
  | unfinished h =>
    refine .unfinished ?_
    by_contra hne
    obtain ⟨r, hr⟩ := Option.ne_none_iff_exists'.mp hne
    rw [Ledger.resume_mono hr hm] at h
    cases h
  | returned h => exact .returned h
  | normal hX hat h => exact .normal hX hat h

/-- Control leaves a block: there is one block less to follow. -/
theorem Follows.of_run {r : Option (Outcome V × Memory V W)} {σ : Nat → V} {w : W}
    (hC : ∀ m, L.resume I args m C = L.run I args m t σ w)
    (h : Follows I args L X n (L.entering I t σ w) r) : Follows I args L X (n + 1) C r := by
  cases h with
  | unfinished h => exact .unfinished (by rw [hC, Ledger.run_succ, h])
  | returned h =>
    obtain ⟨m, hm⟩ := (Leads.of_run hC).resume_eq_some h
    exact .returned hm
  | normal hX hat h => exact .normal hX hat ((Leads.of_run hC).trans h)

/-- What follows a statement that always returns does not matter. -/
theorem Follows.andThen {r : Option (Outcome V × Memory V W)}
    {next : Memory V W → Option (Outcome V × Memory V W)} (h : Follows I args L Y n C r)
    (hnext : ∀ Q μ C', Y = some Q → C'.At I args L Q μ → Follows I args L X n C' (next μ)) :
    Follows I args L X n C (andThen r next) := by
  cases h with
  | unfinished h => exact .unfinished h
  | returned h => exact .returned h
  | normal hY hat hleads => exact (hnext _ _ _ hY hat).of_leads hleads

theorem andThen_normal (r : Option (Outcome V × Memory V W)) :
    andThen r (fun μ => some (.normal, μ)) = r := by
  rcases r with _ | ⟨_ | v, μ⟩ <;> rfl

theorem Config.At.exists_rest (h : C.At I args L P μ)
    (hcode : P.done ++ seg <+: L.emitted P.block) : ∃ rest, C.rest = seg ++ rest := by
  rw [h.code, List.prefix_append_right_inj] at hcode
  obtain ⟨rest, hrest⟩ := hcode
  exact ⟨rest, hrest.symm⟩

/-- The expression is computed. -/
theorem Config.At.compute (h : C.At I args L P μ)
    (hseg : Computes I args cond n P.known seg known v)
    (hcode : P.done ++ seg <+: L.emitted P.block) :
    ∃ μ' C', cond μ = some (denote I args C'.results v, μ') ∧
      C'.At I args L ⟨P.block, known, P.done ++ seg⟩ μ' ∧
      ∀ m, L.resume I args m C = L.resume I args m C' := by
  obtain ⟨results, w, heval, _, hrun⟩ := hseg C.entry C.results C.world
  obtain ⟨rest, hrest⟩ := h.exists_rest hcode
  refine ⟨⟨storeOf I args known C.entry results, w⟩, ⟨C.block, rest, C.entry, results, w⟩, ?_,
    ⟨h.block, ?_, rfl, rfl⟩, fun m => ?_⟩
  · rw [← heval, h.store, h.world]
  · rw [h.code, hrest, List.append_assoc]
  · rw [Ledger.resume, hrest, hrun]
    rfl

/-- Control leaves the block for the only target of a branch. -/
theorem Config.At.jump (h : C.At I args L P μ) (hwrite : (L.write · P.block) = P.known)
    (hcode : L.emitted P.block = P.done ++ [⟨i, .br, [t], none, []⟩]) (m : Nat) :
    L.resume I args m C = L.run I args m t μ.store μ.world := by
  have hrest : C.rest = [⟨i, .br, [t], none, []⟩] :=
    List.append_cancel_left (h.code.symm.trans hcode)
  have hrun : runReady I (C.rest.map (Emitted.ready I args C.entry)) C.results C.world =
      (C.results, C.world, .goto t) := by
    rw [hrest]
    rfl
  rw [Ledger.resume_goto hrun, h.block, hwrite, h.store, h.world]

/-- Control leaves the block for one of the two targets of a branch. -/
theorem Config.At.fork {t' : Nat} (h : C.At I args L P μ) (hwrite : (L.write · P.block) = P.known)
    (hcode : L.emitted P.block = P.done ++ [⟨i, .br, [t, t'], none, [.fixed v]⟩]) (m : Nat) :
    L.resume I args m C = L.run I args m (if I.isTrue (denote I args C.results v) then t else t')
      μ.store μ.world := by
  have hrest : C.rest = [⟨i, .br, [t, t'], none, [.fixed v]⟩] :=
    List.append_cancel_left (h.code.symm.trans hcode)
  have hrun : runReady I (C.rest.map (Emitted.ready I args C.entry)) C.results C.world =
      (C.results, C.world, .goto (if I.isTrue (denote I args C.results v) then t else t')) := by
    rw [hrest]
    rfl
  rw [Ledger.resume_goto hrun, h.block, hwrite, h.store, h.world]

namespace Achieves

theorem skip (hf : ∀ n μ, f n μ = some (.normal, μ)) : Achieves I args L f P (some P) := by
  intro n μ C hC
  rw [hf]
  exact .normal rfl hC .refl

theorem seq {h : Nat → Memory V W → Option (Outcome V × Memory V W)}
    (hf : Achieves I args L f P Y) (hg : ∀ Q, Y = some Q → Achieves I args L g Q X)
    (hh : ∀ n μ, h n μ = andThen (f n μ) (g n)) : Achieves I args L h P X := by
  intro n μ C hC
  rw [hh]
  exact (hf n μ C hC).andThen fun Q μ' C' hQ hC' => hg Q hQ n μ' C' hC'

/-- An expression is computed for what it does. -/
theorem compute (hseg : Computes I args cond m P.known seg known v)
    (hcode : P.done ++ seg <+: L.emitted P.block)
    (hf : ∀ n μ a μ', cond μ = some (a, μ') → f n μ = some (.normal, μ')) :
    Achieves I args L f P (some ⟨P.block, known, P.done ++ seg⟩) := by
  intro n μ C hC
  obtain ⟨μ', C', heval, hC', heq⟩ := hC.compute hseg hcode
  rw [hf n μ _ _ heval]
  exact .normal rfl hC' (.of_eq heq)

theorem ret (hcode : P.done ++ [⟨i, .ret, [], none, []⟩] <+: L.emitted P.block)
    (hf : ∀ n μ, f n μ = some (.returned none, μ)) : Achieves I args L f P X := by
  intro n μ C hC
  obtain ⟨rest, hrest⟩ := hC.exists_rest hcode
  rw [hf]
  refine .returned (m := 0) ?_
  rw [Ledger.resume, hrest, ← hC.world]
  rfl

theorem retValue (hseg : Computes I args cond m P.known seg known v)
    (hcode : P.done ++ seg ++ [⟨i, .ret, [], none, [.fixed v]⟩] <+: L.emitted P.block)
    (hf : ∀ n μ a μ', cond μ = some (a, μ') → f n μ = some (.returned (some a), μ')) :
    Achieves I args L f P X := by
  intro n μ C hC
  obtain ⟨μ', C', heval, hC', heq⟩ := hC.compute hseg ((List.prefix_append ..).trans hcode)
  obtain ⟨rest, hrest⟩ := hC'.exists_rest hcode
  rw [hf n μ _ _ heval]
  refine .returned (m := 0) ?_
  rw [heq, Ledger.resume, hrest, ← hC'.world]
  rfl

/-- Control goes on to another block. -/
theorem jump (hwrite : (L.write · P.block) = P.known)
    (hcode : L.emitted P.block = P.done ++ [⟨i, .br, [t], none, []⟩])
    (hf : ∀ n μ, f n μ = some (.normal, μ)) : Achieves I args L f P (some (.first t)) := by
  intro n μ C hC
  rw [hf]
  exact .normal rfl Config.at_entering (.of_run (hC.jump hwrite hcode))

end Achieves

/-! ### Conditions and loops -/

section Control

variable {body exit : Nat}
  -- the condition is computed in the block of `P`, and control leaves it for `body` or `exit`
  (hseg : Computes I args cond m P.known seg known v) (hwrite : (L.write · P.block) = known)
  (hcode : L.emitted P.block = P.done ++ seg ++ [⟨i, .br, [body, exit], none, [.fixed v]⟩])

include hseg hwrite hcode in
theorem Config.At.decide (hC : C.At I args L P μ) :
    ∃ a μ', cond μ = some (a, μ') ∧ ∀ m, L.resume I args m C =
      L.run I args m (if I.isTrue a then body else exit) μ'.store μ'.world := by
  obtain ⟨μ', C', heval, hC', heq⟩ := hC.compute hseg (hcode ▸ List.prefix_append ..)
  exact ⟨_, μ', heval, fun m => (heq m).trans (hC'.fork hwrite hcode m)⟩

-- what comes next begins in `body`, and at its end control goes on to `t`
variable (hbody : Achieves I args L g (.first body) Y)
  (hend : ∀ Q, Y = some Q → (L.write · Q.block) = Q.known ∧
    ∃ j, L.emitted Q.block = Q.done ++ [⟨j, .br, [t], none, []⟩])

include hbody hend in
theorem Achieves.toNext : Achieves I args L g (.first body) (some (.first t)) := by
  refine hbody.seq (g := fun _ μ => some (.normal, μ)) (fun Q hQ => ?_)
    fun n μ => (andThen_normal _).symm
  obtain ⟨hw, j, hj⟩ := hend Q hQ
  exact Achieves.jump hw hj fun _ _ => rfl

include hseg hwrite hcode

/-- **A condition.** -/
theorem Achieves.branch (hbody : Achieves I args L g (.first body) (some (.first exit)))
    (hf : ∀ n μ a μ', cond μ = some (a, μ') →
      f n μ = if I.isTrue a then g n μ' else some (.normal, μ')) :
    Achieves I args L f P (some (.first exit)) := by
  intro n μ C hC
  obtain ⟨a, μ', heval, hrun⟩ := hC.decide hseg hwrite hcode
  rw [hf n μ a μ' heval]
  refine Follows.of_leads (.of_run hrun) ?_
  by_cases ha : I.isTrue a = true
  · rw [if_pos ha, if_pos ha]
    exact hbody n μ' _ Config.at_entering
  · rw [if_neg ha, if_neg ha]
    exact .normal rfl Config.at_entering .refl

/-- The rounds of a loop, whose condition is computed at `P`.  If there are too many of them
for the loop, there are too many blocks for the run. -/
theorem Achieves.rounds
    (hbody : Achieves I args L g (.first body) (some P)) (n : Nat) :
    ∀ k ≤ n, ∀ μ C, C.At I args L P μ →
      Follows I args L (some (.first exit)) k C (iterate I cond (g n) k μ) := by
  intro k
  induction k with
  | zero =>
    intro _ μ C hC
    obtain ⟨a, μ', _, hrun⟩ := hC.decide hseg hwrite hcode
    exact .unfinished (hrun 0)
  | succ k ih =>
    intro hk μ C hC
    obtain ⟨a, μ', heval, hrun⟩ := hC.decide hseg hwrite hcode
    refine Follows.of_run hrun ?_
    simp only [iterate, heval, Option.bind_eq_bind, Option.bind_some]
    by_cases ha : I.isTrue a = true
    · rw [if_pos ha, if_pos ha]
      -- one round, and then the others
      refine ((hbody n μ' _ Config.at_entering).mono (by omega)).andThen fun Q μ C' hQ hC' => ?_
      obtain rfl := Option.some.inj hQ
      exact ih (by omega) μ C' hC'
    · rw [if_neg ha, if_neg ha]
      exact .normal rfl Config.at_entering .refl

end Control

/-- **A loop.** -/
theorem Achieves.loop {header body exit : Nat} (hjump : (L.write · P.block) = P.known)
    (hcode : L.emitted P.block = P.done ++ [⟨i, .br, [header], none, []⟩])
    (hseg : Computes I args cond m (fun _ => none) seg known v)
    (hwrite : (L.write · header) = known)
    (hheader : L.emitted header = seg ++ [⟨j, .br, [body, exit], none, [.fixed v]⟩])
    (hbody : Achieves I args L g (.first body) (some (.first header)))
    (hf : ∀ n μ, f n μ = iterate I cond (g n) n μ) :
    Achieves I args L f P (some (.first exit)) := by
  intro n μ C hC
  rw [hf]
  refine Follows.of_leads (.of_run (hC.jump hjump hcode)) ?_
  exact rounds (P := .first header) hseg hwrite hheader hbody n n le_rfl μ _ Config.at_entering

end Statements

end Compiler16.Ssa
