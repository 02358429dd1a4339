import Compiler16.Proofs.Steps
import Compiler16.Proofs.Versioning

/-!
# The states that lowering passes through

A lowering is a single step of the construction, of which only the last state can be seen.  Here
it is written again as a sequence of calls, with the state after every call, and with a note of
every variable that is read or written.  The two compute the same.

## Main definitions

* `Traced`: a computation with the states that it passes through
* `Traced.accesses`: which variables it reads and writes, where, and with what values
* `Along`: how a computation ends, and what holds on the way
* `Traced.run`: the lowering of a program, call by call

## Main results

* `Along.bind`: one computation after another
* `Traced.result_run`: call by call, a lowering computes the same
-/

namespace Compiler16.Ssa

open Compiler16.Source Compiler16.Ssa.Builder

/-- A state on the way, with the access to a variable that has led there, if it was one. -/
structure Note where
  state : Builder
  access : Option (Call × Option Value)

/-- A computation with the states that it passes through, in order. -/
def Traced (α : Type) : Type := Builder → List Note × EStateM.Result Error Builder α

namespace Traced

variable {α β : Type}

/-- What is computed. -/
def result (m : Traced α) : Build α := fun s => (m s).2

/-- The states on the way. -/
def states (m : Traced α) (s : Builder) : List Builder := (m s).1.map Note.state

/-- The accesses to variables on the way, last one first. -/
def accesses (m : Traced α) (s : Builder) : Log := ((m s).1.filterMap Note.access).reverse

/-- A call, with a note of what it accesses.  The state after it is on the way also if it
fails. -/
def noted (access : Builder → α → Option (Call × Option Value)) (m : Build α) : Traced α := fun s =>
  match m s with
  | .ok a s' => ([⟨s', access s a⟩], .ok a s')
  | .error e s' => ([⟨s', none⟩], .error e s')

/-- A call that accesses no variable. -/
abbrev call (m : Build α) : Traced α := noted (fun _ _ => none) m

instance : Monad Traced where
  pure a := fun s => ([], .ok a s)
  bind m f := fun s =>
    match m s with
    | (l, .ok a s') => (l ++ (f a s').1, (f a s').2)
    | (l, .error e s') => (l, .error e s')

@[simp] theorem result_noted (access : Builder → α → Option (Call × Option Value)) (m : Build α) :
    (noted access m).result = m := by
  funext s
  unfold result noted
  cases m s <;> rfl

@[simp] theorem result_pure (a : α) : (pure a : Traced α).result = pure a := rfl

@[simp] theorem result_bind (m : Traced α) (f : α → Traced β) :
    (m >>= f).result = m.result >>= fun a => (f a).result := by
  funext s
  change (bind m f s).2 = EStateM.bind m.result _ s
  unfold EStateM.bind result
  simp only [bind]
  rcases m s with ⟨l, _ | _⟩ <;> rfl

@[simp] theorem result_forM (f : α → Traced Unit) (l : List α) :
    (forM l f).result = forM l fun a => (f a).result := by
  induction l with
  | nil => rfl
  | cons a l ih =>
    change (f a >>= fun _ => forM l f).result = _
    rw [result_bind, ih]
    rfl

theorem result_ite (p : Prop) [Decidable p] (m m' : Traced α) :
    (if p then m else m').result = if p then m.result else m'.result := by
  split <;> rfl

section Accesses

variable {m : Traced α} {a : α} {s s' : Builder}

theorem accesses_noted {access : Builder → α → Option (Call × Option Value)} {m : Build α}
    (h : m s = .ok a s') : (noted access m).accesses s = (access s a).toList := by
  unfold accesses noted
  rw [h]
  cases haccess : access s a <;> simp [haccess]

@[simp] theorem accesses_call (m : Build α) : (call m).accesses s = [] := by
  unfold accesses call noted
  cases m s <;> rfl

@[simp] theorem accesses_pure : (pure a : Traced α).accesses s = [] := rfl

/-- One computation after another: what the second accesses comes on top. -/
theorem accesses_bind {f : α → Traced β} (h : m.result s = .ok a s') :
    (m >>= f).accesses s = (f a).accesses s' ++ m.accesses s := by
  have hrun : m s = ((m s).1, .ok a s') := Prod.ext rfl h
  have hbind : (m >>= f) s = ((m s).1 ++ (f a s').1, (f a s').2) := by
    show (match m s with
      | (l, .ok a s') => (l ++ (f a s').1, (f a s').2)
      | (l, .error e s') => (l, .error e s')) = _
    rw [hrun]
  unfold accesses
  rw [hbind, List.filterMap_append, List.reverse_append]

theorem accesses_bind_of_error {f : α → Traced β} {e : Error} (h : m.result s = .error e s') :
    (m >>= f).accesses s = m.accesses s := by
  have hrun : m s = ((m s).1, .error e s') := Prod.ext rfl h
  have hbind : (m >>= f) s = ((m s).1, .error e s') := by
    show (match m s with
      | (l, .ok a s') => (l ++ (f a s').1, (f a s').2)
      | (l, .error e s') => (l, .error e s')) = _
    rw [hrun]
  unfold accesses
  rw [hbind]

end Accesses

/-! ## Lowering call by call -/

variable (c : Context)

/-- The symbol that a node stands for. -/
def symbolOf (role : NodeRole) (node : Nat) : Traced Nat := call (Lowering.symbolOf c role node)

/-- Reads a variable in the current block. -/
abbrev read (x : Nat) : Traced Value :=
  noted (fun s v => s.current.map fun b => (.read x b, some v)) (Lowering.readCurrent c x)

/-- Assigns a variable in the current block. -/
abbrev assign (x : Nat) (v : Value) : Traced Unit :=
  noted (fun s _ => s.current.map fun b => (.write x b v, none)) (Lowering.assignVariable c x v)

/-- Emits a new literal. -/
def literal (payload : Int) : Traced Value := do
  let v ← call (freshLiteral payload)
  call (emit .mov [v])

mutual

/-- Emits an expression. -/
def lowerExpr : Expr → Traced Value
  | .bool b => literal (if b then 1 else 0)
  | .number n => literal n
  | .string text => do
    let slot ← call (Lowering.internString text)
    literal slot
  | .ident node _ => do
    let symbol ← symbolOf c .identifier node
    let v ← read c symbol
    call (emit .mov [v])
  | .binary op lhs rhs =>
    if op = .assignment then
      match lhs with
      | .ident node _ => do
        let symbol ← symbolOf c .identifier node
        let v ← lowerExpr rhs
        let copy ← call (emit .mov [v])
        assign c symbol copy
        return copy
      | _ => call (fail .badTarget)
    else
      match Lowering.binaryOp? op with
      | some op => do
        let x ← lowerExpr lhs
        let y ← lowerExpr rhs
        call (emit op [x, y])
      | none => call (fail (.notBinary op))
  | .unary op operand =>
    match Lowering.unaryOp? op with
    | some op => do
      let v ← lowerExpr operand
      call (emit op [v])
    | none => call (fail (.notUnary op))
  | .call node callee args => do
    let _ ← symbolOf c .call node
    let vs ← lowerArgs args
    Traced.call (emitCall callee vs)

/-- Emits the arguments of a call. -/
def lowerArgs : List Expr → Traced (List Value)
  | [] => return []
  | arg :: args => do
    let v ← match arg with
      | .ident node _ => do
        let symbol ← symbolOf c .argument node
        read c symbol
      | _ => lowerExpr arg
    let vs ← lowerArgs args
    return v :: vs

end

mutual

theorem result_lowerExpr : ∀ e, (lowerExpr c e).result = Lowering.lowerExpr c e
  | .bool b => by
    simp [lowerExpr, Lowering.lowerExpr, literal]
  | .number n => by
    simp [lowerExpr, Lowering.lowerExpr, literal]
  | .string text => by
    simp [lowerExpr, Lowering.lowerExpr, literal]
  | .ident node _ => by
    simp [lowerExpr, Lowering.lowerExpr, symbolOf]
  | .binary op lhs rhs => by
    unfold lowerExpr Lowering.lowerExpr
    by_cases hop : op = .assignment
    · rw [if_pos hop, if_pos hop]
      cases lhs <;> simp [symbolOf, result_lowerExpr rhs]
    · rw [if_neg hop, if_neg hop]
      cases Lowering.binaryOp? op <;> simp [result_lowerExpr lhs, result_lowerExpr rhs]
  | .unary op operand => by
    rw [lowerExpr, Lowering.lowerExpr]
    cases Lowering.unaryOp? op <;> simp [result_lowerExpr operand]
  | .call node callee args => by
    simp [lowerExpr, Lowering.lowerExpr, symbolOf, result_lowerArgs args]

theorem result_lowerArgs : ∀ es, (lowerArgs c es).result = Lowering.lowerArgs c es
  | [] => rfl
  | e :: es => by
    unfold lowerArgs Lowering.lowerArgs
    cases e <;> simp [symbolOf, result_lowerExpr, result_lowerArgs es]

end

/-- Lowers the declaration of a variable. -/
def lowerVar (d : VarDecl) : Traced Unit :=
  if d.isParameter then pure ()
  else
    match d.init with
    | none => pure ()
    | some init => do
      let v ← lowerExpr c init
      let symbol ← symbolOf c .declaration d.node
      assign c symbol v

/-- Opens a new block if control has left the current one. -/
def ensureOpenBlock : Traced Unit := do
  let current ← call getCurrent
  let s ← call get
  if s.isTerminated current then
    let block ← call createBlock
    call (sealBlock c.options block)
    call (setCurrent block)

/-- Opens a new block that control enters only from `source`. -/
def enterBlock (source : Nat) : Traced Nat := do
  let block ← call createBlock
  call (addEdge source block)
  call (sealBlock c.options block)
  call (setCurrent block)
  return block

/-- Creates the block that control enters if `cond` is zero, and branches there or to `body`. -/
def branchOn (source : Nat) (cond : Value) (body : Nat) : Traced Nat := do
  let exit ← call createBlock
  call (emitBranch source (some cond) [body, exit])
  call (addEdge source exit)
  return exit

/-- Makes control go on from one block to another, unless it has left the block before. -/
def branchTo (source target : Nat) : Traced Unit := do
  let s ← call get
  unless s.isTerminated source do
    call (emitBranch source none [target])
    call (addEdge source target)

mutual

/-- Lowers a statement. -/
def lowerStmt (s : Stmt) : Traced Unit := do
  ensureOpenBlock c
  match s with
  | .compound body => lowerBody body
  | .declare d => lowerVar c d
  | .ifThen cond body => do
    let v ← lowerExpr c cond
    let source ← call getCurrent
    let thenBlock ← enterBlock c source
    lowerBody body
    let thenEnd ← call getCurrent
    let exit ← branchOn source v thenBlock
    branchTo thenEnd exit
    call (sealBlock c.options exit)
    call (setCurrent exit)
  | .whileDo cond body => do
    let before ← call getCurrent
    let header ← call createBlock
    branchTo before header
    call (setCurrent header)
    let v ← lowerExpr c cond
    let headerEnd ← call getCurrent
    let bodyBlock ← enterBlock c headerEnd
    lowerBody body
    let bodyEnd ← call getCurrent
    let exit ← branchOn headerEnd v bodyBlock
    branchTo bodyEnd header
    call (sealBlock c.options header)
    call (sealBlock c.options exit)
    call (setCurrent exit)
  | .ret none => do let _ ← call (emit .ret [])
  | .ret (some value) => do
    let v ← lowerExpr c value
    let _ ← call (emit .ret [v])
  | .print _ => pure ()
  | .scan _ => pure ()
  | .expr value => do let _ ← lowerExpr c value

/-- Lowers statements one after the other. -/
def lowerBody : List Stmt → Traced Unit
  | [] => pure ()
  | s :: rest => do
    lowerStmt s
    lowerBody rest

end

/-- Gives a parameter an argument of its own. -/
def lowerParam (entry : Nat) (d : VarDecl) : Traced Unit := do
  let symbol ← symbolOf c .parameter d.node
  let id ← call freshId
  call (changeBody fun body => .ok ((), body.addArgument (.argument id)))
  noted (fun _ _ => some (.write symbol entry (.argument id), none))
    (writeVariable symbol entry (.argument id))

/-- Begins a function and lowers its statements. -/
def buildFunction (d : FunctionDecl) : Traced Unit := do
  let entry ← call (beginFunction d.name)
  d.params.forM (lowerParam c entry)
  lowerBody c d.body

/-- Lowers a declaration at the top of a program. -/
def lowerDecl : Decl → Traced Unit
  | .function d => do
    buildFunction c d
    call endFunction
  | .var d => lowerVar c d

/-- Lowers a program from a clean state. -/
def run (p : Program) : Traced CompiledUnit := do
  call (set ({} : Builder))
  p.forM (lowerDecl c)
  call (modifyGet fun s => (s.compiled, { s with compiled := {} }))

/-! ## The same is computed -/

theorem result_lowerVar (d : VarDecl) : (lowerVar c d).result = Lowering.lowerVar c d := by
  unfold lowerVar Lowering.lowerVar
  split
  · rfl
  · cases d.init <;> simp [symbolOf, result_lowerExpr]

theorem result_ensureOpenBlock : (ensureOpenBlock c).result = Lowering.ensureOpenBlock c := by
  simp [ensureOpenBlock, Lowering.ensureOpenBlock, result_ite]

theorem result_enterBlock (source : Nat) :
    (enterBlock c source).result = Lowering.enterBlock c source := by
  simp [enterBlock, Lowering.enterBlock]

theorem result_branchOn (source : Nat) (cond : Value) (body : Nat) :
    (branchOn source cond body).result = Lowering.branchOn source cond body := by
  simp [branchOn, Lowering.branchOn]

theorem result_branchTo (source target : Nat) :
    (branchTo source target).result = Builder.branchTo source target := by
  simp [branchTo, Builder.branchTo, result_ite]

mutual

theorem result_lowerStmt : ∀ s, (lowerStmt c s).result = Lowering.lowerStmt c s
  | .compound body => by
    simp [lowerStmt, Lowering.lowerStmt, result_ensureOpenBlock, result_lowerBody body]
  | .declare d => by
    simp [lowerStmt, Lowering.lowerStmt, result_ensureOpenBlock, result_lowerVar]
  | .ifThen cond body => by
    simp [lowerStmt, Lowering.lowerStmt, result_ensureOpenBlock, result_lowerBody body,
      result_lowerExpr, result_enterBlock, result_branchOn, result_branchTo]
  | .whileDo cond body => by
    simp [lowerStmt, Lowering.lowerStmt, result_ensureOpenBlock, result_lowerBody body,
      result_lowerExpr, result_enterBlock, result_branchOn, result_branchTo]
  | .ret none => by
    simp [lowerStmt, Lowering.lowerStmt, result_ensureOpenBlock]
  | .ret (some value) => by
    simp [lowerStmt, Lowering.lowerStmt, result_ensureOpenBlock, result_lowerExpr]
  | .print _ => by
    simp [lowerStmt, Lowering.lowerStmt, result_ensureOpenBlock]
  | .scan _ => by
    simp [lowerStmt, Lowering.lowerStmt, result_ensureOpenBlock]
  | .expr value => by
    simp [lowerStmt, Lowering.lowerStmt, result_ensureOpenBlock, result_lowerExpr]

theorem result_lowerBody : ∀ ss, (lowerBody c ss).result = Lowering.lowerBody c ss
  | [] => by
    simp [lowerBody, Lowering.lowerBody]
  | s :: rest => by
    simp [lowerBody, Lowering.lowerBody, result_lowerStmt s, result_lowerBody rest]

end

theorem result_lowerParam (entry : Nat) (d : VarDecl) :
    (lowerParam c entry d).result = Lowering.lowerParam c entry d := by
  simp [lowerParam, Lowering.lowerParam, symbolOf]

theorem result_buildFunction (d : FunctionDecl) :
    (buildFunction c d).result = Lowering.buildFunction c d := by
  simp [buildFunction, Lowering.buildFunction, result_lowerBody, result_lowerParam]

theorem result_lowerDecl (d : Decl) : (lowerDecl c d).result = Lowering.lowerDecl c d := by
  cases d with
  | function d => simp [lowerDecl, Lowering.lowerDecl, Lowering.lowerFunction, result_buildFunction]
  | var d => exact result_lowerVar c d

/-- **Call by call, a lowering computes the same.** -/
theorem result_run (p : Program) : (run c p).result = Lowering.run c p := by
  have hdecl : (fun d => (lowerDecl c d).result) = Lowering.lowerDecl c :=
    funext (result_lowerDecl c)
  simp [run, Lowering.run, hdecl]

end Traced

/-! ## What holds along the way -/

/-- All states on the way have `I`, and the computation ends with a result and in a state with `Q`,
or in an error and a state with `E`. -/
structure Along {α : Type} (I : Builder → Prop) (m : Traced α) (s : Builder)
    (Q : α → Builder → Prop) (E : Error → Builder → Prop) : Prop where
  states : ∀ t ∈ m.states s, I t
  ends : Ends m.result s Q E

namespace Along

variable {α β : Type} {I : Builder → Prop} {m : Traced α} {f : α → Traced β} {s : Builder}
  {Q Q' : α → Builder → Prop} {R : β → Builder → Prop} {E E' : Error → Builder → Prop}

theorem pure {a : α} (hQ : Q a s) : Along I (Pure.pure a) s Q E :=
  ⟨fun _ ht => (List.not_mem_nil ht).elim, .pure hQ⟩

theorem call {access : Builder → α → Option (Call × Option Value)} {m : Build α}
    (h : Ends m s (fun a s' => I s' ∧ Q a s') fun e s' => I s' ∧ E e s') :
    Along I (Traced.noted access m) s Q E := by
  refine ⟨fun t ht => ?_, ?_⟩
  · unfold Traced.states Traced.noted at ht
    cases hrun : m s with
    | ok a s' =>
      rw [hrun] at ht
      obtain rfl := List.mem_singleton.mp ht
      exact (h.ok hrun).1
    | error e s' =>
      rw [hrun] at ht
      obtain rfl := List.mem_singleton.mp ht
      exact (h.error hrun).1
  · rw [Traced.result_noted]
    exact h.imp (fun _ _ hQ => hQ.2) fun _ _ hE => hE.2

theorem bind (h : Along I m s Q E) (hf : ∀ a s', Q a s' → Along I (f a) s' R E) :
    Along I (m >>= f) s R E := by
  refine ⟨fun t ht => ?_, ?_⟩
  · change t ∈ (Bind.bind m f s).1.map Note.state at ht
    simp only [Bind.bind] at ht
    have hstates := h.states
    have hends := h.ends
    unfold Traced.states at hstates
    unfold Traced.result at hends
    cases hrun : m s with
    | mk l r =>
      rw [hrun] at ht hstates
      cases r with
      | ok a s' =>
        -- the state is one on the way of the first, or of the second from there on
        rw [List.map_append] at ht
        rcases List.mem_append.mp ht with ht | ht
        · exact hstates t ht
        · exact (hf a s' (hends.ok (congrArg Prod.snd hrun))).states t ht
      | error e s' => exact hstates t ht
  · rw [Traced.result_bind]
    exact h.ends.bind fun a s' hQ => (hf a s' hQ).ends

theorem imp (h : Along I m s Q E) (hQ : ∀ a s', Q a s' → Q' a s')
    (hE : ∀ e s', E e s' → E' e s') : Along I m s Q' E' :=
  ⟨h.states, h.ends.imp hQ hE⟩

end Along

end Compiler16.Ssa
