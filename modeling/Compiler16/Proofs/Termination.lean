import Compiler16.Proofs.Outcome
import Compiler16.Proofs.Versioning

/-!
# Termination

Reads and removals recur to a given depth, and where they would go deeper they end in an error of
their own.  It is shown that this does not happen: removals end in every state that the operations
of the construction lead to, reads and the sealing of blocks end if no sealed blocks with one
predecessor each form a ring, and while a program is lowered there never is a ring.  So the depth
has no part in what is computed: a recursion that may go deeper finds the same.

## Main definitions

* `Terminates`: a computation is not cut off
* `Settles`: a computation that may go deeper
* `Operation`, `Reached`: the operations of the construction, and the states that they lead to

## Main results

* `removeFrom_settles`, `readFrom_settles`: what is not cut off does not depend on the depth
* `Reached.sane`: in a state that is reached, the index of the open function is exact
* `construction_terminates`: reads, sealing, removals and lowering are not cut off
-/

namespace Compiler16.Ssa

open Compiler16.Source Compiler16.Flow Compiler16.Ssa.Builder

variable {α β : Type} {s s' : Builder} {B : Body}

/-! ## Depth -/

/-- The error is that a recursion was cut off. -/
def IsCutOff : Error → Prop
  | .construction (.endlessRead ..) | .construction (.endlessRemoval ..) => True
  | _ => False

/-- The computation is not cut off. -/
def Terminates (m : Build α) (s : Builder) : Prop :=
  Ends m s (fun _ _ => True) fun e _ => ¬ IsCutOff e

theorem Terminates.of_bind {m : Build α} {f : α → Build β} (h : Terminates (m >>= f) s) :
    Terminates m s ∧ ∀ a s', m s = .ok a s' → Terminates (f a) s' := by
  change Ends (EStateM.bind m f) s _ _ at h
  unfold Terminates Ends EStateM.bind at *
  cases hrun : m s with
  | ok a t =>
    rw [hrun] at h
    refine ⟨trivial, fun a' s' heq => ?_⟩
    cases heq
    exact h
  | error e t =>
    rw [hrun] at h
    refine ⟨h, fun a' s' heq => ?_⟩
    cases heq

/-- Where `m` is not cut off, `m'` does the same. -/
def Settles (m m' : Build α) : Prop := ∀ s, Terminates m s → m' s = m s

namespace Settles

theorem refl (m : Build α) : Settles m m := fun _ _ => rfl

theorem cutOff (cause : BuildError) (h : IsCutOff (.construction cause)) (m : Build α) :
    Settles (fail cause) m := fun _ hm => absurd h hm

theorem bind {m m' : Build α} {f f' : α → Build β} (hm : Settles m m')
    (hf : ∀ a, Settles (f a) (f' a)) : Settles (m >>= f) (m' >>= f') := by
  intro s hs
  obtain ⟨hms, hfs⟩ := hs.of_bind
  change EStateM.bind m' f' s = EStateM.bind m f s
  unfold EStateM.bind
  rw [hm s hms]
  cases hrun : m s with
  | ok a t => exact hf a t (hfs a t hrun)
  | error e t => rfl

theorem forM {f f' : α → Build Unit} (hf : ∀ a, Settles (f a) (f' a)) (l : List α) :
    Settles (l.forM f) (l.forM f') := by
  induction l with
  | nil => exact refl _
  | cons a l ih => exact (hf a).bind fun _ => ih

theorem ite {p : Prop} [Decidable p] {m m' n n' : Build α} (hm : Settles m m')
    (hn : Settles n n') : Settles (if p then m else n) (if p then m' else n') := by
  split
  · exact hm
  · exact hn

end Settles

/-- A removal that may go deeper. -/
theorem removeFrom_settles {d d' : Nat} (hle : d ≤ d') (p : Nat) :
    Settles (removeFrom d p) (removeFrom d' p) := by
  induction d generalizing d' p with
  | zero => exact .cutOff (.endlessRemoval p) trivial _
  | succ d ih =>
    obtain ⟨d', rfl⟩ := Nat.exists_eq_add_of_lt hle
    -- only the PHIs that used the removed one are tried at the next depth
    refine (Settles.refl _).bind fun r => Settles.bind (.forM (fun q => ?_) r.2) fun _ => .refl _
    refine (Settles.refl _).bind fun t => .ite ?_ (.refl _)
    exact (ih (by omega) q).bind fun _ => .refl _

theorem completePhi_settles {o : Options} {read read' : Nat → Build Value}
    (hread : ∀ q, Settles (read q) (read' q)) (p : Nat) :
    Settles (completePhi o read p) (completePhi o read' p) := by
  refine (Settles.refl _).bind fun B => Settles.bind (.forM (fun q => ?_) _) fun _ => .refl _
  exact (hread q).bind fun _ => .refl _

/-- A read that may go deeper. -/
theorem readFrom_settles {o : Options} {d d' : Nat} (hle : d ≤ d') (x b : Nat) :
    Settles (readFrom o x d b) (readFrom o x d' b) := by
  induction d generalizing d' b with
  | zero => exact .cutOff (.endlessRead x b) trivial _
  | succ d ih =>
    obtain ⟨d', rfl⟩ := Nat.exists_eq_add_of_lt hle
    have ih' : ∀ q, Settles (readFrom o x d q) (readFrom o x (d + d') q) := fun q => ih (by omega) q
    refine (Settles.refl _).bind fun t => ?_
    cases t.defs.get? (x, b) with
    | some v => exact .refl _
    | none =>
      dsimp only
      split
      · -- the depth matters where a sealed block asks its predecessors
        refine (Settles.refl _).bind fun B => ?_
        match B.graph.predecessors b with
        | [] => exact .refl _
        | [q] => exact (ih' q).bind fun _ => .refl _
        | _ :: _ :: _ =>
          refine (Settles.refl _).bind fun p => (Settles.refl _).bind fun _ => ?_
          exact (completePhi_settles ih' p).bind fun _ => .refl _
      · exact .refl _

/-! ## What is not cut off -/

namespace Builder

theorem Coded.readVariable_terminates (o : Options) (h : Coded s B) (hring : NoRing s B)
    (x b : Nat) : Terminates (readVariable o x b) s := by
  refine ((Watch.nothing_keptByReads Nat o).readVariable (w := 0) h trivial x b).imp
    (fun _ _ _ => trivial) ?_
  rintro e s' ⟨_, he⟩
  obtain ⟨k, rfl, _⟩ := he hring
  exact id

theorem Coded.sealBlock_terminates (o : Options) (h : Coded s B) (hring : NoRing s B) (b : Nat) :
    Terminates (sealBlock o b) s := by
  refine ((Watch.nothing_keptByReads Nat o).sealBlock (w := 0) h trivial b).imp
    (fun _ _ _ => trivial) ?_
  rintro e s' ⟨_, he⟩
  obtain ⟨k, rfl, _⟩ := he hring
  exact id

/-- Removals do not fail. -/
theorem Coded.removeTrivialPhi (h : Coded s B) (p : Nat) :
    ∃ v s' B', Builder.removeTrivialPhi p s = .ok v s' ∧ Follows s B s' B' := by
  obtain ⟨v, s', B', hrun, hB', _⟩ :=
    (Watch.nothing_keptByReads Nat { removeTrivialPhis := true }).removeTrivialPhi (w := 0) rfl p h
      trivial
  exact ⟨v, s', B', hrun, hB'⟩

theorem Coded.removeTrivialPhi_terminates (h : Coded s B) (p : Nat) :
    Terminates (Builder.removeTrivialPhi p) s := by
  obtain ⟨v, s', B', hrun, _⟩ := h.removeTrivialPhi p
  exact .of_ok hrun trivial

/-- A removal goes no deeper than there are PHIs. -/
theorem Coded.removeFrom_eq (h : Coded s B) {d : Nat} (hd : B.phis.length < d) (p : Nat) :
    removeFrom d p s = Builder.removeTrivialPhi p s := by
  have hdepth : Builder.removeTrivialPhi p s = removeFrom (B.phis.length + 1) p s := by
    show EStateM.bind Builder.getBody _ s = _
    unfold EStateM.bind
    rw [h.getBody]
  have hterm := h.removeTrivialPhi_terminates p
  unfold Terminates Ends at hterm
  rw [hdepth] at hterm ⊢
  exact removeFrom_settles hd p s hterm

end Builder

/-! ## States that are reached -/

/-- An operation of the construction. -/
inductive Operation where
  | run (p : Program)
  | begin (name : String)
  | finish
  | call (call : Call)
  | remove (phi : Nat)

/-- What an operation does. -/
def Operation.exec (c : Context) : Operation → Build Unit
  | run p => do let _ ← Lowering.run c p
  | begin name => do let _ ← beginFunction name
  | finish => endFunction
  | call k => do let _ ← k.exec c.options
  | remove phi => do let _ ← removeTrivialPhi phi

/-- The state after a computation, whether it succeeds or not. -/
def stateAfter (m : Build α) (s : Builder) : Builder :=
  match m s with
  | .ok _ s' => s'
  | .error _ s' => s'

/-- The state after computations one after the other. -/
def stateAfterAll (exec : κ → Build α) (s : Builder) (ks : List κ) : Builder :=
  ks.foldl (fun s k => stateAfter (exec k) s) s

/-- The states that operations lead to, whether they succeed or not. -/
inductive Reached (c : Context) : Builder → Prop where
  | new : Reached c {}
  | step {s : Builder} (op : Operation) : Reached c s → Reached c (stateAfter (op.exec c) s)

theorem Reached.all {c : Context} (h : Reached c s) (ops : List Operation) :
    Reached c (stateAfterAll (Operation.exec c) s ops) := by
  induction ops generalizing s with
  | nil => exact h
  | cons op ops ih => exact ih (h.step op)

theorem stateAfter_of_ok {m : Build α} {a : α} (hrun : m s = .ok a s') : stateAfter m s = s' := by
  rw [stateAfter, hrun]

/-- It does not matter that an operation discards a result. -/
theorem Reached.discarding {c : Context} {m : Build α} (h : Reached c s) (op : Operation)
    (hop : op.exec c = (do let _ ← m)) : Reached c (stateAfter m s) := by
  have hsame : stateAfter (do let _ ← m : Build Unit) s = stateAfter m s := by
    change stateAfter (EStateM.bind m fun _ => pure ()) s = _
    unfold stateAfter EStateM.bind
    cases m s with
    | ok a t => rfl
    | error e t => rfl
  rw [← hsame, ← hop]
  exact h.step op

/-- If a function is open, its index is exact. -/
def Sane (s : Builder) : Prop := ∀ B, s.body? = some B → Coded s B

/-- The computation leaves a state with the property, whether it succeeds or not. -/
def Leaves (m : Build α) (s : Builder) (P : Builder → Prop) : Prop :=
  Ends m s (fun _ => P) fun _ => P

theorem Leaves.stateAfter {m : Build α} {P : Builder → Prop} (h : Leaves m s P) :
    P (stateAfter m s) := by
  unfold Ssa.stateAfter
  cases hrun : m s with
  | ok a s' => exact h.ok hrun
  | error e s' => exact h.error hrun

theorem Leaves.bind {m : Build α} {f : α → Build β} {P : Builder → Prop} (h : Leaves m s P)
    (hf : ∀ a s', P s' → Leaves (f a) s' P) : Leaves (m >>= f) s P :=
  Ends.bind h hf

theorem Leaves.pure {a : α} {P : Builder → Prop} (h : P s) : Leaves (Pure.pure a) s P := Ends.pure h

theorem Sane.of_opened (h : s.opened = none) : Sane s := by
  intro B hB
  rw [body?, h] at hB
  cases hB

theorem Sane.coded {fn : OpenFunction} (h : Sane s) (hfn : s.opened = some fn) : Coded s fn.body :=
  h fn.body (body?_of_opened hfn)

theorem Builder.Coded.sane (h : Coded s B) : Sane s := by
  intro C hC
  obtain rfl := Option.some.inj (h.body.symm.trans hC)
  exact h

/-! ### Where no function is open -/

section Closed

variable {o : Options}

/-- No function is open. -/
def Closed (s : Builder) : Prop := s.opened = none

namespace Closed

theorem changeBody {f : Body → Except Error (α × Body)} (h : Closed s) :
    Ends (Builder.changeBody f) s (fun _ _ => False) fun _ => Closed := by
  have hrun : Builder.changeBody f s = .error (.construction .noFunction) s := by
    simp only [Builder.changeBody, show s.opened = none from h]
  exact .of_error hrun h

theorem getBody_bind {f : Body → Build α} (h : Closed s) : Leaves (getBody >>= f) s Closed := by
  refine Ends.bind (Q := fun _ _ => False) ?_ fun _ _ => False.elim
  refine Ends.get_bind ?_
  rw [show s.opened = none from h]
  exact .of_error rfl h

theorem newPhi_bind {f : Nat → Build α} (h : Closed s) (b : Nat) :
    Leaves (newPhi b >>= f) s Closed := by
  refine Ends.bind (Q := fun _ _ => False) ?_ fun _ _ => False.elim
  refine Ends.bind (Q := fun _ => Closed) (.of_ok rfl h) fun i t ht => ?_
  exact ht.changeBody.bind fun _ _ => False.elim

theorem readFrom (h : Closed s) (x depth b : Nat) :
    Leaves (Builder.readFrom o x depth b) s Closed := by
  cases depth with
  | zero => exact .of_error rfl h
  | succ depth =>
    refine Ends.get_bind ?_
    cases s.defs.get? (x, b) with
    | some v => exact .pure h
    | none =>
      -- the read asks for the body or for a PHI in it, and gets neither
      dsimp only
      split
      · exact h.getBody_bind
      · exact h.newPhi_bind b

theorem sealBlock (h : Closed s) (b : Nat) : Leaves (Builder.sealBlock o b) s Closed := by
  refine Ends.get_bind ?_
  split
  · exact .pure h
  · refine Ends.bind (Q := fun _ => Closed) (.of_ok rfl h) fun _ t ht => ?_
    refine Ends.bind (Q := fun _ => Closed) ?_ fun _ u hu => .of_ok rfl hu
    exact Ends.forM (I := fun _ => Closed)
      (fun _ _ u hu => hu.getBody_bind.bind fun _ _ => .pure) _ t ht

end Closed

end Closed

/-! ### What operations keep -/

namespace Sane

theorem changeBody {f : Body → Except Error (α × Body)} (h : Sane s)
    (hf : ∀ {B B' a}, Coded s B → f B = .ok (a, B') →
      B'.Indexed ∧ ∀ b, ∀ i ∈ B'.code b, i.id < s.nextId) :
    Leaves (Builder.changeBody f) s Sane := by
  cases hfn : s.opened with
  | none => exact (Closed.changeBody hfn).imp (fun _ _ => False.elim) fun _ _ => of_opened
  | some fn =>
    cases hrun : f fn.body with
    | error e => exact .of_error (changeBody_eq_error hfn hrun) h
    | ok r =>
      obtain ⟨hindexed, hbound⟩ := hf (h.coded hfn) hrun
      exact .of_ok (changeBody_eq_ok.mpr ⟨fn, r.2, hfn, hrun, rfl⟩)
        (Coded.sane ⟨rfl, hindexed, hbound⟩)

theorem createBlock (h : Sane s) : Leaves Builder.createBlock s Sane := by
  refine h.changeBody fun {B B' a} hB hrun => ?_
  obtain ⟨_, rfl⟩ := Prod.ext_iff.mp (Except.ok.inj hrun)
  refine ⟨hB.indexed.congr (fun k => Body.code_createBlock _ _ k) rfl, fun b i hi => ?_⟩
  exact hB.bound b i (Body.code_createBlock _ _ b ▸ hi)

theorem addEdge (h : Sane s) (p q : Nat) : Leaves (Builder.addEdge p q) s Sane := by
  rw [addEdge_eq_changeBody]
  refine h.changeBody fun {B B' a} hB hrun => ?_
  obtain ⟨_, _, _, hcode, hhome, _⟩ := Body.addEdge_ok (changed_eq_ok.mp hrun)
  exact ⟨hB.indexed.congr hcode hhome, fun b i hi => hB.bound b i (hcode b ▸ hi)⟩

/-- The body is the same. -/
theorem same (h : Sane s) (hbody : s'.body? = s.body?) (hnext : s.nextId ≤ s'.nextId) :
    Sane s' := by
  intro B hB
  have hcoded := h B (hbody ▸ hB)
  exact ⟨hB, hcoded.indexed, fun b i hi => lt_of_lt_of_le (hcoded.bound b i hi) hnext⟩

theorem argument (h : Sane s) (v : Value) :
    Leaves (Builder.changeBody fun body => .ok ((), body.addArgument v)) s Sane := by
  refine h.changeBody fun {B B' a} hB hrun => ?_
  cases hrun
  exact ⟨hB.indexed.congr (fun _ => rfl) rfl, hB.bound⟩

/-- An instruction with the next number comes in. -/
theorem append {i : Inst} (h : Sane s) (hid : i.id = s.nextId) :
    Leaves (Builder.append i) { s with nextId := s.nextId + 1 } Sane := by
  have hdrawn : Sane { s with nextId := s.nextId + 1 } := h.same rfl (Nat.le_succ _)
  refine hdrawn.changeBody fun {B B' a} hB hrun => ?_
  cases happend : B.append i with
  | error e =>
    rw [happend] at hrun
    cases hrun
  | ok C =>
    rw [happend] at hrun
    cases hrun
    obtain ⟨hindexed, _, hbound⟩ := (h B hB.body).append hid happend
    exact ⟨hindexed, hbound⟩

theorem emitInst (h : Sane s) (op : Op) (operands : List Value) (callee : Option String) :
    Leaves (Builder.emitInst op operands callee) s Sane := by
  refine Ends.get_bind (Ends.bind (Q := fun i t => i = s.nextId ∧
    t = { s with nextId := s.nextId + 1 }) (.of_ok rfl ⟨rfl, rfl⟩) ?_)
  rintro _ _ ⟨rfl, rfl⟩
  split
  · exact Leaves.bind (h.append rfl) fun _ _ => .pure
  · exact .of_ok rfl (h.same rfl (Nat.le_succ _))

theorem readVariable (h : Sane s) (o : Options) (x b : Nat) :
    Leaves (Builder.readVariable o x b) s Sane := by
  cases hfn : s.opened with
  | none =>
    exact Ends.get_bind
      ((Closed.readFrom hfn x _ b).imp (fun _ _ => of_opened) fun _ _ => of_opened)
  | some fn =>
    refine ((Watch.nothing_keptByReads Nat o).readVariable (w := 0) (h.coded hfn) trivial x b).imp
      ?_ ?_
    · rintro v s' ⟨B', _, hB', _⟩
      exact hB'.coded.sane
    · rintro e s' ⟨⟨B', hB'⟩, _⟩
      exact hB'.coded.sane

theorem sealBlock (h : Sane s) (o : Options) (b : Nat) : Leaves (Builder.sealBlock o b) s Sane := by
  cases hfn : s.opened with
  | none => exact (Closed.sealBlock hfn b).imp (fun _ _ => of_opened) fun _ _ => of_opened
  | some fn =>
    refine ((Watch.nothing_keptByReads Nat o).sealBlock (w := 0) (h.coded hfn) trivial b).imp ?_ ?_
    · rintro _ s' ⟨B', _, hB', _⟩
      exact hB'.coded.sane
    · rintro e s' ⟨⟨B', hB'⟩, _⟩
      exact hB'.coded.sane

theorem removeTrivialPhi (h : Sane s) (p : Nat) : Leaves (Builder.removeTrivialPhi p) s Sane := by
  cases hfn : s.opened with
  | none => exact (Closed.getBody_bind hfn).imp (fun _ _ => of_opened) fun _ _ => of_opened
  | some fn =>
    obtain ⟨v, s', B', hrun, hB'⟩ := (h.coded hfn).removeTrivialPhi p
    exact .of_ok hrun hB'.coded.sane

theorem exec (h : Sane s) (o : Options) (k : Call) : Leaves (k.exec o) s Sane := by
  cases k with
  | createBlock => exact h.createBlock.bind fun _ _ => .pure
  | addEdge p q => exact (h.addEdge p q).bind fun _ _ => .pure
  | sealBlock b => exact (h.sealBlock o b).bind fun _ _ => .pure
  | setCurrent b => exact .of_ok rfl (h.same rfl le_rfl)
  | argument =>
    refine Ends.bind (Q := fun _ => Sane) (.of_ok rfl (h.same rfl (Nat.le_succ _))) fun i t ht => ?_
    exact (ht.argument _).bind fun _ _ => .pure
  | literal n => exact .of_ok rfl (h.same rfl (Nat.le_succ _))
  | emit op operands callee => exact (h.emitInst op operands callee).bind fun _ _ => .pure
  | write x b v => exact .of_ok rfl (h.same rfl le_rfl)
  | read x b => exact (h.readVariable o x b).bind fun _ _ => .pure

theorem beginFunction (h : Sane s) (name : String) :
    Leaves (Builder.beginFunction name) s Sane := by
  cases hfn : s.opened with
  | none =>
    obtain ⟨entry, s', hrun⟩ := exists_beginFunction hfn name
    obtain ⟨_, B, hsound, _⟩ := Sound.begin hrun
    exact .of_ok hrun hsound.coded.sane
  | some fn =>
    -- a function in another is refused, and the state stays as it is
    refine Ends.get_bind ?_
    rw [hfn]
    exact .of_error rfl h

end Sane

/-- Afterwards no function is open. -/
theorem endFunction_closed (s : Builder) : Leaves endFunction s Closed := by
  refine Ends.get_bind ?_
  cases hfn : s.opened with
  | none => exact .of_error rfl hfn
  | some fn =>
    refine Ends.bind (Q := fun _ => Closed) (.of_ok rfl rfl) fun _ t ht => ?_
    split
    · exact .of_error rfl ht
    · exact .of_ok rfl ht

theorem run_sane (c : Context) (p : Program) (s : Builder) : Leaves (Lowering.run c p) s Sane := by
  have h := ((Watch.nothing_keptByLowering (W := Nat) c).run (w := 0) trivial p s).ends
  rw [Traced.result_run] at h
  refine h.imp ?_ ?_
  · rintro u _ ⟨_, _, s₁, _, hs₁, _, rfl⟩
    exact .of_opened hs₁.1
  · rintro e s' ⟨_, hfit, _⟩
    exact fun B hB => (hfit B hB).1

theorem Operation.exec_sane (c : Context) (op : Operation) (h : Sane s) :
    Leaves (op.exec c) s Sane := by
  cases op with
  | run p => exact (run_sane c p s).bind fun _ _ => .pure
  | begin name => exact (h.beginFunction name).bind fun _ _ => .pure
  | finish =>
    -- the function is closed also where a block that is not sealed is found
    exact (endFunction_closed s).imp (fun _ _ => Sane.of_opened) fun _ _ => Sane.of_opened
  | call k => exact (h.exec c.options k).bind fun _ _ => .pure
  | remove phi => exact (h.removeTrivialPhi phi).bind fun _ _ => .pure

/-- **In a state that is reached the index of the open function is exact.** -/
theorem Reached.sane {c : Context} (h : Reached c s) : Sane s := by
  induction h with
  | new => exact .of_opened rfl
  | step op _ ih => exact (op.exec_sane c ih).stateAfter

/-! ## Termination -/

theorem Sane.removeTrivialPhi_terminates (h : Sane s) (p : Nat) :
    Terminates (Builder.removeTrivialPhi p) s := by
  cases hfn : s.opened with
  | none =>
    refine Ends.bind (Q := fun _ _ => False) (Ends.get_bind ?_) fun _ _ => False.elim
    rw [hfn]
    exact .of_error rfl id
  | some fn => exact (h.coded hfn).removeTrivialPhi_terminates p

/-- The faults of a tree are other errors. -/
theorem BuildError.Faults.not_isCutOff {c : Context} {cause : BuildError} (h : cause.Faults c) :
    ¬ IsCutOff (.construction cause) := by
  intro hcut
  cases cause with
  | endlessRead _ _ => exact h
  | endlessRemoval _ => exact h
  | _ => exact hcut

theorem run_terminates (c : Context) (p : Program) (s : Builder) :
    Terminates (Lowering.run c p) s := by
  have h := ((Watch.nothing_keptByLowering (W := Nat) c).run (w := 0) trivial p s).ends
  rw [Traced.result_run] at h
  refine h.imp (fun _ _ _ => trivial) ?_
  rintro e s' ⟨_, _, cause, rfl, hcause⟩
  exact hcause.not_isCutOff

/-- **Reads, sealing, removals and lowering are not cut off.**  Reads and removals that may go
deeper do the same, and while a program is lowered there is no ring. -/
theorem construction_terminates (c : Context) :
    (∀ s B, Reached c s → s.body? = some B → NoRing s B → ∀ x b,
      Terminates (readVariable c.options x b) s ∧ Terminates (sealBlock c.options b) s ∧
        ∀ d ≥ s.readDepth, readFrom c.options x d b s = readVariable c.options x b s) ∧
    (∀ s, Reached c s → ∀ phi, Terminates (removeTrivialPhi phi) s ∧
      ∀ B, s.body? = some B → ∀ d > B.phis.length, removeFrom d phi s = removeTrivialPhi phi s) ∧
    ∀ p s₀, (Traced.run c p).result = Lowering.run c p ∧
      (∀ t ∈ (Traced.run c p).states s₀, ∀ B, t.body? = some B → NoRing t B) ∧
      Terminates (Lowering.run c p) s₀ := by
  refine ⟨fun s B hs hB hring x b => ?_, fun s hs phi => ?_, fun p s₀ => ?_⟩
  · have hcoded := hs.sane B hB
    have hread := hcoded.readVariable_terminates c.options hring x b
    exact ⟨hread, hcoded.sealBlock_terminates c.options hring b,
      fun d hd => readFrom_settles hd x b s hread⟩
  · exact ⟨hs.sane.removeTrivialPhi_terminates phi,
      fun B hB d hd => (hs.sane B hB).removeFrom_eq hd phi⟩
  · have h := (Watch.nothing_keptByLowering (W := Nat) c).run (w := 0) trivial p s₀
    exact ⟨Traced.result_run c p, fun t ht B hB => (h.states t ht B hB).2, run_terminates c p s₀⟩

/-- A loop of one block, sealed. -/
def loopOperations : List Operation :=
  [.begin "f", .call .createBlock, .call (.addEdge 0 1), .call (.addEdge 1 1), .call (.sealBlock 1)]

theorem construction_terminates_loop :
    ∃ s B, Reached sampleContext s ∧ s.body? = some B ∧ NoRing s B ∧ B.preds 1 = [0, 1] ∧
      Terminates (readVariable sampleContext.options 0 1) s := by
  let s := stateAfterAll (Operation.exec sampleContext) {} loopOperations
  have hstate : s.body?.map (fun B => (B.preds 0, B.preds 1, B.graph.size)) =
      some ([], [0, 1], 2) := by decide +kernel
  have hs : Reached sampleContext s := Reached.new.all loopOperations
  -- from here on the state is known by its blocks only
  generalize s = s at hstate hs
  obtain ⟨B, hB, hpreds⟩ := Option.map_eq_some_iff.mp hstate
  simp only [Prod.mk.injEq] at hpreds
  obtain ⟨hzero, hone, hsize⟩ := hpreds
  -- the loop is a ring, but its block has two predecessors
  have hring : NoRing s B := by
    intro b hb
    obtain ⟨q, ⟨_, hq⟩, _⟩ := Relation.TransGen.head'_iff.mp hb
    have hlt : b < 2 := hsize ▸ Body.lt_size_of_mem_preds (q := q) (by simp [hq])
    obtain rfl | rfl : b = 0 ∨ b = 1 := by omega
    · simp [hzero] at hq
    · simp [hone] at hq
  exact ⟨s, B, hs, hB, hring, hone,
    ((construction_terminates sampleContext).1 s B hs hB hring 0 1).1⟩

end Compiler16.Ssa
