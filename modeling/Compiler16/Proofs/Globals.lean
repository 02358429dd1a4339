import Compiler16.Proofs.Finishing

/-!
# The values of global variables

Global variables get their values where no function has begun, and these are results of
instructions.  No call takes such a value away or makes up another one, whether it succeeds or
fails, so in every state that is reached the values of global variables have numbers that were
drawn.

## Main definitions

* `GlobalsBelow`: the values of global variables have numbers that were drawn
* `KeepsGlobals`: what all calls but one do to them

## Main results

* `readVariable_keepsGlobals`, `sealBlock_keepsGlobals`: reads and the sealing of blocks keep them
* `globalsBelow_keptByCalls`: every call keeps their numbers below the next one
-/

namespace Compiler16.Ssa

open Compiler16.Source Compiler16.Flow Compiler16.Ssa.Builder

variable {α : Type} {o : Options} {s t : Builder} {B : Body}

/-- The values of global variables have numbers that were drawn. -/
def GlobalsBelow (s : Builder) : Prop :=
  ∀ x v, s.globalDefs.get? x = some v → v.Below s.nextId

/-- The values of global variables are the same, and numbers may have been drawn. -/
def KeepsGlobals (s t : Builder) : Prop := t.globalDefs = s.globalDefs ∧ s.nextId ≤ t.nextId

theorem GlobalsBelow.keep (h : GlobalsBelow s) (hkeep : KeepsGlobals s t) : GlobalsBelow t :=
  fun x v hv => (h x v (hkeep.1 ▸ hv)).mono hkeep.2

theorem KeepsGlobals.of_steady {C : Body} (h : Steady s B t C) : KeepsGlobals s t :=
  ⟨h.globalDefs, h.nextId⟩

/-- A change of the body that fails changes nothing. -/
theorem eq_of_changeBody_error {f : Body → Except Error (α × Body)} {e : Error}
    (hrun : changeBody f s = .error e t) : t = s := by
  cases hfn : s.opened with
  | none =>
    simp only [changeBody, hfn] at hrun
    cases hrun
    rfl
  | some fn =>
    cases hf : f fn.body with
    | ok r => cases (changeBody_eq_ok.mpr ⟨fn, r.2, hfn, hf, rfl⟩).symm.trans hrun
    | error e' =>
      cases (changeBody_eq_error hfn hf).symm.trans hrun
      rfl

theorem changeBody_keepsGlobals (f : Body → Except Error (α × Body)) (s : Builder) :
    Leaves (changeBody f) s (KeepsGlobals s) := by
  cases hrun : changeBody f s with
  | ok a t =>
    obtain ⟨fn, B', _, _, rfl⟩ := changeBody_eq_ok.mp hrun
    exact .of_ok hrun ⟨rfl, le_rfl⟩
  | error e t => exact .of_error hrun (eq_of_changeBody_error hrun ▸ ⟨rfl, le_rfl⟩)

namespace Closed

/-- Where no function is open, there is no body. -/
theorem getBody_fails {f : Body → Build α} (h : Closed s) :
    Ends (getBody >>= f) s (fun _ _ => False) fun _ t => t = s := by
  refine Ends.bind (Q := fun _ _ => False) (Ends.get_bind ?_) fun _ _ => False.elim
  rw [show s.opened = none from h]
  exact .of_error rfl rfl

theorem readFrom_keepsGlobals (h : Closed s) (x depth b : Nat) :
    Leaves (Builder.readFrom o x depth b) s (KeepsGlobals s) := by
  cases depth with
  | zero => exact .of_error rfl ⟨rfl, le_rfl⟩
  | succ depth =>
    refine Ends.get_bind ?_
    cases s.defs.get? (x, b) with
    | some v => exact .pure ⟨rfl, le_rfl⟩
    | none =>
      dsimp only
      split
      · exact h.getBody_fails.imp (fun _ _ => False.elim) fun _ _ ht => ht ▸ ⟨rfl, le_rfl⟩
      · -- a number is drawn for a PHI that has no place
        refine Ends.bind (Q := fun _ _ => False) ?_ fun _ _ => False.elim
        refine Ends.bind (Q := fun _ t => t = { s with nextId := s.nextId + 1 }) (.of_ok rfl rfl) ?_
        rintro i _ rfl
        refine Ends.bind (Q := fun _ _ => False) ?_ fun _ _ => False.elim
        have hclosed : Closed { s with nextId := s.nextId + 1 } := h
        cases hrun : Builder.changeBody _ { s with nextId := s.nextId + 1 } with
        | ok a t => exact (hclosed.changeBody.ok hrun).elim
        | error e t =>
          exact .of_error hrun (eq_of_changeBody_error hrun ▸ ⟨rfl, Nat.le_succ _⟩)

theorem sealBlock_keepsGlobals (h : Closed s) (b : Nat) :
    Leaves (Builder.sealBlock o b) s (KeepsGlobals s) := by
  refine Ends.get_bind ?_
  split
  · exact .pure ⟨rfl, le_rfl⟩
  · refine Ends.bind (Q := fun _ t => Closed t ∧ KeepsGlobals s t) (.of_ok rfl ⟨h, rfl, le_rfl⟩)
      fun _ t ht => ?_
    refine Ends.bind (Q := fun _ => KeepsGlobals s) ?_ fun _ u hu => .of_ok rfl hu
    -- PHIs of a function that is lost may still wait, and the first of them ends the call
    refine (Ends.forM (I := fun _ t => Closed t ∧ KeepsGlobals s t) (E := fun _ => KeepsGlobals s)
      (fun _ _ u hu => ?_) _ t ht).imp (fun _ _ hu => hu.2) fun _ _ hu => hu
    refine Ends.bind (Q := fun _ _ => False) ?_ fun _ _ => False.elim
    exact hu.1.getBody_fails.imp (fun _ _ => False.elim) fun _ _ ht => ht ▸ hu.2

end Closed

theorem readVariable_keepsGlobals (h : Sane s) (o : Options) (x b : Nat) :
    Leaves (readVariable o x b) s (KeepsGlobals s) := by
  cases hfn : s.opened with
  | none => exact Ends.get_bind (Closed.readFrom_keepsGlobals hfn x _ b)
  | some fn =>
    -- nothing is known about the PHIs of the function, so the changes may be wild
    have hs := h.coded hfn
    have hkeeps : ∀ {t}, Changes True (s.nextId ≤ ·) (Undefined s x) s t → KeepsGlobals s t := by
      intro t ht
      obtain ⟨C, hC⟩ := ht.follows hs
      exact .of_steady hC.steady
    exact (hs.readVariable_changes o (Or.inl trivial) x b).imp (fun _ _ ht => hkeeps ht.1)
      fun _ _ => hkeeps

theorem sealBlock_keepsGlobals (h : Orderly s) (o : Options) (b : Nat) :
    Leaves (sealBlock o b) s (KeepsGlobals s) := by
  cases hfn : s.opened with
  | none => exact Closed.sealBlock_keepsGlobals hfn b
  | some fn =>
    cases hsealed : s.isSealed b with
    | true => exact .of_ok ((sealBlock_of_sealed hsealed).mpr rfl) ⟨rfl, le_rfl⟩
    | false =>
      have hs := h.1.coded hfn
      have h₀ := hs.erase b
      have hkeeps : ∀ {t}, Changes True (fun _ => True) (UndefinedBeside s b)
          { s with pending := s.pending.erase b } t → KeepsGlobals s t := by
        intro t ht
        obtain ⟨C, hC⟩ := ht.follows h₀
        exact ⟨hC.steady.globalDefs, hC.steady.nextId⟩
      refine (hs.sealBlock_changes o (h.2 fn.body hs.body).2 (Or.inl trivial) hsealed).imp ?_
        fun _ _ => hkeeps
      rintro _ _ ⟨t, ht, rfl⟩
      exact ⟨(hkeeps ht).1, (hkeeps ht).2⟩

theorem removeTrivialPhi_keepsGlobals (h : Sane s) (p : Nat) :
    Leaves (removeTrivialPhi p) s (KeepsGlobals s) := by
  cases hfn : s.opened with
  | none =>
    exact (Closed.getBody_fails hfn).imp (fun _ _ => False.elim) fun _ _ ht => ht ▸ ⟨rfl, le_rfl⟩
  | some fn =>
    obtain ⟨v, t, C, hrun, hC⟩ := (h.coded hfn).removeTrivialPhi p
    exact .of_ok hrun (.of_steady hC.steady)

theorem beginFunction_keepsGlobals (s : Builder) (name : String) :
    Leaves (beginFunction name) s (KeepsGlobals s) := by
  cases hrun : beginFunction name s with
  | ok entry t =>
    obtain ⟨_, _, _, _, _, _, _, _, rfl⟩ := Sound.begin hrun
    exact .of_ok hrun ⟨rfl, le_rfl⟩
  | error e t =>
    refine .of_error hrun ?_
    cases hfn : s.opened with
    | none =>
      obtain ⟨_, _, hok⟩ := exists_beginFunction hfn name
      cases hok.symm.trans hrun
    | some fn =>
      have hsame : Leaves (beginFunction name) s (KeepsGlobals s) := by
        refine Ends.get_bind ?_
        rw [hfn]
        exact .of_error rfl ⟨rfl, le_rfl⟩
      exact Ends.error hsame hrun

theorem endFunction_keepsGlobals (s : Builder) : Leaves endFunction s (KeepsGlobals s) := by
  refine Ends.get_bind ?_
  cases s.opened with
  | none => exact .of_error rfl ⟨rfl, le_rfl⟩
  | some fn =>
    refine Ends.bind (Q := fun _ => KeepsGlobals s) (.of_ok rfl ⟨rfl, le_rfl⟩) fun _ t ht => ?_
    split
    · exact .of_error rfl ht
    · exact .of_ok rfl ht

/-- What keeps the values of global variables. -/
theorem Leaves.globals {m : Build α} (hI : Leaves m s Orderly) (h : GlobalsBelow s)
    (hkeeps : Leaves m s (KeepsGlobals s)) : Leaves m s fun t => Orderly t ∧ GlobalsBelow t :=
  hI.and (hkeeps.imp (fun _ _ => h.keep) fun _ _ => h.keep)

theorem globalsBelow_keptByCalls (o : Options) :
    KeptByCalls o fun s => Orderly s ∧ GlobalsBelow s where
  new := ⟨(orderly_keptByCalls o).new, fun _ _ hv => by cases hv⟩
  draw h := ⟨(orderly_keptByCalls o).draw h.1, h.2.keep ⟨rfl, Nat.le_succ _⟩⟩
  compiled u h := ⟨(orderly_keptByCalls o).compiled u h.1, h.2.keep ⟨rfl, le_rfl⟩⟩
  current b h := ⟨(orderly_keptByCalls o).current b h.1, h.2.keep ⟨rfl, le_rfl⟩⟩
  publish x hv h := by
    -- the one call that gives a global variable its value
    refine ⟨(orderly_keptByCalls o).publish x hv h.1, fun y w hw => ?_⟩
    rw [OrderedMap.get?_insert] at hw
    split at hw
    · cases hw
      obtain ⟨i, hi, rfl⟩ := hv
      intro j hj
      cases hj
      exact hi
    · exact h.2 y w hw
  write k v h := ⟨(orderly_keptByCalls o).write k v h.1, h.2.keep ⟨rfl, le_rfl⟩⟩
  begin name h := ((orderly_keptByCalls o).begin name h.1).globals h.2
    (beginFunction_keepsGlobals _ name)
  finish h := ((orderly_keptByCalls o).finish h.1).globals h.2 (endFunction_keepsGlobals _)
  createBlock h := ((orderly_keptByCalls o).createBlock h.1).globals h.2
    (changeBody_keepsGlobals _ _)
  addEdge p q h := ((orderly_keptByCalls o).addEdge p q h.1).globals h.2 (by
    rw [addEdge_eq_changeBody]
    exact changeBody_keepsGlobals _ _)
  argument v h := ((orderly_keptByCalls o).argument v h.1).globals h.2 (changeBody_keepsGlobals _ _)
  -- the number of the instruction has been drawn before
  append i hid husers h := ((orderly_keptByCalls o).append i hid husers h.1).and
    ((changeBody_keepsGlobals _ _).imp
      (fun _ _ hkeep => h.2.keep ⟨hkeep.1, (Nat.le_succ _).trans hkeep.2⟩)
      fun _ _ hkeep => h.2.keep ⟨hkeep.1, (Nat.le_succ _).trans hkeep.2⟩)
  read x b h := ((orderly_keptByCalls o).read x b h.1).globals h.2
    (readVariable_keepsGlobals h.1.1 o x b)
  sealBlock b h := ((orderly_keptByCalls o).sealBlock b h.1).globals h.2
    (sealBlock_keepsGlobals h.1 o b)
  remove p h := ((orderly_keptByCalls o).remove p h.1).globals h.2
    (removeTrivialPhi_keepsGlobals h.1.1 p)

end Compiler16.Ssa
