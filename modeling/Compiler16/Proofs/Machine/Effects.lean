import Compiler16.Machine.State

/-!
# What an instruction can do

Every later result about the machine rests on a few facts about one action,
proved here once: how it can move the stack pointer and which bytes of memory it
can change (`Effect`), in which faults it can end, and what a fault leaves
behind.

An action either leaves memory alone, or pushes, or stores.  A push changes bytes
from the stack pointer on and below `stackEnd` only; a store changes the two
bytes at an address up to `stackStart`, which may reach two bytes into the stack
region.

## Main results

* `Action.effect_exec`: the effect of an action on stack pointer and memory.
* `Action.regular_exec`: the faults in which an action can end.
* `Action.atomic_exec`: a fault leaves the processor as it was, but for calls,
  returns and the actions on all registers.
-/

namespace Compiler16.Machine

/-- The stack pointer lies in the stack region, its end included. -/
def Cpu.Bounded (c : Cpu) : Prop := stackStart ≤ c.sp ∧ c.sp ≤ stackEnd

instance (c : Cpu) : Decidable c.Bounded := inferInstanceAs (Decidable (_ ∧ _))

namespace Exec

variable {α β : Type}

/-- The processor that a computation leaves behind, with or without a fault. -/
def after (x : Exec α) (c : Cpu) : Cpu :=
  match x c with
  | .ok _ d => d
  | .error _ d => d

theorem after_eq_of_ok {x : Exec α} {c d : Cpu} {a : α} (h : x c = .ok a d) :
    x.after c = d := by
  simp only [after, h]

theorem after_eq_of_error {x : Exec α} {c d : Cpu} {f : Fault} (h : x c = .error f d) :
    x.after c = d := by
  simp only [after, h]

theorem bind_apply (x : Exec α) (f : α → Exec β) (c : Cpu) :
    (x >>= f) c = match x c with
      | .ok a d => f a d
      | .error e d => .error e d := by
  change EStateM.bind x f c = _
  unfold EStateM.bind
  cases x c <;> rfl

/-- The computation leads from a processor to one that stands in the relation `R`
to it, with or without a fault. -/
def Within (R : Cpu → Cpu → Prop) (x : Exec α) : Prop := ∀ c, R c (x.after c)

theorem Within.diag {R : Cpu → Cpu → Prop} {x : Cpu → Exec α} (h : ∀ c, (x c).Within R) :
    Within R fun c => x c c :=
  fun c => h c c

/-- A computation that does something if a condition is met, and else faults. -/
theorem Within.guard {R : Cpu → Cpu → Prop} (refl : ∀ c, R c c) {p : Cpu → Prop}
    [DecidablePred p] {v : Cpu → α} {g : Cpu → Cpu} {f : Cpu → Fault}
    (h : ∀ c, p c → R c (g c)) :
    Within R fun c => if p c then .ok (v c) (g c) else .error (f c) c := by
  intro c
  by_cases hp : p c <;> simp only [after, hp, if_true, if_false]
  · exact h c hp
  · exact refl c

theorem Within.bind {R : Cpu → Cpu → Prop} (trans : ∀ {c d e}, R c d → R d e → R c e)
    {x : Exec α} {f : α → Exec β} (hx : x.Within R) (hf : ∀ a, (f a).Within R) :
    Within R (x >>= f) := by
  intro c
  have h := hx c
  unfold after at h ⊢
  rw [bind_apply]
  cases hc : x c with
  | ok a d =>
    rw [hc] at h
    exact trans h (hf a d)
  | error e d =>
    rw [hc] at h
    exact h

theorem after_attemptAll_cons (x : Exec Unit) (xs : List (Exec Unit)) (c : Cpu) :
    (attemptAll (x :: xs)).after c = (attemptAll xs).after (x.after c) := by
  simp only [after, attemptAll]
  cases x c with
  | ok _ d => rfl
  | error f d =>
    dsimp only
    cases attemptAll xs d <;> rfl

theorem Within.attemptAll {R : Cpu → Cpu → Prop} (refl : ∀ c, R c c)
    (trans : ∀ {c d e}, R c d → R d e → R c e) {xs : List (Exec Unit)}
    (hxs : ∀ x ∈ xs, x.Within R) : Within R (Exec.attemptAll xs) := by
  induction xs with
  | nil => exact refl
  | cons x xs ih =>
    intro c
    rw [after_attemptAll_cons]
    exact trans (hxs x (by simp) c) (ih (fun y hy => hxs y (by simp [hy])) (x.after c))

end Exec

/-! ## Pushing -/

/-- From `c` to `d` words were pushed: the stack pointer did not go back, and
bytes below it and from `stackEnd` on are the same. -/
structure Cpu.Pushing (c d : Cpu) : Prop where
  sp_le : c.sp ≤ d.sp
  bounded : c.Bounded → d.Bounded
  read : ∀ x, x < c.sp ∨ stackEnd ≤ x → d.memory.read x = c.memory.read x

namespace Cpu.Pushing

theorem refl (c : Cpu) : Pushing c c := ⟨UInt16.le_refl _, id, fun _ _ => rfl⟩

theorem trans {c d e : Cpu} (h : Pushing c d) (h' : Pushing d e) : Pushing c e where
  sp_le := UInt16.le_trans h.sp_le h'.sp_le
  bounded := h'.bounded ∘ h.bounded
  read x hx := by
    have hx' : x < d.sp ∨ stackEnd ≤ x := hx.imp_left fun hlt => UInt16.lt_of_lt_of_le hlt h.sp_le
    rw [h'.read x hx', h.read x hx]

end Cpu.Pushing

namespace Cpu

/-- There is room for one more word on the stack. -/
def HasRoom (c : Cpu) : Prop := c.sp.toNat + 2 ≤ stackEnd.toNat

/-- The processor with a word put on the stack. -/
def pushed (c : Cpu) (v : UInt16) : Cpu :=
  { c with memory := c.memory.writeWord c.sp v, sp := c.sp + 2 }

theorem toNat_sp_pushed {c : Cpu} (h : c.HasRoom) (v : UInt16) :
    (c.pushed v).sp.toNat = c.sp.toNat + 2 := by
  simp only [HasRoom, stackEnd, UInt16.reduceToNat] at h
  simp only [pushed, UInt16.toNat_add, UInt16.reduceToNat]
  omega

theorem read_writeWord_sp {c : Cpu} (h : c.HasRoom) (v : UInt16) {x : UInt16}
    (hx : x < c.sp ∨ stackEnd ≤ x) : (c.memory.writeWord c.sp v).read x = c.memory.read x := by
  simp only [HasRoom, stackEnd, UInt16.reduceToNat] at h
  simp only [UInt16.lt_iff_toNat_lt, UInt16.le_iff_toNat_le, stackEnd, UInt16.reduceToNat] at hx
  rw [Memory.read_writeWord, if_neg, if_neg]
  · rintro rfl
    omega
  · rintro rfl
    simp only [UInt16.toNat_add, UInt16.reduceToNat] at hx
    omega

theorem pushing_pushed {c : Cpu} (h : c.HasRoom) (v : UInt16) : Pushing c (c.pushed v) where
  sp_le := by
    rw [UInt16.le_iff_toNat_le, toNat_sp_pushed h]
    omega
  bounded := by
    rintro ⟨hlo, -⟩
    rw [UInt16.le_iff_toNat_le] at hlo
    refine ⟨?_, ?_⟩ <;> rw [UInt16.le_iff_toNat_le, toNat_sp_pushed h]
    · omega
    · exact h
  read _ hx := read_writeWord_sp h v hx

end Cpu

namespace Exec

theorem push_of_hasRoom {c : Cpu} (h : c.HasRoom) (v : UInt16) :
    push v c = .ok () (c.pushed v) := if_pos h

theorem push_of_not_hasRoom {c : Cpu} (h : ¬ c.HasRoom) (v : UInt16) :
    push v c = .error .stackOverflow c := if_neg h

theorem within_pushing_push (v : UInt16) : Within Cpu.Pushing (push v) :=
  .guard .refl fun _ h => Cpu.pushing_pushed h v

theorem within_pushing_pushReg (r : Reg) : Within Cpu.Pushing (pushReg r) :=
  .diag (x := fun c => push (c.reg r)) fun c => within_pushing_push (c.reg r)

end Exec

/-! ## Popping -/

/-- From `c` to `d` memory was left alone, and the stack pointer did not leave the
stack region. -/
structure Cpu.Keeping (c d : Cpu) : Prop where
  memory : d.memory = c.memory
  bounded : c.Bounded → d.Bounded

namespace Cpu

theorem Keeping.refl (c : Cpu) : Keeping c c := ⟨rfl, id⟩

theorem Keeping.of_eq {c d : Cpu} (hm : d.memory = c.memory) (hs : d.sp = c.sp) : Keeping c d :=
  ⟨hm, fun h => by rwa [Bounded, hs]⟩

theorem Keeping.trans {c d e : Cpu} (h : Keeping c d) (h' : Keeping d e) : Keeping c e :=
  ⟨h'.memory.trans h.memory, h'.bounded ∘ h.bounded⟩

/-- There is a word on the stack. -/
def HasWord (c : Cpu) : Prop := stackStart.toNat + 2 ≤ c.sp.toNat

/-- The topmost word of the stack. -/
def top (c : Cpu) : UInt16 := c.memory.readWord (c.sp - 2)

/-- The processor with the topmost word taken off the stack. -/
def popped (c : Cpu) : Cpu := { c with sp := c.sp - 2 }

theorem toNat_sp_popped {c : Cpu} (h : c.HasWord) : c.popped.sp.toNat = c.sp.toNat - 2 := by
  simp only [HasWord, stackStart, UInt16.reduceToNat] at h
  refine UInt16.toNat_sub_of_le _ _ ?_
  simp only [UInt16.le_iff_toNat_le, UInt16.reduceToNat]
  omega

theorem keeping_popped {c : Cpu} (h : c.HasWord) : Keeping c c.popped where
  memory := rfl
  bounded := by
    rintro ⟨-, hhi⟩
    have hlo := h
    unfold HasWord at hlo
    rw [UInt16.le_iff_toNat_le] at hhi
    refine ⟨?_, ?_⟩ <;> rw [UInt16.le_iff_toNat_le, toNat_sp_popped h] <;> omega

theorem hasWord_pushed {c : Cpu} (hc : c.Bounded) (h : c.HasRoom) (v : UInt16) :
    (c.pushed v).HasWord := by
  have hlo := hc.1
  rw [UInt16.le_iff_toNat_le] at hlo
  unfold HasWord
  rw [toNat_sp_pushed h]
  omega

@[simp] theorem top_pushed (c : Cpu) (v : UInt16) : (c.pushed v).top = v := by
  simp [top, pushed]

theorem popped_pushed (c : Cpu) (v : UInt16) :
    (c.pushed v).popped = { c with memory := c.memory.writeWord c.sp v } := by
  simp [popped, pushed]

end Cpu

namespace Exec

theorem pop_of_hasWord {c : Cpu} (h : c.HasWord) : pop c = .ok c.top c.popped := if_pos h

theorem pop_of_not_hasWord {c : Cpu} (h : ¬ c.HasWord) : pop c = .error .stackUnderflow c :=
  if_neg h

theorem popReg_of_hasWord {c : Cpu} (h : c.HasWord) (r : Reg) :
    popReg r c = .ok () (c.popped.setReg r c.top) := by
  rw [popReg, bind_apply, pop_of_hasWord h]
  rfl

theorem popReg_of_not_hasWord {c : Cpu} (h : ¬ c.HasWord) (r : Reg) :
    popReg r c = .error .stackUnderflow c := by
  rw [popReg, bind_apply, pop_of_not_hasWord h]

theorem within_keeping_pop : Within Cpu.Keeping pop :=
  .guard .refl fun _ h => Cpu.keeping_popped h

theorem within_keeping_modify {f : Cpu → Cpu} (hm : ∀ c, (f c).memory = c.memory)
    (hs : ∀ c, (f c).sp = c.sp) : Within Cpu.Keeping (modify f : Exec Unit) :=
  fun c => .of_eq (hm c) (hs c)

theorem within_keeping_popReg (r : Reg) : Within Cpu.Keeping (popReg r) :=
  .bind .trans within_keeping_pop fun _ => within_keeping_modify (fun _ => rfl) fun _ => rfl

theorem within_keeping_setPc (v : UInt16) : Within Cpu.Keeping (setPc v) :=
  .guard .refl fun _ _ => .of_eq rfl rfl

theorem within_keeping_setSp (v : UInt16) : Within Cpu.Keeping (setSp v) :=
  .guard .refl fun _ h => ⟨rfl, fun _ => h⟩

theorem within_keeping_load (a : UInt16) : Within Cpu.Keeping (load a) := by
  intro c
  by_cases h : (stackStart < a ∧ a < stackEnd) ∨ a = 0xFFFF <;>
    simp only [after, load, h, if_true, if_false] <;> exact .refl c

theorem within_keeping_binary (op : BinaryOp) (x y : UInt16) (dest : Option Reg) :
    Within Cpu.Keeping (binary op x y dest) := by
  intro c
  unfold after binary
  cases op.result? x y with
  | none => exact .refl c
  | some result => cases dest <;> exact .of_eq rfl rfl

/-! ## Calls and returns -/

theorem callTo_of_not_hasRoom {c : Cpu} (h : ¬ c.HasRoom) (target : UInt16) :
    callTo target c = .error .stackOverflow c := by
  rw [callTo, bind_apply, pushPc, push_of_not_hasRoom h]

theorem callTo_of_le {c : Cpu} (h : c.HasRoom) {target : UInt16} (ht : target ≤ stackStart) :
    callTo target c = .ok () { c.pushed c.pc with pc := target } := by
  rw [callTo, bind_apply, pushPc, push_of_hasRoom h]
  simp only [if_pos ht, setPc]

theorem callTo_of_not_le {c : Cpu} (hc : c.Bounded) (h : c.HasRoom) {target : UInt16}
    (ht : ¬ target ≤ stackStart) :
    callTo target c = .error (.memoryError target.toUInt32)
      { c with memory := c.memory.writeWord c.sp c.pc } := by
  rw [callTo, bind_apply, pushPc, push_of_hasRoom h]
  simp only [if_neg ht]
  rw [bind_apply, pop_of_hasWord (Cpu.hasWord_pushed hc h _), Cpu.popped_pushed]
  rfl

theorem ret_of_hasWord {c : Cpu} (h : c.HasWord) : ret c = setPc c.top c.popped := by
  rw [ret, bind_apply, pop_of_hasWord h]

theorem ret_of_not_hasWord {c : Cpu} (h : ¬ c.HasWord) : ret c = .error .stackUnderflow c := by
  rw [ret, bind_apply, pop_of_not_hasWord h]

theorem within_pushing_callTo (target : UInt16) : Within Cpu.Pushing (callTo target) := by
  intro c
  by_cases h : c.HasRoom
  · have hp := Cpu.pushing_pushed h c.pc
    by_cases ht : target ≤ stackStart
    · rw [after_eq_of_ok (callTo_of_le h ht)]
      exact ⟨hp.sp_le, hp.bounded, hp.read⟩
    · unfold after
      rw [callTo, bind_apply, pushPc, push_of_hasRoom h]
      simp only [if_neg ht]
      rw [bind_apply]
      -- The address comes off the stack again, and its two bytes stay.
      by_cases hw : (c.pushed c.pc).HasWord
      · rw [pop_of_hasWord hw, Cpu.popped_pushed]
        exact ⟨UInt16.le_refl _, id, hp.read⟩
      · rw [pop_of_not_hasWord hw]
        exact hp
  · rw [after_eq_of_error (callTo_of_not_hasRoom h target)]
    exact .refl c

end Exec

/-! ## Actions -/

namespace Action

/-- The action puts words on the stack. -/
def isPush : Action → Bool
  | call _ _ | push _ | pushAll | pushFlags => true
  | _ => false

/-- What an action can do to the stack pointer and to memory. -/
inductive Effect (c : Cpu) : Action → Cpu → Prop where
  /-- Memory is left alone. -/
  | kept {a d} (h : Cpu.Keeping c d) : Effect c a d
  /-- Words are pushed. -/
  | pushed {a d} (hp : a.isPush = true) (h : Cpu.Pushing c d) : Effect c a d
  /-- A word is written at an address up to the start of the stack. -/
  | stored {source address} (h : address.value c ≤ stackStart) :
    Effect c (.store source address)
      { c with memory := c.memory.writeWord (address.value c) (c.reg source) }

theorem effect_exec (drawn : UInt16) (a : Action) (c : Cpu) :
    Effect c a ((a.exec drawn).after c) := by
  cases a with
  | idle => exact .kept (.refl c)
  | random dest bound => exact .kept (.of_eq rfl rfl)
  | jump test target =>
    simp only [exec, Exec.after]
    cases test.holds c
    · exact .kept (.refl c)
    · exact .kept (Exec.within_keeping_setPc _ c)
  | call test target =>
    simp only [exec, Exec.after]
    cases test.holds c
    · exact .kept (.refl c)
    · exact .pushed rfl (Exec.within_pushing_callTo _ c)
  | ret => exact .kept (Exec.Within.bind .trans Exec.within_keeping_pop Exec.within_keeping_setPc c)
  | move dest source => exact .kept (.of_eq rfl rfl)
  | setSp value => exact .kept (Exec.within_keeping_setSp value c)
  | load dest address =>
    refine .kept (Exec.Within.bind .trans (x := get) (fun c => .refl c) (fun c => ?_) c)
    refine Exec.Within.bind .trans (Exec.within_keeping_load _) fun v => ?_
    exact Exec.within_keeping_modify (fun _ => rfl) fun _ => rfl
  | store source address =>
    by_cases h : address.value c ≤ stackStart
    · simp only [exec, Exec.after, Exec.store, if_pos h]
      exact .stored h
    · simp only [exec, Exec.after, Exec.store, if_neg h]
      exact .kept (.refl c)
  | binary op lhs rhs dest =>
    exact .kept (Exec.Within.diag
      (x := fun c => Exec.binary op (c.reg lhs) (rhs.value c) dest)
      (fun c => Exec.within_keeping_binary op _ _ dest) c)
  | unary op operand dest => exact .kept (.of_eq rfl rfl)
  | shift op dest amount => exact .kept (.of_eq rfl rfl)
  | push source => exact .pushed rfl (Exec.within_pushing_pushReg source c)
  | pop dest => exact .kept (Exec.within_keeping_popReg dest c)
  | pushAll =>
    refine .pushed rfl (Exec.Within.attemptAll .refl .trans ?_ c)
    simpa using Exec.within_pushing_pushReg
  | popAll =>
    refine .kept (Exec.Within.attemptAll .refl .trans ?_ c)
    simpa using Exec.within_keeping_popReg
  | pushFlags =>
    exact .pushed rfl (Exec.Within.diag (x := fun c => Exec.push c.flagWord)
      (fun c => Exec.within_pushing_push c.flagWord) c)
  | popFlags =>
    refine .kept (Exec.Within.bind .trans Exec.within_keeping_pop (fun v => ?_) c)
    exact Exec.within_keeping_modify (fun _ => rfl) fun _ => rfl

namespace Effect

variable {c d : Cpu} {a : Action} (h : Effect c a d)
include h

theorem bounded (hc : c.Bounded) : d.Bounded := by
  cases h with
  | kept h => exact h.bounded hc
  | pushed _ h => exact h.bounded hc
  | stored _ => exact hc

/-- A byte that changed lies where words were pushed or where one was stored. -/
theorem of_read_ne {x : UInt16} (hx : d.memory.read x ≠ c.memory.read x) :
    a.isPush = true ∧ c.sp ≤ x ∧ x < stackEnd ∨
      ∃ source address, a = .store source address ∧ address.value c ≤ stackStart ∧
        (address.value c = x ∨ address.value c + 1 = x) := by
  cases h with
  | kept h => exact absurd (by rw [h.memory]) hx
  | pushed hp h =>
    have hlo : ¬ x < c.sp := fun hlt => hx (h.read x (.inl hlt))
    have hhi : ¬ stackEnd ≤ x := fun hle => hx (h.read x (.inr hle))
    exact .inl ⟨hp, UInt16.not_lt.1 hlo, UInt16.not_le.1 hhi⟩
  | @stored source address h =>
    refine .inr ⟨source, address, rfl, h, ?_⟩
    rw [Memory.read_writeWord] at hx
    grind

end Effect

end Action

/-! ## Faults -/

/-- The kinds of faults that carrying out an instruction can raise. -/
def FaultKind.ofInstructions : List FaultKind :=
  [memoryError, stackOverflow, stackUnderflow, divideByZero]

namespace Exec

variable {α β : Type}

/-- The faults of the computation are of the kinds that instructions raise. -/
def Regular (x : Exec α) : Prop :=
  ∀ c f d, x c = .error f d → f.kind ∈ FaultKind.ofInstructions

/-- The computation is regular, and a fault leaves the processor as it was. -/
def Atomic (x : Exec α) : Prop :=
  ∀ c f d, x c = .error f d → f.kind ∈ FaultKind.ofInstructions ∧ d = c

theorem Regular.bind {x : Exec α} {f : α → Exec β} (hx : x.Regular)
    (hf : ∀ a, (f a).Regular) : Regular (x >>= f) := by
  intro c g d h
  rw [bind_apply] at h
  cases hc : x c with
  | ok a e =>
    rw [hc] at h
    exact hf a e g d h
  | error g' e =>
    rw [hc] at h
    cases h
    exact hx c g d hc

theorem Regular.attemptAll {xs : List (Exec Unit)} (hxs : ∀ x ∈ xs, x.Regular) :
    Regular (Exec.attemptAll xs) := by
  induction xs with
  | nil =>
    intro c f d h
    cases h
  | cons x xs ih =>
    intro c f d h
    have ih := ih fun y hy => hxs y (by simp [hy])
    unfold Exec.attemptAll at h
    cases hc : x c with
    | ok _ e =>
      rw [hc] at h
      exact ih e f d h
    | error g e =>
      -- The first fault is the one that is reported, whatever the others do.
      simp only [hc] at h
      have hg := hxs x (by simp) c g e hc
      cases hd : Exec.attemptAll xs e <;> rw [hd] at h <;> cases h <;> exact hg

theorem Atomic.bind_modify {x : Exec α} (hx : x.Atomic) (g : α → Cpu → Cpu) :
    Atomic (x >>= fun a => modify (g a)) := by
  intro c f d h
  rw [bind_apply] at h
  cases hc : x c with
  | ok a e =>
    rw [hc] at h
    cases h
  | error f' e =>
    rw [hc] at h
    cases h
    exact hx c f d hc

theorem atomic_modify (g : Cpu → Cpu) : Atomic (modify g : Exec Unit) := by
  intro c f d h
  cases h

/-- A computation that does something if a condition is met, and else faults. -/
theorem atomic_guard {p : Cpu → Prop} [DecidablePred p] {v : Cpu → α} {g : Cpu → Cpu}
    {f : Cpu → Fault} (hf : ∀ c, (f c).kind ∈ FaultKind.ofInstructions) :
    Atomic fun c => if p c then .ok (v c) (g c) else .error (f c) c := by
  intro c f' d h
  dsimp only at h
  split at h <;> cases h
  exact ⟨hf c, rfl⟩

theorem atomic_setPc (v : UInt16) : Atomic (setPc v) :=
  atomic_guard fun _ => by simp [Fault.kind, FaultKind.ofInstructions]

theorem atomic_setSp (v : UInt16) : Atomic (setSp v) :=
  atomic_guard fun _ => by simp [Fault.kind, FaultKind.ofInstructions]

theorem atomic_store (a v : UInt16) : Atomic (store a v) :=
  atomic_guard fun _ => by simp [Fault.kind, FaultKind.ofInstructions]

theorem atomic_push (v : UInt16) : Atomic (push v) :=
  atomic_guard fun _ => by simp [Fault.kind, FaultKind.ofInstructions]

theorem atomic_pushReg (r : Reg) : Atomic (pushReg r) := fun c => atomic_push (c.reg r) c

theorem atomic_pop : Atomic pop :=
  atomic_guard fun _ => by simp [Fault.kind, FaultKind.ofInstructions]

theorem atomic_popReg (r : Reg) : Atomic (popReg r) := atomic_pop.bind_modify _

theorem atomic_load (a : UInt16) : Atomic (load a) := by
  intro c f d h
  unfold load at h
  split at h <;> cases h
  exact ⟨by simp [Fault.kind, FaultKind.ofInstructions], rfl⟩

theorem atomic_binary (op : BinaryOp) (x y : UInt16) (dest : Option Reg) :
    Atomic (binary op x y dest) := by
  intro c f d h
  unfold binary at h
  cases hr : op.result? x y with
  | none =>
    rw [hr] at h
    cases h
    exact ⟨by decide, rfl⟩
  | some result =>
    rw [hr] at h
    cases dest <;> cases h

end Exec

namespace Action

/-- A fault of the action leaves the processor as it was.  A call may leave its
return address behind, a return takes a word off the stack first, and the actions
on all registers go on after a fault. -/
def isAtomic : Action → Bool
  | call _ _ | ret | pushAll | popAll => false
  | _ => true

theorem atomic_exec (drawn : UInt16) {a : Action} (ha : a.isAtomic = true) :
    (a.exec drawn).Atomic := by
  cases a with
  | idle => exact Exec.atomic_modify id
  | random dest bound => exact Exec.atomic_modify _
  | jump test target =>
    intro c f d h
    simp only [exec] at h
    split at h
    · exact Exec.atomic_setPc _ c f d h
    · cases h
  | call test target => cases ha
  | ret => cases ha
  | move dest source => exact Exec.atomic_modify _
  | setSp value => exact Exec.atomic_setSp value
  | load dest address =>
    exact fun c => (Exec.atomic_load (address.value c)).bind_modify _ c
  | store source address => exact fun c => Exec.atomic_store (address.value c) (c.reg source) c
  | binary op lhs rhs dest => exact fun c => Exec.atomic_binary op (c.reg lhs) (rhs.value c) dest c
  | unary op operand dest => intro c f d h; cases h
  | shift op dest amount => intro c f d h; cases h
  | push source => exact Exec.atomic_pushReg source
  | pop dest => exact Exec.atomic_popReg dest
  | pushAll => cases ha
  | popAll => cases ha
  | pushFlags => exact fun c => Exec.atomic_push c.flagWord c
  | popFlags => exact Exec.atomic_pop.bind_modify _

end Action

end Compiler16.Machine
