import Compiler16.Proofs.Machine.StackIntegrity

/-!
# Coherence of memory

Loads and stores move words of two bytes at any address, even or odd, so the word that a load finds
may come from two stores, or from a store and from what was there before.  What holds is said byte
by byte: a byte is the one that the latest store to cover it has put there.

The bounds of loads and stores are not the same.  A store is refused beyond `stackStart`, a load
strictly inside the stack region and at the last address, which has no next byte.  So every word
that can be stored can be loaded, up to the one at `stackStart`, whose second byte lies inside the
stack region.

A machine stores with two instructions and loads with two others, which differ in where the address
comes from.  Over a run of the machine the latest store is the one of the latest of these
instructions, as long as no word is pushed onto the byte.

## Main definitions

* `Store`, `latest?`: stores, and the latest of them to cover a byte
* `Memory.readAfter`: the byte that stores leave at an address
* `Word.store?`, `Word.loadAddress?`: what the instructions that access memory ask for
* `State.stored`: the stores of a number of steps
* `Cpu.Coherent`, `State.Coherent`: loads and stores fit together

## Main results

* `Exec.read_storeAll`: the bytes that a list of stores leaves
* `State.read_advance_eq_readAfter`: the bytes that the steps of a machine leave
* `State.memory_coherent`: the memory of every machine is coherent
-/

namespace Compiler16.Machine

/-! ## One load and one store -/

/-- A word can be loaded from the address. -/
def Loadable (b : UInt16) : Prop := b ≤ stackStart ∨ stackEnd ≤ b ∧ b ≤ 0xFFFE

instance (b : UInt16) : Decidable (Loadable b) := inferInstanceAs (Decidable (_ ∨ _))

theorem loadable_of_le {a : UInt16} (h : a ≤ stackStart) : Loadable a := .inl h

theorem loadable_iff {b : UInt16} :
    Loadable b ↔ ¬ ((stackStart < b ∧ b < stackEnd) ∨ b = 0xFFFF) := by
  have hb := b.toNat_lt
  simp only [Loadable, stackStart, stackEnd, UInt16.le_iff_toNat_le, UInt16.lt_iff_toNat_lt,
    ← UInt16.toNat_inj, UInt16.reduceToNat]
  omega

namespace Memory

variable (m : Memory) (v : UInt16)

/-- A store leaves a word alone that begins two addresses away or more. -/
theorem readWord_writeWord_of_apart {a b : UInt16} (ha : a ≤ stackStart) (hb : Loadable b)
    (h : a.toNat + 2 ≤ b.toNat ∨ b.toNat + 2 ≤ a.toNat) :
    (m.writeWord a v).readWord b = m.readWord b := by
  -- both words end before the end of memory, so that addresses can be compared as numbers
  have hlast : b.toNat + 1 < memorySize := by
    simp only [Loadable, stackStart, stackEnd, UInt16.le_iff_toNat_le, UInt16.reduceToNat] at hb
    simp only [memorySize]
    omega
  have hfirst : a.toNat + 1 < memorySize := by
    simp only [stackStart, UInt16.le_iff_toNat_le, UInt16.reduceToNat] at ha
    simp only [memorySize]
    omega
  simp only [readWord, read_writeWord, ← UInt16.toNat_inj, Plain.toNat_add_one hlast,
    Plain.toNat_add_one hfirst]
  grind

/-- The word one address higher begins with the second byte of the store. -/
theorem readWord_writeWord_next (a : UInt16) :
    (m.writeWord a v).readWord (a + 1) =
      joinBytes (highByte v) (highByte (m.readWord (a + 1))) := by
  simp only [readWord, read_writeWord, highByte_joinBytes, if_true]
  grind

/-- The word one address lower ends with the first byte of the store. -/
theorem readWord_writeWord_previous (a : UInt16) :
    (m.writeWord a v).readWord (a - 1) =
      joinBytes (lowByte (m.readWord (a - 1))) (lowByte v) := by
  simp only [readWord, read_writeWord, lowByte_joinBytes]
  grind

end Memory

namespace Exec

variable {a b v w : UInt16} {c d : Cpu}

theorem load_of_loadable (h : Loadable b) (c : Cpu) : load b c = .ok (c.memory.readWord b) c :=
  if_neg (loadable_iff.mp h)

theorem load_of_not_loadable (h : ¬ Loadable b) (c : Cpu) :
    load b c = .error (.memoryError b.toUInt32) c :=
  if_pos (Decidable.not_not.mp (mt loadable_iff.mpr h))

theorem load_eq_ok_iff : load b c = .ok w d ↔ Loadable b ∧ w = c.memory.readWord b ∧ d = c := by
  by_cases h : Loadable b
  · simp only [load_of_loadable h, EStateM.Result.ok.injEq, h, true_and, eq_comm]
  · simp only [load_of_not_loadable h, reduceCtorEq, h, false_and]

theorem store_eq_ok_iff : store a v c = .ok () d ↔
    a ≤ stackStart ∧ d = { c with memory := c.memory.writeWord a v } := by
  by_cases h : a ≤ stackStart
  · simp only [store, h, if_true, EStateM.Result.ok.injEq, true_and, eq_comm]
  · simp only [store, h, if_false, reduceCtorEq, false_and]

end Exec

/-! ## A list of stores -/

/-- A word for an address. -/
structure Store where
  address : UInt16
  value : UInt16
  deriving DecidableEq, Repr

namespace Store

/-- Carries out the store. -/
def exec (s : Store) : Exec Unit := Exec.store s.address s.value

/-- The store is carried out and writes the byte at `x`. -/
def Covers (s : Store) (x : UInt16) : Prop :=
  s.address ≤ stackStart ∧ (x = s.address ∨ x = s.address + 1)

instance (s : Store) (x : UInt16) : Decidable (s.Covers x) := inferInstanceAs (Decidable (_ ∧ _))

/-- The byte that the store writes at `x`, if it covers it. -/
def byte (s : Store) (x : UInt16) : UInt8 :=
  if x = s.address then lowByte s.value else highByte s.value

/-- What one store does to a byte. -/
theorem read_exec (s : Store) (c : Cpu) (x : UInt16) :
    (s.exec.after c).memory.read x = if s.Covers x then s.byte x else c.memory.read x := by
  by_cases h : s.address ≤ stackStart
  · rw [exec, Exec.after_eq_of_ok (Exec.store_eq_ok_iff.mpr ⟨h, rfl⟩), Memory.read_writeWord]
    simp only [Covers, h, true_and, byte]
    grind
  · have hx : ¬ s.Covers x := fun hc => h hc.1
    rw [Exec.after_eq_of_error (d := c) (if_neg h), if_neg hx]

end Store

/-- The latest of the stores to cover the byte at `x`. -/
def latest? (ss : List Store) (x : UInt16) : Option Store :=
  ss.reverse.find? fun s => s.Covers x

/-- The byte at `x` after the stores. -/
def Memory.readAfter (m : Memory) (ss : List Store) (x : UInt16) : UInt8 :=
  match latest? ss x with
  | some s => s.byte x
  | none => m.read x

theorem latest?_append (ss ts : List Store) (x : UInt16) :
    latest? (ss ++ ts) x = (latest? ts x).or (latest? ss x) := by
  simp only [latest?, List.reverse_append, List.find?_append]

/-- Stores after stores: only the bytes that the first ones left matter. -/
theorem Memory.readAfter_append (m n : Memory) (ss ts : List Store) {x : UInt16}
    (h : n.read x = m.readAfter ss x) : m.readAfter (ss ++ ts) x = n.readAfter ts x := by
  unfold readAfter at h ⊢
  rw [latest?_append]
  cases latest? ts x with
  | some t => rfl
  | none => exact h.symm

theorem Store.read_exec_eq_readAfter (s : Store) (c : Cpu) (x : UInt16) :
    (s.exec.after c).memory.read x = c.memory.readAfter [s] x := by
  rw [s.read_exec]
  by_cases h : s.Covers x <;> simp [Memory.readAfter, latest?, h]

namespace Exec

/-- Carries out stores one after the other, also after one that is refused. -/
def storeAll (ss : List Store) : Exec Unit := attemptAll (ss.map Store.exec)

/-- **The bytes that a list of stores leaves.** -/
theorem read_storeAll (ss : List Store) (c : Cpu) (x : UInt16) :
    ((storeAll ss).after c).memory.read x = c.memory.readAfter ss x := by
  -- by induction on the stores: the first one is made on `c` and the others on what it leaves
  induction ss generalizing c with
  | nil => rfl
  | cons s ss ih =>
    have hcons : (storeAll (s :: ss)).after c = (storeAll ss).after (s.exec.after c) :=
      after_attemptAll_cons s.exec _ c
    rw [hcons, ih]
    exact (c.memory.readAfter_append _ [s] ss (s.read_exec_eq_readAfter c x)).symm

end Exec

/-- Loads and stores of words fit together. -/
structure Cpu.Coherent (c : Cpu) : Prop where
  /-- The addresses at which a store succeeds. -/
  store_iff : ∀ a v, (∃ d, Exec.store a v c = .ok () d) ↔ a ≤ stackStart
  /-- The addresses at which a load succeeds. -/
  load_iff : ∀ b, (∃ w d, Exec.load b c = .ok w d) ↔
    b ≤ stackStart ∨ stackEnd ≤ b ∧ b ≤ 0xFFFE
  /-- A load changes nothing. -/
  load_keeps : ∀ b w d, Exec.load b c = .ok w d → d = c
  /-- Where a word can be stored, one can be loaded. -/
  load_of_store : ∀ a v d, Exec.store a v c = .ok () d → ∃ w, Exec.load a c = .ok w c
  load_same : ∀ a v d, Exec.store a v c = .ok () d → Exec.load a d = .ok v d
  load_apart : ∀ a v d b w, Exec.store a v c = .ok () d → Exec.load b c = .ok w c →
    (a.toNat + 2 ≤ b.toNat ∨ b.toNat + 2 ≤ a.toNat) → Exec.load b d = .ok w d
  /-- One address higher, the second byte of the store comes before the byte that was there. -/
  load_next : ∀ a v d w, Exec.store a v c = .ok () d → Exec.load (a + 1) c = .ok w c →
    Exec.load (a + 1) d = .ok (joinBytes (highByte v) (highByte w)) d
  /-- One address lower, the first byte of the store comes after the byte that was there. -/
  load_previous : ∀ a v d w, Exec.store a v c = .ok () d → Exec.load (a - 1) c = .ok w c →
    Exec.load (a - 1) d = .ok (joinBytes (lowByte w) (lowByte v)) d
  /-- After any stores, carried out or refused, both bytes of a word are from the latest store to
  cover them. -/
  load_storeAll : ∀ ss b w, Exec.load b c = .ok w c →
    Exec.load b ((Exec.storeAll ss).after c) =
      .ok (joinBytes (c.memory.readAfter ss b) (c.memory.readAfter ss (b + 1)))
        ((Exec.storeAll ss).after c)

theorem Cpu.coherent (c : Cpu) : c.Coherent where
  store_iff a v := by simp only [Exec.store_eq_ok_iff, exists_and_left, exists_eq, and_true]
  load_iff b := by
    simp only [Exec.load_eq_ok_iff, exists_and_left, exists_eq, and_true]
    rfl
  load_keeps b w d hl := (Exec.load_eq_ok_iff.mp hl).2.2
  load_of_store a v d hs :=
    ⟨_, Exec.load_of_loadable (loadable_of_le (Exec.store_eq_ok_iff.mp hs).1) c⟩
  load_same a v d hs := by
    obtain ⟨ha, rfl⟩ := Exec.store_eq_ok_iff.mp hs
    rw [Exec.load_of_loadable (loadable_of_le ha), Memory.readWord_writeWord_self]
  load_apart a v d b w hs hl h := by
    obtain ⟨ha, rfl⟩ := Exec.store_eq_ok_iff.mp hs
    obtain ⟨hb, rfl, -⟩ := Exec.load_eq_ok_iff.mp hl
    rw [Exec.load_of_loadable hb, Memory.readWord_writeWord_of_apart _ _ ha hb h]
  load_next a v d w hs hl := by
    obtain ⟨-, rfl⟩ := Exec.store_eq_ok_iff.mp hs
    obtain ⟨hb, rfl, -⟩ := Exec.load_eq_ok_iff.mp hl
    rw [Exec.load_of_loadable hb, Memory.readWord_writeWord_next]
  load_previous a v d w hs hl := by
    obtain ⟨-, rfl⟩ := Exec.store_eq_ok_iff.mp hs
    obtain ⟨hb, rfl, -⟩ := Exec.load_eq_ok_iff.mp hl
    rw [Exec.load_of_loadable hb, Memory.readWord_writeWord_previous]
  load_storeAll ss b w hl := by
    obtain ⟨hb, -⟩ := Exec.load_eq_ok_iff.mp hl
    rw [Exec.load_of_loadable hb, Memory.readWord, Exec.read_storeAll, Exec.read_storeAll]

/-! ## The instructions that access memory -/

namespace Word

/-- The store that a word asks for, with the address in the word or in its second register. -/
def store? (w : Word) (c : Cpu) : Option Store :=
  match w.kind with
  | some .stm => some ⟨w.immediate, c.reg w.first⟩
  | some .stmReg => some ⟨c.reg w.second, c.reg w.first⟩
  | _ => none

/-- The address that a word loads its first register from. -/
def loadAddress? (w : Word) (c : Cpu) : Option UInt16 :=
  match w.kind with
  | some .ldm => some w.immediate
  | some .ldmReg => some (c.reg w.second)
  | _ => none

theorem action_of_store? {w : Word} {c : Cpu} {s : Store} (h : w.store? c = some s) :
    ∃ address : Operand, w.action = .store w.first address ∧
      s = ⟨address.value c, c.reg w.first⟩ := by
  unfold store? at h
  split at h
  · next hk =>
    cases h
    exact ⟨.immediate w.immediate, by rw [action, hk]; rfl, rfl⟩
  · next hk =>
    cases h
    exact ⟨.register w.second, by rw [action, hk]; rfl, rfl⟩
  · cases h

theorem action_of_loadAddress? {w : Word} {c : Cpu} {a : UInt16} (h : w.loadAddress? c = some a) :
    ∃ address : Operand, w.action = .load w.first address ∧ a = address.value c := by
  unfold loadAddress? at h
  split at h
  · next hk =>
    cases h
    exact ⟨.immediate w.immediate, by rw [action, hk]; rfl, rfl⟩
  · next hk =>
    cases h
    exact ⟨.register w.second, by rw [action, hk]; rfl, rfl⟩
  · cases h

theorem store?_of_action {w : Word} {source : Reg} {address : Operand}
    (h : w.action = .store source address) (c : Cpu) :
    w.store? c = some ⟨address.value c, c.reg source⟩ := by
  unfold action at h
  unfold store?
  cases hk : w.kind with
  | none =>
    rw [hk] at h
    cases h
  | some op =>
    -- only two opcodes ask for a store
    rw [hk] at h
    cases op <;> cases h <;> rfl

end Word

/-- Fetching a word changes no operand. -/
theorem Operand.value_fetch (o : Operand) (c : Cpu) : o.value c.fetch.2 = o.value c := by
  cases o <;> rfl

theorem Action.exec_load (drawn : UInt16) (dest : Reg) (address : Operand) (c : Cpu) :
    (Action.load dest address).exec drawn c =
      (Exec.load (address.value c) >>= fun v => modify (·.setReg dest v)) c := rfl

namespace State

variable {G : Type} [Generator G]

section Instructions

/-- The machine after an access to memory was refused: the program counter has moved on and the
fault is remembered, and that is all. -/
def refused (m : State G) : FaultSet × State G :=
  (.single .memoryError,
    { m with
      cpu := { m.cpu with pc := m.cpu.pc + 4 }
      status := m.status.union (.single .memoryError) })

variable {m : State G} {w : Word}

/-- A word for which no number is drawn changes nothing of the machine but the processor. -/
theorem stepWith_eq_of_ok (hd : w.action.drawBound? = none) {d : Cpu}
    (h : w.action.exec (m.drawn w) m.cpu.fetch.2 = .ok () d) :
    m.stepWith w = (.empty, { m with cpu := d }) := by
  simp only [drawn, drawFor, hd] at h
  simp only [stepWith, execute, drawFor, hd, h]

/-- If it faults, the fault is remembered. -/
theorem stepWith_eq_of_error (hd : w.action.drawBound? = none) {f : Fault} {d : Cpu}
    (h : w.action.exec (m.drawn w) m.cpu.fetch.2 = .error f d) :
    m.stepWith w =
      (.single f.kind, { m with cpu := d, status := m.status.union (.single f.kind) }) := by
  simp only [drawn, drawFor, hd] at h
  simp only [stepWith, execute, drawFor, hd, h]

theorem stepWith_of_loadable {a : UInt16} (h : w.loadAddress? m.cpu = some a) (ha : Loadable a) :
    m.stepWith w = (.empty, { m with
      cpu := Cpu.setReg { m.cpu with pc := m.cpu.pc + 4 } w.first (m.cpu.memory.readWord a) }) := by
  obtain ⟨address, haction, rfl⟩ := Word.action_of_loadAddress? h
  refine stepWith_eq_of_ok (by rw [haction]; rfl) ?_
  rw [haction, Action.exec_load, Operand.value_fetch, Exec.bind_apply, Exec.load_of_loadable ha]
  rfl

theorem stepWith_of_not_loadable {a : UInt16} (h : w.loadAddress? m.cpu = some a)
    (ha : ¬ Loadable a) : m.stepWith w = m.refused := by
  obtain ⟨address, haction, rfl⟩ := Word.action_of_loadAddress? h
  refine stepWith_eq_of_error (f := .memoryError (address.value m.cpu).toUInt32)
    (by rw [haction]; rfl) ?_
  rw [haction, Action.exec_load, Operand.value_fetch, Exec.bind_apply, Exec.load_of_not_loadable ha]
  rfl

theorem stepWith_of_storable {s : Store} (h : w.store? m.cpu = some s)
    (hs : s.address ≤ stackStart) :
    m.stepWith w = (.empty, { m with
      cpu := { m.cpu with
        pc := m.cpu.pc + 4
        memory := m.cpu.memory.writeWord s.address s.value } }) := by
  obtain ⟨address, haction, rfl⟩ := Word.action_of_store? h
  refine stepWith_eq_of_ok (by rw [haction]; rfl) ?_
  rw [haction]
  exact if_pos hs

theorem stepWith_of_not_storable {s : Store} (h : w.store? m.cpu = some s)
    (hs : ¬ s.address ≤ stackStart) : m.stepWith w = m.refused := by
  obtain ⟨address, haction, rfl⟩ := Word.action_of_store? h
  refine stepWith_eq_of_error (f := .memoryError (address.value m.cpu).toUInt32)
    (by rw [haction]; rfl) ?_
  rw [haction]
  exact if_neg hs

end Instructions

/-! ## Runs -/

/-- The stores of a number of steps, in their order. -/
def stored : Nat → State G → List Store
  | 0, _ => []
  | n + 1, m => (m.word.store? m.cpu).toList ++ stored n m.step.2

/-- What one step does to a byte onto which it pushes nothing. -/
theorem read_step_eq_readAfter {m : State G} {x : UInt16}
    (hp : m.AtPush → x < m.cpu.sp ∨ stackEnd ≤ x) :
    m.step.2.cpu.memory.read x = m.cpu.memory.readAfter (m.word.store? m.cpu).toList x := by
  cases hs : m.word.store? m.cpu with
  | some s =>
    refine Eq.trans ?_ (s.read_exec_eq_readAfter m.cpu x)
    rw [step_eq_stepWith]
    by_cases ha : s.address ≤ stackStart
    · rw [stepWith_of_storable hs ha, Store.exec,
        Exec.after_eq_of_ok (Exec.store_eq_ok_iff.mpr ⟨ha, rfl⟩)]
    · rw [stepWith_of_not_storable hs ha, Store.exec,
        Exec.after_eq_of_error (d := m.cpu) (if_neg ha)]
      rfl
  | none =>
    -- a step that changes the byte would push onto it or store to it
    refine Decidable.byContradiction fun hne => ?_
    rcases (m.effect_stepWith m.word).of_read_ne hne with ⟨hpush, hle, hlt⟩ | ⟨_, _, ha, -⟩
    · rcases hp (.of_isPush hpush) with h | h
      · exact UInt16.not_lt.mpr hle h
      · exact UInt16.not_lt.mpr h hlt
    · rw [Word.store?_of_action ha] at hs
      cases hs

/-- **The bytes that the steps of a machine leave.**  As long as nothing is pushed onto it, a byte
is the one of the latest store. -/
theorem read_advance_eq_readAfter {m : State G} {n : Nat} {x : UInt16}
    (hp : ∀ i < n, (m.advance i).AtPush → x < (m.advance i).cpu.sp ∨ stackEnd ≤ x) :
    (m.advance n).cpu.memory.read x = m.cpu.memory.readAfter (m.stored n) x := by
  induction n generalizing m with
  | zero => rfl
  | succ n ih =>
    have hstep := read_step_eq_readAfter (hp 0 n.succ_pos)
    rw [advance, ih fun i hi => hp (i + 1) (Nat.succ_lt_succ hi)]
    exact (m.cpu.memory.readAfter_append _ _ _ hstep).symm

/-- The instructions that access memory fit together with loads and stores, and over a run with each
other. -/
structure Coherent (m : State G) : Prop where
  cpu : m.cpu.Coherent
  /-- A word that loads, with the address in the word or in a register. -/
  load : ∀ w a, w.loadAddress? m.cpu = some a →
    (∀ v, Exec.load a m.cpu = .ok v m.cpu → m.stepWith w =
      (.empty, { m with cpu := Cpu.setReg { m.cpu with pc := m.cpu.pc + 4 } w.first v })) ∧
    ((¬ ∃ v, Exec.load a m.cpu = .ok v m.cpu) → m.stepWith w = m.refused)
  /-- A word that stores, with the address in the word or in a register. -/
  store : ∀ w s, w.store? m.cpu = some s →
    (∀ d, Exec.store s.address s.value m.cpu = .ok () d → m.stepWith w =
      (.empty, { m with cpu := { d with pc := m.cpu.pc + 4 } })) ∧
    ((¬ ∃ d, Exec.store s.address s.value m.cpu = .ok () d) → m.stepWith w = m.refused)
  /-- Words that load the same register from the same address do the same. -/
  loads_agree : ∀ w w' a, w.loadAddress? m.cpu = some a → w'.loadAddress? m.cpu = some a →
    w.first = w'.first → m.stepWith w = m.stepWith w'
  /-- Words that store the same value at the same address do the same. -/
  stores_agree : ∀ w w' s, w.store? m.cpu = some s → w'.store? m.cpu = some s →
    m.stepWith w = m.stepWith w'
  /-- After any steps, a word that loads finds what the latest stores have left, if no word was
  pushed there. -/
  load_advance : ∀ n w b, w.loadAddress? (m.advance n).cpu = some b → Loadable b →
    (∀ x ∈ [b, b + 1], ∀ i < n, (m.advance i).AtPush →
      x < (m.advance i).cpu.sp ∨ stackEnd ≤ x) →
    ((m.advance n).stepWith w).1 = .empty ∧
      ((m.advance n).stepWith w).2.cpu.reg w.first =
        joinBytes (m.cpu.memory.readAfter (m.stored n) b)
          (m.cpu.memory.readAfter (m.stored n) (b + 1))

/-- **Memory is coherent**, whatever the state of the machine. -/
theorem memory_coherent (m : State G) : m.Coherent where
  cpu := m.cpu.coherent
  load w a h := by
    refine ⟨fun v hv => ?_, fun hnone => ?_⟩
    · obtain ⟨ha, rfl, -⟩ := Exec.load_eq_ok_iff.mp hv
      exact stepWith_of_loadable h ha
    · exact stepWith_of_not_loadable h fun ha => hnone ⟨_, Exec.load_of_loadable ha _⟩
  store w s h := by
    refine ⟨fun d hd => ?_, fun hnone => ?_⟩
    · obtain ⟨hs, rfl⟩ := Exec.store_eq_ok_iff.mp hd
      exact stepWith_of_storable h hs
    · exact stepWith_of_not_storable h fun hs => hnone ⟨_, Exec.store_eq_ok_iff.mpr ⟨hs, rfl⟩⟩
  loads_agree w w' a h h' hfirst := by
    by_cases ha : Loadable a
    · rw [stepWith_of_loadable h ha, stepWith_of_loadable h' ha, hfirst]
    · rw [stepWith_of_not_loadable h ha, stepWith_of_not_loadable h' ha]
  stores_agree w w' s h h' := by
    by_cases hs : s.address ≤ stackStart
    · rw [stepWith_of_storable h hs, stepWith_of_storable h' hs]
    · rw [stepWith_of_not_storable h hs, stepWith_of_not_storable h' hs]
  load_advance n w b h hb hp := by
    -- the load reads memory as the steps have left it
    rw [stepWith_of_loadable h hb]
    refine ⟨rfl, ?_⟩
    rw [← read_advance_eq_readAfter (hp b List.mem_cons_self),
      ← read_advance_eq_readAfter (hp (b + 1) (by simp))]
    simp only [Cpu.reg_setReg, if_true, Memory.readWord]

/-- Two stores overlap at the last address for stores, and a third one is refused: the word there
has its first byte from the second store and its second byte from the first. -/
theorem memory_coherent_overlap :
    let ss : List Store := [⟨0xFDF0, 0xBEEF⟩, ⟨0xFDEF, 0x1234⟩, ⟨0xFDF1, 0xFFFF⟩]
    Exec.load 0xFDF0 ((Exec.storeAll ss).after Cpu.fresh) =
      .ok 0xBE12 ((Exec.storeAll ss).after Cpu.fresh) :=
  (memory_coherent (State.fresh 0)).cpu.load_storeAll _ _ _
    (Exec.load_of_loadable (loadable_of_le (by decide)) _)

end State

end Compiler16.Machine
