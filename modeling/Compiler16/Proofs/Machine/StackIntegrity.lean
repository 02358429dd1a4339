import Compiler16.Proofs.Machine.Calls

/-!
# Integrity of the stack

Pushes and stores share one memory and are kept apart by their addresses alone: a
push writes from the stack pointer on, a store at an address up to `stackStart`.
So nearly every byte of the stack is changed by pushes only, and a word on it stays
what it is until the stack pointer comes back below it.

The exception is the bottom of the stack.  A word has two bytes and only the address
of the first is looked at, so a store at `stackStart` writes the first two bytes of
the stack region, and a store one address below writes the first of them.  A word
that lies there is safe only from other stores.

## Main definitions

* `State.AtPush`, `State.StoresTo`: the machine is about to push, or to store to a byte.
* `State.Pushes`: the machine is about to put a word on the stack.
* `State.Returns`: what comes of taking a word off the stack.
* `State.StackIntegrity`: which instructions change which bytes, and that words on the
  stack are returned.

## Main results

* `State.of_read_step_ne`: what a step that changes a byte is about.
* `State.read_advance`: bytes that no step of a run pushes onto or stores to.
* `State.stackIntegrity_of_reachable`: reachable machines have stack integrity.
* `State.exists_overwritten`: a store that changes a word on the stack.
-/

namespace Compiler16.Machine

/-! ## Pushing and popping several words -/

/-- With the stack pointer just above it, a word is the topmost one. -/
theorem Cpu.hasWord_of_sp_eq {c : Cpu} {p : UInt16} (hlo : stackStart ≤ p)
    (hhi : p.toNat + 2 ≤ stackEnd.toNat) (hsp : c.sp = p + 2) :
    c.HasWord ∧ c.top = c.memory.readWord p ∧ c.popped = { c with sp := p } := by
  refine ⟨?_, ?_, ?_⟩
  · simp only [stackEnd, stackStart, UInt16.le_iff_toNat_le, UInt16.reduceToNat] at hlo hhi
    simp only [HasWord, hsp, stackStart, UInt16.toNat_add, UInt16.reduceToNat]
    omega
  · simp [top, hsp]
  · simp [popped, hsp]

/-- A word below the stack pointer stays as it is when words are pushed. -/
theorem Cpu.Pushing.readWord {c d : Cpu} (h : Pushing c d) {p : UInt16}
    (hp : p.toNat + 2 ≤ c.sp.toNat) : d.memory.readWord p = c.memory.readWord p := by
  have hsp := c.sp.toNat_lt
  have hlow : p < c.sp := by
    rw [UInt16.lt_iff_toNat_lt]
    omega
  have hhigh : p + 1 < c.sp := by
    simp only [UInt16.lt_iff_toNat_lt, UInt16.toNat_add, UInt16.reduceToNat]
    omega
  rw [Memory.readWord, Memory.readWord, h.read _ (.inl hlow), h.read _ (.inl hhigh)]

/-- A word that was pushed alone lies where the stack pointer was. -/
theorem Cpu.readWord_pushed {c : Cpu} {n : Nat} {w v p : UInt16} (hv : [w][n]? = some v)
    (hp : p.toNat = c.sp.toNat + 2 * n) : (c.pushed w).memory.readWord p = v := by
  obtain ⟨rfl, rfl⟩ : n = 0 ∧ w = v := by simpa [List.getElem?_singleton] using hv
  obtain rfl : p = c.sp := UInt16.toNat_inj.1 (by simpa using hp)
  exact Memory.readWord_writeWord_self _ _ _

namespace Exec

/-- Nothing is pushed onto a full stack. -/
theorem after_attemptAll_pushReg_of_not_hasRoom {c : Cpu} (h : ¬ c.HasRoom) (rs : List Reg) :
    (attemptAll (rs.map pushReg)).after c = c := by
  induction rs with
  | nil => rfl
  | cons r rs ih =>
    rw [List.map_cons, after_attemptAll_cons,
      after_eq_of_error (x := pushReg r) (push_of_not_hasRoom h _), ih]

/-- Registers that were pushed one after the other lie one above the other, as far as
the stack pointer went. -/
theorem readWord_attemptAll_pushReg (rs : List Reg) {c : Cpu} {n : Nat} {v p : UInt16}
    (hv : (rs.map c.reg)[n]? = some v) (hp : p.toNat = c.sp.toNat + 2 * n)
    (hd : p.toNat + 2 ≤ ((attemptAll (rs.map pushReg)).after c).sp.toNat) :
    ((attemptAll (rs.map pushReg)).after c).memory.readWord p = v := by
  -- Induction on the registers.  If there is no room for one, there is none for the rest.
  induction rs generalizing c n with
  | nil => cases hv
  | cons r rs ih =>
    by_cases hr : c.HasRoom
    · rw [List.map_cons, after_attemptAll_cons,
        after_eq_of_ok (x := pushReg r) (push_of_hasRoom hr _)] at hd ⊢
      have hsp := Cpu.toNat_sp_pushed hr (c.reg r)
      cases n with
      | zero =>
        -- The other registers are pushed above this one.
        obtain rfl : c.reg r = v := by simpa using hv
        obtain rfl : p = c.sp := UInt16.toNat_inj.1 (by simpa using hp)
        have hpush : Cpu.Pushing (c.pushed (c.reg r))
            ((attemptAll (rs.map pushReg)).after (c.pushed (c.reg r))) :=
          Within.attemptAll .refl .trans (by simpa using fun r _ => within_pushing_pushReg r) _
        rw [hpush.readWord (by omega)]
        exact Memory.readWord_writeWord_self _ _ _
      | succ n =>
        exact ih (c := c.pushed (c.reg r)) (n := n) hv (by omega) hd
    · rw [after_attemptAll_pushReg_of_not_hasRoom hr] at hd
      omega

/-- The same for one word, which is the only one. -/
theorem readWord_push {x : Exec Unit} {c : Cpu} {n : Nat} {w v p : UInt16} (hx : x c = push w c)
    (hv : [w][n]? = some v) (hp : p.toNat = c.sp.toNat + 2 * n)
    (hd : p.toNat + 2 ≤ (x.after c).sp.toNat) : (x.after c).memory.readWord p = v := by
  by_cases hr : c.HasRoom
  · rw [after_eq_of_ok (hx.trans (push_of_hasRoom hr w))]
    exact Cpu.readWord_pushed hv hp
  · rw [after_eq_of_error (hx.trans (push_of_not_hasRoom hr w))] at hd
    omega

/-- The return address of a call lies on the stack, if the stack pointer went past it. -/
theorem readWord_callTo {x : Exec Unit} {c : Cpu} {n : Nat} {v p target : UInt16}
    (hc : c.Bounded) (hx : x c = callTo target c) (hv : [c.pc][n]? = some v)
    (hp : p.toNat = c.sp.toNat + 2 * n) (hd : p.toNat + 2 ≤ (x.after c).sp.toNat) :
    (x.after c).memory.readWord p = v := by
  by_cases hr : c.HasRoom
  · by_cases ht : target ≤ stackStart
    · rw [after_eq_of_ok (hx.trans (callTo_of_le hr ht))]
      exact Cpu.readWord_pushed hv hp
    · -- The call is rejected, and the stack pointer is back where it was.
      rw [after_eq_of_error (hx.trans (callTo_of_not_le hc hr ht))] at hd
      dsimp only at hd
      omega
  · rw [after_eq_of_error (hx.trans (callTo_of_not_hasRoom hr target))] at hd
    omega

/-- Popping into some registers leaves the others alone. -/
theorem reg_attemptAll_popReg_of_notMem {rs : List Reg} {r : Reg} (hr : r ∉ rs) (c : Cpu) :
    ((attemptAll (rs.map popReg)).after c).reg r = c.reg r := by
  refine Within.attemptAll (R := fun c d => d.reg r = c.reg r) (fun _ => rfl)
    (fun h h' => h'.trans h) ?_ c
  simp only [List.mem_map, forall_exists_index, and_imp, forall_apply_eq_imp_iff₂]
  intro s hs c
  by_cases hw : c.HasWord
  · rw [after_eq_of_ok (popReg_of_hasWord hw s), Cpu.reg_setReg, if_neg]
    · rfl
    · rintro rfl
      exact hr hs
  · rw [after_eq_of_error (popReg_of_not_hasWord hw s)]

/-- Registers that are popped one after the other get the words that lie one below the
other. -/
theorem reg_attemptAll_popReg {rs : List Reg} (hnd : rs.Nodup) {c : Cpu} {n : Nat} {r : Reg}
    {p : UInt16} (hr : rs[n]? = some r) (hlo : stackStart ≤ p)
    (hp : c.sp.toNat = p.toNat + 2 + 2 * n) :
    ((attemptAll (rs.map popReg)).after c).reg r = c.memory.readWord p := by
  -- Induction on the registers: each pop brings the stack pointer one word closer to `p`.
  induction rs generalizing c n with
  | nil => cases hr
  | cons s rs ih =>
    have hw : c.HasWord := by
      rw [UInt16.le_iff_toNat_le] at hlo
      unfold Cpu.HasWord
      omega
    rw [List.map_cons, after_attemptAll_cons, after_eq_of_ok (popReg_of_hasWord hw s)]
    have hsp := Cpu.toNat_sp_popped hw
    cases n with
    | zero =>
      -- This pop reads the word, and the rest go to other registers.
      obtain rfl : s = r := by simpa using hr
      rw [reg_attemptAll_popReg_of_notMem (List.nodup_cons.1 hnd).1, Cpu.reg_setReg, if_pos rfl,
        Cpu.top, show c.sp - 2 = p from UInt16.toNat_inj.1 (hsp.trans (by omega))]
    | succ n =>
      exact ih (List.nodup_cons.1 hnd).2 (by simpa using hr)
        (show c.popped.sp.toNat = _ by omega)

end Exec

/-! ## What a step pushes -/

namespace Action

/-- The words that the action puts on the stack, lowest first.  It may stop short of
some of them. -/
def pushedWords (c : Cpu) : Action → List UInt16
  | call _ _ => [c.pc]
  | push source => [c.reg source]
  | pushAll => (List.finRange registerCount).map c.reg
  | pushFlags => [c.flagWord]
  | _ => []

/-- A word that was pushed lies in its place, if the stack pointer went past it. -/
theorem readWord_of_pushedWords {drawn : UInt16} {a : Action} {c : Cpu} {n : Nat} {v p : UInt16}
    (hc : c.Bounded) (hv : (a.pushedWords c)[n]? = some v) (hp : p.toNat = c.sp.toNat + 2 * n)
    (hd : p.toNat + 2 ≤ ((a.exec drawn).after c).sp.toNat) :
    ((a.exec drawn).after c).memory.readWord p = v := by
  cases a with
  | call test target =>
    by_cases ht : test.holds c
    · exact Exec.readWord_callTo hc (if_pos ht) hv hp hd
    · -- A call that is not taken pushes nothing.
      rw [Exec.after_eq_of_ok (if_neg ht)] at hd
      omega
  | push source => exact Exec.readWord_push rfl hv hp hd
  | pushAll => exact Exec.readWord_attemptAll_pushReg _ hv hp hd
  | pushFlags => exact Exec.readWord_push rfl hv hp hd
  | _ => cases hv

end Action

namespace State

variable {G : Type} {m : State G}

/-- The word at the program counter puts words on the stack. -/
def AtPush (m : State G) : Prop :=
  ∃ op ∈ [Opcode.push, .pushAll, .pushF, .call, .cx, .callReg], m.word.kind = some op

/-- The word at the program counter stores to the byte at `x`. -/
def StoresTo (m : State G) (x : UInt16) : Prop :=
  ∃ a ≤ stackStart, (a = x ∨ a + 1 = x) ∧
    (m.word.kind = some .stm ∧ m.word.immediate = a ∨
      m.word.kind = some .stmReg ∧ m.cpu.reg m.word.second = a)

theorem AtPush.of_isPush (h : m.word.action.isPush = true) : m.AtPush := by
  unfold Word.action at h
  cases hk : m.word.kind with
  | none =>
    rw [hk] at h
    cases h
  | some op =>
    rw [hk] at h
    refine ⟨op, ?_, hk⟩
    cases op <;> first | decide | cases h

theorem StoresTo.of_action {source : Reg} {address : Operand} {x : UInt16}
    (h : m.word.action = .store source address)
    (ha : address.value m.cpu.fetch.2 ≤ stackStart)
    (hx : address.value m.cpu.fetch.2 = x ∨ address.value m.cpu.fetch.2 + 1 = x) :
    m.StoresTo x := by
  refine ⟨_, ha, hx, ?_⟩
  unfold Word.action at h
  cases hk : m.word.kind with
  | none =>
    rw [hk] at h
    cases h
  | some op =>
    rw [hk] at h
    cases op <;> cases h
    · exact .inl ⟨rfl, rfl⟩
    · exact .inr ⟨rfl, rfl⟩

theorem storesTo_iff_of_stm (hk : m.word.kind = some .stm) {x : UInt16} :
    m.StoresTo x ↔
      m.word.immediate ≤ stackStart ∧ (m.word.immediate = x ∨ m.word.immediate + 1 = x) := by
  simp [StoresTo, hk]

theorem StoresTo.le {x : UInt16} (h : m.StoresTo x) : x ≤ stackStart + 1 := by
  obtain ⟨a, ha, hx, -⟩ := h
  grind

variable [Generator G]

/-- A step that changes a byte pushes from below it on, or stores to it. -/
theorem of_read_step_ne {x : UInt16} (h : m.step.2.cpu.memory.read x ≠ m.cpu.memory.read x) :
    m.AtPush ∧ m.cpu.sp ≤ x ∨ m.StoresTo x := by
  rcases (m.effect_stepWith m.word).of_read_ne h with ⟨hp, hsp, -⟩ | ⟨_, _, ha, hle, hx⟩
  · exact .inl ⟨.of_isPush hp, hsp⟩
  · exact .inr (.of_action ha hle hx)

/-- A byte stays as it is over a run that neither pushes from below it on nor stores
to it. -/
theorem read_advance {n : Nat} {x : UInt16}
    (hp : ∀ i < n, (m.advance i).AtPush → x < (m.advance i).cpu.sp)
    (hs : ∀ i < n, ¬ (m.advance i).StoresTo x) :
    (m.advance n).cpu.memory.read x = m.cpu.memory.read x := by
  induction n generalizing m with
  | zero => rfl
  | succ n ih =>
    have hstep : m.step.2.cpu.memory.read x = m.cpu.memory.read x := by
      refine Decidable.byContradiction fun hne => ?_
      rcases of_read_step_ne hne with ⟨hpush, hle⟩ | hstore
      · exact UInt16.not_lt.2 hle (hp 0 (by omega) hpush)
      · exact hs 0 (by omega) hstore
    rw [advance, ih (fun i hi => hp (i + 1) (by omega)) (fun i hi => hs (i + 1) (by omega)), hstep]

/-! ## Words on the stack -/

/-- The step puts the word `v` on the stack at `p`: it is one of the words to push, in
its place, and the stack pointer goes past it. -/
def Pushes (m : State G) (v p : UInt16) : Prop :=
  ∃ n, (m.word.action.pushedWords m.cpu.fetch.2)[n]? = some v ∧
    p.toNat = m.cpu.sp.toNat + 2 * n ∧ p.toNat + 2 ≤ m.step.2.cpu.sp.toNat

/-- The step leaves the word on the stack at `p` alone: if it pushes, it does so above
the word, and it does not store to the word, which only happens at the bottom of the
stack. -/
def Spares (m : State G) (p : UInt16) : Prop :=
  (m.AtPush → p.toNat + 2 ≤ m.cpu.sp.toNat) ∧
    (p ≤ stackStart + 1 → ¬ m.StoresTo p ∧ ¬ m.StoresTo (p + 1))

/-- Whichever step brings the stack pointer back to `p` gets the word `v`. -/
structure Returns (m : State G) (v p : UInt16) : Prop where
  pop : m.word.kind = some .pop → m.cpu.sp = p + 2 →
    m.step.1 = .empty ∧
      m.step.2.cpu = Cpu.setReg { m.cpu with pc := m.cpu.pc + 4, sp := p } m.word.first v
  popFlags : m.word.kind = some .popF → m.cpu.sp = p + 2 →
    m.step.1 = .empty ∧
      m.step.2.cpu = { m.cpu with flags := ⟨v &&& 0xFF⟩, pc := m.cpu.pc + 4, sp := p }
  /-- A return goes to `v`, if it is a legal address. -/
  ret : m.word.kind = some .ret → m.cpu.sp = p + 2 →
    (v ≤ stackStart → m.step.1 = .empty ∧ m.step.2.cpu = { m.cpu with pc := v, sp := p }) ∧
    (stackStart < v → m.step.1 = .single .memoryError ∧
      m.step.2.cpu = { m.cpu with pc := m.cpu.pc + 4, sp := p })
  /-- Popping all registers, the last one first, each gets its word. -/
  popAll : ∀ r : Reg, m.word.kind = some .popAll →
    m.cpu.sp.toNat = p.toNat + 2 * (16 - r.val) → m.step.2.cpu.reg r = v

theorem Pushes.bounds {v p : UInt16} (hb : m.cpu.Bounded) (h : m.Pushes v p) :
    stackStart ≤ p ∧ p.toNat + 2 ≤ stackEnd.toNat := by
  obtain ⟨n, -, hp, hle⟩ := h
  have hlo := hb.1
  have hhi := (bounded_stepWith hb m.word).2
  rw [UInt16.le_iff_toNat_le] at hlo hhi ⊢
  exact ⟨by omega, Nat.le_trans hle hhi⟩

theorem Pushes.readWord {v p : UInt16} (hb : m.cpu.Bounded) (h : m.Pushes v p) :
    m.step.2.cpu.memory.readWord p = v := by
  obtain ⟨n, hv, hp, hle⟩ := h
  rw [step_eq_stepWith, cpu_stepWith] at hle ⊢
  exact Action.readWord_of_pushedWords (c := m.cpu.fetch.2) hb hv hp hle

/-- A word on the stack stays as it is over a run of which every step spares it. -/
theorem readWord_advance {n : Nat} {p : UInt16} (hhi : p.toNat + 2 ≤ stackEnd.toNat)
    (h : ∀ i < n, (m.advance i).Spares p) :
    (m.advance n).cpu.memory.readWord p = m.cpu.memory.readWord p := by
  have hle {x : UInt16} (hx : x ≤ p + 1) (i : Nat) (hi : i < n) (ha : (m.advance i).AtPush) :
      x < (m.advance i).cpu.sp := by
    have hsp := (h i hi).1 ha
    simp only [UInt16.le_iff_toNat_le, UInt16.lt_iff_toNat_lt, UInt16.toNat_add,
      UInt16.reduceToNat] at hx ⊢
    omega
  have hp : p ≤ p + 1 ∧ (p + 1 ≤ stackStart + 1 → p ≤ stackStart + 1) := by
    simp only [stackEnd, UInt16.reduceToNat] at hhi
    simp only [stackStart, UInt16.le_iff_toNat_le, UInt16.toNat_add, UInt16.reduceToNat]
    omega
  -- Both bytes stay, and a store that reached either would be at the bottom of the stack.
  rw [Memory.readWord, Memory.readWord, read_advance (hle hp.1),
    read_advance (hle (UInt16.le_refl _))]
  · exact fun i hi hs => ((h i hi).2 (hp.2 hs.le)).2 hs
  · exact fun i hi hs => ((h i hi).2 hs.le).1 hs

/-- A word that lies on the stack is returned. -/
theorem returns_of_readWord {v p : UInt16} (hlo : stackStart ≤ p)
    (hhi : p.toNat + 2 ≤ stackEnd.toNat) (hv : m.cpu.memory.readWord p = v) :
    m.Returns v p where
  pop hk hsp := by
    obtain ⟨hw, ht, hpop⟩ := Cpu.hasWord_of_sp_eq (c := m.cpu.fetch.2) hlo hhi hsp
    refine m.stepWith_of_ok m.word ?_
    simp only [Word.action, hk]
    refine (Exec.popReg_of_hasWord hw _).trans ?_
    rw [ht, hpop, ← hv]
    rfl
  popFlags hk hsp := by
    obtain ⟨hw, ht, hpop⟩ := Cpu.hasWord_of_sp_eq (c := m.cpu.fetch.2) hlo hhi hsp
    refine m.stepWith_of_ok m.word ?_
    simp only [Word.action, hk, Opcode.action, Action.exec]
    rw [Exec.bind_apply, Exec.pop_of_hasWord hw, ht, hpop, ← hv]
    rfl
  ret hk hsp := by
    obtain ⟨hw, ht, hpop⟩ := Cpu.hasWord_of_sp_eq hlo hhi hsp
    have h := step_of_ret hk hw
    rwa [ht, hpop, hv] at h
  popAll r hk hsp := by
    -- The registers after `r` are popped before it.
    have hr : ∀ r : Reg, (List.finRange registerCount).reverse[15 - r.val]? = some r := by
      decide
    rw [step_eq_stepWith, cpu_stepWith, Word.action, hk]
    refine (Exec.reg_attemptAll_popReg (by decide) (hr r) hlo ?_).trans hv
    have hlt := r.isLt
    simp only [registerCount] at hlt
    change m.cpu.sp.toNat = _
    omega

/-! ## Integrity -/

/-- Which instructions of a run change which bytes, and that words on the stack are
returned. -/
structure StackIntegrity (m : State G) : Prop where
  /-- Bytes of the stack region are changed by pushes, and the first two of them by
  stores at the end of the data as well. -/
  stack : ∀ n x, stackStart ≤ x → x < stackEnd →
    (m.advance n).step.2.cpu.memory.read x ≠ (m.advance n).cpu.memory.read x →
    (m.advance n).AtPush ∨ x ≤ stackStart + 1 ∧ (m.advance n).StoresTo x
  /-- Bytes below it are changed by stores. -/
  data : ∀ n x, x < stackStart →
    (m.advance n).step.2.cpu.memory.read x ≠ (m.advance n).cpu.memory.read x →
    (m.advance n).StoresTo x
  /-- A word that is pushed is returned after any number of steps that spare it. -/
  returned : ∀ v p n, m.Pushes v p → (∀ i < n, (m.step.2.advance i).Spares p) →
    (m.step.2.advance n).Returns v p

/-- **The stack keeps its words**, but for stores that reach its first two bytes. -/
theorem stackIntegrity_of_reachable (h : m.Reachable) : m.StackIntegrity where
  stack n x _ _ hne := by
    rcases of_read_step_ne hne with ⟨hp, -⟩ | hs
    · exact .inl hp
    · exact .inr ⟨hs.le, hs⟩
  data n x hx hne := by
    rcases of_read_step_ne hne with ⟨-, hle⟩ | hs
    · -- Nothing is pushed below the stack pointer, which lies in the stack region.
      have hlo := (h.advance n).bounded.1
      exact absurd (UInt16.le_trans hlo hle) (UInt16.not_le.2 hx)
    · exact hs
  returned v p n hp hs := by
    obtain ⟨hlo, hhi⟩ := hp.bounds h.bounded
    refine returns_of_readWord hlo hhi ?_
    rw [readWord_advance hhi hs, hp.readWord h.bounded]

/-! ## A store between a push and a pop -/

theorem cpu_step_of_push {r : Reg} (h : m.word.action = .push r) (hr : m.cpu.HasRoom) :
    m.step.2.cpu = { m.cpu.pushed (m.cpu.reg r) with pc := m.cpu.pc + 4 } := by
  refine (m.stepWith_of_ok m.word ?_).2
  rw [h]
  exact Exec.push_of_hasRoom (c := m.cpu.fetch.2) hr _

theorem cpu_step_of_store {r : Reg} {a : UInt16} (h : m.word.action = .store r (.immediate a))
    (ha : a ≤ stackStart) :
    m.step.2.cpu = { m.cpu with
      pc := m.cpu.pc + 4, memory := m.cpu.memory.writeWord a (m.cpu.reg r) } := by
  refine (m.stepWith_of_ok m.word ?_).2
  rw [h]
  exact if_pos ha

/-- A machine about to push the register `r`, to store `R1`, which holds `0xBEEF`, at the
address `a`, and to pop into `R2`. -/
def pushStorePop (r : UInt8) (a : UInt16) : State :=
  (((State.fresh 0).load (Program.ofWords
    [{ opcode := 0xC0, registers := r },
      { opcode := 0x30, registers := 0x01, low := lowByte a, high := highByte a },
      { opcode := 0xC1, registers := 0x02 }])).2.onCpu (Operation.setRegister 1 0xBEEF).exec).2

theorem reachable_pushStorePop (r : UInt8) (a : UInt16) : (pushStorePop r a).Reachable :=
  .operate trivial (.load _ (.start _))

theorem cpu_pushStorePop (r : UInt8) (a : UInt16) :
    (pushStorePop r a).cpu = { Cpu.fresh.setReg 1 0xBEEF with
      memory := Memory.zero.writeBytes 0
        [0xC0, r, 0x00, 0x00, 0x30, 0x01, lowByte a, highByte a, 0xC1, 0x02, 0x00, 0x00] } := by
  have hl : (Program.ofWords
      [{ opcode := 0xC0, registers := r },
        { opcode := 0x30, registers := 0x01, low := lowByte a, high := highByte a },
        { opcode := 0xC1, registers := 0x02 }]).image.length = 12 := rfl
  rw [pushStorePop, cpu_onCpu, cpu_load _ (List.ne_nil_of_length_pos (by rw [hl]; decide))
    (by rw [hl]; decide)]
  rfl

/-- The first two steps of the machine, as long as the store leaves the program alone. -/
theorem pushStorePop_steps (r : UInt8) {a : UInt16} (hlo : 12 ≤ a) (hhi : a ≤ stackStart) :
    let m := pushStorePop r a
    m.word = { opcode := 0xC0, registers := r } ∧
      m.step.2.cpu = { m.cpu.pushed (m.cpu.reg (nibble r)) with pc := 4 } ∧
      m.step.2.word =
        { opcode := 0x30, registers := 0x01, low := lowByte a, high := highByte a } ∧
      m.step.2.step.2.cpu = { m.step.2.cpu with
        pc := 8, memory := m.step.2.cpu.memory.writeWord a 0xBEEF } ∧
      m.step.2.step.2.word = { opcode := 0xC1, registers := 0x02 } := by
  have hm := cpu_pushStorePop r a
  generalize pushStorePop r a = m at hm ⊢
  have h₀ : m.word = { opcode := 0xC0, registers := r } := by
    simp [word, hm, Cpu.fetch, Cpu.fresh, Cpu.setReg, Memory.writeBytes, Memory.read_write]
  have hr : m.cpu.HasRoom := by
    rw [Cpu.HasRoom, show m.cpu.sp = stackStart by rw [hm]; rfl]
    decide
  have h₁ : m.step.2.cpu = { m.cpu.pushed (m.cpu.reg (nibble r)) with pc := 4 } := by
    rw [cpu_step_of_push (r := nibble r) (by rw [h₀]; rfl) hr, hm]
    rfl
  have h₂ : m.step.2.word =
      { opcode := 0x30, registers := 0x01, low := lowByte a, high := highByte a } := by
    simp [word, h₁, hm, Cpu.fetch, Cpu.fresh, Cpu.setReg, Cpu.pushed, Memory.writeBytes,
      Memory.read_write, Memory.read_writeWord, stackStart]
  have hact : m.step.2.word.action = .store 1 (.immediate a) := by
    have h : m.step.2.word.action =
        .store 1 (.immediate (joinBytes (lowByte a) (highByte a))) := by
      rw [h₂]
      rfl
    rwa [joinBytes_lowByte_highByte] at h
  have h₃ : m.step.2.step.2.cpu = { m.step.2.cpu with
      pc := 8, memory := m.step.2.cpu.memory.writeWord a 0xBEEF } := by
    rw [cpu_step_of_store hact hhi, show m.step.2.cpu.reg 1 = 0xBEEF by rw [h₁, hm]; rfl,
      show m.step.2.cpu.pc = 4 by rw [h₁]]
    rfl
  have hread (M : Memory) (v : UInt16) {x : UInt16} (hx : x < 12) :
      (M.writeWord a v).read x = M.read x := by
    rw [Memory.read_writeWord, if_neg, if_neg] <;> grind
  refine ⟨h₀, h₁, h₂, h₃, ?_⟩
  simp [word, h₃, hread, h₁, hm, Cpu.fetch, Cpu.fresh, Cpu.setReg, Cpu.pushed, Memory.writeBytes,
    Memory.read_write, Memory.read_writeWord, stackStart]

theorem sp_step_pushStorePop (r : UInt8) {a : UInt16} (hlo : 12 ≤ a) (hhi : a ≤ stackStart) :
    (pushStorePop r a).step.2.cpu.sp = stackStart + 2 := by
  rw [(pushStorePop_steps r hlo hhi).2.1, cpu_pushStorePop]
  rfl

theorem pushes_pushStorePop (r : UInt8) {a : UInt16} (hlo : 12 ≤ a) (hhi : a ≤ stackStart) :
    (pushStorePop r a).Pushes ((pushStorePop r a).cpu.reg (nibble r)) stackStart := by
  refine ⟨0, ?_, ?_, ?_⟩
  · rw [(pushStorePop_steps r hlo hhi).1]
    rfl
  · rw [cpu_pushStorePop]
    rfl
  · rw [sp_step_pushStorePop r hlo hhi]
    decide

/-- The store is to a place below the stack, and the pop returns what was pushed. -/
theorem stackIntegrity_of_reachable_store :
    let m := pushStorePop 1 0x0100
    m.StackIntegrity ∧ m.Pushes 0xBEEF stackStart ∧ m.step.2.StoresTo 0x0100 ∧
      m.step.2.Spares stackStart ∧ m.step.2.step.2.word.kind = some .pop ∧
      m.step.2.step.2.step.2.cpu.reg 2 = 0xBEEF := by
  have h := stackIntegrity_of_reachable (reachable_pushStorePop 1 0x0100)
  have hp : (pushStorePop 1 0x0100).Pushes 0xBEEF stackStart := by
    have hp := pushes_pushStorePop 1 (a := 0x0100) (by decide) (by decide)
    rwa [cpu_pushStorePop] at hp
  have hsp := sp_step_pushStorePop 1 (a := 0x0100) (by decide) (by decide)
  obtain ⟨-, -, h₂, h₃, h₄⟩ := pushStorePop_steps 1 (a := 0x0100) (by decide) (by decide)
  generalize pushStorePop 1 0x0100 = m at *
  have hk : m.step.2.word.kind = some .stm := by
    rw [h₂]
    rfl
  have hi : m.step.2.word.immediate = 0x0100 := by
    rw [h₂]
    rfl
  have hspare : m.step.2.Spares stackStart := by
    rw [Spares, AtPush, storesTo_iff_of_stm hk, storesTo_iff_of_stm hk, hk, hi, hsp]
    decide
  have hk₂ : m.step.2.step.2.word.kind = some .pop := by
    rw [h₄]
    rfl
  have hret : m.step.2.step.2.Returns 0xBEEF stackStart :=
    h.returned 0xBEEF stackStart 1 hp fun i hi => by
      obtain rfl : i = 0 := by omega
      exact hspare
  refine ⟨h, hp, ⟨0x0100, by decide, .inl rfl, .inl ⟨hk, hi⟩⟩, hspare, hk₂, ?_⟩
  rw [(hret.pop hk₂ (by rw [h₃]; exact hsp)).2, h₄, Cpu.reg_setReg]
  rfl

/-- The store is to the bottom of the stack, where the pushed word lies, and the pop
returns what was stored. -/
theorem exists_overwritten :
    ∃ m : State, m.Reachable ∧ m.Pushes 0 stackStart ∧ m.step.2.word.kind = some .stm ∧
      m.step.2.step.2.cpu.memory.read stackStart ≠ m.step.2.cpu.memory.read stackStart ∧
      m.step.2.step.2.word.kind = some .pop ∧ m.step.2.step.2.cpu.sp = stackStart + 2 ∧
      m.step.2.step.2.step.2.cpu.reg 2 = 0xBEEF := by
  have hreg : (pushStorePop 0 stackStart).cpu.reg (nibble 0) = 0 := by
    rw [cpu_pushStorePop]
    rfl
  have hsp₀ : (pushStorePop 0 stackStart).cpu.sp = stackStart := by
    rw [cpu_pushStorePop]
    rfl
  have hp := pushes_pushStorePop 0 (a := stackStart) (by decide) (by decide)
  have hsp := sp_step_pushStorePop 0 (a := stackStart) (by decide) (by decide)
  obtain ⟨-, h₁, h₂, h₃, h₄⟩ := pushStorePop_steps 0 (a := stackStart) (by decide) (by decide)
  have hm := reachable_pushStorePop 0 stackStart
  generalize pushStorePop 0 stackStart = m at *
  rw [hreg] at hp h₁
  have hk₁ : m.step.2.word.kind = some .stm := by
    rw [h₂]
    rfl
  have hk₂ : m.step.2.step.2.word.kind = some .pop := by
    rw [h₄]
    rfl
  have hsp₂ : m.step.2.step.2.cpu.sp = stackStart + 2 := by
    rw [h₃]
    exact hsp
  have hnew : m.step.2.step.2.cpu.memory.readWord stackStart = 0xBEEF := by
    rw [h₃]
    exact Memory.readWord_writeWord_self _ _ _
  have hret : m.step.2.step.2.Returns 0xBEEF stackStart :=
    returns_of_readWord (by decide) (by decide) hnew
  refine ⟨m, hm, hp, hk₁, ?_, hk₂, hsp₂, ?_⟩
  · rw [h₃]
    simp [h₁, Cpu.pushed, hsp₀, Memory.read_writeWord, stackStart, lowByte]
  · rw [(hret.pop hk₂ hsp₂).2, h₄, Cpu.reg_setReg]
    rfl

end State

end Compiler16.Machine
