import Compiler16.Proofs.Machine.Reachable

/-!
# Runs

A run with a limit is a number of single steps: as many as the limit allows, or up to
the first that faults, if faults end the run.  What it reports and what it leaves in the
machine can be read off these steps.  So two runs one after the other, of which the
first uses up its limit, are one run with the sum of the limits.

A run without a limit that ends on faults ends with the first of them, and without one
it does not end.

## Main definitions

* `State.report`, `State.faults`: the faults of one step, and of the first steps.
* `State.FirstFault`: the step that faults first.
* `State.EndsAfter`: how many steps a run takes.

## Main results

* `State.runFrom_eq_runFrom_advance`: steps that do not end a run can be taken one by one.
* `State.run_of_endsAfter`: the outcome of a run with a limit.
* `State.EndsAfter.add`: a run that uses up its limit can be gone on with.
* `State.run_refines_steps`: runs in terms of steps.
-/

namespace Compiler16.Machine

namespace State

variable {G : Type} [Generator G] {m m' : State G} {l : Limits} {stop : Bool} {n n' k k' : Nat}

/-! ## The faults of steps -/

/-- The faults that the step after the first `i` ones reports. -/
def report (m : State G) (i : Nat) : FaultSet := (m.advance i).step.1

/-- The faults of the first `n` steps. -/
def faults (m : State G) : Nat → FaultSet
  | 0 => .empty
  | n + 1 => (m.faults n).union (m.report n)

theorem advance_add (m : State G) (n k : Nat) : m.advance (n + k) = (m.advance n).advance k := by
  induction n generalizing m with
  | zero => rw [Nat.zero_add, advance]
  | succ n ih => rw [Nat.succ_add, advance, ih, advance]

theorem report_add (m : State G) (n k : Nat) : m.report (n + k) = (m.advance n).report k := by
  rw [report, advance_add, report]

theorem faults_add (m : State G) (n k : Nat) :
    m.faults (n + k) = (m.faults n).union ((m.advance n).faults k) := by
  induction k with
  | zero => exact (FaultSet.union_empty _).symm
  | succ k ih => rw [← Nat.add_assoc, faults, faults, ih, report_add, FaultSet.union_assoc]

theorem faults_succ (m : State G) (n : Nat) :
    m.faults (n + 1) = m.step.1.union (m.step.2.faults n) := by
  rw [Nat.add_comm, faults_add, faults, faults, FaultSet.empty_union]
  rfl

theorem status_step (m : State G) : m.step.2.status = m.status.union m.step.1 := by
  rw [step_eq_stepWith]
  simp only [stepWith, execute]
  split
  · exact (FaultSet.union_empty _).symm
  · rfl

/-- The machine keeps the faults of all its steps. -/
theorem status_advance (m : State G) (n : Nat) :
    (m.advance n).status = m.status.union (m.faults n) := by
  induction n generalizing m with
  | zero => exact (FaultSet.union_empty _).symm
  | succ n ih => rw [advance, ih, status_step, faults_succ, FaultSet.union_assoc]

/-! ## How long a run is -/

/-- The `k`-th step faults. -/
def FaultsIn (m : State G) (k : Nat) : Prop := 0 < k ∧ m.report (k - 1) ≠ .empty

/-- The `k`-th step is the first that faults. -/
def FirstFault (m : State G) (k : Nat) : Prop := m.FaultsIn k ∧ ∀ j < k, ¬ m.FaultsIn j

/-- A run of at most `n` steps ends after `k` of them: with the first that faults, if
faults end it and there is one, and else with the last. -/
def EndsAfter (m : State G) (stop : Bool) (n k : Nat) : Prop :=
  stop = true ∧ k ≤ n ∧ m.FirstFault k ∨
    k = n ∧ (stop = true → ∀ j ≤ n, ¬ m.FirstFault j)

theorem faultsIn_succ {i : Nat} : m.FaultsIn (i + 1) ↔ m.report i ≠ .empty := by
  simp [FaultsIn]

theorem faultsIn_add (hk : 0 < k) : m.FaultsIn (n + k) ↔ (m.advance n).FaultsIn k := by
  obtain ⟨k, rfl⟩ := Nat.exists_eq_add_one.2 hk
  rw [← Nat.add_assoc, faultsIn_succ, faultsIn_succ, report_add]

/-- Where a step faults, one faults first. -/
theorem FaultsIn.exists_firstFault (h : m.FaultsIn k) : ∃ j ≤ k, m.FirstFault j := by
  induction k using Nat.strongRecOn with
  | ind k ih =>
    by_cases hj : ∃ j < k, m.FaultsIn j
    · obtain ⟨j, hlt, hf⟩ := hj
      obtain ⟨i, hi, hfirst⟩ := ih j hlt hf
      exact ⟨i, Nat.le_trans hi (Nat.le_of_lt hlt), hfirst⟩
    · exact ⟨k, Nat.le_refl k, h, fun j hlt hf => hj ⟨j, hlt, hf⟩⟩

theorem forall_not_firstFault_iff :
    (∀ j ≤ n, ¬ m.FirstFault j) ↔ ∀ j ≤ n, ¬ m.FaultsIn j := by
  refine ⟨fun h j hj hf => ?_, fun h j hj hf => h j hj hf.1⟩
  obtain ⟨i, hi, hfirst⟩ := hf.exists_firstFault
  exact h i (Nat.le_trans hi hj) hfirst

theorem exists_endsAfter (m : State G) (stop : Bool) (n : Nat) : ∃ k, m.EndsAfter stop n k := by
  by_cases h : stop = true ∧ ∃ k ≤ n, m.FirstFault k
  · obtain ⟨hs, k, hk, hf⟩ := h
    exact ⟨k, .inl ⟨hs, hk, hf⟩⟩
  · exact ⟨n, .inr ⟨rfl, fun hs j hj hf => h ⟨hs, j, hj, hf⟩⟩⟩

namespace EndsAfter

theorem pos (h : m.EndsAfter stop n k) (hn : 0 < n) : 0 < k := by
  rcases h with ⟨-, -, hf⟩ | ⟨rfl, -⟩
  · exact hf.1.1
  · exact hn

theorem not_faultsIn_of_lt (h : m.EndsAfter stop n k) (hs : stop = true) {j : Nat} (hj : j < k) :
    ¬ m.FaultsIn j := by
  rcases h with ⟨-, -, hf⟩ | ⟨rfl, hno⟩
  · exact hf.2 j hj
  · exact forall_not_firstFault_iff.1 (hno hs) j (Nat.le_of_lt hj)

/-- A run that uses up its limit without a fault that ends it can be gone on with. -/
theorem add (h : stop = true → ∀ j ≤ n, ¬ m.FaultsIn j)
    (h' : (m.advance n).EndsAfter stop n' k) : m.EndsAfter stop (n + n') (n + k) := by
  -- A step of the whole run is one of the first `n`, or one of the second run.
  have hsplit (hs : stop = true) {j : Nat} (hf : m.FaultsIn j) :
      ∃ i, j = n + i ∧ (m.advance n).FaultsIn i := by
    have hj : n < j := Nat.lt_of_not_le fun hj => h hs j hj hf
    refine ⟨j - n, by omega, ?_⟩
    rwa [← faultsIn_add (by omega), Nat.add_sub_cancel' (Nat.le_of_lt hj)]
  rcases h' with ⟨hs, hk, hf⟩ | ⟨rfl, hno⟩
  · refine .inl ⟨hs, Nat.add_le_add_left hk n, (faultsIn_add hf.1.1).2 hf.1, fun j hj hfj => ?_⟩
    obtain ⟨i, rfl, hi⟩ := hsplit hs hfj
    exact hf.2 i (by omega) hi
  · refine .inr ⟨rfl, fun hs => forall_not_firstFault_iff.2 fun j hj hfj => ?_⟩
    obtain ⟨i, rfl, hi⟩ := hsplit hs hfj
    exact forall_not_firstFault_iff.1 (hno hs) i (by omega) hi

end EndsAfter

/-! ## Runs and steps -/

/-- A step that neither the limit forbids nor a fault ends the run with. -/
theorem runFrom_eq_runFrom_step {e : Nat} {status : FaultSet} (hl : l.isExhausted e = false)
    (hf : l.stopOnFault = true → m.step.1 = .empty) :
    runFrom l e status m = runFrom l (e + 1) (status.union m.step.1) m.step.2 := by
  rw [runFrom, if_neg (by simp [hl])]
  dsimp only
  rw [if_neg]
  intro h
  simp only [Bool.and_eq_true, Bool.not_eq_true', ← Bool.not_eq_true, FaultSet.isEmpty_iff] at h
  exact h.2 (hf h.1)

/-- Such steps can be taken one by one. -/
theorem runFrom_eq_runFrom_advance {e : Nat} {status : FaultSet} (k : Nat)
    (hl : ∀ i < k, l.isExhausted (e + i) = false)
    (hf : l.stopOnFault = true → ∀ i < k, m.report i = .empty) :
    runFrom l e status m = runFrom l (e + k) (status.union (m.faults k)) (m.advance k) := by
  induction k generalizing e status m with
  | zero => rw [faults, FaultSet.union_empty, advance, Nat.add_zero]
  | succ k ih =>
    have hfirst : l.stopOnFault = true → m.step.1 = .empty := fun hs => hf hs 0 (by omega)
    have hrest : ∀ i < k, l.isExhausted (e + 1 + i) = false := fun i hi => by
      rw [Nat.add_assoc, Nat.add_comm 1]
      exact hl (i + 1) (by omega)
    rw [runFrom_eq_runFrom_step (e := e) (hl 0 (by omega)) hfirst,
      ih hrest fun hs i hi => hf hs (i + 1) (by omega), faults_succ, FaultSet.union_assoc,
      advance, Nat.add_assoc, Nat.add_comm 1]

theorem report_eq_empty_of_not_faultsIn (h : ∀ j < k, ¬ m.FaultsIn j) {i : Nat} (hi : i + 1 < k) :
    m.report i = .empty :=
  Decidable.byContradiction fun hne => h (i + 1) hi (faultsIn_succ.2 hne)

/-- A run that is allowed to go on to the first fault ends there. -/
theorem run_of_firstFault (hs : l.stopOnFault = true) (hl : ∀ i < k, l.isExhausted i = false)
    (hf : m.FirstFault k) :
    m.run l = some (⟨k, m.faults k, .fault⟩, m.advance k) := by
  obtain ⟨i, rfl⟩ := Nat.exists_eq_add_one.2 hf.1.1
  have hne : m.report i ≠ .empty := faultsIn_succ.1 hf.1
  rw [run, runFrom_eq_runFrom_advance i, Nat.zero_add, FaultSet.empty_union, runFrom,
    if_neg (by simp [hl i (Nat.lt_succ_self i)])]
  · dsimp only
    rw [if_pos]
    · rw [advance_add]
      rfl
    · simp only [hs, Bool.true_and, Bool.not_eq_true', ← Bool.not_eq_true, FaultSet.isEmpty_iff]
      exact hne
  · intro j hj
    rw [Nat.zero_add]
    exact hl j (by omega)
  · exact fun _ j hj => report_eq_empty_of_not_faultsIn hf.2 (by omega)

/-- A run that no fault ends goes on to its limit. -/
theorem run_of_not_faultsIn (hn : 0 < n) (hf : stop = true → ∀ j ≤ n, ¬ m.FaultsIn j) :
    m.run ⟨n, stop⟩ = some (⟨n, m.faults n, .instructionLimit⟩, m.advance n) := by
  have hover : Limits.isExhausted ⟨n, stop⟩ n = true := by
    simp [Limits.isExhausted, Nat.ne_of_gt hn]
  rw [run, runFrom_eq_runFrom_advance n, Nat.zero_add, FaultSet.empty_union, runFrom,
    if_pos hover]
  · intro i hi
    rw [Nat.zero_add]
    simpa [Limits.isExhausted] using fun _ => hi
  · exact fun hs i hi => report_eq_empty_of_not_faultsIn
      (fun j hj => hf hs j (Nat.le_of_lt_succ hj)) (Nat.succ_lt_succ hi)

/-- **The outcome of a run with a limit**, from the number of its steps. -/
theorem run_of_endsAfter (hn : 0 < n) (h : m.EndsAfter stop n k) :
    ∃ r, m.run ⟨n, stop⟩ = some (⟨k, m.faults k, r⟩, m.advance k) ∧
      (r = .fault ↔ stop = true ∧ m.FaultsIn k) := by
  rcases h with ⟨hs, hk, hf⟩ | ⟨rfl, hno⟩
  · refine ⟨.fault, run_of_firstFault hs (fun i hi => ?_) hf, by simp [hs, hf.1]⟩
    simpa [Limits.isExhausted] using fun _ => Nat.lt_of_lt_of_le hi hk
  · have hno' : stop = true → ∀ j ≤ k, ¬ m.FaultsIn j :=
      fun hs => forall_not_firstFault_iff.1 (hno hs)
    refine ⟨.instructionLimit, run_of_not_faultsIn hn hno', ?_⟩
    simpa using fun hs => hno' hs k (Nat.le_refl k)

/-- Two runs one after the other are one run, if the first uses up its limit. -/
theorem run_add {s s' : Summary} {m₁ m₂ : State G} (hn : 0 < n) (hn' : 0 < n')
    (h : m.run ⟨n, stop⟩ = some (s, m₁)) (hr : s.reason = .instructionLimit)
    (h' : m₁.run ⟨n', stop⟩ = some (s', m₂)) :
    m.run ⟨n + n', stop⟩ =
      some (⟨s.executed + s'.executed, s.status.union s'.status, s'.reason⟩, m₂) := by
  obtain ⟨k, hk⟩ := m.exists_endsAfter stop n
  obtain ⟨r, hrun, hfault⟩ := run_of_endsAfter hn hk
  obtain ⟨rfl, rfl⟩ := Prod.mk.inj (Option.some.inj (hrun.symm.trans h))
  obtain rfl : r = .instructionLimit := hr
  -- The first run used up its limit, so no fault ended it.
  have hno : stop = true → ¬ m.FaultsIn k := by simpa using hfault
  obtain rfl : k = n := by
    rcases hk with ⟨hs, -, hf⟩ | ⟨rfl, -⟩
    · exact absurd hf.1 (hno hs)
    · rfl
  have hfirst : stop = true → ∀ j ≤ k, ¬ m.FaultsIn j := fun hs j hj =>
    (Nat.lt_or_eq_of_le hj).elim (hk.not_faultsIn_of_lt hs) fun heq => heq ▸ hno hs
  obtain ⟨k', hk'⟩ := (m.advance k).exists_endsAfter stop n'
  obtain ⟨r', hrun', hfault'⟩ := run_of_endsAfter hn' hk'
  obtain ⟨rfl, rfl⟩ := Prod.mk.inj (Option.some.inj (hrun'.symm.trans h'))
  obtain ⟨r, hsum, hfault⟩ := run_of_endsAfter (Nat.add_pos_left hn n') (hk'.add hfirst)
  -- Both name the same last step, so they end for the same reason.
  obtain rfl : r = r' := by
    have hiff : r = .fault ↔ r' = .fault := by
      rw [hfault, hfault', faultsIn_add (hk'.pos hn')]
    cases r <;> cases r' <;> simp_all
  rw [hsum, advance_add, faults_add]

/-- A run without a limit that no step ends does not end. -/
theorem run_unlimited_eq_none (h : ∀ k, ¬ m.FirstFault k) : m.run .unlimited = none := by
  cases hrun : m.run .unlimited with
  | none => rfl
  | some r =>
    rcases exists_advance_of_runFrom hrun with ⟨n, -, hl | ⟨-, i, -, hf⟩⟩
    · simp [Limits.isExhausted, Limits.unlimited] at hl
    · obtain ⟨j, -, hj⟩ := (faultsIn_succ (m := m).2 hf).exists_firstFault
      exact absurd hj (h j)

/-- Without a program the machine goes on for ever. -/
theorem not_faultsIn_fresh (k : Nat) : ¬ (State.fresh 0).FaultsIn k := by
  -- All of memory is zero, so every word is skipped.
  have hstep {m : State} (h : m.cpu.memory = Memory.zero) :
      m.step.1 = .empty ∧ m.step.2.cpu.memory = Memory.zero := by
    have hw : m.word = { opcode := 0 } := by simp [word, Cpu.fetch, h]
    obtain ⟨hok, hcpu⟩ := m.step_of_idle (by rw [hw]; rfl)
    exact ⟨hok, by rw [hcpu, h]⟩
  have hzero (n : Nat) : ((State.fresh 0).advance n).cpu.memory = Memory.zero := by
    induction n with
    | zero => rfl
    | succ n ih =>
      rw [advance_add]
      exact (hstep ih).2
  rintro ⟨-, hne⟩
  exact hne (hstep (hzero _)).1

/-- **Runs in terms of steps.**  With a limit a run takes the steps up to the first
fault that ends it or up to the limit, reports their number and their faults, and a
fault as the reason exactly if the last of them ended it; two runs, of which the first
uses up its limit, are one.  Without a limit a run takes the steps up to the first
fault, and does not end if there is none. -/
theorem run_refines_steps (m : State G) :
    (∀ n stop, 0 < n → ∃ k r, m.EndsAfter stop n k ∧
      m.run ⟨n, stop⟩ = some (⟨k, m.faults k, r⟩, m.advance k) ∧
      (r = .fault ↔ stop = true ∧ m.FaultsIn k) ∧
      (m.advance k).status = m.status.union (m.faults k)) ∧
    (∀ n n' stop s s' m₁ m₂, 0 < n → 0 < n' →
      m.run ⟨n, stop⟩ = some (s, m₁) → s.reason = .instructionLimit →
      m₁.run ⟨n', stop⟩ = some (s', m₂) →
      m.run ⟨n + n', stop⟩ =
        some (⟨s.executed + s'.executed, s.status.union s'.status, s'.reason⟩, m₂)) ∧
    (∀ k, m.FirstFault k →
      m.run ⟨0, true⟩ = some (⟨k, m.faults k, .fault⟩, m.advance k)) ∧
    ((∀ k, ¬ m.FirstFault k) → m.run ⟨0, true⟩ = none) := by
  refine ⟨fun n stop hn => ?_, fun n n' stop s s' m₁ m₂ hn hn' h hr h' => ?_, fun k hk => ?_,
    run_unlimited_eq_none⟩
  · obtain ⟨k, hk⟩ := m.exists_endsAfter stop n
    obtain ⟨r, hrun, hr⟩ := run_of_endsAfter hn hk
    exact ⟨k, r, hk, hrun, hr, m.status_advance k⟩
  · exact run_add hn hn' h hr h'
  · exact run_of_firstFault rfl (fun _ _ => rfl) hk

/-- The program does nothing in its first step and pops from the empty stack in the
second. -/
theorem run_refines_steps_pop :
    let m := ((State.fresh 0).load (Program.ofImage [0, 0, 0, 0, 0xC1, 0, 0, 0])).2
    m.FirstFault 2 ∧
      m.run ⟨1, true⟩ = some (⟨1, .empty, .instructionLimit⟩, m.advance 1) ∧
      (m.advance 1).run ⟨1, true⟩ = some (⟨1, .single .stackUnderflow, .fault⟩, m.advance 2) ∧
      m.run ⟨2, true⟩ = some (⟨2, .single .stackUnderflow, .fault⟩, m.advance 2) ∧
      m.run ⟨0, true⟩ = some (⟨2, .single .stackUnderflow, .fault⟩, m.advance 2) ∧
      (State.fresh 0).run ⟨0, true⟩ = none := by
  intro m
  have hm : m.cpu = { Cpu.fresh with
      memory := Memory.zero.writeBytes 0 [0, 0, 0, 0, 0xC1, 0, 0, 0] } :=
    cpu_load _ (by decide) (by decide)
  generalize m = m at hm
  have hw : m.word = { opcode := 0 } := by
    simp [word, hm, Cpu.fetch, Cpu.fresh, Memory.writeBytes, Memory.read_write]
  obtain ⟨hok, hcpu⟩ := m.step_of_idle (by rw [hw]; rfl)
  have hw' : m.step.2.word = { opcode := 0xC1 } := by
    simp [word, hcpu, hm, Cpu.fetch, Cpu.fresh, Memory.writeBytes, Memory.read_write]
  have hempty : ¬ m.step.2.cpu.fetch.2.HasWord := by
    rw [Cpu.HasWord, show m.step.2.cpu.fetch.2.sp = stackStart by rw [hcpu, hm]; rfl]
    decide
  have hfault : m.step.2.step.1 = .single .stackUnderflow := by
    have he : m.step.2.word.action.exec (m.step.2.drawn m.step.2.word) m.step.2.cpu.fetch.2 =
        .error .stackUnderflow m.step.2.cpu.fetch.2 := by
      rw [hw']
      exact Exec.popReg_of_not_hasWord hempty 0
    exact (m.step.2.stepWith_of_error m.step.2.word he).1
  have h₁ : ¬ m.FaultsIn 1 := fun hf => hf.2 hok
  have h₂ : m.FirstFault 2 := by
    refine ⟨⟨by decide, ?_⟩, fun j hj hf => ?_⟩
    · change m.step.2.step.1 ≠ _
      rw [hfault]
      decide
    · obtain rfl : j = 1 := by
        have := hf.1
        omega
      exact h₁ hf
  obtain ⟨hlimit, hsum, hfirst, -⟩ := run_refines_steps m
  have hrun₁ : m.run ⟨1, true⟩ = some (⟨1, .empty, .instructionLimit⟩, m.advance 1) := by
    obtain ⟨k, r, hk, hrun, hr, -⟩ := hlimit 1 true (by decide)
    obtain ⟨rfl, -⟩ : k = 1 ∧ _ := hk.resolve_left fun hk => h₂.2 k (by omega) hk.2.2.1
    obtain rfl : r = .instructionLimit := by
      cases r with
      | fault => exact absurd (hr.1 rfl).2 h₁
      | instructionLimit => rfl
    rw [hrun, faults, faults, report, advance, hok, FaultSet.union_empty]
  have hrun₂ : (m.advance 1).run ⟨1, true⟩ =
      some (⟨1, .single .stackUnderflow, .fault⟩, m.advance 2) := by
    have hnext : (m.advance 1).FirstFault 1 := by
      refine ⟨(faultsIn_add Nat.one_pos).1 h₂.1, fun j hj hf => ?_⟩
      have := hf.1
      omega
    rw [run_of_firstFault rfl (by decide) hnext]
    simp [faults, report, advance, hfault]
  refine ⟨h₂, hrun₁, hrun₂, hsum 1 1 true _ _ _ _ (by decide) (by decide) hrun₁ rfl hrun₂, ?_, ?_⟩
  · rw [hfirst 2 h₂]
    simp [faults, report, advance, hok, hfault]
  · exact (run_refines_steps (State.fresh 0)).2.2.2 fun k hk => not_faultsIn_fresh k hk.1

end State

end Compiler16.Machine
