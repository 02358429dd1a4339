import Compiler16.Proofs.Edits

/-!
# Following a value along a path

What a value denotes along a path of control is found by following it: a PHI is
replaced by its operand for the edge by which the path last entered the PHI's block,
and is followed on along the path up to that edge; the copy that is left of a removed
PHI is replaced by what it copies.  Every other value denotes itself.

In a sound state without waiting PHIs, following a value that stands for a variable leads
to the value that was last written to the variable on the path.  A PHI leads to a shorter
path.  The copy that is left of a removed PHI leads to a value that arrives where the
copy is, on every visit; if this is a PHI again, its block was visited before, and so
copies do not lead in circles before the written value is found.

The written value may itself be the copy that is left of a PHI, and then it can be followed
on; if not, it is what the value denotes.

## Main definitions

* `Path`, `blocksOf`: a path from the entry, edge by edge, last edge first, and its
  blocks
* `Resolves`, `Reduces`: following a value to the end, and part of the way
* `Ledger.lastWritten`: the value last written on a path

## Main results

* `Resolves.unique`: there is one value to be found
* `Reduces.resolves_iff`: part of the way does not change what is found
* `Finished.reduces_of_enters`: what stands for a variable leads to the value last written
-/

namespace Compiler16.Ssa

open Compiler16.Flow

/-! ## Paths by edges -/

/-- The block at the end of a path from the entry. -/
def endOf : List (Nat × Nat) → Nat
  | [] => 0
  | (b, _) :: _ => b

/-- The blocks of a path from the entry, last block first. -/
def blocksOf : List (Nat × Nat) → List Nat
  | [] => [0]
  | (b, _) :: π => b :: blocksOf π

/-- A path from the entry, last edge first.  An edge is known by the block that it enters
and its place among the edges that enter it. -/
inductive Path (B : Body) : List (Nat × Nat) → Prop where
  | nil : Path B []
  | cons {b k : Nat} {π : List (Nat × Nat)} : (B.preds b)[k]? = some (endOf π) → Path B π →
    Path B ((b, k) :: π)

section Paths

variable {B : Body} {P : Nat} {π : List (Nat × Nat)}

theorem blocksOf_append (σ π : List (Nat × Nat)) :
    blocksOf (σ ++ π) = σ.map Prod.fst ++ blocksOf π := by
  induction σ with
  | nil => rfl
  | cons e σ ih => exact congrArg (e.1 :: ·) ih

theorem blocksOf_eq_cons (π : List (Nat × Nat)) : ∃ β, blocksOf π = endOf π :: β := by
  cases π with
  | nil => exact ⟨[], rfl⟩
  | cons e π => exact ⟨blocksOf π, rfl⟩

theorem Path.trail {root : Nat → Prop} (h : Path B π) (hroot : root 0) :
    Trail root B.preds (blocksOf π) := by
  induction h with
  | nil => exact .start hroot
  | @cons b k π hk _ ih =>
    obtain ⟨β, hβ⟩ := blocksOf_eq_cons π
    rw [blocksOf, hβ]
    exact .step (List.mem_of_getElem? hk) (hβ ▸ ih)

/-- The last visit of a block other than the entry, by edges. -/
theorem Path.exists_last_edge (h : Path B π) (hP : P ≠ 0) {σ ρ : List Nat}
    (hsplit : blocksOf π = σ ++ P :: ρ) (hσ : P ∉ σ) : ∃ σ' k ρ', π = σ' ++ (P, k) :: ρ' ∧
      (∀ e ∈ σ', e.1 ≠ P) ∧ blocksOf ρ' = ρ ∧ (B.preds P)[k]? = some (endOf ρ') ∧ Path B ρ' := by
  induction h generalizing σ with
  | nil =>
    cases σ with
    | nil => exact absurd (List.cons.inj hsplit).1.symm hP
    | cons c σ => simp [blocksOf] at hsplit
  | @cons b k π hk h ih =>
    cases σ with
    | nil =>
      obtain ⟨rfl, rfl⟩ := List.cons.inj hsplit
      exact ⟨[], k, π, rfl, by simp, rfl, hk, h⟩
    | cons c σ =>
      obtain ⟨rfl, hrest⟩ := List.cons.inj hsplit
      rw [List.mem_cons, not_or] at hσ
      obtain ⟨σ', k', ρ', rfl, hσ', hρ'⟩ := ih hrest hσ.2
      refine ⟨(b, k) :: σ', k', ρ', rfl, fun e he => ?_, hρ'⟩
      rcases List.mem_cons.mp he with rfl | he
      · exact Ne.symm hσ.1
      · exact hσ' e he

end Paths

/-! ## Following a value -/

/-- Following a value along a path leads to another.  The instructions in `own` denote
themselves. -/
inductive Resolves (B : Body) (own : Nat → Prop) : List (Nat × Nat) → Value → Value → Prop where
  /-- No instruction of the body is followed but PHIs and what is left of them. -/
  | plain {π : List (Nat × Nat)} {v : Value} :
    (∀ p, v = .result p → own p ∨ B.inst? p = none) → Resolves B own π v v
  /-- A PHI leads to its operand for the edge by which its block was last entered. -/
  | phi {π σ ρ : List (Nat × Nat)} {p k : Nat} {i : Inst} {o w : Value} : ¬ own p →
    B.inst? p = some i → i.op = .phi → π = σ ++ (i.block, k) :: ρ →
    (∀ e ∈ σ, e.1 ≠ i.block) → i.operands[k]? = some o → Resolves B own ρ o w →
    Resolves B own π (.result p) w
  /-- The copy that is left of a PHI leads to what it copies. -/
  | copy {π : List (Nat × Nat)} {p : Nat} {i : Inst} {o w : Value} : ¬ own p →
    B.inst? p = some i → i.op = .mov → i.operands = [o] → Resolves B own π o w →
    Resolves B own π (.result p) w

theorem append_cons_inj_of_fst {P k k' : Nat} {σ σ' ρ ρ' : List (Nat × Nat)}
    (h : σ ++ (P, k) :: ρ = σ' ++ (P, k') :: ρ') (hσ : ∀ e ∈ σ, e.1 ≠ P)
    (hσ' : ∀ e ∈ σ', e.1 ≠ P) : k = k' ∧ ρ = ρ' := by
  induction σ generalizing σ' with
  | nil =>
    cases σ' with
    | nil =>
      cases h
      exact ⟨rfl, rfl⟩
    | cons e σ' =>
      cases h
      exact absurd rfl (hσ' _ (List.mem_cons_self ..))
  | cons e σ ih =>
    cases σ' with
    | nil =>
      cases h
      exact absurd rfl (hσ _ (List.mem_cons_self ..))
    | cons e' σ' =>
      exact ih (List.cons.inj h).2 (fun d hd => hσ d (List.mem_cons_of_mem _ hd))
        fun d hd => hσ' d (List.mem_cons_of_mem _ hd)

namespace Resolves

variable {B : Body} {own : Nat → Prop} {π : List (Nat × Nat)} {p : Nat} {i : Inst} {v w w' : Value}

/-- What is followed is no instruction of `own`, and lies in the body. -/
theorem not_plain (ho : ¬ own p) (hi : B.inst? p = some i) :
    ¬ ∀ q, Value.result p = .result q → own q ∨ B.inst? q = none := by
  intro h
  rcases h p rfl with h | h
  · exact ho h
  · rw [hi] at h
    cases h

/-- **There is one value to be found.** -/
theorem unique (h : Resolves B own π v w) (h' : Resolves B own π v w') : w = w' := by
  induction h generalizing w' with
  | plain hv =>
    cases h' with
    | plain _ => rfl
    | phi ho hi _ _ _ _ _ => exact absurd hv (not_plain ho hi)
    | copy ho hi _ _ _ => exact absurd hv (not_plain ho hi)
  | phi ho hi hop hπ hσ hk _ ih =>
    cases h' with
    | plain hv => exact absurd hv (not_plain ho hi)
    | phi _ hi' _ hπ' hσ' hk' hres =>
      obtain rfl := Option.some.inj (hi.symm.trans hi')
      obtain ⟨rfl, rfl⟩ := append_cons_inj_of_fst (hπ.symm.trans hπ') hσ hσ'
      obtain rfl := Option.some.inj (hk.symm.trans hk')
      exact ih hres
    | copy _ hi' hop' _ _ =>
      obtain rfl := Option.some.inj (hi.symm.trans hi')
      exact absurd (hop.symm.trans hop') (by decide)
  | copy ho hi hop ho' _ ih =>
    cases h' with
    | plain hv => exact absurd hv (not_plain ho hi)
    | phi _ hi' hop' _ _ _ _ =>
      obtain rfl := Option.some.inj (hi.symm.trans hi')
      exact absurd (hop.symm.trans hop') (by decide)
    | copy _ hi' _ ho'' hres =>
      obtain rfl := Option.some.inj (hi.symm.trans hi')
      obtain rfl := (List.cons.inj (ho'.symm.trans ho'')).1
      exact ih hres

end Resolves

/-- Following a value along a path leads to another value, which is to be followed along the
beginning of the path. -/
inductive Reduces (B : Body) (own : Nat → Prop) :
    List (Nat × Nat) → Value → List (Nat × Nat) → Value → Prop where
  | refl {π : List (Nat × Nat)} {v : Value} : Reduces B own π v π v
  | phi {π σ ρ τ : List (Nat × Nat)} {p k : Nat} {i : Inst} {o w : Value} : ¬ own p →
    B.inst? p = some i → i.op = .phi → π = σ ++ (i.block, k) :: ρ →
    (∀ e ∈ σ, e.1 ≠ i.block) → i.operands[k]? = some o → Reduces B own ρ o τ w →
    Reduces B own π (.result p) τ w
  | copy {π τ : List (Nat × Nat)} {p : Nat} {i : Inst} {o w : Value} : ¬ own p →
    B.inst? p = some i → i.op = .mov → i.operands = [o] → Reduces B own π o τ w →
    Reduces B own π (.result p) τ w

/-- **Both values denote the same.** -/
theorem Reduces.resolves_iff {B : Body} {own : Nat → Prop} {π ρ : List (Nat × Nat)}
    {v w r : Value} (h : Reduces B own π v ρ w) : Resolves B own π v r ↔ Resolves B own ρ w r := by
  induction h with
  | refl => rfl
  | phi ho hi hop hπ hσ hk _ ih =>
    rw [← ih]
    refine ⟨fun hres => ?_, .phi ho hi hop hπ hσ hk⟩
    cases hres with
    | plain hv => exact absurd hv (Resolves.not_plain ho hi)
    | phi _ hi' _ hπ' hσ' hk' hres =>
      obtain rfl := Option.some.inj (hi.symm.trans hi')
      obtain ⟨rfl, rfl⟩ := append_cons_inj_of_fst (hπ.symm.trans hπ') hσ hσ'
      obtain rfl := Option.some.inj (hk.symm.trans hk')
      exact hres
    | copy _ hi' hop' _ _ =>
      obtain rfl := Option.some.inj (hi.symm.trans hi')
      exact absurd (hop.symm.trans hop') (by decide)
  | copy ho hi hop ho' _ ih =>
    rw [← ih]
    refine ⟨fun hres => ?_, .copy ho hi hop ho'⟩
    cases hres with
    | plain hv => exact absurd hv (Resolves.not_plain ho hi)
    | phi _ hi' hop' _ _ _ _ =>
      obtain rfl := Option.some.inj (hi.symm.trans hi')
      exact absurd (hop.symm.trans hop') (by decide)
    | copy _ hi' _ ho'' hres =>
      obtain rfl := Option.some.inj (hi.symm.trans hi')
      obtain rfl := (List.cons.inj (ho'.symm.trans ho'')).1
      exact hres

/-- A value that cannot be followed on is what is denoted. -/
theorem Reduces.resolves_iff_eq {B : Body} {own : Nat → Prop} {π ρ : List (Nat × Nat)}
    {v w r : Value} (h : Reduces B own π v ρ w)
    (hw : ∀ p, w = .result p → own p ∨ B.inst? p = none) : Resolves B own π v r ↔ r = w := by
  rw [h.resolves_iff]
  constructor
  · exact fun hr => hr.unique (.plain hw)
  · rintro rfl
    exact .plain hw

/-! ## The value last written -/

namespace Ledger

variable {L : Ledger} {x y p P b : Nat} {a v d : Value} {π β : List Nat}

/-- The value last written to a variable on a path, or what it was before. -/
def lastWritten (L : Ledger) (x : Nat) (d : Value) : List Nat → Value
  | [] => d
  | b :: π => (L.write x b).getD (L.lastWritten x d π)

theorem lastWritten_cons_of_no_write (h : L.write x b = none) :
    L.lastWritten x d (b :: π) = L.lastWritten x d π := by
  rw [lastWritten, h]
  rfl

/-- Nothing is written to the variable in these blocks. -/
def Quiet (L : Ledger) (x : Nat) (σ : List Nat) : Prop := ∀ c ∈ σ, L.write x c = none

theorem Quiet.lastWritten {σ : List Nat} (h : L.Quiet x σ) :
    L.lastWritten x d (σ ++ π) = L.lastWritten x d π := by
  induction σ with
  | nil => rfl
  | cons c σ ih =>
    rw [List.cons_append, lastWritten_cons_of_no_write (h c (List.mem_cons_self ..))]
    exact ih fun e he => h e (List.mem_cons_of_mem _ he)

theorem tail_append_cons {α : Type} (σ ρ : List α) (c : α) :
    (σ ++ c :: ρ).tail = (σ ++ [c]).tail ++ ρ := by
  cases σ <;> simp

/-- The block `P` was visited, with the path `ρ` before it, and since then nothing was written
before the last block. -/
def Since (L : Ledger) (x P : Nat) (ρ β : List Nat) : Prop :=
  ∃ σ, β = σ ++ P :: ρ ∧ L.Quiet x (σ ++ [P]).tail

namespace Since

variable {ρ τ σ : List Nat} {Q : Nat}

theorem lastWritten (h : L.Since x P ρ β) :
    L.lastWritten x d β.tail = L.lastWritten x d ρ := by
  obtain ⟨σ, rfl, hq⟩ := h
  rw [tail_append_cons, hq.lastWritten]

/-- Going further back. -/
theorem trans (h : L.Since x P (σ ++ Q :: τ) β) (hq : L.Quiet x (σ ++ [Q])) :
    L.Since x Q τ β := by
  obtain ⟨σ', rfl, hq'⟩ := h
  refine ⟨σ' ++ P :: σ, by simp, fun c hc => ?_⟩
  rw [List.append_assoc, List.cons_append, tail_append_cons, List.mem_append] at hc
  exact hc.elim (hq' c) (hq c)

/-- The last visit of the block. -/
theorem exists_last (h : L.Since x P ρ β) : ∃ σ' ρ', β = σ' ++ P :: ρ' ∧ P ∉ σ' ∧
    L.Quiet x (σ' ++ [P]).tail := by
  obtain ⟨σ, rfl, hq⟩ := h
  by_cases hP : P ∈ σ
  · obtain ⟨σ', τ, rfl, hnot⟩ := List.eq_append_cons_of_mem hP
    refine ⟨σ', τ ++ P :: ρ, by simp, hnot, fun c hc => hq c ?_⟩
    rw [List.append_assoc, List.cons_append, tail_append_cons]
    exact List.mem_append_left _ hc
  · exact ⟨σ, ρ, rfl, hP, hq⟩

end Since

/-- What stands for a variable at the end of a path was written last, or it is a PHI of the
variable in a block after which nothing was written. -/
theorem Reaches.eq_or_made (h : L.Reaches x a β)
    (hd : ∀ c v, β.getLast? = some c → L.start x c = some v → v = d) :
    a = L.lastWritten x d β ∨ ∃ p P σ ρ, a = .result p ∧ L.phi p = some (x, P) ∧
      β = σ ++ P :: ρ ∧ L.Quiet x (σ ++ [P]) := by
  induction β with
  | nil => exact h.elim
  | cons b π ih =>
    cases hw : L.write x b with
    | some c =>
      rw [reaches_cons_of_write hw] at h
      rw [lastWritten, hw, h]
      exact Or.inl rfl
    | none =>
      rw [reaches_cons_of_no_write hw] at h
      rw [lastWritten_cons_of_no_write hw]
      rcases h with ⟨p, hp, hphi⟩ | ⟨rfl, hs⟩ | h
      · exact Or.inr ⟨p, b, [], π, hp, hphi, rfl, by simpa [Quiet] using hw⟩
      · exact Or.inl (hd b a rfl hs)
      · cases π with
        | nil => exact h.elim
        | cons c π =>
          rcases ih h fun e v he => hd e v (by simpa using he) with
            hlast | ⟨p, P, σ, ρ, hp, hphi, hsplit, hq⟩
          · exact Or.inl hlast
          · refine Or.inr ⟨p, P, b :: σ, ρ, hp, hphi, by rw [hsplit]; rfl, fun e he => ?_⟩
            rcases List.mem_cons.mp he with rfl | he
            · exact hw
            · exact hq e he

/-- Where the last block is entered, what is written there does not matter yet. -/
theorem Enters.eq_or_made (h : L.Enters x a (b :: π))
    (hd : ∀ c v, (b :: π).getLast? = some c → L.start x c = some v → v = d) :
    a = L.lastWritten x d π ∨ ∃ p P ρ, a = .result p ∧ L.phi p = some (x, P) ∧
      L.Since x P ρ (b :: π) := by
  rcases h with ⟨p, hp, hphi⟩ | ⟨rfl, hs⟩ | h
  · exact Or.inr ⟨p, b, π, hp, hphi, [], rfl, fun c hc => (List.not_mem_nil hc).elim⟩
  · exact Or.inl (hd b a rfl hs)
  · cases π with
    | nil => exact h.elim
    | cons c π =>
      rcases h.eq_or_made fun e v he => hd e v (by simpa using he) with
        hlast | ⟨p, P, σ, ρ, hp, hphi, hsplit, hq⟩
      · exact Or.inl hlast
      · exact Or.inr ⟨p, P, ρ, hp, hphi, b :: σ, by rw [hsplit]; rfl, hq⟩

end Ledger

/-! ## Values that stand for variables -/

theorem getLast?_blocksOf (π : List (Nat × Nat)) : (blocksOf π).getLast? = some 0 := by
  induction π with
  | nil => rfl
  | cons e π ih =>
    obtain ⟨β, hβ⟩ := blocksOf_eq_cons π
    rw [hβ] at ih
    rw [blocksOf, hβ, List.getLast?_cons_cons, ih]

/-- What a variable was before the beginning of a path. -/
theorem start_eq_of_suffix {L : Ledger} {x : Nat} {d : Value} {π : List (Nat × Nat)} {β : List Nat}
    (hd : ∀ v, L.start x 0 = some v → v = d) (hβ : β <:+ blocksOf π) :
    ∀ c v, β.getLast? = some c → L.start x c = some v → v = d := by
  intro c v hc hv
  have hentry := getLast?_blocksOf π
  obtain ⟨σ, hσ⟩ := hβ
  rw [← hσ, List.getLast?_append, hc] at hentry
  cases hentry
  exact hd v hv

namespace Builder

variable {L : Ledger} {s : Builder} {B : Body} {own : Nat → Prop} {x p P : Nat} {a v d : Value}
  {π : List (Nat × Nat)}

/-- No PHI waits for its operands. -/
structure Finished (L : Ledger) (s : Builder) (B : Body) : Prop where
  sound : Sound L idle s B
  waits : ∀ x b p, ¬ s.Waits x b p
  root : L.root 0

/-- At the end of a block it is the value written there, or else the one where control
enters it. -/
theorem reduces_of_reaches_of_enters (ha : L.Reaches x a (blocksOf π))
    (henter : L.Enters x a (blocksOf π) → ∃ σ ρ, π = σ ++ ρ ∧ L.Quiet x (σ.map Prod.fst).tail ∧
      Reduces B own π a ρ (L.lastWritten x d (blocksOf π).tail)) :
    ∃ σ ρ, π = σ ++ ρ ∧ L.Quiet x (σ.map Prod.fst) ∧
      Reduces B own π a ρ (L.lastWritten x d (blocksOf π)) := by
  obtain ⟨β, hβ⟩ := blocksOf_eq_cons π
  rw [hβ] at ha henter ⊢
  cases hw : L.write x (endOf π) with
  | some c =>
    rw [Ledger.reaches_cons_of_write hw] at ha
    subst ha
    rw [Ledger.lastWritten, hw]
    exact ⟨[], π, rfl, fun c hc => (List.not_mem_nil hc).elim, .refl⟩
  | none =>
    rw [Ledger.reaches_cons_of_no_write hw] at ha
    rw [Ledger.lastWritten_cons_of_no_write hw]
    obtain ⟨σ, ρ, rfl, hquiet, hreduces⟩ := henter ha
    refine ⟨σ, ρ, rfl, ?_, hreduces⟩
    cases σ with
    | nil => exact hquiet
    | cons e σ =>
      intro c hc
      rcases List.mem_cons.mp hc with rfl | hc
      · exact hw
      · exact hquiet c hc

namespace Finished

variable (h : Finished L s B)

include h

/-- A PHI is complete, or it is a copy of what arrives where it is. -/
theorem phi_cases (hp : L.phi p = some (x, P)) : ∃ i, B.inst? p = some i ∧ i.block = P ∧ P ≠ 0 ∧
    ((i.op = .phi ∧ Fills L B.preds x P i.operands ∧
        i.operands.length = (B.preds P).length) ∨
      (i.op = .mov ∧ ∃ v, i.operands = [v] ∧ L.Before x v B.preds P)) := by
  obtain ⟨i, hi, rfl⟩ := h.sound.phi_mem p x P hp
  obtain ⟨hroot, hcases⟩ := h.sound.standing_of_idle hi hp rfl (h.waits x P i.id)
  refine ⟨i, h.sound.indexed.inst?_eq_some_iff.mpr ⟨P, hi, rfl⟩,
    h.sound.indexed.block_eq P i hi, ?_, hcases⟩
  rintro rfl
  exact hroot h.root

-- the instructions that denote themselves are those that were never PHIs
variable (hown : ∀ p i, B.inst? p = some i → (own p ↔ L.phi p = none))

include hown

theorem not_own {xb : Nat × Nat} (hp : L.phi p = some xb) : ¬ own p := by
  obtain ⟨i, hi, _⟩ := h.phi_cases hp
  rw [hown p i hi, hp]
  simp

variable (hd : ∀ v, L.start x 0 = some v → v = d)

include hd

/-- A PHI whose block was visited, if values on shorter paths lead to what was written last. -/
theorem reduces_of_since (hπ : Path B π)
    (hshort : ∀ {ρ o}, ρ.length < π.length → Path B ρ → L.Reaches x o (blocksOf ρ) →
      ∃ σ τ, ρ = σ ++ τ ∧ L.Quiet x (σ.map Prod.fst) ∧
        Reduces B own ρ o τ (L.lastWritten x d (blocksOf ρ)))
    {ρ : List Nat} (hp : L.phi p = some (x, P)) (hρ : L.Since x P ρ (blocksOf π)) :
    ∃ σ τ, π = σ ++ τ ∧ L.Quiet x (σ.map Prod.fst).tail ∧
      Reduces B own π (.result p) τ (L.lastWritten x d (blocksOf π).tail) := by
  have ht : Trail L.root B.preds (blocksOf π) := hπ.trail h.root
  induction hn : ρ.length using Nat.strong_induction_on generalizing p P ρ with | _ n ih =>
  obtain ⟨i, hi, rfl, hne, hcases⟩ := h.phi_cases hp
  rcases hcases with ⟨hop, hfills, hlen⟩ | ⟨hop, v, hops, hv⟩
  · -- the operand for the last visit is found on the path up to it
    obtain ⟨σ, τ, hsplit, hσ, hq⟩ := hρ.exists_last
    have hlast : L.lastWritten x d (blocksOf π).tail = L.lastWritten x d τ :=
      Ledger.Since.lastWritten ⟨σ, hsplit, hq⟩
    obtain ⟨σ', k, π', rfl, hσ', rfl, hk, hπ'⟩ := hπ.exists_last_edge hne hsplit hσ
    obtain rfl : σ'.map Prod.fst = σ := by
      rw [blocksOf_append] at hsplit
      exact List.append_cancel_right hsplit
    have hklt : k < i.operands.length := by
      rw [hlen]
      exact (List.getElem?_eq_some_iff.mp hk).1
    obtain ⟨q, hq', hend⟩ := hfills k _ (List.getElem?_eq_getElem hklt)
    obtain rfl := Option.some.inj (hk.symm.trans hq')
    have hreach : L.Reaches x i.operands[k] (blocksOf π') := by
      obtain ⟨γ, hγ⟩ := blocksOf_eq_cons π'
      rw [hγ]
      exact hend γ (hγ ▸ hπ'.trail h.root)
    have hshorter : π'.length < (σ' ++ (i.block, k) :: π').length := by
      simp only [List.length_append, List.length_cons]
      omega
    obtain ⟨σ₂, τ₂, rfl, hq₂, hreduces⟩ := hshort hshorter hπ' hreach
    rw [hlast]
    refine ⟨σ' ++ (i.block, k) :: σ₂, τ₂, by simp, fun c hc => ?_,
      .phi (h.not_own hown hp) hi hop rfl hσ' (List.getElem?_eq_getElem hklt) hreduces⟩
    rw [List.map_append, List.map_cons, Ledger.tail_append_cons, List.mem_append] at hc
    exact hc.elim (hq c) (hq₂ c)
  · -- what is copied was there before the visit
    have hsuffix : i.block :: ρ <:+ blocksOf π := by
      obtain ⟨σ, hσ, _⟩ := hρ
      exact ⟨σ, hσ.symm⟩
    have hcopied : ∃ σ τ, π = σ ++ τ ∧ L.Quiet x (σ.map Prod.fst).tail ∧
        Reduces B own π v τ (L.lastWritten x d (blocksOf π).tail) := by
      rcases hv ρ (ht.of_suffix hsuffix (by simp)) with ⟨rfl, _⟩ | hr
      · -- a path begins at the entry, and the copy is not there
        have hentry := getLast?_blocksOf π
        obtain ⟨σ, hσ⟩ := hsuffix
        rw [← hσ, List.getLast?_append] at hentry
        exact absurd (Option.some.inj hentry) hne
      · rcases hr.eq_or_made (d := d) (start_eq_of_suffix hd ((List.suffix_cons ..).trans hsuffix))
          with rfl | ⟨q, Q, σ, τ, rfl, hq, rfl, hquiet⟩
        · rw [← hρ.lastWritten]
          exact ⟨[], π, rfl, fun c hc => (List.not_mem_nil hc).elim, .refl⟩
        · refine ih τ.length ?_ hq (hρ.trans hquiet) rfl
          simp only [List.length_append, List.length_cons] at hn
          omega
    obtain ⟨σ, τ, hsplit, hquiet, hreduces⟩ := hcopied
    exact ⟨σ, τ, hsplit, hquiet, .copy (h.not_own hown hp) hi hop hops hreduces⟩

/-- **What stands for a variable where control enters the end of a path leads to the value
last written before**, and along a part of the path since which nothing was written before its
last block. -/
theorem reduces_of_enters (hπ : Path B π) (ha : L.Enters x a (blocksOf π)) :
    ∃ σ ρ, π = σ ++ ρ ∧ L.Quiet x (σ.map Prod.fst).tail ∧
      Reduces B own π a ρ (L.lastWritten x d (blocksOf π).tail) := by
  induction hn : π.length using Nat.strong_induction_on generalizing π a with | _ n ih =>
  subst hn
  obtain ⟨β, hβ⟩ := blocksOf_eq_cons π
  rw [hβ] at ha
  rcases ha.eq_or_made (d := d) (hβ ▸ start_eq_of_suffix hd (List.suffix_refl _)) with
    rfl | ⟨p, P, ρ, rfl, hp, hρ⟩
  · rw [hβ]
    exact ⟨[], π, rfl, fun c hc => (List.not_mem_nil hc).elim, .refl⟩
  · refine h.reduces_of_since hown hd hπ (fun hlt hρ ho => ?_) hp (hβ ▸ hρ)
    exact reduces_of_reaches_of_enters ho fun hent => ih _ hlt hρ hent rfl

end Finished

end Builder

end Compiler16.Ssa
