import Compiler16.Proofs.Resolution

/-!
# Running function bodies

What a body in single-assignment form does when it runs, over any meaning of
literals, operations, calls and global values.  When control enters a block all its
PHIs take their values at once, each from its operand for the edge taken; then the other
instructions run in order.

A ledger runs too, without PHIs: it knows what was emitted into a block and which of
the operands are variables, and when control leaves a block it knows what was written
there.  So it runs over a store of variables.  In a sound state the two runs agree, for
a value that stands for a variable has the value of the variable in the store.

## Main definitions

* `Interpretation`, `denote`: the meaning of operations, and of values
* `Body.run`, `Body.execute`: running a body
* `Ledger.run`: running a ledger
* `Ledger.Tidy`, `Ledger.Orderly`: operands and written values come from where they are used

## Main results

* `Finished.run_eq`: the two runs agree
-/

namespace Compiler16.Ssa

open Compiler16.Flow

/-! ## The meaning of instructions -/

/-- A meaning of literals, operations, calls and global values.  A call may change the
world that it is made in. -/
structure Interpretation (V W : Type) where
  literal : Int → V
  /-- The one value that unknown values have. -/
  undefined : V
  operate : Op → List V → V
  /-- Whether a condition holds. -/
  isTrue : V → Bool
  call : Option String → List V → W → V × W
  /-- The value of a global instruction. -/
  global : Nat → V

variable {V W : Type}

/-- The meaning of a value, given those of the arguments and of the results. -/
def denote (I : Interpretation V W) (args results : Nat → V) : Value → V
  | .unknown => I.undefined
  | .argument id => args id
  | .literal _ payload => I.literal payload
  | .result id => results id

/-- Where control goes when it leaves a block. -/
inductive Exit (V : Type) where
  | goto (block : Nat)
  | leave (value : Option V)

/-- An instruction that is about to run: its operands are found in the results of
those before. -/
structure Ready (V : Type) where
  id : Nat
  op : Op
  targets : List Nat
  callee : Option String
  operands : (Nat → V) → List V

/-- Where a branch leads: to its first target if the condition holds, and otherwise to
its second. -/
def branchExit (I : Interpretation V W) : List Nat → List V → Exit V
  | [target], _ => .goto target
  | first :: second :: _, cond :: _ => .goto (if I.isTrue cond then first else second)
  | _, _ => .leave none

/-- Where control goes after an instruction that makes it leave the block. -/
def exit? (I : Interpretation V W) (op : Op) (targets : List Nat) (vs : List V) :
    Option (Exit V) :=
  match op with
  | .br => some (branchExit I targets vs)
  | .ret => some (.leave vs.head?)
  | _ => none

/-- The result of any other instruction, and the world after it. -/
def effect (I : Interpretation V W) (op : Op) (callee : Option String) (vs : List V) (w : W) :
    V × W :=
  match op with
  | .mov => (vs.headD I.undefined, w)
  | .call => I.call callee vs w
  | op => (I.operate op vs, w)

/-- Runs instructions in order, until control leaves the block.  At the end of the last
instruction control leaves the function. -/
def runReady (I : Interpretation V W) : List (Ready V) → (Nat → V) → W → (Nat → V) × W × Exit V
  | [], results, w => (results, w, .leave none)
  | i :: rest, results, w =>
    match exit? I i.op i.targets (i.operands results) with
    | some e => (results, w, e)
    | none =>
      let (v, w) := effect I i.op i.callee (i.operands results) w
      runReady I rest (Function.update results i.id v) w

theorem exit?_isSome {I : Interpretation V W} {op : Op} {targets : List Nat} {vs : List V} :
    (exit? I op targets vs).isSome = op.isTerminator := by
  cases op <;> rfl

theorem mem_targets_of_exit {I : Interpretation V W} {op : Op} {targets : List Nat} {vs : List V}
    {t : Nat} (h : exit? I op targets vs = some (.goto t)) : t ∈ targets := by
  unfold exit? at h
  split at h
  · have h := Option.some.inj h
    unfold branchExit at h
    split at h
    · cases h
      simp
    · injection h with h
      rw [← h]
      split <;> simp
    · cases h
  · cases h
  · cases h

/-! ## Running a body -/

/-- An instruction of a body, about to run. -/
def Inst.ready (I : Interpretation V W) (args : Nat → V) (i : Inst) : Ready V :=
  ⟨i.id, i.op, i.targets, i.callee, fun results => i.operands.map (denote I args results)⟩

namespace Body

/-- The results when control has entered a block by one of its edges: all PHIs have
taken their values. -/
def enter (I : Interpretation V W) (args : Nat → V) (B : Body) (b edge : Nat) (results : Nat → V) :
    Nat → V := fun id =>
  match (B.code b).find? fun i => i.isPhi && i.id == id with
  | some i => denote I args results (i.operands.getD edge .unknown)
  | none => results id

/-- Runs a body from the start of a block, for at most the given number of blocks. -/
def run (I : Interpretation V W) (args : Nat → V) (B : Body) :
    Nat → Nat → (Nat → V) → W → Option (Option V × W)
  | 0, _, _, _ => none
  | n + 1, b, results, w =>
    match runReady I (((B.code b).filter (!·.isPhi)).map (Inst.ready I args)) results w with
    | (_, w, .leave v) => some (v, w)
    | (results, w, .goto t) =>
      run I args B n t (B.enter I args t ((B.preds t).idxOf b) results) w

/-- The value of an argument: where there are fewer values than arguments, the rest
is undefined. -/
def argumentValue (I : Interpretation V W) (B : Body) (values : List V) (id : Nat) : V :=
  values.getD (B.arguments.idxOf (.argument id)) I.undefined

/-- Runs a body from the entry. -/
def execute (I : Interpretation V W) (B : Body) (values : List V) (w : W) (n : Nat) :
    Option (Option V × W) :=
  B.run I (B.argumentValue I values) n 0 I.global w

end Body

/-! ## Running a ledger -/

/-- The value of an operand, given the values of variables where control has entered the
block. -/
def Role.value (I : Interpretation V W) (args : Nat → V) (store results : Nat → V) : Role → V
  | .fixed v => denote I args results v
  | .entry x => store x
  | .free => I.undefined

/-- An emitted instruction, about to run. -/
def Emitted.ready (I : Interpretation V W) (args store : Nat → V) (e : Emitted) : Ready V :=
  ⟨e.id, e.op, e.targets, e.callee, fun results => e.roles.map (Role.value I args store results)⟩

/-- The values of variables, given those that were written in the block and those from
where control has entered it. -/
def storeOf (I : Interpretation V W) (args : Nat → V) (known : Nat → Option Value)
    (entry results : Nat → V) : Nat → V := fun x =>
  match known x with
  | some v => denote I args results v
  | none => entry x

section Store

variable {I : Interpretation V W} {args : Nat → V} {known : Nat → Option Value}
  {entry results : Nat → V} {x : Nat} {v : Value}

theorem storeOf_of_some (h : known x = some v) :
    storeOf I args known entry results x = denote I args results v := by
  rw [storeOf, h]

theorem storeOf_of_none (h : known x = none) :
    storeOf I args known entry results x = entry x := by
  rw [storeOf, h]

end Store

namespace Ledger

/-- Goes on where control leaves a block, if at most the given number of blocks is to
follow. -/
def finish (I : Interpretation V W) (args : Nat → V) (L : Ledger) (b : Nat) (store : Nat → V)
    (next : Nat → (Nat → V) → W → Option (Option V × W)) :
    (Nat → V) × W × Exit V → Option (Option V × W)
  | (_, w, .leave v) => some (v, w)
  | (results, w, .goto t) => next t (storeOf I args (L.write · b) store results) w

/-- Runs a ledger from the start of a block, for at most the given number of blocks. -/
def run (I : Interpretation V W) (args : Nat → V) (L : Ledger) :
    Nat → Nat → (Nat → V) → W → Option (Option V × W)
  | 0, _, _, _ => none
  | n + 1, b, store, w => L.finish I args b store (run I args L n)
    (runReady I ((L.emitted b).map (Emitted.ready I args store)) I.global w)

/-- The results when the PHIs of a block, and the copies that are left of PHIs, have the
values of their variables. -/
def refreshed (L : Ledger) (b : Nat) (store results : Nat → V) : Nat → V := fun i =>
  match L.phi i with
  | some (x, c) => if c = b then store x else results i
  | none => results i

theorem refreshed_of_phi {L : Ledger} {i x b : Nat} {store results : Nat → V}
    (h : L.phi i = some (x, b)) : L.refreshed b store results i = store x := by
  rw [refreshed, h]
  exact if_pos rfl

theorem refreshed_of_not_phi {L : Ledger} {i b : Nat} {store results : Nat → V}
    (h : ∀ x, L.phi i ≠ some (x, b)) : L.refreshed b store results i = results i := by
  unfold refreshed
  split
  · next x c hp =>
    refine if_neg ?_
    rintro rfl
    exact h x hp
  · rfl

/-- What is used in a block comes from the block, apart from arguments and what variables
have where control enters it; and an instruction that makes control leave the block is the
last one.  The instructions of the function have numbers from `n` on. -/
structure Tidy (L : Ledger) (arguments : List Value) (n : Nat) (preds : Nat → List Nat) : Prop where
  argument : ∀ v ∈ arguments, ∃ i, v = .argument i
  first : ∀ b, ∀ e ∈ L.emitted b, n ≤ e.id
  write : ∀ x b v, L.write x b = some v → v ∈ arguments ∨
    ∃ e ∈ L.emitted b, v = .result e.id ∧ e.op.isTerminator = false
  fixed : ∀ b before e after, L.emitted b = before ++ e :: after → ∀ v, .fixed v ∈ e.roles →
    v ∈ arguments ∨ (∃ i payload, v = .literal i payload) ∨ ∃ d ∈ before, v = .result d.id
  not_free : ∀ b, ∀ e ∈ L.emitted b, .free ∉ e.roles
  last : ∀ b before e after, L.emitted b = before ++ e :: after → e.op.isTerminator = true →
    after = []
  target : ∀ b, ∀ e ∈ L.emitted b, ∀ t ∈ e.targets, b ∈ preds t

/-- What variables have before the function does not come from its instructions. -/
structure Orderly (L : Ledger) (arguments : List Value) (n : Nat) (preds : Nat → List Nat) : Prop
    extends Tidy L arguments n preds where
  start : ∀ x b i, L.start x b = some (.result i) → i < n

/-- Where a value that stands for a variable comes from. -/
theorem Reaches.source {L : Ledger} {x : Nat} {a : Value} {π : List Nat} (h : L.Reaches x a π) :
    ∃ c ∈ π, L.Made x a c ∨ L.write x c = some a ∨ L.start x c = some a := by
  induction π with
  | nil => exact h.elim
  | cons b π ih =>
    cases hw : L.write x b with
    | some v =>
      rw [reaches_cons_of_write hw] at h
      exact ⟨b, List.mem_cons_self .., Or.inr (Or.inl (h ▸ hw))⟩
    | none =>
      rw [reaches_cons_of_no_write hw] at h
      rcases h with hm | ⟨_, hs⟩ | h
      · exact ⟨b, List.mem_cons_self .., Or.inl hm⟩
      · exact ⟨b, List.mem_cons_self .., Or.inr (Or.inr hs)⟩
      · obtain ⟨c, hc, hcases⟩ := ih h
        exact ⟨c, List.mem_cons_of_mem _ hc, hcases⟩

end Ledger

/-! ## The two runs agree -/

namespace Builder.Finished

variable {L : Ledger} {s : Builder} {B : Body} {x n b c : Nat} {a : Value} {π : List Nat}
  {e d : Emitted}

section Sources

variable (h : Finished L s B)

include h

theorem kept_of_emitted (he : e ∈ L.emitted b) :
    ∃ j ∈ B.code b, Kept L s.nextId B.preds b e j := by
  obtain ⟨head, tail, hcode, _, htail⟩ := h.sound.layout b
  obtain ⟨j, hj, hk⟩ := forall₂_exists_right htail he
  exact ⟨j, hcode ▸ List.mem_append_right _ hj, hk⟩

theorem phi_of_emitted (he : e ∈ L.emitted b) : L.phi e.id = none := by
  obtain ⟨j, _, hk⟩ := h.kept_of_emitted he
  exact hk.id ▸ hk.phi

theorem emitted_block_unique (he : e ∈ L.emitted b) (hd : d ∈ L.emitted c) (hid : e.id = d.id) :
    b = c := by
  obtain ⟨j, hj, hjk⟩ := h.kept_of_emitted he
  obtain ⟨i, hi, hik⟩ := h.kept_of_emitted hd
  exact h.sound.indexed.block_unique hj hi (hjk.id.trans (hid.trans hik.id.symm))

variable (ho : L.Orderly B.arguments n B.preds)

include ho

/-- An emitted instruction stands for a variable only after it was written in its own
block. -/
theorem written_of_reaches (he : e ∈ L.emitted b) (hr : L.Reaches x (.result e.id) π) :
    b ∈ π ∧ L.write x b = some (.result e.id) := by
  obtain ⟨c, hc, hmade | hwrite | hstart⟩ := hr.source
  · obtain ⟨p, hp, hphi⟩ := hmade
    cases hp
    exact absurd (hphi.symm.trans (h.phi_of_emitted he)) (by simp)
  · rcases ho.write x c _ hwrite with harg | ⟨d, hd, hid, _⟩
    · obtain ⟨i, hi⟩ := ho.argument _ harg
      cases hi
    · obtain rfl := h.emitted_block_unique he hd (Value.result.inj hid)
      exact ⟨hc, hwrite⟩
  · exact absurd (ho.start x c _ hstart) (not_lt.mpr (ho.first b e he))

theorem written_of_enters (he : e ∈ L.emitted b) (hr : L.Enters x (.result e.id) (c :: π)) :
    b ∈ π ∧ L.write x b = some (.result e.id) := by
  rcases hr with hmade | ⟨_, hstart⟩ | hr
  · obtain ⟨p, hp, hphi⟩ := hmade
    cases hp
    exact absurd (hphi.symm.trans (h.phi_of_emitted he)) (by simp)
  · exact absurd (ho.start x c _ hstart) (not_lt.mpr (ho.first b e he))
  · exact h.written_of_reaches ho he hr

/-- A PHI stands for no other variable than its own. -/
theorem variable_eq_of_reaches {p y : Nat} (hp : L.phi p = some (y, c))
    (hr : L.Reaches x (.result p) π) : x = y := by
  obtain ⟨d, _, hmade | hwrite | hstart⟩ := hr.source
  · obtain ⟨q, hq, hphi⟩ := hmade
    cases hq
    exact congrArg Prod.fst (Option.some.inj (hphi.symm.trans hp))
  · rcases ho.write x d _ hwrite with harg | ⟨e, he, hid, _⟩
    · obtain ⟨i, hi⟩ := ho.argument _ harg
      cases hi
    · cases hid
      exact absurd (hp.symm.trans (h.phi_of_emitted he)) (by simp)
  · exact absurd (hp.symm.trans (h.sound.start_base x d _ hstart p rfl).2) (by simp)

/-- No instruction of a block is what a variable has wherever control enters the block,
for on a first visit it has not run yet. -/
theorem ne_of_atEntry (ht : Trail L.root B.preds (b :: π)) (ha : L.AtEntry x a B.preds b)
    (he : e ∈ L.emitted b) : a ≠ .result e.id := by
  rintro rfl
  obtain ⟨σ, hσ, hb⟩ := ht.exists_first_visit
  exact hb (h.written_of_enters ho he (ha σ hσ)).1

end Sources

/-! ### Entering a block -/

section Entering

variable (h : Finished L s B) (ho : L.Orderly B.arguments n B.preds)
  {I : Interpretation V W} {args store results : Nat → V} {w : W}
  -- control comes from `b`, and at its end results have the values of variables
  (ht : Trail L.root B.preds (c :: b :: π))
  (hend : ∀ x a, L.Reaches x a (b :: π) → denote I args results a = store x)

include h ho hend

theorem denote_refreshed_of_reaches (ha : L.Reaches x a (b :: π)) :
    denote I args (L.refreshed c store results) a = store x := by
  cases a with
  | result i =>
    show L.refreshed c store results i = store x
    by_cases hphi : ∃ y, L.phi i = some (y, c)
    · obtain ⟨y, hy⟩ := hphi
      rw [Ledger.refreshed_of_phi hy, h.variable_eq_of_reaches ho hy ha]
    · rw [Ledger.refreshed_of_not_phi (not_exists.mp hphi)]
      exact hend x _ ha
  | _ => exact hend x _ ha

/-- What stands for a variable where control has entered the block has its value. -/
theorem denote_refreshed_of_enters (ha : L.Enters x a (c :: b :: π)) :
    denote I args (L.refreshed c store results) a = store x := by
  rcases ha with ⟨p, rfl, hp⟩ | ⟨hπ, _⟩ | ha
  · exact Ledger.refreshed_of_phi hp
  · cases hπ
  · exact h.denote_refreshed_of_reaches ho hend ha

include ht

omit ho in
/-- A PHI takes the value of its variable. -/
theorem enter_of_phi {j : Inst} (hj : j ∈ B.code c) (hphi : j.op = .phi) :
    B.enter I args c ((B.preds c).idxOf b) results j.id = L.refreshed c store results j.id := by
  have hb : b ∈ B.preds c := ht.mem_preds
  obtain ⟨x, hx⟩ := h.sound.phi_of_isPhi hj hphi
  obtain ⟨_, ⟨_, hfills, hlen⟩ | ⟨hop, _⟩⟩ :=
    h.sound.standing_of_idle hj hx rfl (h.waits x c j.id)
  · have hlt : (B.preds c).idxOf b < j.operands.length := hlen ▸ List.idxOf_lt_length_of_mem hb
    have hfind : (B.code c).find? (fun i => i.isPhi && i.id == j.id) = some j := by
      cases hi : (B.code c).find? (fun i => i.isPhi && i.id == j.id) with
      | none => simpa [Inst.isPhi, hphi] using List.find?_eq_none.mp hi j hj
      | some i =>
        have hid : i.id = j.id := by
          have := List.find?_some hi
          simp only [Bool.and_eq_true, beq_iff_eq] at this
          exact this.2
        rw [h.sound.indexed.eq_of_id_eq (List.mem_of_find?_eq_some hi) hj hid]
    obtain ⟨q, hq, hatEnd⟩ := hfills _ _ (List.getElem?_eq_getElem hlt)
    obtain rfl : b = q := by
      rw [List.getElem?_idxOf hb] at hq
      exact Option.some.inj hq
    rw [Ledger.refreshed_of_phi hx, Body.enter, hfind]
    show denote I args results (j.operands.getD _ _) = store x
    rw [List.getD_eq_getElem?_getD, List.getElem?_eq_getElem hlt, Option.getD_some]
    exact hend x _ (hatEnd π ht.tail)
  · rw [hphi] at hop
    cases hop

omit h ho hend ht in
theorem enter_of_not_phi {i : Nat} (hi : ∀ j ∈ B.code c, j.id = i → j.isPhi = false) :
    B.enter I args c ((B.preds c).idxOf b) results i = results i := by
  have hnone : (B.code c).find? (fun j => j.isPhi && j.id == i) = none := by
    rw [List.find?_eq_none]
    intro j hj hji
    simp only [Bool.and_eq_true, beq_iff_eq] at hji
    rw [hi j hj hji.2] at hji
    cases hji.1
  rw [Body.enter, hnone]

/-- The copies that are left of PHIs run one after the other. -/
theorem run_copies {rest : List (Ready V)} : ∀ (l : List Inst) (results' : Nat → V),
    (∀ j ∈ l, j ∈ B.code c ∧ j.isPhi = false ∧ (L.phi j.id).isSome) → (l.map Inst.id).Nodup →
    (∀ i, results' i = if i ∈ l.map Inst.id then results i else L.refreshed c store results i) →
    runReady I (l.map (Inst.ready I args) ++ rest) results' w =
      runReady I rest (L.refreshed c store results) w := by
  intro l
  induction l with
  | nil =>
    intro results' _ _ hresults
    have : results' = L.refreshed c store results := by
      funext i
      simpa using hresults i
    rw [this]
    rfl
  | cons j l ih =>
    intro results' hl hnodup hresults
    obtain ⟨hj, hphi, hsome⟩ := hl j (List.mem_cons_self ..)
    obtain ⟨⟨x, c'⟩, hx⟩ := Option.isSome_iff_exists.mp hsome
    obtain rfl := h.sound.phi_block hj hx
    obtain ⟨_, ⟨hop, _⟩ | ⟨hop, v, hv, hbefore⟩⟩ :=
      h.sound.standing_of_idle hj hx rfl (h.waits x c' j.id)
    · simp [Inst.isPhi, hop] at hphi
    · have hreach : L.Reaches x v (b :: π) := by
        rcases hbefore (b :: π) ht with ⟨hπ, _⟩ | hr
        · cases hπ
        · exact hr
      -- the copied value was not changed by the copies before
      have hvalue : denote I args results' v = store x := by
        cases v with
        | result i =>
          show results' i = store x
          rw [hresults]
          split
          · exact hend x _ hreach
          · exact h.denote_refreshed_of_reaches ho hend hreach
        | _ => exact hend x _ hreach
      rw [List.map_cons, List.nodup_cons] at hnodup
      have hstep : runReady I ((j :: l).map (Inst.ready I args) ++ rest) results' w =
          runReady I (l.map (Inst.ready I args) ++ rest)
            (Function.update results' j.id (store x)) w := by
        simp [runReady, Inst.ready, hop, hv, exit?, effect, hvalue]
      rw [hstep]
      refine ih _ (fun i hi => hl i (List.mem_cons_of_mem _ hi)) hnodup.2 fun i => ?_
      by_cases hi : i = j.id
      · subst hi
        rw [Function.update_self, if_neg hnodup.1, Ledger.refreshed_of_phi hx]
      · rw [Function.update_of_ne hi, hresults]
        simp [hi]

end Entering

/-! ### Inside a block -/

section Inside

variable (h : Finished L s B) (ho : L.Orderly B.arguments n B.preds) {I : Interpretation V W}
  {args store entered : Nat → V} {w : W}
  -- where control has entered `b`, results have the values of variables
  (ht : Trail L.root B.preds (b :: π))
  (hent : ∀ x a, L.Enters x a (b :: π) → denote I args entered a = store x)

include h ho ht hent

/-- The operands have the values that their roles say. -/
theorem map_denote_eq {before after : List Emitted} {j : Inst} {results locals : Nat → V}
    (hsplit : L.emitted b = before ++ e :: after) (hk : Kept L s.nextId B.preds b e j)
    (hsame : ∀ d ∈ before, results d.id = locals d.id)
    (hold : ∀ i, (∀ d ∈ L.emitted b, d.id ≠ i) → results i = entered i) :
    j.operands.map (denote I args results) = e.roles.map (Role.value I args store locals) := by
  have he : e ∈ L.emitted b := hsplit ▸ List.mem_append_right _ (List.mem_cons_self ..)
  have hfixed := ho.fixed b before e after hsplit
  have hfree := ho.not_free b e he
  have hroles := hk.operands
  generalize e.roles = roles at hroles hfixed hfree
  generalize j.operands = operands at hroles
  induction hroles with
  | nil => rfl
  | @cons r o roles operands hplay _ ih =>
    rw [List.map_cons, List.map_cons, ih (fun v hv => hfixed v (List.mem_cons_of_mem _ hv))
      fun hmem => hfree (List.mem_cons_of_mem _ hmem)]
    congr 1
    cases r with
    | fixed v =>
      obtain ⟨rfl, _⟩ := hplay
      rcases hfixed o (List.mem_cons_self ..) with harg | ⟨i, payload, rfl⟩ | ⟨d, hd, rfl⟩
      · obtain ⟨i, rfl⟩ := ho.argument o harg
        rfl
      · rfl
      · exact hsame d hd
    | entry x =>
      have hplay : L.AtEntry x o B.preds b := hplay
      show denote I args results o = store x
      rw [← hent x o (hplay π ht)]
      cases o with
      | result i =>
        refine hold i fun d hd hid => ?_
        exact h.ne_of_atEntry ho ht hplay hd (congrArg Value.result hid.symm)
      | _ => rfl
    | free => exact absurd (List.mem_cons_self ..) hfree

/-- The emitted instructions run as the ledger says. -/
theorem run_emitted : ∀ (after : List Emitted) (js : List Inst) (before : List Emitted)
    (results locals : Nat → V) (w : W), L.emitted b = before ++ after →
    List.Forall₂ (Kept L s.nextId B.preds b) after js →
    (∀ d ∈ before, results d.id = locals d.id) →
    (∀ i, (∀ d ∈ L.emitted b, d.id ≠ i) → results i = entered i) →
    ∃ results' locals' w' exit,
      runReady I (js.map (Inst.ready I args)) results w = (results', w', exit) ∧
      runReady I (after.map (Emitted.ready I args store)) locals w = (locals', w', exit) ∧
      (∀ d ∈ L.emitted b, d.op.isTerminator = false → results' d.id = locals' d.id) ∧
      (∀ i, (∀ d ∈ L.emitted b, d.id ≠ i) → results' i = entered i) ∧
      ∀ t, exit = .goto t → b ∈ B.preds t := by
  intro after
  induction after with
  | nil =>
    intro js before results locals w hsplit hkept hsame hold
    cases hkept
    rw [List.append_nil] at hsplit
    exact ⟨results, locals, w, _, rfl, rfl, fun d hd _ => hsame d (hsplit ▸ hd), hold,
      fun t ht => by cases ht⟩
  | cons e after ih =>
    intro js before results locals w hsplit hkept hsame hold
    cases hkept with
    | @cons _ j _ js hk hkept =>
      have he : e ∈ L.emitted b := hsplit ▸ List.mem_append_right _ (List.mem_cons_self ..)
      have hvalues := h.map_denote_eq ho ht hent hsplit hk hsame hold
      cases hexit : exit? I e.op e.targets (e.roles.map (Role.value I args store locals)) with
      | some exit =>
        -- control leaves the block, so this was the last instruction
        have hterm : e.op.isTerminator = true := by
          rw [← exit?_isSome, hexit]
          rfl
        obtain rfl := ho.last b before e after hsplit hterm
        refine ⟨results, locals, w, exit, ?_, ?_, fun d hd hd' => ?_, hold, fun t ht => ?_⟩
        · simp only [List.map_cons, runReady, Inst.ready, hk.op, hk.targets, hvalues, hexit]
        · simp only [List.map_cons, runReady, Emitted.ready, hexit]
        · rw [hsplit, List.mem_append, List.mem_singleton] at hd
          rcases hd with hd | rfl
          · exact hsame d hd
          · rw [hterm] at hd'
            cases hd'
        · subst ht
          exact ho.target b e he t (mem_targets_of_exit hexit)
      | none =>
        -- the result is the same on both sides
        generalize heffect : effect I e.op e.callee
          (e.roles.map (Role.value I args store locals)) w = r
        obtain ⟨v, w₁⟩ := r
        have hsame' : ∀ d ∈ before ++ [e], Function.update results e.id v d.id =
            Function.update locals e.id v d.id := by
          intro d hd
          by_cases hid : d.id = e.id
          · rw [hid, Function.update_self, Function.update_self]
          · rw [Function.update_of_ne hid, Function.update_of_ne hid]
            rcases List.mem_append.mp hd with hd | hd
            · exact hsame d hd
            · exact absurd (congrArg Emitted.id (List.mem_singleton.mp hd)) hid
        have hold' : ∀ i, (∀ d ∈ L.emitted b, d.id ≠ i) →
            Function.update results e.id v i = entered i := by
          intro i hi
          rw [Function.update_of_ne (hi e he).symm]
          exact hold i hi
        obtain ⟨results', locals', w', exit, hrun, hrun', hrest⟩ :=
          ih js (before ++ [e]) _ _ w₁ (by rw [hsplit]; simp) hkept hsame' hold'
        refine ⟨results', locals', w', exit, ?_, ?_, hrest⟩
        · rw [← hrun]
          simp only [List.map_cons, runReady, Inst.ready, hk.op, hk.targets, hk.callee, hk.id,
            hvalues, hexit, heffect]
        · rw [← hrun']
          simp only [List.map_cons, runReady, Emitted.ready, hexit, heffect]

omit ht in
/-- At the end of a block results have the values of variables again. -/
theorem denote_of_reaches {results locals : Nat → V}
    (hsame : ∀ d ∈ L.emitted b, d.op.isTerminator = false → results d.id = locals d.id)
    (hold : ∀ i, (∀ d ∈ L.emitted b, d.id ≠ i) → results i = entered i)
    (ha : L.Reaches x a (b :: π)) :
    denote I args results a = storeOf I args (L.write · b) store locals x := by
  cases hw : L.write x b with
  | some v =>
    have hval : storeOf I args (L.write · b) store locals x = denote I args locals v :=
      storeOf_of_some hw
    rw [Ledger.reaches_cons_of_write hw] at ha
    rw [hval]
    subst ha
    rcases ho.write x b a hw with harg | ⟨d, hd, rfl, hterm⟩
    · obtain ⟨i, rfl⟩ := ho.argument a harg
      rfl
    · exact hsame d hd hterm
  | none =>
    rw [Ledger.reaches_cons_of_no_write hw] at ha
    have hval : storeOf I args (L.write · b) store locals x = store x := storeOf_of_none hw
    rw [hval, ← hent x a ha]
    cases a with
    | result i =>
      refine hold i fun d hd hid => ?_
      subst hid
      have := (h.written_of_enters ho hd ha).2
      rw [hw] at this
      cases this
    | _ => rfl

end Inside

/-! ### Block after block -/

section Blocks

variable (h : Finished L s B)

include h

/-- The code of a block is the copies that are left of PHIs, and what was emitted. -/
theorem exists_copies (b : Nat) : ∃ copies tail,
    (B.code b).filter (!·.isPhi) = copies ++ tail ∧
    (∀ j ∈ copies, j ∈ B.code b ∧ j.isPhi = false ∧ (L.phi j.id).isSome) ∧
    (copies.map Inst.id).Nodup ∧ (∀ j ∈ B.code b, j.isPhi = true ∨ j ∈ copies ∨ j ∈ tail) ∧
    List.Forall₂ (Kept L s.nextId B.preds b) (L.emitted b) tail := by
  obtain ⟨head, tail, hcode, hhead, htail⟩ := h.sound.layout b
  have hkept : tail.filter (!·.isPhi) = tail := by
    rw [List.filter_eq_self]
    intro j hj
    obtain ⟨e, _, hk⟩ := forall₂_exists_left htail hj
    simpa [Inst.isPhi, hk.op] using hk.not_phi
  refine ⟨head.filter (!·.isPhi), tail, ?_, fun j hj => ?_, ?_, fun j hj => ?_, htail⟩
  · rw [hcode, List.filter_append, hkept]
  · obtain ⟨hmem, hphi⟩ := List.mem_filter.mp hj
    exact ⟨hcode ▸ List.mem_append_left _ hmem, by simpa using hphi, hhead j hmem⟩
  · have hnodup := h.sound.indexed.nodup b
    rw [hcode, List.map_append] at hnodup
    exact (List.nodup_append.mp hnodup).1.sublist (List.filter_sublist.map _)
  · rw [hcode, List.mem_append] at hj
    cases hphi : j.isPhi with
    | true => exact Or.inl rfl
    | false =>
      rcases hj with hj | hj
      · exact Or.inr (Or.inl (List.mem_filter.mpr ⟨hj, by simp [hphi]⟩))
      · exact Or.inr (Or.inr hj)

variable (ho : L.Orderly B.arguments n B.preds) {I : Interpretation V W} {args store : Nat → V}

include ho

/-- The rest of a block, and what follows. -/
theorem run_tail_eq {m : Nat} {tail : List Inst} {entered : Nat → V} {w : W}
    (ht : Trail L.root B.preds (b :: π))
    (hent : ∀ x a, L.Enters x a (b :: π) → denote I args entered a = store x)
    (htail : List.Forall₂ (Kept L s.nextId B.preds b) (L.emitted b) tail)
    (hnext : ∀ t results store w, Trail L.root B.preds (t :: b :: π) →
      (∀ x a, L.Reaches x a (b :: π) → denote I args results a = store x) →
      B.run I args m t (B.enter I args t ((B.preds t).idxOf b) results) w =
        L.run I args m t store w) :
    (match runReady I (tail.map (Inst.ready I args)) entered w with
      | (_, w, .leave v) => some (v, w)
      | (results, w, .goto t) =>
        B.run I args m t (B.enter I args t ((B.preds t).idxOf b) results) w) =
      L.run I args (m + 1) b store w := by
  obtain ⟨results, locals, w', exit, hrun, hrun', hsame, hold, hgoto⟩ :=
    h.run_emitted ho ht hent (L.emitted b) tail [] entered I.global w rfl htail
      (fun d hd => by cases hd) (fun _ _ => rfl)
  rw [Ledger.run, hrun, hrun']
  cases exit with
  | leave v => rfl
  | goto t =>
    exact hnext t results _ w' (.step (hgoto t rfl) ht) fun x a ha =>
      h.denote_of_reaches ho hent hsame hold ha

/-- From the start of a block that control enters by an edge. -/
theorem run_enter_eq (m : Nat) : ∀ {b c : Nat} {π : List Nat} {store results : Nat → V} {w : W},
    Trail L.root B.preds (c :: b :: π) →
    (∀ x a, L.Reaches x a (b :: π) → denote I args results a = store x) →
    B.run I args m c (B.enter I args c ((B.preds c).idxOf b) results) w =
      L.run I args m c store w := by
  induction m with
  | zero =>
    intros
    rfl
  | succ m ih =>
    intro b c π store results w ht hend
    obtain ⟨copies, tail, hcode, hcopies, hnodup, hcases, htail⟩ := h.exists_copies c
    have henter : ∀ i, B.enter I args c ((B.preds c).idxOf b) results i =
        if i ∈ copies.map Inst.id then results i else L.refreshed c store results i := by
      intro i
      by_cases hphi : ∃ j ∈ B.code c, j.id = i ∧ j.op = .phi
      · obtain ⟨j, hj, rfl, hop⟩ := hphi
        rw [h.enter_of_phi ht hend hj hop, if_neg]
        intro hmem
        obtain ⟨j', hj', hid⟩ := List.mem_map.mp hmem
        obtain ⟨hj'c, hj'phi, _⟩ := hcopies j' hj'
        obtain rfl := h.sound.indexed.eq_of_id_eq hj'c hj hid
        simp [Inst.isPhi, hop] at hj'phi
      · rw [enter_of_not_phi fun j hj hid => by
          simpa [Inst.isPhi] using fun hop => hphi ⟨j, hj, hid, hop⟩]
        split
        · rfl
        · next hmem =>
          refine (Ledger.refreshed_of_not_phi fun x hx => ?_).symm
          obtain ⟨j, hj, rfl⟩ := h.sound.phi_mem i x c hx
          rcases hcases j hj with hj' | hj' | hj'
          · exact hphi ⟨j, hj, rfl, by simpa [Inst.isPhi] using hj'⟩
          · exact hmem (List.mem_map.mpr ⟨j, hj', rfl⟩)
          · obtain ⟨e, _, hk⟩ := forall₂_exists_left htail hj'
            exact absurd (hx.symm.trans hk.phi) (by simp)
    have hrun : runReady I (copies.map (Inst.ready I args) ++ tail.map (Inst.ready I args))
        (B.enter I args c ((B.preds c).idxOf b) results) w =
          runReady I (tail.map (Inst.ready I args)) (L.refreshed c store results) w :=
      h.run_copies ho ht hend copies _ hcopies hnodup henter
    rw [Body.run, hcode, List.map_append, hrun]
    exact h.run_tail_eq ho ht (fun x a ha => h.denote_refreshed_of_enters ho hend ha) htail
      fun t results store w ht' hend' => ih ht' hend'

/-- **The two runs agree.** -/
theorem run_eq {w : W} (hstore : ∀ x v, L.start x 0 = some v → denote I args I.global v = store x)
    (m : Nat) : B.run I args m 0 I.global w = L.run I args m 0 store w := by
  cases m with
  | zero => rfl
  | succ m =>
    obtain ⟨copies, tail, hcode, hcopies, _, _, htail⟩ := h.exists_copies 0
    -- no PHI was ever in the entry, for no edge leads there
    have hempty : copies = [] := by
      rw [List.eq_nil_iff_forall_not_mem]
      intro j hj
      obtain ⟨hj0, _, hsome⟩ := hcopies j hj
      obtain ⟨⟨x, P⟩, hx⟩ := Option.isSome_iff_exists.mp hsome
      obtain rfl := h.sound.phi_block hj0 hx
      obtain ⟨_, _, _, hne, _⟩ := h.phi_cases hx
      exact hne rfl
    rw [Body.run, hcode, hempty, List.nil_append]
    refine h.run_tail_eq ho (.start h.root) (fun x a ha => ?_) htail
      fun t results store w ht hend => h.run_enter_eq ho m ht hend
    rcases ha with ⟨p, _, hp⟩ | ⟨_, hs⟩ | hr
    · obtain ⟨_, _, _, hne, _⟩ := h.phi_cases hp
      exact absurd rfl hne
    · exact hstore x a hs
    · exact hr.elim

end Blocks

end Builder.Finished

end Compiler16.Ssa
