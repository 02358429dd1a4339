import Compiler16.Proofs.BodyCode
import Compiler16.Proofs.Reaching
import Compiler16.Proofs.Steps
import Mathlib.Logic.Function.Basic

/-!
# The invariant of the construction

A state of the construction is *sound* for a ledger if the body and the recorded
definitions agree with it: every PHI is in one of four standings, every recorded
definition stands for its variable at the end of its block, and what was emitted is
still there with operands that play the same roles.

While PHIs are being completed some of them are *busy*: they have got the first of
their operands, and a removal must not touch them.  A busy PHI comes with a limit:
it is a user only of instructions whose numbers are below the limit.

## Main definitions

* `Progress`, `Standing`: how far a PHI is, and the standings of a PHI
* `Kept`: an instruction is one that was emitted
* `Sound`: the invariant
* `Steady`, `Extended`: what completions, removals and reads leave alone

## Main results

* `Sound.insertWaiting`, `Sound.insertBusy`: a new PHI
* `Sound.remember`: a definition is recorded
* `Sound.mapInsts`: instructions are changed in their places
-/

namespace Compiler16.Ssa

open Compiler16.Flow

/-! ## Lists -/

section Lists

variable {α β : Type} {R S : α → β → Prop} {l : List α} {m : List β}

theorem forall₂_exists_left (h : List.Forall₂ R l m) {b : β} (hb : b ∈ m) :
    ∃ a ∈ l, R a b := by
  induction h with
  | nil => cases hb
  | @cons a c l m hac _ ih =>
    rcases List.mem_cons.mp hb with rfl | hb
    · exact ⟨a, List.mem_cons_self .., hac⟩
    · obtain ⟨d, hd, hdb⟩ := ih hb
      exact ⟨d, List.mem_cons_of_mem _ hd, hdb⟩

theorem forall₂_exists_right (h : List.Forall₂ R l m) {a : α} (ha : a ∈ l) :
    ∃ b ∈ m, R a b :=
  forall₂_exists_left h.flip ha

theorem forall₂_imp_of_mem (h : List.Forall₂ R l m)
    (himp : ∀ a, ∀ b ∈ m, R a b → S a b) : List.Forall₂ S l m := by
  induction h with
  | nil => exact .nil
  | cons hac _ ih =>
    exact .cons (himp _ _ (List.mem_cons_self ..) hac)
      (ih fun a b hb => himp a b (List.mem_cons_of_mem _ hb))

theorem takeWhile_dropWhile_append {p : α → Bool} (l₁ : List α) {l₂ : List α}
    (h : ∀ a ∈ l₂, p a = false) :
    (l₁ ++ l₂).takeWhile p = l₁.takeWhile p ∧
      (l₁ ++ l₂).dropWhile p = l₁.dropWhile p ++ l₂ := by
  induction l₁ with
  | nil =>
    cases l₂ with
    | nil => exact ⟨rfl, rfl⟩
    | cons a l₂ => simp [h a (List.mem_cons_self ..)]
  | cons a l₁ ih =>
    cases ha : p a with
    | false => simp [ha]
    | true => simp [ha, ih]

end Lists

/-! ## Definitions -/

/-- The value is no PHI, and if it is the result of an instruction then of an old
one. -/
def Ledger.Base (L : Ledger) (n : Nat) (v : Value) : Prop :=
  ∀ i, v = .result i → i < n ∧ L.phi i = none

/-- The value is no PHI of the body, and if it is the result of an instruction then of an old
one.  It may be what is left of a PHI. -/
def Body.Inert (B : Body) (n : Nat) (v : Value) : Prop :=
  ∀ i, v = .result i → i < n ∧ ∀ b, ∀ j ∈ B.code b, j.id = i → j.op ≠ .phi

/-- The operand plays its role. -/
def Ledger.Plays (L : Ledger) (n : Nat) (preds : Nat → List Nat) (b : Nat) :
    Role → Value → Prop
  | .fixed v, o => o = v ∧ L.Base n v
  | .entry x, o => L.AtEntry x o preds b
  | .free, _ => True

/-- The instruction is the emitted one. -/
structure Kept (L : Ledger) (n : Nat) (preds : Nat → List Nat) (b : Nat) (e : Emitted)
    (j : Inst) : Prop where
  id : j.id = e.id
  op : j.op = e.op
  targets : j.targets = e.targets
  callee : j.callee = e.callee
  not_phi : e.op ≠ .phi
  phi : L.phi j.id = none
  operands : List.Forall₂ (L.Plays n preds b) e.roles j.operands

namespace Builder

/-- The PHI waits for its operands. -/
def Waits (s : Builder) (x b p : Nat) : Prop :=
  ∃ l, s.pending.get? b = some l ∧ (x, p) ∈ l

/-- The operands stand for the variable at the ends of the first predecessors. -/
def Fills (L : Ledger) (preds : Nat → List Nat) (x b : Nat) (operands : List Value) : Prop :=
  ∀ (k : Nat) o, operands[k]? = some o → ∃ q, (preds b)[k]? = some q ∧ L.AtEnd x o preds q

/-- How far the completion of a PHI is. -/
structure Progress where
  /-- The PHI is a user only of instructions with smaller numbers. -/
  limit : Nat
  /-- The number of its operands. -/
  filled : Nat

/-- What becomes of a PHI. -/
inductive Standing (L : Ledger) (busy : Nat → Option Progress) (s : Builder)
    (preds : Nat → List Nat) (x b : Nat) (j : Inst) : Prop where
  /-- It waits until its block is sealed. -/
  | waiting (op : j.op = .phi) (busy : busy j.id = none) (waits : s.Waits x b j.id)
      (root : L.root b) (operands : j.operands = [])
  /-- It is being completed. -/
  | filling (op : j.op = .phi) (n : Progress) (busy : busy j.id = some n)
      (waits : ¬ s.Waits x b j.id) (root : ¬ L.root b) (fills : Fills L preds x b j.operands)
      (length : j.operands.length = n.filled)
  /-- It has an operand for every predecessor. -/
  | complete (op : j.op = .phi) (busy : busy j.id = none) (waits : ¬ s.Waits x b j.id)
      (root : ¬ L.root b) (fills : Fills L preds x b j.operands)
      (length : j.operands.length = (preds b).length)
  /-- It was removed, and copies the value that it merged. -/
  | copied (op : j.op = .mov) (busy : busy j.id = none) (waits : ¬ s.Waits x b j.id)
      (root : ¬ L.root b) (v : Value) (operands : j.operands = [v])
      (before : L.Before x v preds b)

/-- The state agrees with the ledger. -/
structure Sound (L : Ledger) (busy : Nat → Option Progress) (s : Builder) (B : Body) : Prop where
  opened : ∃ fn, s.opened = some fn ∧ fn.body = B
  indexed : B.Indexed
  bound : ∀ b, ∀ j ∈ B.code b, j.id < s.nextId
  users_lt : ∀ b, ∀ j ∈ B.code b, ∀ u ∈ j.users, u < s.nextId
  preds_lt : ∀ b, ∀ q ∈ B.preds b, q < B.graph.size
  phi_mem : ∀ p x b, L.phi p = some (x, b) → ∃ j ∈ B.code b, j.id = p
  phi_inj : ∀ p q xb, L.phi p = some xb → L.phi q = some xb → p = q
  phi_defs : ∀ p x b, L.phi p = some (x, b) → ∃ a, s.defs.get? (x, b) = some a
  standing : ∀ b, ∀ j ∈ B.code b, ∀ x, L.phi j.id = some (x, b) →
    Standing L busy s B.preds x b j
  layout : ∀ b, ∃ head tail, B.code b = head ++ tail ∧
    (∀ j ∈ head, (L.phi j.id).isSome) ∧
    List.Forall₂ (Kept L s.nextId B.preds b) (L.emitted b) tail
  write_defs : ∀ x b c, L.write x b = some c → s.defs.get? (x, b) = some c
  write_inert : ∀ x b c, L.write x b = some c → B.Inert s.nextId c
  start_base : ∀ x b c, L.start x b = some c → L.Base s.nextId c
  defs_atEnd : ∀ x b a, s.defs.get? (x, b) = some a → L.AtEnd x a B.preds b
  waits_phi : ∀ x b p, s.Waits x b p → L.phi p = some (x, b)
  waits_open : ∀ x b p, s.Waits x b p → s.isSealed b = false
  waits_users : ∀ x b p, s.Waits x b p → ∀ c, ∀ j ∈ B.code c, p ∉ j.users
  pending_nodup : ∀ b l, s.pending.get? b = some l → (l.map Prod.fst).Nodup
  busy_phi : ∀ p n, busy p = some n → (L.phi p).isSome
  busy_le : ∀ p n, busy p = some n → n.limit ≤ s.nextId
  busy_users : ∀ p n, busy p = some n → ∀ b, ∀ j ∈ B.code b, p ∈ j.users → j.id < n.limit
  root_sealed : ∀ b, L.root b → s.isSealed b = true → B.preds b = []
  start_sealed : ∀ x b c, L.start x b = some c → s.isSealed b = true
  start_defs : ∀ x b c, L.start x b = some c → ∃ a, s.defs.get? (x, b) = some a

end Builder

/-! ## Growth of what an instruction is known by -/

section Growth

variable {L L' : Ledger} {n n' : Nat} {preds preds' : Nat → List Nat} {b x : Nat} {v o : Value}

theorem Ledger.Base.mono (hn : n ≤ n') (hphi : ∀ i < n, L'.phi i = L.phi i)
    (h : L.Base n v) : L'.Base n' v := by
  intro i hi
  obtain ⟨hlt, hnone⟩ := h i hi
  exact ⟨lt_of_lt_of_le hlt hn, (hphi i hlt).trans hnone⟩

/-- No instruction becomes a PHI. -/
theorem Body.Inert.mono {B B' : Body} (h : B.Inert n v) (hn : n ≤ n')
    (hphi : ∀ b, ∀ j ∈ B'.code b, j.id < n → j.op = .phi →
      ∃ k ∈ B.code b, k.id = j.id ∧ k.op = .phi) : B'.Inert n' v := by
  intro i hi
  obtain ⟨hlt, hnone⟩ := h i hi
  refine ⟨hlt.trans_le hn, fun b j hj hid hop => ?_⟩
  obtain ⟨k, hk, hkid, hkop⟩ := hphi b j hj (hid ▸ hlt) hop
  exact hnone b k hk (hkid.trans hid) hkop

theorem Ledger.Plays.mono {r : Role} (hc : L.Carries L' preds preds') (hn : n ≤ n')
    (hphi : ∀ i < n, L'.phi i = L.phi i) (h : L.Plays n preds b r o) :
    L'.Plays n' preds' b r o := by
  cases r with
  | fixed v => exact ⟨h.1, h.2.mono hn hphi⟩
  | entry x => exact hc.atEntry h
  | free => trivial

theorem Kept.mono {e : Emitted} {j : Inst} (hc : L.Carries L' preds preds') (hn : n ≤ n')
    (hphi : ∀ i < n, L'.phi i = L.phi i) (hj : j.id < n) (h : Kept L n preds b e j) :
    Kept L' n' preds' b e j :=
  ⟨h.id, h.op, h.targets, h.callee, h.not_phi, (hphi _ hj).trans h.phi,
    h.operands.imp fun _ _ hp => hp.mono hc hn hphi⟩

theorem Builder.Fills.mono {operands : List Value} (hc : L.Carries L' preds preds')
    (hpreds : preds' b = preds b) (h : Builder.Fills L preds x b operands) :
    Builder.Fills L' preds' x b operands := by
  intro k o ho
  obtain ⟨q, hq, ha⟩ := h k o ho
  exact ⟨q, hpreds ▸ hq, hc.atEnd (List.mem_of_getElem? hq) ha⟩

end Growth

namespace Builder

variable {L L' : Ledger} {busy : Nat → Option Progress} {s s' : Builder} {B B' : Body}
  {x b p n : Nat} {v : Value}

namespace Sound

theorem phi_lt (h : Sound L busy s B) {xb : Nat × Nat} (hp : L.phi p = some xb) :
    p < s.nextId := by
  obtain ⟨j, hj, rfl⟩ := h.phi_mem p xb.1 xb.2 hp
  exact h.bound xb.2 j hj

theorem phi_none_of_le (h : Sound L busy s B) (hp : s.nextId ≤ p) : L.phi p = none := by
  by_contra hne
  obtain ⟨xb, hxb⟩ := Option.ne_none_iff_exists'.mp hne
  exact absurd (h.phi_lt hxb) (not_lt.mpr hp)

theorem busy_none_of_le (h : Sound L busy s B) (hp : s.nextId ≤ p) : busy p = none := by
  by_contra hne
  obtain ⟨m, hm⟩ := Option.ne_none_iff_exists'.mp hne
  have hphi := h.busy_phi p m hm
  simp [h.phi_none_of_le hp] at hphi

theorem phi_block (h : Sound L busy s B) {j : Inst} (hj : j ∈ B.code b) {c : Nat}
    (hp : L.phi j.id = some (x, c)) : c = b := by
  obtain ⟨i, hi, hid⟩ := h.phi_mem _ _ _ hp
  exact h.indexed.block_unique hi hj hid

/-- A PHI that neither waits nor is busy is complete or was removed. -/
theorem standing_of_idle (h : Sound L busy s B) {j : Inst} (hj : j ∈ B.code b)
    (hp : L.phi j.id = some (x, b)) (hbusy : busy j.id = none) (hwait : ¬ s.Waits x b j.id) :
    ¬ L.root b ∧
    ((j.op = .phi ∧ Fills L B.preds x b j.operands ∧
        j.operands.length = (B.preds b).length) ∨
      (j.op = .mov ∧ ∃ v, j.operands = [v] ∧ L.Before x v B.preds b)) := by
  cases h.standing b j hj x hp with
  | waiting _ _ hw _ _ => exact absurd hw hwait
  | filling _ _ hb _ _ _ _ => simp [hbusy] at hb
  | complete hop _ _ hroot hf hl => exact ⟨hroot, Or.inl ⟨hop, hf, hl⟩⟩
  | copied hop _ _ hroot v ho hb => exact ⟨hroot, Or.inr ⟨hop, v, ho, hb⟩⟩

/-- An instruction that is a PHI was created as one. -/
theorem phi_of_isPhi (h : Sound L busy s B) {j : Inst} (hj : j ∈ B.code b)
    (hop : j.op = .phi) : ∃ x, L.phi j.id = some (x, b) := by
  obtain ⟨head, tail, hcode, hhead, htail⟩ := h.layout b
  rw [hcode, List.mem_append] at hj
  rcases hj with hmem | hmem
  · obtain ⟨⟨x, c⟩, hx⟩ := Option.isSome_iff_exists.mp (hhead j hmem)
    obtain rfl := h.phi_block (hcode ▸ List.mem_append_left _ hmem) hx
    exact ⟨x, hx⟩
  · obtain ⟨e, _, hk⟩ := forall₂_exists_left htail hmem
    exact absurd (hk.op.symm.trans hop) hk.not_phi

/-- What was never a PHI is none now. -/
theorem inert_of_base (h : Sound L busy s B) (hv : L.Base s.nextId v) : B.Inert s.nextId v := by
  intro i hi
  obtain ⟨hlt, hnone⟩ := hv i hi
  refine ⟨hlt, fun c j hj hid hop => ?_⟩
  obtain ⟨x, hx⟩ := h.phi_of_isPhi hj hop
  rw [hid, hnone] at hx
  cases hx

/-- For as long as it is one, a PHI is nowhere written. -/
theorem unwritten (h : Sound L busy s B) {j : Inst} (hj : j ∈ B.code b) (hop : j.op = .phi)
    (y : Nat) : L.Unwritten y (.result j.id) := by
  refine fun c => ⟨fun hw => ?_, fun hs => ?_⟩
  · exact (h.write_inert y c _ hw j.id rfl).2 b j hj rfl hop
  · obtain ⟨x, hx⟩ := h.phi_of_isPhi hj hop
    have := (h.start_base y c _ hs j.id rfl).2
    simp [hx] at this

end Sound

theorem Standing.mono {busy' : Nat → Option Progress} {preds preds' : Nat → List Nat} {j : Inst}
    (h : Standing L busy s preds x b j) (hc : L.Carries L' preds preds')
    (hpreds : ¬ L.root b → preds' b = preds b) (hroot : L'.root b ↔ L.root b)
    (hbusy : busy' j.id = busy j.id) (hwaits : s'.Waits x b j.id ↔ s.Waits x b j.id) :
    Standing L' busy' s' preds' x b j := by
  cases h with
  | waiting hop hb hw hr ho =>
    exact .waiting hop (hbusy.trans hb) (hwaits.mpr hw) (hroot.mpr hr) ho
  | filling hop n hb hw hr hf hl =>
    exact .filling hop n (hbusy.trans hb) (hwaits.not.mpr hw) (hroot.not.mpr hr)
      (hf.mono hc (hpreds hr)) hl
  | complete hop hb hw hr hf hl =>
    exact .complete hop (hbusy.trans hb) (hwaits.not.mpr hw) (hroot.not.mpr hr)
      (hf.mono hc (hpreds hr)) (hpreds hr ▸ hl)
  | copied hop hb hw hr v ho hv =>
    exact .copied hop (hbusy.trans hb) (hwaits.not.mpr hw) (hroot.not.mpr hr) v ho (hc.before hv)

end Builder

/-! ## Frames -/

namespace Builder

section Frames

variable {L L' : Ledger} {s s' s'' : Builder} {B B' B'' : Body} {n : Nat}

/-- What no read and no removal changes. -/
structure Steady (s : Builder) (B : Body) (s' : Builder) (B' : Body) : Prop where
  nextId : s.nextId ≤ s'.nextId
  compiled : s'.compiled = s.compiled
  current : s'.current = s.current
  globalDefs : s'.globalDefs = s.globalDefs
  sealedBlocks : s'.sealedBlocks = s.sealedBlocks
  name : s'.opened.map OpenFunction.name = s.opened.map OpenFunction.name
  frame : B.SameFrame B'
  defs : ∀ k a, s.defs.get? k = some a → ∃ a', s'.defs.get? k = some a'

namespace Steady

theorem refl : Steady s B s B :=
  ⟨le_rfl, rfl, rfl, rfl, rfl, rfl, .refl, fun _ a ha => ⟨a, ha⟩⟩

theorem trans (h : Steady s B s' B') (h' : Steady s' B' s'' B'') : Steady s B s'' B'' where
  nextId := h.nextId.trans h'.nextId
  compiled := h'.compiled.trans h.compiled
  current := h'.current.trans h.current
  globalDefs := h'.globalDefs.trans h.globalDefs
  sealedBlocks := h'.sealedBlocks.trans h.sealedBlocks
  name := h'.name.trans h.name
  frame := h.frame.trans h'.frame
  defs k a ha := by
    obtain ⟨a', ha'⟩ := h.defs k a ha
    exact h'.defs k a' ha'

theorem preds (h : Steady s B s' B') : B'.preds = B.preds := funext h.frame.preds

theorem isSealed (h : Steady s B s' B') (b : Nat) : s'.isSealed b = s.isSealed b := by
  rw [Builder.isSealed, h.sealedBlocks]
  rfl

end Steady

/-- The users below a number are those of before. -/
def OldUsers (n : Nat) (B B' : Body) : Prop :=
  ∀ b, ∀ j ∈ B'.code b, ∀ u ∈ j.users, u < n → ∃ i ∈ B.code b, i.id = j.id ∧ u ∈ i.users

theorem OldUsers.refl : OldUsers n B B := fun _ j hj _ hu _ => ⟨j, hj, rfl, hu⟩

theorem OldUsers.trans {m : Nat} (h : OldUsers n B B') (h' : OldUsers m B' B'') (hnm : n ≤ m) :
    OldUsers n B B'' := by
  intro b j hj u hu hlt
  obtain ⟨i, hi, hid, hui⟩ := h' b j hj u hu (lt_of_lt_of_le hlt hnm)
  obtain ⟨k, hk, hkid, huk⟩ := h b i hi u hui hlt
  exact ⟨k, hk, hkid.trans hid, huk⟩

/-- What completions, removals and reads do: at most PHIs come in, values before roots
are found, and there is no new user below `n`. -/
structure Extended (n : Nat) (L : Ledger) (s : Builder) (B : Body) (L' : Ledger) (s' : Builder)
    (B' : Body) : Prop where
  phi : ∀ i < s.nextId, L'.phi i = L.phi i
  write : L'.write = L.write
  root : L'.root = L.root
  emitted : L'.emitted = L.emitted
  start : ∀ x b v, L.start x b = some v → L'.start x b = some v
  found : ∀ x b v, L'.start x b = some v →
    L.start x b = some v ∨ v = s.globalValue x ∧ s.defs.get? (x, b) = none
  steady : Steady s B s' B'
  users : OldUsers n B B'

namespace Extended

/-- The ledger stays as it is. -/
theorem of_steady (h : Steady s B s' B') (hu : OldUsers n B B') : Extended n L s B L s' B' :=
  ⟨fun _ _ => rfl, rfl, rfl, rfl, fun _ _ _ h => h, fun _ _ _ => Or.inl, h, hu⟩

theorem refl : Extended n L s B L s B := of_steady .refl .refl

theorem trans {m : Nat} {L'' : Ledger} (h : Extended n L s B L' s' B')
    (h' : Extended m L' s' B' L'' s'' B'') (hnm : n ≤ m) : Extended n L s B L'' s'' B'' where
  phi i hi := (h'.phi i (lt_of_lt_of_le hi h.steady.nextId)).trans (h.phi i hi)
  write := h'.write.trans h.write
  root := h'.root.trans h.root
  emitted := h'.emitted.trans h.emitted
  start x b v hv := h'.start x b v (h.start x b v hv)
  found x b v hv := by
    rcases h'.found x b v hv with hv | ⟨rfl, hnone⟩
    · exact h.found x b v hv
    · refine Or.inr ⟨by rw [globalValue, h.steady.globalDefs]; rfl, ?_⟩
      by_contra hne
      obtain ⟨a, ha⟩ := Option.ne_none_iff_exists'.mp hne
      obtain ⟨a', ha'⟩ := h.steady.defs _ a ha
      simp [hnone] at ha'
  steady := h.steady.trans h'.steady
  users := h.users.trans h'.users hnm

theorem grows {busy : Nat → Option Progress} (h : Extended n L s B L' s' B')
    (hs : Sound L busy s B) : L.Grows L' where
  phi p _ hp := (h.phi p (hs.phi_lt hp)).trans hp
  write := h.write
  start := h.start
  root _ hb := h.root ▸ hb

end Extended

end Frames

end Builder

/-! ## A new PHI -/

/-- The ledger with one more PHI. -/
def Ledger.withPhi (L : Ledger) (p x b : Nat) : Ledger :=
  { L with phi := fun q => if q = p then some (x, b) else L.phi q }

section WithPhi

variable {L : Ledger} {p q x b : Nat}

@[simp] theorem Ledger.phi_withPhi_self : (L.withPhi p x b).phi p = some (x, b) := if_pos rfl

theorem Ledger.phi_withPhi_of_ne (h : q ≠ p) : (L.withPhi p x b).phi q = L.phi q := if_neg h

theorem Ledger.grows_withPhi (hp : L.phi p = none) : L.Grows (L.withPhi p x b) where
  phi q xb hq := by
    rw [Ledger.phi_withPhi_of_ne, hq]
    rintro rfl
    simp [hp] at hq
  write := rfl
  start _ _ _ h := h
  root _ h := h

end WithPhi

namespace Builder

variable {L L' : Ledger} {busy busy' : Nat → Option Progress} {s s' : Builder} {B B' : Body}
  {x b p n : Nat} {v : Value}

/-- A new PHI of a variable that has no definition yet in the block.  The two ways in
which a PHI comes in differ in what it waits for. -/
theorem Sound.insertPhi (h : Sound L busy s B) (hdefs : s.defs.get? (x, b) = none)
    (hB : B.insertPhi { op := .phi, id := s.nextId, block := b } = .ok B')
    (hopened : ∃ fn, s'.opened = some fn ∧ fn.body = B')
    (hnext : s'.nextId = s.nextId + 1) (hsealed : s'.sealedBlocks = s.sealedBlocks)
    (hd : s'.defs = s.defs.insert (x, b) (.result s.nextId))
    (hwaits : ∀ y c q, s'.Waits y c q →
      s.Waits y c q ∨ y = x ∧ c = b ∧ q = s.nextId ∧ s.isSealed b = false)
    (hwaits' : ∀ y c q, s.Waits y c q → s'.Waits y c q)
    (hpending : ∀ c l, s'.pending.get? c = some l → (l.map Prod.fst).Nodup)
    (hbusy : ∀ q, q ≠ s.nextId → busy' q = busy q)
    (hbusy_le : ∀ n, busy' s.nextId = some n → n.limit ≤ s.nextId + 1)
    (hnew : Standing (L.withPhi s.nextId x b) busy' s' B.preds x b
      { op := .phi, id := s.nextId, block := b }) :
    Sound (L.withPhi s.nextId x b) busy' s' B' := by
  obtain ⟨hlt, hframe, hcode, hhome⟩ := Body.insertPhi_ok hB
  have hpreds : B'.preds = B.preds := funext hframe.preds
  have hnone : L.phi s.nextId = none := h.phi_none_of_le le_rfl
  have hg : L.Grows (L.withPhi s.nextId x b) := Ledger.grows_withPhi hnone
  have hold : ∀ i < s.nextId, (L.withPhi s.nextId x b).phi i = L.phi i :=
    fun i hi => Ledger.phi_withPhi_of_ne (Nat.ne_of_lt hi)
  have hperm : ∀ c, (B'.code c).Perm
      (if c = b then { op := .phi, id := s.nextId, block := b } :: B.code c else B.code c) := by
    intro c
    rw [hcode]
    split
    · refine List.perm_middle.trans (List.Perm.cons _ ?_)
      rw [List.takeWhile_append_dropWhile]
    · exact List.Perm.refl _
  have hmem : ∀ c j, j ∈ B'.code c ↔
      c = b ∧ j = { op := .phi, id := s.nextId, block := b } ∨ j ∈ B.code c := by
    intro c j
    rw [(hperm c).mem_iff]
    split <;> simp [*]
  have hfresh : ∀ c, ∀ j ∈ B.code c, j.id ≠ s.nextId :=
    fun c j hj => Nat.ne_of_lt (h.bound c j hj)
  have hsealed' : ∀ c, s'.isSealed c = s.isSealed c := fun c => by simp [isSealed, hsealed]
  have hnowrite : L.write x b = none := by
    by_contra hw
    obtain ⟨c, hc⟩ := Option.ne_none_iff_exists'.mp hw
    simp [h.write_defs x b c hc] at hdefs
  have hget : ∀ k, s'.defs.get? k =
      if (x, b) = k then some (.result s.nextId) else s.defs.get? k := by
    intro k
    rw [hd, OrderedMap.get?_insert]
  have hget_of_some : ∀ k a, s.defs.get? k = some a → s'.defs.get? k = some a := by
    intro k a hk
    rw [hget, if_neg, hk]
    rintro rfl
    simp [hdefs] at hk
  constructor
  case opened => exact hopened
  case indexed => exact h.indexed.insert hfresh hperm hhome
  case bound =>
    intro c j hj
    rw [hnext]
    rcases (hmem c j).mp hj with ⟨_, rfl⟩ | hj
    · exact Nat.lt_succ_self _
    · exact Nat.lt_succ_of_lt (h.bound c j hj)
  case users_lt =>
    intro c j hj u hu
    rw [hnext]
    rcases (hmem c j).mp hj with ⟨_, rfl⟩ | hj
    · cases hu
    · exact Nat.lt_succ_of_lt (h.users_lt c j hj u hu)
  case preds_lt =>
    rw [hpreds, hframe.size]
    exact h.preds_lt
  case phi_mem =>
    intro q y c hq
    by_cases hqp : q = s.nextId
    · subst hqp
      rw [Ledger.phi_withPhi_self] at hq
      cases hq
      exact ⟨_, (hmem b _).mpr (Or.inl ⟨rfl, rfl⟩), rfl⟩
    · rw [Ledger.phi_withPhi_of_ne hqp] at hq
      obtain ⟨j, hj, hid⟩ := h.phi_mem q y c hq
      exact ⟨j, (hmem c j).mpr (Or.inr hj), hid⟩
  case phi_inj =>
    -- no older PHI is of this variable and block, for it would have a definition
    have hno : ∀ q, L.phi q ≠ some (x, b) := by
      intro q hq
      obtain ⟨a, ha⟩ := h.phi_defs q x b hq
      simp [hdefs] at ha
    intro q r xb hq hr
    by_cases hqp : q = s.nextId <;> by_cases hrp : r = s.nextId
    · rw [hqp, hrp]
    · subst hqp
      rw [Ledger.phi_withPhi_self] at hq
      rw [Ledger.phi_withPhi_of_ne hrp, ← hq] at hr
      exact absurd hr (hno r)
    · subst hrp
      rw [Ledger.phi_withPhi_self] at hr
      rw [Ledger.phi_withPhi_of_ne hqp, ← hr] at hq
      exact absurd hq (hno q)
    · rw [Ledger.phi_withPhi_of_ne hqp] at hq
      rw [Ledger.phi_withPhi_of_ne hrp] at hr
      exact h.phi_inj q r xb hq hr
  case phi_defs =>
    intro q y c hq
    by_cases hqp : q = s.nextId
    · subst hqp
      rw [Ledger.phi_withPhi_self] at hq
      cases hq
      exact ⟨_, (hget _).trans (if_pos rfl)⟩
    · rw [Ledger.phi_withPhi_of_ne hqp] at hq
      obtain ⟨a, ha⟩ := h.phi_defs q y c hq
      exact ⟨a, hget_of_some _ _ ha⟩
  case standing =>
    intro c j hj y hy
    rw [hpreds]
    rcases (hmem c j).mp hj with ⟨rfl, rfl⟩ | hj
    · rw [Ledger.phi_withPhi_self] at hy
      cases hy
      exact hnew
    · have hne := hfresh c j hj
      rw [Ledger.phi_withPhi_of_ne hne] at hy
      refine (h.standing c j hj y hy).mono hg.carries (fun _ => rfl) Iff.rfl (hbusy _ hne)
        ⟨fun hw => ?_, hwaits' y c j.id⟩
      rcases hwaits y c j.id hw with hw | ⟨_, _, hq, _⟩
      · exact hw
      · exact absurd hq hne
  case layout =>
    intro c
    obtain ⟨head, tail, hsplit, hhead, htail⟩ := h.layout c
    have hbnd : ∀ j ∈ tail, j.id < s.nextId := fun j hj =>
      h.bound c j (hsplit ▸ List.mem_append_right _ hj)
    have htail' : List.Forall₂ (Kept (L.withPhi s.nextId x b) s'.nextId B'.preds c)
        ((L.withPhi s.nextId x b).emitted c) tail := by
      rw [hpreds]
      exact forall₂_imp_of_mem htail fun e j hj hk =>
        hk.mono hg.carries (hnext ▸ Nat.le_succ _) hold (hbnd j hj)
    have hhead' : ∀ j ∈ head, ((L.withPhi s.nextId x b).phi j.id).isSome := by
      intro j hj
      rw [hold _ (h.bound c j (hsplit ▸ List.mem_append_left _ hj))]
      exact hhead j hj
    by_cases hc : c = b
    · -- what was emitted is no PHI, so the new one comes in before it
      have hphi : ∀ j ∈ tail, Inst.isPhi j = false := by
        intro j hj
        obtain ⟨e, _, hk⟩ := forall₂_exists_left htail hj
        simpa [Inst.isPhi, hk.op] using hk.not_phi
      obtain ⟨htake, hdrop⟩ := takeWhile_dropWhile_append head hphi
      refine ⟨head.takeWhile Inst.isPhi ++ { op := .phi, id := s.nextId, block := b } ::
        head.dropWhile Inst.isPhi, tail, ?_, ?_, htail'⟩
      · rw [hcode, if_pos hc, hsplit, htake, hdrop]
        simp
      · intro j hj
        rcases List.mem_append.mp hj with hj | hj
        · exact hhead' j ((List.takeWhile_sublist _).mem hj)
        · rcases List.mem_cons.mp hj with rfl | hj
          · simp
          · exact hhead' j ((List.dropWhile_sublist _).mem hj)
    · exact ⟨head, tail, by rw [hcode, if_neg hc, hsplit], hhead', htail'⟩
  case write_defs => exact fun y c d hw => hget_of_some _ _ (h.write_defs y c d hw)
  case write_inert =>
    intro y c d hw
    refine (h.write_inert y c d hw).mono (hnext ▸ Nat.le_succ _) fun e j hj hlt hop => ?_
    rcases (hmem e j).mp hj with ⟨_, rfl⟩ | hj
    · exact absurd hlt (lt_irrefl _)
    · exact ⟨j, hj, rfl, hop⟩
  case start_base => exact fun y c d hs => (h.start_base y c d hs).mono (hnext ▸ Nat.le_succ _) hold
  case defs_atEnd =>
    intro y c a ha
    rw [hpreds]
    rw [hget] at ha
    split at ha
    · next heq =>
      cases heq
      cases ha
      intro π _
      refine Ledger.Enters.reaches (Or.inl ⟨s.nextId, rfl, ?_⟩) hnowrite
      exact Ledger.phi_withPhi_self
    · exact hg.atEnd (h.defs_atEnd y c a ha)
  case waits_phi =>
    intro y c q hw
    rcases hwaits y c q hw with hw | ⟨rfl, rfl, rfl, _⟩
    · have hq := h.waits_phi y c q hw
      rw [hold q (h.phi_lt hq), hq]
    · exact Ledger.phi_withPhi_self
  case waits_open =>
    intro y c q hw
    rw [hsealed']
    rcases hwaits y c q hw with hw | ⟨rfl, rfl, rfl, ho⟩
    · exact h.waits_open y c q hw
    · exact ho
  case waits_users =>
    intro y c q hw d j hj hu
    rcases (hmem d j).mp hj with ⟨_, rfl⟩ | hj
    · cases hu
    · rcases hwaits y c q hw with hw | ⟨rfl, rfl, rfl, _⟩
      · exact h.waits_users y c q hw d j hj hu
      · exact absurd (h.users_lt d j hj _ hu) (lt_irrefl _)
  case pending_nodup => exact hpending
  case busy_phi =>
    intro q m hq
    by_cases hqp : q = s.nextId
    · subst hqp
      simp
    · rw [hbusy q hqp] at hq
      rw [Ledger.phi_withPhi_of_ne hqp]
      exact h.busy_phi q m hq
  case busy_le =>
    intro q m hq
    rw [hnext]
    by_cases hqp : q = s.nextId
    · subst hqp
      exact hbusy_le m hq
    · rw [hbusy q hqp] at hq
      exact Nat.le_succ_of_le (h.busy_le q m hq)
  case busy_users =>
    intro q m hq d j hj hu
    rcases (hmem d j).mp hj with ⟨_, rfl⟩ | hj
    · cases hu
    · by_cases hqp : q = s.nextId
      · subst hqp
        exact absurd (h.users_lt d j hj _ hu) (lt_irrefl _)
      · rw [hbusy q hqp] at hq
        exact h.busy_users q m hq d j hj hu
  case root_sealed =>
    intro c hc hs
    rw [hsealed'] at hs
    rw [hpreds]
    exact h.root_sealed c hc hs
  case start_sealed =>
    intro y c d hs
    rw [hsealed']
    exact h.start_sealed y c d hs
  case start_defs =>
    intro y c d hs
    obtain ⟨a, ha⟩ := h.start_defs y c d hs
    exact ⟨a, hget_of_some _ _ ha⟩

theorem newPhi_eq_ok : newPhi b s = .ok p s' ↔
    p = s.nextId ∧ ∃ fn B', s.opened = some fn ∧
      fn.body.insertPhi { op := .phi, id := s.nextId, block := b } = .ok B' ∧
      s' = { s with nextId := s.nextId + 1, opened := some { fn with body := B' } } := by
  unfold newPhi
  simp only [bind_eq_ok, freshId_eq_ok, changeBody_eq_ok, pure_eq_ok]
  constructor
  · rintro ⟨_, _, ⟨rfl, rfl⟩, _, _, ⟨fn, B', hfn, hB, rfl⟩, rfl, rfl⟩
    cases hins : fn.body.insertPhi { op := .phi, id := s.nextId, block := b } with
    | error e =>
      rw [hins] at hB
      cases hB
    | ok C =>
      rw [hins] at hB
      cases hB
      exact ⟨rfl, fn, B', hfn, hins, rfl⟩
  · rintro ⟨rfl, fn, B', hfn, hB, rfl⟩
    exact ⟨_, _, ⟨rfl, rfl⟩, (), _, ⟨fn, B', hfn, by rw [hB]; rfl, rfl⟩, rfl, rfl⟩

/-- Nothing else changes when a PHI comes in. -/
theorem extended_insertPhi
    (hB : B.insertPhi { op := .phi, id := s.nextId, block := b } = .ok B') {fn : OpenFunction}
    (hfn : s.opened = some fn) (pending : OrderedMap Nat (List (Nat × Nat))) :
    Extended n L s B (L.withPhi s.nextId x b)
      { s with
        nextId := s.nextId + 1
        opened := some { fn with body := B' }
        defs := s.defs.insert (x, b) v
        pending := pending } B' := by
  obtain ⟨_, hframe, hcode, _⟩ := Body.insertPhi_ok hB
  refine ⟨fun i hi => Ledger.phi_withPhi_of_ne (Nat.ne_of_lt hi), rfl, rfl, rfl,
    fun _ _ _ h => h, fun _ _ _ => Or.inl,
    ⟨Nat.le_succ _, rfl, rfl, rfl, rfl, by simp [hfn], hframe, fun k a ha => ?_⟩, ?_⟩
  · by_cases hk : (x, b) = k
    · exact ⟨v, by rw [OrderedMap.get?_insert, if_pos hk]⟩
    · exact ⟨a, by rw [OrderedMap.get?_insert, if_neg hk, ha]⟩
  · intro c j hj u hu _
    rw [hcode] at hj
    split at hj
    · rcases List.mem_append.mp hj with hj | hj
      · exact ⟨j, (List.takeWhile_sublist _).mem hj, rfl, hu⟩
      · rcases List.mem_cons.mp hj with rfl | hj
        · cases hu
        · exact ⟨j, (List.dropWhile_sublist _).mem hj, rfl, hu⟩
    · exact ⟨j, hj, rfl, hu⟩

/-- A new PHI is put among those that wait. -/
theorem insertPending_perm {l : List (Nat × Nat)} (hl : ∀ e ∈ l, e.1 ≠ x) :
    (insertPending x p l).Perm ((x, p) :: l) := by
  induction l with
  | nil => exact List.Perm.refl _
  | cons e l ih =>
    obtain ⟨y, q⟩ := e
    have hne : x ≠ y := (hl (y, q) (List.mem_cons_self ..)).symm
    unfold insertPending
    by_cases hlt : x < y
    · rw [if_pos hlt]
    · rw [if_neg hlt, if_neg hne]
      exact ((ih fun e he => hl e (List.mem_cons_of_mem _ he)).cons _).trans
        (List.Perm.swap _ _ _)

/-- Where a variable has no value, none of the PHIs that wait is of the variable. -/
theorem Sound.ne_of_pending (h : Sound L busy s B) (hdefs : s.defs.get? (x, b) = none) :
    ∀ e ∈ (s.pending.get? b).getD [], e.1 ≠ x := by
  rintro ⟨y, q⟩ he rfl
  cases hl : s.pending.get? b with
  | none => simp [hl] at he
  | some l =>
    rw [hl] at he
    obtain ⟨a, ha⟩ := h.phi_defs q y b (h.waits_phi y b q ⟨l, hl, he⟩)
    simp [hdefs] at ha

theorem waits_insertPending {y c : Nat} (hother : ∀ e ∈ (s.pending.get? b).getD [], e.1 ≠ x)
    (hs' : s'.pending = s.pending.insert b (insertPending x p ((s.pending.get? b).getD []))) :
    s'.Waits y c q ↔ s.Waits y c q ∨ y = x ∧ c = b ∧ q = p := by
  have hperm := insertPending_perm (p := p) hother
  unfold Waits
  rw [hs', OrderedMap.get?_insert]
  by_cases hbc : b = c
  · subst hbc
    rw [if_pos rfl]
    constructor
    · rintro ⟨l, hl, hmem⟩
      cases hl
      rcases List.mem_cons.mp (hperm.mem_iff.mp hmem) with heq | hmem
      · cases heq
        exact Or.inr ⟨rfl, rfl, rfl⟩
      · cases hl : s.pending.get? b with
        | none => simp [hl] at hmem
        | some l => exact Or.inl ⟨l, rfl, by simpa [hl] using hmem⟩
    · rintro (⟨l, hl, hmem⟩ | ⟨rfl, _, rfl⟩)
      · refine ⟨_, rfl, hperm.mem_iff.mpr (List.mem_cons_of_mem _ ?_)⟩
        rw [hl]
        exact hmem
      · exact ⟨_, rfl, hperm.mem_iff.mpr (List.mem_cons_self ..)⟩
  · rw [if_neg hbc, or_iff_left fun h => hbc h.2.1.symm]

/-- In a block that is not sealed a new PHI waits. -/
theorem Sound.insertWaiting (h : Sound L busy s B) (hdefs : s.defs.get? (x, b) = none)
    (hopen : s.isSealed b = false) (hroot : L.root b)
    {s₁ s₂ : Builder} (hnew : newPhi b s = .ok p s₁) (hpend : addPending b x p s₁ = .ok () s₂) :
    ∃ B', Sound (L.withPhi s.nextId x b) busy
        { s₂ with defs := s₂.defs.insert (x, b) (.result p) } B' ∧
      Extended n L s B (L.withPhi s.nextId x b)
        { s₂ with defs := s₂.defs.insert (x, b) (.result p) } B' := by
  obtain ⟨rfl, fn, B', hfn, hB, rfl⟩ := newPhi_eq_ok.mp hnew
  rw [addPending, modify_eq_ok] at hpend
  subst hpend
  obtain ⟨fn', hfn', rfl⟩ := h.opened
  obtain rfl := Option.some.inj (hfn.symm.trans hfn')
  have hother := h.ne_of_pending hdefs
  refine ⟨B', h.insertPhi hdefs hB ⟨_, rfl, rfl⟩ rfl rfl rfl ?_ ?_ ?_ (fun _ _ => rfl) ?_ ?_,
    extended_insertPhi hB hfn _⟩
  · intro y c q hw
    rcases (waits_insertPending hother rfl).mp hw with hw | ⟨rfl, rfl, rfl⟩
    · exact Or.inl hw
    · exact Or.inr ⟨rfl, rfl, rfl, hopen⟩
  · exact fun y c q hw => (waits_insertPending hother rfl).mpr (Or.inl hw)
  · intro c l hl
    rw [OrderedMap.get?_insert] at hl
    split at hl
    · cases hl
      rw [((insertPending_perm hother).map _).nodup_iff, List.map_cons, List.nodup_cons]
      constructor
      · intro hx
        obtain ⟨e, he, hex⟩ := List.mem_map.mp hx
        exact hother e he hex
      · cases hl : s.pending.get? b with
        | none => simp
        | some l => exact h.pending_nodup b l hl
    · exact h.pending_nodup c l hl
  · intro m hm
    simp [h.busy_none_of_le le_rfl] at hm
  · exact .waiting rfl (h.busy_none_of_le le_rfl)
      ((waits_insertPending hother rfl).mpr (Or.inr ⟨rfl, rfl, rfl⟩)) hroot rfl

/-- In a sealed block a new PHI is completed at once. -/
theorem Sound.insertBusy (h : Sound L busy s B) (hdefs : s.defs.get? (x, b) = none)
    (hroot : ¬ L.root b) (hnew : newPhi b s = .ok p s') :
    ∃ B', Sound (L.withPhi s.nextId x b) (Function.update busy p (some ⟨0, 0⟩))
        { s' with defs := s'.defs.insert (x, b) (.result p) } B' ∧
      Extended n L s B (L.withPhi s.nextId x b)
        { s' with defs := s'.defs.insert (x, b) (.result p) } B' := by
  obtain ⟨rfl, fn, B', hfn, hB, rfl⟩ := newPhi_eq_ok.mp hnew
  obtain ⟨fn', hfn', rfl⟩ := h.opened
  obtain rfl := Option.some.inj (hfn.symm.trans hfn')
  refine ⟨B', h.insertPhi hdefs hB ⟨_, rfl, rfl⟩ rfl rfl rfl (fun _ _ _ => Or.inl)
    (fun _ _ _ hw => hw) h.pending_nodup (fun q hq => Function.update_of_ne hq ..) ?_ ?_,
    extended_insertPhi hB hfn _⟩
  · intro m hm
    rw [Function.update_self] at hm
    cases hm
    exact Nat.zero_le _
  · refine .filling rfl ⟨0, 0⟩ (Function.update_self ..) (fun hw => ?_) hroot
      (fun k o ho => by simp at ho) rfl
    have := h.phi_lt (h.waits_phi x b s.nextId hw)
    exact absurd this (lt_irrefl _)

/-! ## Completing a PHI -/

theorem steady_remember : Steady s B { s with defs := s.defs.insert (x, b) v } B := by
  refine ⟨le_rfl, rfl, rfl, rfl, rfl, rfl, .refl, fun k a ha => ?_⟩
  by_cases hk : (x, b) = k
  · exact ⟨v, by rw [OrderedMap.get?_insert, if_pos hk]⟩
  · exact ⟨a, by rw [OrderedMap.get?_insert, if_neg hk, ha]⟩

/-- A definition is recorded. -/
theorem Sound.remember (h : Sound L busy s B) (hw : L.write x b = none)
    (ha : L.AtEnd x v B.preds b) :
    Sound L busy { s with defs := s.defs.insert (x, b) v } B := by
  have hget : ∀ k, (s.defs.insert (x, b) v).get? k =
      if (x, b) = k then some v else s.defs.get? k := fun k => OrderedMap.get?_insert ..
  refine { h with
    phi_defs := ?_, standing := ?_, write_defs := ?_, defs_atEnd := ?_, start_defs := ?_ }
  · intro q y c hq
    obtain ⟨a, hac⟩ := h.phi_defs q y c hq
    exact (steady_remember (B := B)).defs _ a hac
  · intro c j hj y hy
    exact (h.standing c j hj y hy).mono Ledger.Grows.refl.carries (fun _ => rfl) Iff.rfl rfl Iff.rfl
  · intro y c d hyc
    rw [hget, if_neg]
    · exact h.write_defs y c d hyc
    · rintro ⟨rfl, rfl⟩
      simp [hw] at hyc
  · intro y c a hyc
    rw [hget] at hyc
    split at hyc
    · next heq =>
      cases heq
      cases hyc
      exact ha
    · exact h.defs_atEnd y c a hyc
  · intro y c d hs
    obtain ⟨a, hac⟩ := h.start_defs y c d hs
    exact (steady_remember (B := B)).defs _ a hac

/-- Instructions are changed in their places, and definitions along with them. -/
theorem Sound.mapInsts (h : Sound L busy s B) {fn : OpenFunction} {f : Inst → Inst}
    {defs : OrderedMap (Nat × Nat) Value} {removed : List Nat}
    (hf : ∀ b, ∀ j ∈ B.code b, (f j).id = j.id ∧ (f j).block = j.block)
    (hop : ∀ b, ∀ j ∈ B.code b, (f j).op = .phi → j.op = .phi)
    (husers : ∀ b, ∀ j ∈ B.code b, ∀ u ∈ (f j).users, u < s.nextId)
    (hstanding : ∀ b, ∀ j ∈ B.code b, ∀ x, L.phi j.id = some (x, b) →
      Standing L busy' s B.preds x b (f j))
    (hkept : ∀ b e, ∀ j ∈ B.code b, Kept L s.nextId B.preds b e j →
      Kept L s.nextId B.preds b e (f j))
    (hwaits : ∀ x b p, s.Waits x b p → ∀ c, ∀ j ∈ B.code c, p ∉ (f j).users)
    (hbusy_phi : ∀ p n, busy' p = some n → (L.phi p).isSome)
    (hbusy_le : ∀ p n, busy' p = some n → n.limit ≤ s.nextId)
    (hbusy_users : ∀ p n, busy' p = some n → ∀ b, ∀ j ∈ B.code b, p ∈ (f j).users →
      j.id < n.limit)
    (hdom : ∀ x b a, s.defs.get? (x, b) = some a → ∃ a', defs.get? (x, b) = some a')
    (hwrite : ∀ x b c, L.write x b = some c → defs.get? (x, b) = some c)
    (hatEnd : ∀ x b a, defs.get? (x, b) = some a → L.AtEnd x a B.preds b) :
    Sound L busy' { s with opened := some { fn with body := B.mapInsts f }, defs, removed }
      (B.mapInsts f) := by
  have hpreds : (B.mapInsts f).preds = B.preds := funext (Body.preds_mapInsts B f)
  have hmem : ∀ b j, j ∈ (B.mapInsts f).code b ↔ ∃ i ∈ B.code b, f i = j := fun b j => by
    rw [Body.code_mapInsts, List.mem_map]
  constructor
  case opened => exact ⟨_, rfl, rfl⟩
  case indexed => exact h.indexed.mapInsts hf
  case bound =>
    intro b j hj
    obtain ⟨i, hi, rfl⟩ := (hmem b j).mp hj
    rw [(hf b i hi).1]
    exact h.bound b i hi
  case users_lt =>
    intro b j hj
    obtain ⟨i, hi, rfl⟩ := (hmem b j).mp hj
    exact husers b i hi
  case preds_lt =>
    rw [hpreds, Body.size_mapInsts]
    exact h.preds_lt
  case phi_mem =>
    intro p x b hp
    obtain ⟨j, hj, hid⟩ := h.phi_mem p x b hp
    exact ⟨f j, (hmem b _).mpr ⟨j, hj, rfl⟩, (hf b j hj).1.trans hid⟩
  case phi_inj => exact h.phi_inj
  case phi_defs =>
    intro p x b hp
    obtain ⟨a, ha⟩ := h.phi_defs p x b hp
    exact hdom x b a ha
  case standing =>
    intro b j hj x hx
    obtain ⟨i, hi, rfl⟩ := (hmem b j).mp hj
    rw [(hf b i hi).1] at hx
    rw [hpreds]
    exact (hstanding b i hi x hx).mono Ledger.Grows.refl.carries (fun _ => rfl) Iff.rfl rfl Iff.rfl
  case layout =>
    intro b
    obtain ⟨head, tail, hsplit, hhead, htail⟩ := h.layout b
    refine ⟨head.map f, tail.map f, ?_, ?_, ?_⟩
    · rw [Body.code_mapInsts, hsplit, List.map_append]
    · intro j hj
      obtain ⟨i, hi, rfl⟩ := List.mem_map.mp hj
      rw [(hf b i (hsplit ▸ List.mem_append_left _ hi)).1]
      exact hhead i hi
    · rw [List.forall₂_map_right_iff, hpreds]
      exact forall₂_imp_of_mem htail fun e j hj hk =>
        hkept b e j (hsplit ▸ List.mem_append_right _ hj) hk
  case write_defs => exact hwrite
  case write_inert =>
    intro x b c hw
    refine (h.write_inert x b c hw).mono le_rfl fun d j hj _ hphi => ?_
    obtain ⟨i, hi, rfl⟩ := (hmem d j).mp hj
    exact ⟨i, hi, (hf d i hi).1.symm, hop d i hi hphi⟩
  case start_base => exact h.start_base
  case defs_atEnd =>
    rw [hpreds]
    exact hatEnd
  case waits_phi => exact h.waits_phi
  case waits_open => exact h.waits_open
  case waits_users =>
    intro x b p hw c j hj
    obtain ⟨i, hi, rfl⟩ := (hmem c j).mp hj
    exact hwaits x b p hw c i hi
  case pending_nodup => exact h.pending_nodup
  case busy_phi => exact hbusy_phi
  case busy_le => exact hbusy_le
  case busy_users =>
    intro p n hp b j hj hu
    obtain ⟨i, hi, rfl⟩ := (hmem b j).mp hj
    rw [(hf b i hi).1]
    exact hbusy_users p n hp b i hi hu
  case root_sealed =>
    rw [hpreds]
    exact h.root_sealed
  case start_sealed => exact h.start_sealed
  case start_defs =>
    intro x b c hs
    obtain ⟨a, ha⟩ := h.start_defs x b c hs
    exact hdom x b a ha

end Builder

end Compiler16.Ssa
