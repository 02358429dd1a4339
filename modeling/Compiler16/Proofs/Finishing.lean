import Compiler16.Proofs.Invariance
import Compiler16.Proofs.ReadChanges

/-!
# How functions end

A function is finished once no PHI of it waits.  PHIs wait in blocks that are not sealed, so a
function all blocks of which are sealed can be finished, in every state that the operations of the
construction lead to.  But the converse is not true: a block that was never sealed goes unnoticed if
no variable was read there.

Where a PHI waits, the function is not finished, and it is lost all the same: it is not open any
more, and neither the sealing of the missing block nor another attempt to finish it brings it back.

## Main definitions

* `Orderly`: PHIs wait in open blocks with a definition

## Main results

* `orderly_keptByCalls`: every call keeps this
* `endFunction_outcome`: when a function is finished, and what is left if it is not
-/

namespace Compiler16.Ssa

open Compiler16.Source Compiler16.Flow Compiler16.Ssa.Builder

variable {α : Type} {c : Context} {o : Options} {s t : Builder} {B : Body}

/-! ## PHIs wait in open blocks -/

/-- If a function is open, its PHIs wait in blocks that exist and are not sealed. -/
def Attended (s : Builder) : Prop := ∀ B, s.body? = some B → s.Queued B ∧ s.Guarded

/-- What is kept: the index is exact, and PHIs wait where they should. -/
def Orderly (s : Builder) : Prop := Sane s ∧ Attended s

theorem Attended.of_opened (h : s.opened = none) : Attended s := by
  intro B hB
  rw [body?, h] at hB
  cases hB

theorem Orderly.of_closed (h : Closed s) : Orderly s := ⟨.of_opened h, .of_opened h⟩

theorem Orderly.of_coded (h : Coded s B) (hq : s.Queued B) (hg : s.Guarded) : Orderly s := by
  refine ⟨h.sane, fun C hC => ?_⟩
  obtain rfl := Option.some.inj (h.body.symm.trans hC)
  exact ⟨hq, hg⟩

/-- What was defined and what waits is the same, and the body is. -/
theorem Orderly.same (h : Orderly s) (hbody : t.body? = s.body?) (hnext : s.nextId ≤ t.nextId)
    (hpending : t.pending = s.pending) (hsealed : t.sealedBlocks = s.sealedBlocks)
    (hdefs : ∀ k a, s.defs.get? k = some a → ∃ a', t.defs.get? k = some a') : Orderly t := by
  refine ⟨h.1.same hbody hnext, fun B hB => ?_⟩
  obtain ⟨hq, hg⟩ := h.2 B (hbody ▸ hB)
  refine ⟨hq.mono hpending le_rfl, fun x b p hw => ?_⟩
  obtain ⟨hopen, a, ha⟩ := hg x b p ((waits_of_pending hpending).mp hw)
  refine ⟨?_, hdefs _ a ha⟩
  rwa [isSealed, hsealed]

theorem Leaves.and {P Q : Builder → Prop} {m : Build α} (hP : Leaves m s P) (hQ : Leaves m s Q) :
    Leaves m s fun t => P t ∧ Q t := by
  cases hrun : m s with
  | ok a t => exact .of_ok hrun ⟨Ends.ok hP hrun, Ends.ok hQ hrun⟩
  | error e t => exact .of_error hrun ⟨Ends.error hP hrun, Ends.error hQ hrun⟩

/-- The body is changed, and blocks may come. -/
theorem Orderly.changeBody {f : Body → Except Error (α × Body)} (h : Orderly s)
    (hsane : Leaves (Builder.changeBody f) s Sane)
    (hf : ∀ {B B' a}, Coded s B → f B = .ok (a, B') → B.graph.size ≤ B'.graph.size) :
    Leaves (Builder.changeBody f) s Orderly := by
  refine hsane.and ?_
  cases hfn : s.opened with
  | none => exact (Closed.changeBody hfn).imp (fun _ _ => False.elim) fun _ _ => .of_opened
  | some fn =>
    cases hrun : f fn.body with
    | error e => exact .of_error (changeBody_eq_error hfn hrun) h.2
    | ok r =>
      refine .of_ok (changeBody_eq_ok.mpr ⟨fn, r.2, hfn, hrun, rfl⟩) fun B hB => ?_
      obtain rfl : r.2 = B := Option.some.inj hB
      obtain ⟨hq, hg⟩ := h.2 fn.body (body?_of_opened hfn)
      exact ⟨hq.mono rfl (hf (h.1.coded hfn) hrun), hg⟩

theorem Orderly.addEdge (h : Orderly s) (p q : Nat) : Leaves (Builder.addEdge p q) s Orderly := by
  have hsane := h.1.addEdge p q
  rw [addEdge_eq_changeBody] at hsane ⊢
  exact h.changeBody hsane fun _ hrun => (Body.Grown.addEdge (changed_eq_ok.mp hrun)).size

theorem Orderly.append {i : Inst} (h : Orderly s) (hid : i.id = s.nextId) :
    Leaves (Builder.append i) { s with nextId := s.nextId + 1 } Orderly := by
  have hdrawn : Orderly { s with nextId := s.nextId + 1 } :=
    h.same rfl (Nat.le_succ _) rfl rfl fun _ a ha => ⟨a, ha⟩
  refine hdrawn.changeBody (h.1.append hid) fun {B B' a} hB hrun => ?_
  cases happend : B.append i with
  | error e =>
    rw [happend] at hrun
    cases hrun
  | ok C =>
    rw [happend] at hrun
    cases hrun
    exact ((h.1 B hB.body).append hid happend).2.1.size.ge

/-- A PHI that waits after changes is in order. -/
theorem Orderly.changes {wild : Prop} {K : Nat → Prop} {D : Nat × Nat → Prop} (hs : Coded s B)
    (hq : s.Queued B) (hg : s.Guarded) (h : Changes wild K D s t) : Orderly t := by
  obtain ⟨C, hC⟩ := h.follows hs
  exact .of_coded hC.coded (hC.queued hq) (h.guarded hs hg)

theorem Orderly.readVariable (h : Orderly s) (o : Options) (x b : Nat) :
    Leaves (Builder.readVariable o x b) s Orderly := by
  cases hfn : s.opened with
  | none =>
    exact Ends.get_bind
      ((Closed.readFrom hfn x _ b).imp (fun _ _ => of_closed) fun _ _ => of_closed)
  | some fn =>
    -- PHIs that wait may have been removed by hand, so the changes are wild
    have hs := h.1.coded hfn
    obtain ⟨hq, hg⟩ := h.2 fn.body hs.body
    exact (hs.readVariable_changes o (Or.inl trivial) x b).imp
      (fun _ _ ht => .changes hs hq hg ht.1) fun _ _ ht => .changes hs hq hg ht

theorem Orderly.sealBlock (h : Orderly s) (o : Options) (b : Nat) :
    Leaves (Builder.sealBlock o b) s Orderly := by
  cases hfn : s.opened with
  | none => exact (Closed.sealBlock hfn b).imp (fun _ _ => of_closed) fun _ _ => of_closed
  | some fn =>
    cases hsealed : s.isSealed b with
    | true => exact .of_ok ((sealBlock_of_sealed hsealed).mpr rfl) h
    | false =>
      have hs := h.1.coded hfn
      obtain ⟨hq, hg⟩ := h.2 fn.body hs.body
      have h₀ := hs.erase b
      refine (hs.sealBlock_changes o hg (Or.inl trivial) hsealed).imp ?_
        fun _ t ht => .changes h₀ hq.erase (hg.erase b) ht
      rintro _ _ ⟨t, ht, rfl⟩
      obtain ⟨C, hC⟩ := ht.follows h₀
      refine .of_coded (B := C) ⟨hC.coded.body, hC.coded.indexed, hC.coded.bound⟩
        (hC.queued hq.erase) fun x k p hw => ?_
      -- nothing waits in the block any more, and nothing has begun to
      have hkb : k ≠ b := by
        rcases ht.waits h₀ hw with hw | ⟨hD, _⟩
        · exact (waits_erase.mp hw).1
        · exact hD.1
      obtain ⟨hopen, hdefs⟩ := ht.guarded h₀ (hg.erase b) x k p hw
      refine ⟨?_, hdefs⟩
      simpa [isSealed, hkb] using hopen

theorem Orderly.removeTrivialPhi (h : Orderly s) (p : Nat) :
    Leaves (Builder.removeTrivialPhi p) s Orderly := by
  cases hfn : s.opened with
  | none => exact (Closed.getBody_bind hfn).imp (fun _ _ => of_closed) fun _ _ => of_closed
  | some fn =>
    have hs := h.1.coded hfn
    obtain ⟨hq, hg⟩ := h.2 fn.body hs.body
    obtain ⟨v, t, hrun, ht, _⟩ := hs.removeTrivialPhi_changes (p := p) (D := fun _ => False)
      (Or.inl trivial) .all trivial (Or.inl trivial)
    exact .of_ok hrun (.changes hs hq hg ht)

theorem Orderly.beginFunction (h : Orderly s) (name : String) :
    Leaves (Builder.beginFunction name) s Orderly := by
  cases hfn : s.opened with
  | none =>
    obtain ⟨entry, s', hrun⟩ := exists_beginFunction hfn name
    obtain ⟨_, B, hsound, _, _, _, _, _, hs'⟩ := Sound.begin hrun
    have hnone : ∀ b, s'.pending.get? b = none := fun b => by rw [hs']; rfl
    refine .of_ok hrun (.of_coded hsound.coded ?_ ?_)
    · intro b l hl
      cases (hnone b).symm.trans hl
    · rintro x b p ⟨l, hl, _⟩
      cases (hnone b).symm.trans hl
  | some fn =>
    refine Ends.get_bind ?_
    rw [hfn]
    exact .of_error rfl h

/-- **PHIs wait in open blocks**, whatever calls are made. -/
theorem orderly_keptByCalls (o : Options) : KeptByCalls o Orderly where
  new := .of_closed rfl
  draw h := h.same rfl (Nat.le_succ _) rfl rfl fun _ a ha => ⟨a, ha⟩
  compiled _ h := h.same rfl le_rfl rfl rfl fun _ a ha => ⟨a, ha⟩
  current _ h := h.same rfl le_rfl rfl rfl fun _ a ha => ⟨a, ha⟩
  publish _ _ h := h.same rfl le_rfl rfl rfl fun _ a ha => ⟨a, ha⟩
  write k v h := by
    refine h.same rfl le_rfl rfl rfl fun l a ha => ?_
    rw [OrderedMap.get?_insert]
    split
    · exact ⟨v, rfl⟩
    · exact ⟨a, ha⟩
  begin name h := h.beginFunction name
  finish _ := (endFunction_closed _).imp (fun _ _ => .of_closed) fun _ _ => .of_closed
  createBlock h := h.changeBody h.1.createBlock fun _ hrun => by
    cases hrun
    exact Body.Grown.createBlock.size
  addEdge p q h := h.addEdge p q
  argument v h := h.changeBody (h.1.argument v) fun _ hrun => by
    cases hrun
    exact Body.Grown.addArgument.size
  append _ hid _ h := h.append hid
  read x b h := h.readVariable o x b
  sealBlock b h := h.sealBlock o b
  remove p h := h.removeTrivialPhi p

/-! ## The end of a function -/

/-- The function under construction is given up. -/
def Builder.withoutFunction (s : Builder) : Builder := { s with opened := none, current := none }

/-- A computation that has no result ends in an error. -/
theorem Builder.Ends.exists_error {m : Build α} {E : Error → Builder → Prop}
    (h : Ends m s (fun _ _ => False) E) : ∃ e t, m s = .error e t ∧ E e t := by
  cases hrun : m s with
  | ok a t => exact (h.ok hrun).elim
  | error e t => exact ⟨e, t, rfl, h.error hrun⟩

theorem endFunction_of_closed (h : Closed s) :
    endFunction s = .error (.construction .noFunction) s := by
  have hends : Ends endFunction s (fun _ _ => False)
      fun e t => e = .construction .noFunction ∧ t = s := by
    refine Ends.get_bind ?_
    rw [show s.opened = none from h]
    exact .of_error rfl ⟨rfl, rfl⟩
  obtain ⟨_, _, hrun, rfl, rfl⟩ := hends.exists_error
  exact hrun

/-- A function in which a PHI waits is lost. -/
theorem endFunction_of_min {fn : OpenFunction} {b : Nat} (hfn : s.opened = some fn)
    (hmin : s.pending.keys.min? = some b) :
    endFunction s = .error (.construction (.unsealed fn.name b)) s.withoutFunction := by
  have hends : Ends endFunction s (fun _ _ => False)
      fun e t => e = .construction (.unsealed fn.name b) ∧ t = s.withoutFunction := by
    refine Ends.get_bind ?_
    rw [hfn]
    -- the function is taken out before anything is checked
    refine Ends.bind (Q := fun _ t => t = s.withoutFunction) (.of_ok rfl rfl) ?_
    rintro _ _ rfl
    rw [hmin]
    exact .of_error rfl ⟨rfl, rfl⟩
  obtain ⟨_, _, hrun, rfl, rfl⟩ := hends.exists_error
  exact hrun

/-- Where PHIs wait, the first block is found. -/
theorem Builder.Queued.min_keys (h : s.Queued B) :
    (s.pending.keys.min? = none ∧ ∀ x b p, ¬ s.Waits x b p) ∨
      ∃ b, s.pending.keys.min? = some b ∧ (∃ x p, s.Waits x b p) ∧
        ∀ y k q, s.Waits y k q → b ≤ k := by
  have hkey : ∀ {x b p}, s.Waits x b p → b ∈ s.pending.keys := by
    rintro x b p ⟨l, hl, _⟩
    by_contra hb
    cases ((s.pending.get?_eq_none_iff b).mpr hb).symm.trans hl
  cases hmin : s.pending.keys.min? with
  | none =>
    refine Or.inl ⟨rfl, fun x b p hw => ?_⟩
    rw [List.min?_eq_none_iff] at hmin
    exact List.not_mem_nil (hmin ▸ hkey hw)
  | some b =>
    rw [List.min?_eq_some_iff] at hmin
    refine Or.inr ⟨b, rfl, ?_, fun y k q hw => hmin.2 k (hkey hw)⟩
    -- a list of PHIs that wait is not empty
    obtain ⟨l, hl⟩ := Option.ne_none_iff_exists'.mp
      (mt (s.pending.get?_eq_none_iff b).mp (not_not_intro hmin.1))
    obtain ⟨e, he⟩ := List.exists_mem_of_ne_nil l (h b l hl).2
    exact ⟨e.1, e.2, l, hl, he⟩

/-- **How a function ends.**  Without an open function there is an error and nothing else.  A
function is finished exactly if no PHI waits, and this is the case if all its blocks are sealed.
Where PHIs wait, the error names the first of the blocks, which exists and is not sealed.  The
function and the current block are gone then, and everything else is as before; neither a second
attempt nor one after the sealing of any block finds a function. -/
theorem endFunction_outcome (hs : Reached c s) :
    (s.opened = none → endFunction s = .error (.construction .noFunction) s) ∧
    ∀ fn, s.opened = some fn →
      ((∀ b < fn.body.graph.size, s.isSealed b = true) → ∀ x b p, ¬ s.Waits x b p) ∧
      ((∀ x b p, ¬ s.Waits x b p) → endFunction s = .ok () { s.withoutFunction with
        compiled := s.compiled.insertFunction fn.name fn.body }) ∧
      ((∃ x b p, s.Waits x b p) → ∃ b < fn.body.graph.size, s.isSealed b = false ∧
        (∃ x p, s.Waits x b p) ∧ (∀ y k q, s.Waits y k q → b ≤ k) ∧
        endFunction s = .error (.construction (.unsealed fn.name b)) s.withoutFunction ∧
        endFunction s.withoutFunction = .error (.construction .noFunction) s.withoutFunction ∧
        ∀ k, ∃ t, stateAfter (sealBlock c.options k) s.withoutFunction = t ∧
          endFunction t = .error (.construction .noFunction) t) := by
  have h := (orderly_keptByCalls c.options).reached hs
  refine ⟨endFunction_of_closed, fun fn hfn => ?_⟩
  obtain ⟨hq, hg⟩ := h.2 fn.body (body?_of_opened hfn)
  have hopen : ∀ {x b p}, s.Waits x b p → b < fn.body.graph.size ∧ s.isSealed b = false := by
    rintro x b p ⟨l, hl, hmem⟩
    exact ⟨(hq b l hl).1, (hg x b p ⟨l, hl, hmem⟩).1⟩
  refine ⟨fun hsealed x b p hw => ?_, fun hnone => ?_, fun hsome => ?_⟩
  · obtain ⟨hlt, hfalse⟩ := hopen hw
    exact absurd (hsealed b hlt) (by simp [hfalse])
  · obtain ⟨hmin, _⟩ | ⟨b, _, ⟨x, p, hw⟩, _⟩ := hq.min_keys
    · exact endFunction_eq_ok.mpr ⟨fn, hfn, hmin, rfl⟩
    · exact absurd hw (hnone x b p)
  · obtain ⟨_, hnone⟩ | ⟨b, hmin, ⟨x, p, hw⟩, hleast⟩ := hq.min_keys
    · obtain ⟨x, b, p, hw⟩ := hsome
      exact absurd hw (hnone x b p)
    · have hclosed : Closed s.withoutFunction := rfl
      refine ⟨b, (hopen hw).1, (hopen hw).2, ⟨x, p, hw⟩, hleast, endFunction_of_min hfn hmin,
        endFunction_of_closed hclosed, fun k => ⟨_, rfl, endFunction_of_closed ?_⟩⟩
      exact (hclosed.sealBlock k).stateAfter

/-- A function with a block that is not sealed. -/
def unsealedOperations : List Operation := [.begin "f", .call .createBlock]

/-- **The sealing of blocks is not checked**: a function is finished though one of its blocks is not
sealed.  After a read in the block it is lost. -/
theorem endFunction_outcome_unsealed :
    (∃ s fn, Reached sampleContext s ∧ s.opened = some fn ∧ 1 < fn.body.graph.size ∧
      s.isSealed 1 = false ∧ ∃ s', endFunction s = .ok () s') ∧
    ∃ s fn, Reached sampleContext s ∧ s.opened = some fn ∧
      endFunction s = .error (.construction (.unsealed fn.name 1)) s.withoutFunction := by
  constructor
  · let s := stateAfterAll (Operation.exec sampleContext) {} unsealedOperations
    have hstate : s.opened.map (fun fn => fn.body.graph.size) = some 2 ∧
        s.isSealed 1 = false ∧ s.pending.entries = [] := by decide +kernel
    have hs : Reached sampleContext s := Reached.new.all unsealedOperations
    generalize s = s at hstate hs
    obtain ⟨hsize, hopen, hpending⟩ := hstate
    obtain ⟨fn, hfn, hsize⟩ := Option.map_eq_some_iff.mp hsize
    have hnone : ∀ x b p, ¬ s.Waits x b p := by
      rintro x b p ⟨l, hl, _⟩
      rw [OrderedMap.get?, hpending] at hl
      cases hl
    exact ⟨s, fn, hs, hfn, hsize ▸ Nat.one_lt_two, hopen, _,
      ((endFunction_outcome hs).2 fn hfn).2.1 hnone⟩
  · let ops := unsealedOperations ++ [.call (.read 0 1)]
    let s := stateAfterAll (Operation.exec sampleContext) {} ops
    have hstate : s.opened.isSome = true ∧ s.pending.entries = [(1, [(0, 0)])] := by
      decide +kernel
    have hs : Reached sampleContext s := Reached.new.all ops
    generalize s = s at hstate hs
    obtain ⟨hfn, hpending⟩ := hstate
    obtain ⟨fn, hfn⟩ := Option.isSome_iff_exists.mp hfn
    have hwaits : s.Waits 0 1 0 := by
      refine ⟨[(0, 0)], ?_, List.mem_singleton_self _⟩
      rw [OrderedMap.get?, hpending]
      rfl
    obtain ⟨b, _, _, ⟨x, p, l, hl, _⟩, _, herror, _⟩ :=
      ((endFunction_outcome hs).2 fn hfn).2.2 ⟨0, 1, 0, hwaits⟩
    -- a PHI waits in this block only
    have hb : b = 1 := by
      by_contra hne
      have hkey : b ∉ s.pending.keys := by simpa [OrderedMap.keys, hpending] using hne
      cases ((s.pending.get?_eq_none_iff b).mpr hkey).symm.trans hl
    exact ⟨s, fn, hs, hfn, hb ▸ herror⟩

end Compiler16.Ssa
