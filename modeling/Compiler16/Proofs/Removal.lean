import Compiler16.Proofs.Invariant

/-!
# Completing and removing PHIs

A busy PHI gets its operands one by one, and is complete with the last.  A complete
PHI that merges a single value is removed: the value arrives where the PHI is, so it
takes the place of the PHI everywhere.

A removal sets off removals of the users of the PHI, which may lie anywhere.  None
of them may be a PHI that still lacks operands: with the operands it has, such a PHI
may look trivial.  The set that removals stay in is `Free`: the numbers from some
number on that neither wait nor are busy.  It is closed under users because a busy
PHI is only a user of older instructions, and a waiting PHI of none.

## Main definitions

* `Free`, `Confined`: where removals stay, and why
* `Removed`: what a removal does to a state

## Main results

* `Sound.addOperand`, `Sound.finish`: the completion of a PHI
* `Sound.collapse`: one removal
* `Sound.removeFrom`: all removals that one sets off
-/

namespace Compiler16.Ssa

open Compiler16.Flow

namespace Builder

variable {L : Ledger} {busy : Nat → Option Progress} {s s' s'' : Builder} {B B' B'' : Body}
  {x y b p q P n : Nat} {v : Value}

/-! ## Completion -/

/-- A standing looks at the number, the operation and the operands. -/
theorem Standing.congr {busy' : Nat → Option Progress} {preds : Nat → List Nat} {i j : Inst}
    (h : Standing L busy s preds x b i) (hid : j.id = i.id) (hop : j.op = i.op)
    (hoperands : j.operands = i.operands) (hbusy : busy' i.id = busy i.id) :
    Standing L busy' s preds x b j := by
  cases h with
  | waiting ho hb hw hr hl =>
    exact .waiting (hop.trans ho) (hid ▸ hbusy.trans hb) (hid ▸ hw) hr (hoperands.trans hl)
  | filling ho n hb hw hr hf hl =>
    exact .filling (hop.trans ho) n (hid ▸ hbusy.trans hb) (hid ▸ hw) hr (hoperands ▸ hf)
      (hoperands ▸ hl)
  | complete ho hb hw hr hf hl =>
    exact .complete (hop.trans ho) (hid ▸ hbusy.trans hb) (hid ▸ hw) hr (hoperands ▸ hf)
      (hoperands ▸ hl)
  | copied ho hb hw hr v hl hv =>
    exact .copied (hop.trans ho) (hid ▸ hbusy.trans hb) (hid ▸ hw) hr v (hoperands.trans hl) hv

/-- A busy PHI is in its block, and is being filled. -/
theorem Sound.filling_of_busy (h : Sound L busy s B) {m : Progress} (hbusy : busy p = some m)
    (hp : L.phi p = some (x, b)) : ∃ j ∈ B.code b, j.id = p ∧ j.op = .phi ∧
      ¬ s.Waits x b p ∧ ¬ L.root b ∧ Fills L B.preds x b j.operands ∧
      j.operands.length = m.filled := by
  obtain ⟨j, hj, rfl⟩ := h.phi_mem p x b hp
  refine ⟨j, hj, rfl, ?_⟩
  cases h.standing b j hj x hp with
  | waiting _ hb _ _ _ => simp [hbusy] at hb
  | filling ho n hb hw hr hf hl =>
    obtain rfl := Option.some.inj (hbusy.symm.trans hb)
    exact ⟨ho, hw, hr, hf, hl⟩
  | complete _ hb _ _ _ _ => simp [hbusy] at hb
  | copied _ hb _ _ _ _ _ => simp [hbusy] at hb

/-- A busy PHI gets its next operand. -/
theorem Sound.addOperand (h : Sound L busy s B) {m : Progress} (hbusy : busy p = some m)
    (hp : L.phi p = some (x, b)) (hq : (B.preds b)[m.filled]? = some q)
    (hv : L.AtEnd x v B.preds q) (fn : OpenFunction) :
    Sound L (Function.update busy p (some ⟨s.nextId, m.filled + 1⟩))
      { s with opened := some { fn with body := (B.addOperand p v).2 } } (B.addOperand p v).2 := by
  obtain ⟨i, hi, hid, hop, hwait, hroot, hfills, hlen⟩ := h.filling_of_busy hbusy hp
  obtain ⟨f, hf, hmap⟩ := h.indexed.addOperand_eq hi hid v
  rw [hmap]
  refine h.mapInsts (fun _ j _ => ⟨(hf j).1, (hf j).2.1⟩)
    (fun _ j _ hop => (hf j).2.2.1.symm.trans hop) ?_ ?_ ?_ ?_ ?_ ?_ ?_
    (fun _ _ a ha => ⟨a, ha⟩) h.write_defs h.defs_atEnd
  · intro c j hj u hu
    rcases (hf j).2.2.2.2.2.2 u hu with hu | rfl
    · exact h.users_lt c j hj u hu
    · exact h.phi_lt hp
  · intro c j hj y hy
    obtain ⟨hfid, _, hfop, _, _, hfops, _⟩ := hf j
    by_cases hjp : j.id = p
    · obtain rfl := h.indexed.eq_of_id_eq hj hi (hjp.trans hid.symm)
      obtain rfl := h.phi_block hi hy
      obtain ⟨rfl, _⟩ := Prod.ext_iff.mp (Option.some.inj ((hid ▸ hy).symm.trans hp))
      rw [if_pos hid] at hfops
      refine .filling (hfop.trans hop) ⟨s.nextId, m.filled + 1⟩ ?_ ?_ hroot ?_ ?_
      · rw [hfid, hid, Function.update_self]
      · rwa [hfid, hid]
      · intro k o ho
        rw [hfops] at ho
        rcases Nat.lt_or_ge k j.operands.length with hk | hk
        · rw [List.getElem?_append_left hk] at ho
          exact hfills k o ho
        · have hk' : k = m.filled := by
            have := (List.getElem?_eq_some_iff.mp ho).1
            rw [List.length_append, List.length_singleton] at this
            omega
          subst hk'
          rw [List.getElem?_append_right hk, hlen, Nat.sub_self] at ho
          cases ho
          exact ⟨q, hq, hv⟩
      · rw [hfops, List.length_append, hlen, List.length_singleton]
    · rw [if_neg hjp] at hfops
      exact (h.standing c j hj y hy).congr hfid hfop hfops (Function.update_of_ne hjp ..)
  · intro c e j hj hk
    obtain ⟨hfid, _, hfop, hft, hfc, hfops, _⟩ := hf j
    have hjp : j.id ≠ p := by
      rintro rfl
      simp [hk.phi] at hp
    rw [if_neg hjp] at hfops
    exact ⟨hfid.trans hk.id, hfop.trans hk.op, hft.trans hk.targets, hfc.trans hk.callee,
      hk.not_phi, by rw [hfid]; exact hk.phi, by rw [hfops]; exact hk.operands⟩
  · intro y c r hw d j hj hu
    rcases (hf j).2.2.2.2.2.2 r hu with hu | rfl
    · exact h.waits_users y c r hw d j hj hu
    · obtain ⟨rfl, rfl⟩ := Prod.ext_iff.mp (Option.some.inj ((h.waits_phi y c r hw).symm.trans hp))
      exact hwait hw
  · intro r k hr
    by_cases hrp : r = p
    · rw [hrp, hp]
      rfl
    · rw [Function.update_of_ne hrp] at hr
      exact h.busy_phi r k hr
  · intro r k hr
    by_cases hrp : r = p
    · subst hrp
      rw [Function.update_self] at hr
      cases hr
      exact le_rfl
    · rw [Function.update_of_ne hrp] at hr
      exact h.busy_le r k hr
  · intro r k hr c j hj hu
    by_cases hrp : r = p
    · subst hrp
      rw [Function.update_self] at hr
      cases hr
      exact h.bound c j hj
    · rw [Function.update_of_ne hrp] at hr
      exact h.busy_users r k hr c j hj (((hf j).2.2.2.2.2.2 r hu).resolve_right hrp)

/-- Nothing else changes when an operand is added. -/
theorem Sound.extended_addOperand (h : Sound L busy s B) {xb : Nat × Nat}
    (hp : L.phi p = some xb) (hn : n ≤ p) {fn : OpenFunction} (hfn : s.opened = some fn) :
    Extended n L s B L { s with opened := some { fn with body := (B.addOperand p v).2 } }
      (B.addOperand p v).2 := by
  obtain ⟨i, hi, hid⟩ := h.phi_mem p xb.1 xb.2 hp
  obtain ⟨f, hf, hmap⟩ := h.indexed.addOperand_eq hi hid v
  rw [hmap]
  refine .of_steady ⟨le_rfl, rfl, rfl, rfl, rfl, by simp [hfn], .mapInsts f,
    fun _ a ha => ⟨a, ha⟩⟩ fun b j hj u hu hlt => ?_
  rw [Body.code_mapInsts] at hj
  obtain ⟨k, hk, rfl⟩ := List.mem_map.mp hj
  obtain ⟨hfid, _, _, _, _, _, husers⟩ := hf k
  refine ⟨k, hk, hfid.symm, (husers u hu).resolve_right ?_⟩
  rintro rfl
  exact absurd hlt (not_lt.mpr hn)

/-- A busy PHI with all its operands is complete. -/
theorem Sound.finish (h : Sound L busy s B) {m : Progress} (hbusy : busy p = some m)
    (hp : L.phi p = some (x, b)) (hm : m.filled = (B.preds b).length) :
    Sound L (Function.update busy p none) s B := by
  have hle : ∀ r k, Function.update busy p none r = some k → busy r = some k := by
    intro r k hr
    by_cases hrp : r = p
    · subst hrp
      simp at hr
    · rwa [Function.update_of_ne hrp] at hr
  refine { h with standing := ?_, busy_phi := ?_, busy_le := ?_, busy_users := ?_ }
  · intro c j hj y hy
    by_cases hjp : j.id = p
    · obtain ⟨i, hi, hid, hop, hwait, hroot, hfills, hlen⟩ := h.filling_of_busy hbusy hp
      obtain rfl := h.indexed.eq_of_id_eq hj hi (hjp.trans hid.symm)
      obtain rfl := h.phi_block hi hy
      obtain ⟨rfl, _⟩ := Prod.ext_iff.mp (Option.some.inj ((hid ▸ hy).symm.trans hp))
      refine .complete hop ?_ ?_ hroot hfills (hlen.trans hm)
      · rw [hid, Function.update_self]
      · rwa [hid]
    · exact (h.standing c j hj y hy).congr rfl rfl rfl (Function.update_of_ne hjp ..)
  · exact fun r k hr => h.busy_phi r k (hle r k hr)
  · exact fun r k hr => h.busy_le r k (hle r k hr)
  · exact fun r k hr => h.busy_users r k (hle r k hr)

/-! ## Where removals stay -/

/-- A number from `n` on that neither waits nor is busy. -/
structure Free (n : Nat) (busy : Nat → Option Progress) (s : Builder) (p : Nat) : Prop where
  le : n ≤ p
  busy : busy p = none
  waits : ∀ x b, ¬ s.Waits x b p

/-- Instructions from `n` on have no users below, and are used by no busy PHI. -/
structure Confined (n : Nat) (busy : Nat → Option Progress) (B : Body) : Prop where
  limit : ∀ p m, busy p = some m → m.limit ≤ n
  users : ∀ b, ∀ j ∈ B.code b, n ≤ j.id → ∀ u ∈ j.users, n ≤ u

theorem Confined.of_oldUsers (h : Confined n busy B) (hu : OldUsers n B B') :
    Confined n busy B' where
  limit := h.limit
  users b j hj hn u huj := by
    by_contra hlt
    obtain ⟨i, hi, hid, hui⟩ := hu b j hj u huj (not_le.mp hlt)
    exact hlt (h.users b i hi (hid ▸ hn) u hui)

/-- The users of a free instruction are free. -/
theorem Sound.free_users (h : Sound L busy s B) (hn : Confined n busy B) {j : Inst}
    (hj : j ∈ B.code b) (hfree : Free n busy s j.id) {u : Nat} (hu : u ∈ j.users) :
    Free n busy s u where
  le := hn.users b j hj hfree.le u hu
  busy := by
    by_contra hne
    obtain ⟨m, hm⟩ := Option.ne_none_iff_exists'.mp hne
    have hlt := h.busy_users u m hm b j hj hu
    exact absurd (hlt.trans_le (hn.limit u m hm)) (not_lt.mpr hfree.le)
  waits x c hw := h.waits_users x c u hw b j hj hu

/-! ## Removal -/

/-- What a removal does to a state. -/
structure Removed (n : Nat) (L : Ledger) (busy : Nat → Option Progress) (s : Builder) (B : Body)
    (s' : Builder) (B' : Body) : Prop where
  sound : Sound L busy s' B'
  steady : Steady s B s' B'
  nextId : s'.nextId = s.nextId
  pending : s'.pending = s.pending
  users : OldUsers n B B'

theorem Removed.refl (h : Sound L busy s B) : Removed n L busy s B s B :=
  ⟨h, .refl, rfl, rfl, .refl⟩

theorem Removed.trans (h : Removed n L busy s B s' B') (h' : Removed n L busy s' B' s'' B'') :
    Removed n L busy s B s'' B'' :=
  ⟨h'.sound, h.steady.trans h'.steady, h'.nextId.trans h.nextId, h'.pending.trans h.pending,
    h.users.trans h'.users le_rfl⟩

theorem Free.of_pending (h : Free n busy s p) (hp : s'.pending = s.pending) :
    Free n busy s' p where
  le := h.le
  busy := h.busy
  waits x b hw := h.waits x b (by unfold Waits at *; rwa [hp] at hw)

/-- The one value that a PHI merges is, besides the PHI itself, its only operand. -/
theorem eq_of_mergedValue? {i : Inst} (h : i.mergedValue? = some v) :
    ∀ o ∈ i.operands, o = .result i.id ∨ o = v := by
  intro o ho
  by_cases hself : o = .result i.id
  · exact Or.inl hself
  · have hmem : o ∈ i.operands.filter (· ≠ i.result) :=
      List.mem_filter.mpr ⟨ho, decide_eq_true hself⟩
    right
    unfold Inst.mergedValue? at h
    split at h
    · next hnil =>
      rw [hnil] at hmem
      cases hmem
    · next w rest hcons =>
      rw [hcons] at hmem
      split at h
      · next hall =>
        cases h
        rcases List.mem_cons.mp hmem with rfl | hmem
        · rfl
        · simpa using List.all_eq_true.mp hall o hmem
      · cases h

/-- The value that a complete PHI merges arrives where the PHI is. -/
theorem before_of_mergedValue {preds : Nat → List Nat} {i : Inst}
    (hu : L.Unwritten x (.result i.id)) (hp : L.phi i.id = some (x, P)) (hroot : ¬ L.root P)
    (hfills : Fills L preds x P i.operands) (hlen : i.operands.length = (preds P).length)
    (hv : i.mergedValue? = some v) : L.Before x v preds P := by
  refine Ledger.before_of_merged hu hp hroot fun q hq => ?_
  obtain ⟨k, hk, rfl⟩ := List.mem_iff_getElem.mp hq
  have hk' : k < i.operands.length := hlen ▸ hk
  obtain ⟨q', hq', ha⟩ := hfills k _ (List.getElem?_eq_getElem hk')
  rw [List.getElem?_eq_getElem hk] at hq'
  cases hq'
  rcases eq_of_mergedValue? hv _ (List.getElem_mem hk') with ho | ho
  · exact Or.inr (ho ▸ ha)
  · exact Or.inl (ho ▸ ha)

/-- Operands that are the PHI or stay what they are go on to fill. -/
theorem fills_redirect {preds : Nat → List Nat} (hu : L.Unwritten y (.result p))
    (hp : L.phi p = some (x, P)) (hv : L.Before x v preds P) {operands : List Value}
    {g : Value → Value} (hg : ∀ o, g o = o ∨ o = .result p ∧ g o = v)
    (hf : Fills L preds y b operands) : Fills L preds y b (operands.map g) := by
  intro k o ho
  rw [List.getElem?_map, Option.map_eq_some_iff] at ho
  obtain ⟨o, ho, rfl⟩ := ho
  obtain ⟨q, hq, ha⟩ := hf k o ho
  refine ⟨q, hq, ?_⟩
  rcases hg o with hgo | ⟨rfl, hgo⟩
  · rwa [hgo]
  · rw [hgo]
    exact ha.redirect hu hp hv

/-- So does a PHI whose operands are redirected keep its standing. -/
theorem Standing.redirect {preds : Nat → List Nat} (hu : L.Unwritten y (.result p))
    (hp : L.phi p = some (x, P)) (hv : L.Before x v preds P) {i j : Inst} {g : Value → Value}
    (hg : ∀ o, g o = o ∨ o = .result p ∧ g o = v) (hid : j.id = i.id) (hop : j.op = i.op)
    (hoperands : j.operands = i.operands.map g) (hi : Standing L busy s preds y b i) :
    Standing L busy s preds y b j := by
  cases hi with
  | waiting ho hb hw hr hl =>
    exact .waiting (hop.trans ho) (hid ▸ hb) (hid ▸ hw) hr (by rw [hoperands, hl]; rfl)
  | filling ho n hb hw hr hf hl =>
    refine .filling (hop.trans ho) n (hid ▸ hb) (hid ▸ hw) hr ?_ ?_
    · rw [hoperands]
      exact fills_redirect hu hp hv hg hf
    · rw [hoperands, List.length_map, hl]
  | complete ho hb hw hr hf hl =>
    refine .complete (hop.trans ho) (hid ▸ hb) (hid ▸ hw) hr ?_ ?_
    · rw [hoperands]
      exact fills_redirect hu hp hv hg hf
    · rw [hoperands, List.length_map, hl]
  | copied ho hb hw hr w hl hbefore =>
    refine .copied (hop.trans ho) (hid ▸ hb) (hid ▸ hw) hr (g w) (by rw [hoperands, hl]; rfl) ?_
    rcases hg w with hgw | ⟨rfl, hgw⟩
    · rwa [hgw]
    · rw [hgw]
      exact Ledger.Before.redirect hu hp hv hbefore

/-- And an operand that is redirected keeps its role. -/
theorem plays_redirect {preds : Nat → List Nat} (hu : ∀ y, L.Unwritten y (.result p))
    (hp : L.phi p = some (x, P)) (hv : L.Before x v preds P) {g : Value → Value}
    (hg : ∀ o, g o = o ∨ o = .result p ∧ g o = v) {r : Role} {o : Value}
    (ho : L.Plays n preds b r o) : L.Plays n preds b r (g o) := by
  cases r with
  | fixed w =>
    obtain ⟨rfl, hbase⟩ := ho
    rcases hg o with hgo | ⟨rfl, _⟩
    · exact ⟨hgo, hbase⟩
    · have := (hbase p rfl).2
      simp [hp] at this
  | entry y =>
    rcases hg o with hgo | ⟨rfl, hgo⟩
    · rw [hgo]
      exact ho
    · rw [hgo]
      exact Ledger.AtEntry.redirect (hu y) hp hv ho
  | free => trivial

/-- A PHI gives way to a value that arrives where it is. -/
theorem Sound.forwardPhi (h : Sound L busy s B) (hn : Confined n busy B) {i : Inst}
    (hi : i ∈ B.code P) (hop : i.op = .phi) (hp : L.phi i.id = some (x, P))
    (hfree : Free n busy s i.id) (hroot : ¬ L.root P) (hv : L.Before x v B.preds P)
    {fn : OpenFunction} (hfn : s.opened = some fn) :
    Removed n L busy s B
      (retire { s with opened := some { fn with body := B.forwardPhi i v } } i.id v)
      (B.forwardPhi i v) := by
  obtain ⟨f, hf, hmap⟩ := h.indexed.forwardPhi_eq hi v
  rw [hmap]
  have hunwritten := h.unwritten hi hop
  have hother : ∀ j, j.id ≠ i.id → Body.Touched i.id v i.users j (f j) := by
    intro j hj
    have := hf j
    rwa [if_neg hj] at this
  have hself : Body.Touched i.id v i.users
      { op := .mov, id := i.id, block := i.block, operands := [v],
        users := i.users.filter (· ≠ i.id) } (f i) := by
    have := hf i
    rwa [if_pos rfl] at this
  -- the users of an instruction are the old ones, users of the PHI, or the PHI
  have husers : ∀ b, ∀ j ∈ B.code b, ∀ u ∈ (f j).users,
      u ∈ j.users ∨ u ∈ i.users ∨ u = i.id := by
    intro b j hj u hu
    by_cases hji : j.id = i.id
    · obtain rfl := h.indexed.eq_of_id_eq hj hi hji
      rcases hself.users u hu with hu | hu
      · exact Or.inl (List.mem_filter.mp hu).1
      · exact Or.inr hu
    · exact (hother j hji).users u hu
  have hids : ∀ b, ∀ j ∈ B.code b, (f j).id = j.id ∧ (f j).block = j.block := by
    intro b j hj
    by_cases hji : j.id = i.id
    · obtain rfl := h.indexed.eq_of_id_eq hj hi hji
      exact ⟨hself.id, hself.block⟩
    · exact ⟨(hother j hji).id, (hother j hji).block⟩
  have hget : ∀ k, (s.defs.mapValues fun w => if w = .result i.id then v else w).get? k =
      (s.defs.get? k).map fun w => if w = .result i.id then v else w :=
    fun k => OrderedMap.get?_mapValues ..
  refine ⟨?_, ⟨le_rfl, rfl, rfl, rfl, rfl, by simp [retire, hfn], .mapInsts f, ?_⟩, rfl, rfl, ?_⟩
  · refine h.mapInsts hids (fun b j hj hphi => ?_) ?_ ?_ ?_ ?_ h.busy_phi h.busy_le ?_ ?_ ?_ ?_
    · by_cases hji : j.id = i.id
      · obtain rfl := h.indexed.eq_of_id_eq hj hi hji
        exact hop
      · exact (hother j hji).op.symm.trans hphi
    · intro b j hj u hu
      rcases husers b j hj u hu with hu | hu | rfl
      · exact h.users_lt b j hj u hu
      · exact h.users_lt P i hi u hu
      · exact h.bound P i hi
    · intro b j hj y hy
      by_cases hji : j.id = i.id
      · obtain rfl := h.indexed.eq_of_id_eq hj hi hji
        obtain rfl := h.indexed.block_unique hj hi rfl
        obtain ⟨rfl, _⟩ := Prod.ext_iff.mp (Option.some.inj (hy.symm.trans hp))
        refine .copied hself.op ?_ ?_ hroot v (hself.self rfl) hv
        · rw [hself.id]
          exact hfree.busy
        · rw [hself.id]
          exact hfree.waits y b
      · obtain ⟨g, hg, hgo⟩ := (hother j hji).operands
        exact (h.standing b j hj y hy).redirect (hunwritten y) hp hv hgo (hother j hji).id
          (hother j hji).op hg
    · intro b e j hj hk
      have hji : j.id ≠ i.id := by
        intro hji
        have := hk.phi
        simp [hji, hp] at this
      have ht := hother j hji
      obtain ⟨g, hg, hgo⟩ := ht.operands
      refine ⟨ht.id.trans hk.id, ht.op.trans hk.op, ht.targets.trans hk.targets,
        ht.callee.trans hk.callee, hk.not_phi, by rw [ht.id]; exact hk.phi, ?_⟩
      rw [hg, List.forall₂_map_right_iff]
      exact hk.operands.imp fun _ _ hpl => plays_redirect hunwritten hp hv hgo hpl
    · intro y c q hw d j hj hu
      rcases husers d j hj q hu with hu | hu | rfl
      · exact h.waits_users y c q hw d j hj hu
      · exact h.waits_users y c q hw P i hi hu
      · exact hfree.waits y c hw
    · intro q m hq b j hj hu
      rcases husers b j hj q hu with hu | hu | rfl
      · exact h.busy_users q m hq b j hj hu
      · have := (h.free_users hn hi hfree hu).busy
        simp [hq] at this
      · have := hfree.busy
        simp [hq] at this
    · intro y b a ha
      exact ⟨_, (hget _).trans (congrArg _ ha)⟩
    · intro y b c hw
      have hne : c ≠ .result i.id := by
        rintro rfl
        exact (hunwritten y b).1 hw
      rw [hget, h.write_defs y b c hw, Option.map_some, if_neg hne]
    · intro y b a ha
      rw [hget, Option.map_eq_some_iff] at ha
      obtain ⟨w, hw, rfl⟩ := ha
      have hatEnd := h.defs_atEnd y b w hw
      by_cases hwi : w = .result i.id
      · rw [if_pos hwi]
        subst hwi
        exact hatEnd.redirect (hunwritten y) hp hv
      · rwa [if_neg hwi]
  · intro k a ha
    exact ⟨_, (hget _).trans (congrArg _ ha)⟩
  · intro b j hj u hu hlt
    rw [Body.code_mapInsts] at hj
    obtain ⟨k, hk, rfl⟩ := List.mem_map.mp hj
    rcases husers b k hk u hu with hu | hu | rfl
    · exact ⟨k, hk, (hids b k hk).1.symm, hu⟩
    · exact absurd hlt (not_lt.mpr (h.free_users hn hi hfree hu).le)
    · exact absurd hlt (not_lt.mpr hfree.le)

theorem Sound.getBody (h : Sound L busy s B) {C : Body} (hrun : getBody s = .ok C s') :
    C = B ∧ s' = s := by
  obtain ⟨⟨fn, hfn, rfl⟩, rfl⟩ := getBody_eq_ok.mp hrun
  obtain ⟨fn', hfn', rfl⟩ := h.opened
  obtain rfl := Option.some.inj (hfn.symm.trans hfn')
  exact ⟨rfl, rfl⟩

/-- **One removal.**  The value that is handed over is the PHI or arrives where the PHI
is, and the instructions to look at next are free. -/
theorem Sound.collapse (h : Sound L busy s B) (hn : Confined n busy B)
    (hp : L.phi p = some (x, P)) (hfree : Free n busy s p) {us : List Nat}
    (hrun : collapse p s = .ok (v, us) s') :
    ∃ B', Removed n L busy s B s' B' ∧ (∀ u ∈ us, Free n busy s u) ∧
      (v = .result p ∨ L.Before x v B.preds P) := by
  obtain ⟨i, hi, rfl⟩ := h.phi_mem p x P hp
  have hinst : B.inst? i.id = some i := h.indexed.inst?_eq_some_iff.mpr ⟨P, hi, rfl⟩
  unfold Builder.collapse at hrun
  obtain ⟨C, t, hC, hrest⟩ := bind_eq_ok.mp hrun
  obtain ⟨rfl, rfl⟩ := h.getBody hC
  simp only [hinst] at hrest
  obtain ⟨hroot, ⟨hop, hfills, hlen⟩ | ⟨hop, w, hw, hbefore⟩⟩ :=
    h.standing_of_idle hi hp hfree.busy (hfree.waits x P)
  · have hphi : i.isPhi = true := by simp [Inst.isPhi, hop]
    simp only [hphi, Bool.not_true, Bool.false_eq_true, if_false] at hrest
    cases hm : i.mergedValue? with
    | none =>
      -- it merges two values and stays
      simp only [hm, pure_eq_ok, Prod.mk.injEq] at hrest
      obtain ⟨⟨rfl, rfl⟩, rfl⟩ := hrest
      exact ⟨_, .refl h, fun u hu => (List.not_mem_nil hu).elim, Or.inl rfl⟩
    | some w =>
      simp only [hm, bind_eq_ok, changeBody_eq_ok, modify_eq_ok, pure_eq_ok, Prod.mk.injEq] at hrest
      obtain ⟨_, _, ⟨fn, _, hfn, hok, rfl⟩, _, _, rfl, ⟨rfl, rfl⟩, rfl⟩ := hrest
      cases hok
      obtain ⟨fn', hfn', rfl⟩ := h.opened
      obtain rfl := Option.some.inj (hfn.symm.trans hfn')
      have hv := before_of_mergedValue (h.unwritten hi hop x) hp hroot hfills hlen hm
      refine ⟨_, h.forwardPhi hn hi hop hp hfree hroot hv hfn, fun u hu => ?_, Or.inr hv⟩
      exact h.free_users hn hi hfree (List.mem_filter.mp hu).1
  · -- it was removed before
    have hphi : i.isPhi = false := by simp [Inst.isPhi, hop]
    simp only [hphi, Bool.not_false, if_true, pure_eq_ok, Prod.mk.injEq, hw, List.head?_cons,
      Option.getD_some] at hrest
    obtain ⟨⟨rfl, rfl⟩, rfl⟩ := hrest
    exact ⟨_, .refl h, fun u hu => (List.not_mem_nil hu).elim, Or.inr hbefore⟩

theorem Sound.isPhi (h : Sound L busy s B) (hu : s.isPhi p = true) :
    ∃ x P, L.phi p = some (x, P) := by
  obtain ⟨fn, hfn, rfl⟩ := h.opened
  simp only [Builder.isPhi, body?, hfn, Option.map_some, Option.any_some, Body.isPhi,
    Option.any_eq_true] at hu
  obtain ⟨i, hi, hphi⟩ := hu
  obtain ⟨P, hmem, rfl⟩ := h.indexed.inst?_eq_some_iff.mp hi
  obtain ⟨x, hx⟩ := h.phi_of_isPhi hmem (by simpa [Inst.isPhi] using hphi)
  exact ⟨x, P, hx⟩

/-- **All removals that one sets off.** -/
theorem Sound.removeFrom (depth : Nat) : ∀ {p x P : Nat} {v : Value} {s s' : Builder} {B : Body},
    Sound L busy s B → Confined n busy B → L.phi p = some (x, P) → Free n busy s p →
    removeFrom depth p s = .ok v s' →
    ∃ B', Removed n L busy s B s' B' ∧ (v = .result p ∨ L.Before x v B.preds P) := by
  induction depth with
  | zero =>
    intro p x P v s s' B _ _ _ _ hrun
    exact (fail_eq_ok.mp hrun).elim
  | succ depth ih =>
    intro p x P v s s' B h hn hp hfree hrun
    simp only [Builder.removeFrom, bind_eq_ok, pure_eq_ok] at hrun
    obtain ⟨⟨w, us⟩, t, hcol, _, t', hloop, rfl, rfl⟩ := hrun
    obtain ⟨B₁, hB₁, hus, hv⟩ := h.collapse hn hp hfree hcol
    -- the users that are still to come are free, in every state of the loop
    have key := forM_invariant (I := fun l u =>
      (∀ q ∈ l, Free n busy s q) ∧ ∃ B', Removed n L busy s B u B') ?_ us t t' ⟨hus, B₁, hB₁⟩ hloop
    · obtain ⟨_, B', hB'⟩ := key
      exact ⟨B', hB', hv⟩
    · rintro q l u u' ⟨hl, B₂, hB₂⟩ hround
      refine ⟨fun r hr => hl r (List.mem_cons_of_mem _ hr), ?_⟩
      simp only [bind_eq_ok, get_eq_ok] at hround
      obtain ⟨_, _, ⟨rfl, rfl⟩, hround⟩ := hround
      split at hround
      · next hphi =>
        obtain ⟨w', u₁, hrem, hpure⟩ := bind_eq_ok.mp hround
        obtain ⟨_, rfl⟩ := pure_eq_ok.mp hpure
        obtain ⟨y, Q, hq⟩ := hB₂.sound.isPhi hphi
        have hfree' := (hl q (List.mem_cons_self ..)).of_pending hB₂.pending
        obtain ⟨B₃, hB₃, _⟩ := ih hB₂.sound (hn.of_oldUsers hB₂.users) hq hfree' hrem
        exact ⟨B₃, hB₂.trans hB₃⟩
      · obtain ⟨_, rfl⟩ := pure_eq_ok.mp hround
        exact ⟨B₂, hB₂⟩

theorem Sound.removeTrivialPhi (h : Sound L busy s B) (hn : Confined n busy B)
    (hp : L.phi p = some (x, P)) (hfree : Free n busy s p)
    (hrun : removeTrivialPhi p s = .ok v s') :
    ∃ B', Removed n L busy s B s' B' ∧ (v = .result p ∨ L.Before x v B.preds P) := by
  obtain ⟨C, t, hC, hrest⟩ := bind_eq_ok.mp hrun
  obtain ⟨rfl, rfl⟩ := h.getBody hC
  exact h.removeFrom _ hn hp hfree hrest

end Builder

end Compiler16.Ssa
