import Compiler16.Proofs.StandIns

/-!
# PHIs that come in early

A block that is still open gets a PHI, and later the PHI gets the value that comes from the only
predecessor.  If a read in the sealed block would have found a value from before, the read at the
predecessor finds that value, too, or it finds a PHI that comes right after the first one.  The
latter happens where a loop leads through the block: the value then comes together with the PHI
that is to be completed.  But once the first PHI gives way to the second one, all PHIs of the loop
merge nothing but the value, and they are gone as a whole.

## Main definitions

* `Builder.StandIn`: the second PHI merges a value with PHIs that stand for the first one
* `Builder.Kept`: the first PHI is as it was
* `Builder.Yields`: what its removal does

## Main results

* `Builder.StandIn.substitutes`: all these PHIs become the value
* `Builder.Begun.exists_answer`: what is read where the first PHI is there
* `Builder.Begun.exists_removed`: the first PHI gives way to the value
-/

namespace Compiler16.Ssa

open Compiler16.Source Compiler16.Flow Compiler16.Ssa.Builder

namespace Builder

/-! ## What the PHI becomes that comes right after -/

/-- The PHI `n + 1` merges `v` and PHIs that stand for the PHI `n`, and there are no other PHIs from
`n` on. -/
structure StandIn (n : Nat) (v : Value) (l : List Nat) (t : Builder) (C : Body) : Prop where
  coded : Coded t C
  linked : C.Linked n l
  phis : ∀ p, n ≤ p → t.isPhi p = true → p ∈ l
  second : ∃ c, ∃ i ∈ C.code c, i.id = n + 1 ∧ i.op = .phi ∧ i.MergesTwo ∧ v ∈ i.operands ∧
    ∀ w ∈ i.operands, w = v ∨ ∃ r ∈ l, w = .result r

variable {S : Scene} {U : Nat → Prop} {s t u t₂ : Builder} {B C C₂ : Body} {i : Inst}
  {σ : Value → Value} {o : Options} {x b d m n p q : Nat} {l : List Nat} {E E' : Notes}
  {as : List Value} {a v : Value}

namespace StandIn

theorem same (h : StandIn n v l t C) (defs : OrderedMap (Nat × Nat) Value) :
    StandIn n v l { t with defs } C :=
  ⟨⟨h.coded.body, h.coded.indexed, h.coded.bound⟩, h.linked, h.phis, h.second⟩

/-- The PHI `n` gets an operand. -/
theorem addOperand (h : StandIn n v l t C)
    (hrun : Builder.changeBody (fun body => .ok ((), (body.addOperand n a).2)) t = .ok () u) :
    StandIn n v l u (C.addOperand n a).2 := by
  have hother : ∀ c, ∀ i ∈ C.code c, n < i.id → (C.addOperand n a).2.Retains c i := by
    intro c i hi hlt
    obtain ⟨j, hj, hid, hop, hoperands⟩ := h.coded.addOperand_becomes hi n a
    rw [if_neg hlt.ne'] at hoperands
    exact ⟨j, hj, hid, hop, hoperands⟩
  refine ⟨(h.coded.addOperand_eq hrun).1.coded, ?_, fun p hn hp => ?_, ?_⟩
  · exact h.linked.mono fun c i hi _ hlt _ => hother c i hi (by omega)
  · exact h.phis p hn ((h.coded.isPhi_addOperand_iff hrun).mp hp)
  · obtain ⟨c, i, hi, hid, hop, htwo, hv, hall⟩ := h.second
    obtain ⟨j, hj, hji, hjop, hoperands⟩ := hother c i hi (by omega)
    exact ⟨c, j, hj, hji.trans hid, hjop.trans hop, htwo.congr hji hoperands, hoperands ▸ hv,
      hoperands ▸ hall⟩

/-- Only the PHI `n` may be trivial, apart from PHIs from before. -/
theorem settled (h : StandIn n v l t C) : C.Settled fun q => q = n ∨ q < n := by
  intro c i hi hop hn
  have hmem := h.phis i.id (by omega) (h.coded.isPhi_iff.mpr ⟨c, i, hi, rfl, hop⟩)
  obtain ⟨d, j, hj, hji, htwo⟩ : ∃ d, ∃ j ∈ C.code d, j.id = i.id ∧ j.MergesTwo := by
    by_cases heq : i.id = n + 1
    · obtain ⟨d, j, hj, hjn, _, htwo, _⟩ := h.second
      exact ⟨d, j, hj, hjn.trans heq.symm, htwo⟩
    · obtain ⟨d, j, hj, hji, _, _, htwo⟩ := h.linked.exists_of_mem hmem (by omega)
      exact ⟨d, j, hj, hji, htwo⟩
  exact h.coded.indexed.eq_of_id_eq hj hi hji ▸ htwo

/-- **All of them become the value**, once the PHI `n` gives way to `n + 1`. -/
theorem substitutes (h : StandIn n v l t C) (hσ : Substitutes σ t C u C₂) (hu : Coded u C₂)
    (hC₂ : C₂.Settled (· < n)) (hn : ¬ u.isPhi n = true) (hi : i ∈ C.code b) (hid : i.id = n)
    (hop : i.op = .phi) (hoperands : i.operands = [.result (n + 1)]) (hv : σ v = v) :
    σ (.result n) = v := by
  have hσn : σ (.result n) = σ (.result (n + 1)) := by
    have := hσ.gone b i hi hop (hid ▸ hn) (.result (n + 1)) (by simp [hoperands])
    rw [this, Inst.result, hid]
  -- those that stand for the PHI `n` are a chain, which is gone as a whole
  obtain ⟨k, hchain, hle, hk⟩ : ∃ k, C.Chain n (.result (n + 1)) k ∧ (∀ r ∈ k, ¬ r < n) ∧
      ∀ r ∈ l, r = n + 1 ∨ r ∈ k := h.linked.exists_chain hi hid hop (by
        simp [Inst.mergedValue?, Inst.result, hoperands, hid])
  have hall : ∀ r ∈ l, σ (.result r) = σ (.result (n + 1)) := by
    intro r hr
    rcases hk r hr with rfl | hr
    · rfl
    · exact (hσ.chain h.coded hu hn hσn h.settled hC₂ hchain hle r hr).2
  obtain ⟨c, j, hj, hjn, hjop, _, hmem, hmerged⟩ := h.second
  -- so the PHI `n + 1` is left with the value alone
  have hgone : ¬ u.isPhi j.id = true := by
    refine hσ.not_isPhi (v := v) h.coded hu hC₂ hj (by omega) fun hphi w hw => ?_
    rw [hjn] at hphi
    rcases hmerged w hw with rfl | ⟨r, hr, rfl⟩
    · exact Or.inl hv
    · rw [hall r hr, hσ.stays hphi, Inst.result, hjn]
      exact Or.inr rfl
  have hlast := hσ.gone c j hj hjop hgone v hmem
  rw [hσn, ← hjn]
  exact hlast.symm.trans hv

end StandIn

/-! ## Reads -/

/-- What reads look at when the block `b` is sealed. -/
structure Shows (S : Scene) (s : Builder) (B : Body) (x b : Nat) : Prop where
  preds : S.preds = B.preds
  isSealed : ∀ r, r ≠ b → S.isSealed r = s.isSealed r
  before : S.before = s.globalValue x

/-- A block `b` has a PHI, and from there blocks lead to `m`, which has got a PHI next.  Both stand
for the one PHI that `m` would have got without the other. -/
theorem Begun.shadows (hs : Coded s B) (ha : Aside s B) (hb : Begun s B x b u C)
    (hm : Begun u C x m t C₂) (hne : m ≠ b) (hS : Shows S s B x b) :
    Shadows S x s.nextId (fun _ _ => False) [s.nextId + 1, s.nextId]
      (((s.notes x).draw.set m (.result s.nextId)).set b (.result s.nextId)) t C₂ := by
  have hnext := hb.nextId
  have hsteady := hb.follows.steady.trans hm.follows.steady
  refine ⟨hm.follows.coded, (funext hsteady.frame.preds).trans hS.preds.symm,
    fun r hr hnone => ?_, ?_, hS.before ▸ ha.globalValue_below x, fun r => ?_, .pair,
    Nat.lt_succ_self _, fun _ _ h => h.elim, fun _ _ _ h => h.elim, fun _ _ _ h => h.elim,
    fun _ _ h => h.elim, fun p => ?_⟩
  · rw [hsteady.isSealed, ← hS.isSealed r ?_]
    · exact hr
    · rintro rfl
      simp [Notes.set] at hnone
  · rw [hS.before, globalValue, globalValue, hsteady.globalDefs]
  · rw [hm.notes, hb.notes, hnext]
    by_cases hrb : r = b
    · subst hrb
      have hself : Value.Matches s.nextId (fun _ _ => False) [s.nextId + 1, s.nextId]
          (.result s.nextId) (.result s.nextId) := Or.inr (Or.inl ⟨rfl, s.nextId, by simp, rfl⟩)
      simpa [Notes.set, Notes.draw, hne.symm] using Option.Rel.some hself
    by_cases hrm : r = m
    · subst hrm
      have hself : Value.Matches s.nextId (fun _ _ => False) [s.nextId + 1, s.nextId]
          (.result s.nextId) (.result (s.nextId + 1)) :=
        Or.inr (Or.inl ⟨rfl, s.nextId + 1, by simp, rfl⟩)
      simpa [Notes.set, Notes.draw, hne] using Option.Rel.some hself
    · simp only [Notes.set, Notes.draw, Function.update_of_ne hrb, Function.update_of_ne hrm]
      generalize hw : (s.notes x).value r = w
      cases w with
      | none => exact .none
      | some w => exact .some (Or.inl ⟨ha.defs_below _ w hw, rfl⟩)
  · rw [hm.isPhi, hb.isPhi, hnext]
    constructor
    · rintro (hp | ⟨_, h⟩)
      · simp only [List.mem_cons, List.not_mem_nil, or_false] at hp
        omega
      · exact h.elim
    · rintro ⟨hle, (hp | rfl) | rfl⟩
      · exact absurd (hs.lt_of_isPhi hp) (not_lt.mpr hle)
      · simp
      · simp

/-- What the PHI `n + 1` becomes when it merges what stands for `v` and for the PHI `n`. -/
theorem Shadows.second (h : Shadows S x n (fun _ _ => False) l E t C) (hi : i ∈ C.code b)
    (hid : i.id = n + 1) (hop : i.op = .phi)
    (hmatches : List.Forall₂ (Value.Matches n (fun _ _ => False) l) as i.operands)
    (has : ∀ w ∈ as, w = v ∨ w = .result n) (hmem : v ∈ as) (hv : v.Below n) :
    ∃ a u, removeTrivialPhi (n + 1) t = .ok a u ∧
      (a = v ∨ a = .result (n + 1) ∧ u = t ∧ StandIn n v l t C) := by
  have hold : ∀ {w}, Value.Matches n (fun _ _ => False) l v w → w = v := by
    rintro w (⟨_, rfl⟩ | ⟨rfl, _⟩ | ⟨_, _, hF, _⟩)
    · rfl
    · exact absurd (hv n rfl) (lt_irrefl _)
    · exact hF.elim
  have hmerged : ∀ w ∈ i.operands, w = v ∨ ∃ r ∈ l, w = .result r := by
    intro w hw
    obtain ⟨a, ha, haw⟩ := forall₂_exists_left hmatches hw
    rcases has a ha with rfl | rfl
    · exact Or.inl (hold haw)
    · rcases haw with ⟨hbelow, _⟩ | ⟨_, hr⟩ | ⟨_, _, hF, _⟩
      · exact absurd (hbelow n rfl) (lt_irrefl _)
      · exact Or.inr hr
      · exact hF.elim
  have hoperand : v ∈ i.operands := by
    obtain ⟨w, hw, hvw⟩ := forall₂_exists_left hmatches.flip hmem
    exact hold hvw ▸ hw
  obtain ⟨a, us, _, u, _, hrun, _, hcol, _⟩ :=
    h.coded.removeTrivialPhi_cascade (p := n + 1) .all trivial
  refine ⟨a, u, hrun, ?_⟩
  cases hm : i.mergedValue? with
  | some w =>
    have hne : v ≠ .result i.id := by
      rintro rfl
      exact absurd (hv _ rfl) (by omega)
    obtain rfl := (eq_of_mergedValue? hm v hoperand).resolve_left hne
    obtain ⟨t', hgives⟩ := h.coded.exists_givesWay hi hop hm
    rw [← hid, hgives.collapse] at hcol
    cases hcol
    exact Or.inl rfl
  | none =>
    have htwo := Inst.mergesTwo_iff.mpr hm
    have hstays := h.coded.removeTrivialPhi_of_collapse (h.coded.collapse_of_mergesTwo hi hop htwo)
    rw [hid] at hstays
    cases hstays.symm.trans hrun
    refine Or.inr ⟨rfl, rfl, h.coded, h.linked, fun p hn hp => ?_, b, i, hi, hid, hop, htwo,
      hoperand, hmerged⟩
    rcases (h.phis p).mpr ⟨hn, hp⟩ with hp | ⟨_, hF⟩
    · exact hp
    · exact hF.elim

/-- **What a read finds where the PHI comes in between**: the same value, or a PHI that merges this
value with what stands for the first one. -/
theorem Begun.exists_answer (hs : Coded s B) (ha : Aside s B) (hb : Begun s B x b u C)
    (ho : o.removeTrivialPhis = true) (hS : Shows S s B x b) (hm : MergedAt S (s.notes x) m v)
    (hlead : Descends S (fun r => (s.notes x).value r = none) m b) (hone : S.preds b = [q])
    (hv : v.Below s.nextId) :
    ∃ d a t, readFrom o x d q u = .ok a t ∧
      (a = v ∨ a = .result (s.nextId + 1) ∧ ∃ l C', StandIn s.nextId v l t C') := by
  have hnext := hb.nextId
  have hu := hb.follows.coded
  have hpreds : C.preds = S.preds := (funext hb.follows.steady.frame.preds).trans hS.preds.symm
  have hmb : m ≠ b := by
    rintro rfl
    exact Alike.not_descends hm.preds hlead
  -- what is undefined, apart from the block itself, still is
  have hundefined : ∀ r, (s.notes x).value r = none ∧ r ≠ b →
      u.defs.get? (x, r) = none ∧ (S.isSealed r = true → u.isSealed r = true) := by
    rintro r ⟨hnone, hrb⟩
    refine ⟨(hb.get?_defs r).trans ((if_neg hrb).trans hnone), fun hr => ?_⟩
    rw [hb.follows.steady.isSealed, ← hS.isSealed r hrb]
    exact hr
  obtain ⟨hnone, hopen⟩ := hundefined m ⟨hm.value, hmb⟩
  have hmpreds : C.preds m = S.preds m := by rw [hpreds]
  have hlt : m < C.graph.size := by
    obtain ⟨r, hr⟩ := List.exists_mem_of_length_pos (Nat.lt_of_lt_of_le Nat.two_pos hm.preds)
    exact Body.lt_size_of_mem_preds (hmpreds ▸ hr)
  obtain ⟨t₁, hnew⟩ := hu.exists_newPhi hlt
  obtain ⟨_, C₂, hC₂⟩ := hu.begun x hnew
  -- the PHI of the block changes nothing about what is gathered
  obtain ⟨d, as, E', hall, has, hmem⟩ := hm.gathers
  obtain ⟨d', E'', hall', _⟩ := Alike.gathers (fun h hr => h.finds hm.preds hlead hr) hall
    (Alike.begin hlead)
  obtain ⟨as', l, t₂, C', j, hj, hloop, h', _, _, hid, hop, hoperands, hmatches⟩ :=
    Shadows.loop (Shadows.answers ho d') hall' (hb.shadows hs ha hC₂ hmb hS) hC₂.phi rfl
      (Or.inl hnext) (by simp)
  have hid : j.id = s.nextId + 1 := hid.trans hnext
  obtain ⟨a, t₃, hrem, hor⟩ := h'.second hj hid hop (hoperands ▸ hmatches) has hmem hv
  have hread : readFrom o x (d' + 1) m u = .ok a { t₃ with defs := t₃.defs.insert (x, m) a } := by
    refine readFrom_succ_eq_ok.mpr (.merged hnone (hopen hm.isSealed) hu.body (hmpreds ▸ hm.preds)
      hnew ((completePhi_eq_ok hC₂.follows.coded ho).mpr ⟨t₂, ?_, ?_⟩))
    · rw [hC₂.merged, hmpreds]
      exact hloop
    · rw [hnext]
      exact hrem
  have hanswer : ∀ defs, a = v ∨ a = .result (s.nextId + 1) ∧
      ∃ l C', StandIn s.nextId v l { t₃ with defs } C' := by
    intro defs
    rcases hor with rfl | ⟨rfl, rfl, hstand⟩
    · exact Or.inl rfl
    · exact Or.inr ⟨rfl, l, C', hstand.same defs⟩
  rcases hlead.rest hone with rfl | hlead
  · exact ⟨_, a, _, hread, hanswer _⟩
  · obtain ⟨d, defs, hrun⟩ := hlead.exists_readFrom hu hpreds hundefined hread
    exact ⟨d, a, _, hrun, hanswer _⟩

/-! ## The PHI gives way -/

/-- The PHI that came in first is still there, without operands and as the definition of its
variable. -/
structure Kept (s : Builder) (x b : Nat) (t : Builder) (D : Body) : Prop where
  coded : Coded t D
  changes : Changes False (s.nextId ≤ ·) (fun _ => True) s t
  phi : ∃ i ∈ D.code b, i.id = s.nextId ∧ i.op = .phi ∧ i.operands = []
  defs : t.defs.get? (x, b) = some (.result s.nextId)
  idle : t.Idle s.nextId

/-- A read leaves the PHI and the definition alone. -/
theorem Begun.kept (hs : Coded s B) (ha : Aside s B) (hb : Begun s B x b u C)
    (hrun : readFrom o x d q u = .ok a t) : ∃ D, Kept s x b t D ∧ a.Below t.nextId := by
  have hlt : s.nextId < u.nextId := hb.nextId ▸ Nat.lt_succ_self _
  have hu := hb.follows.coded
  have hself : u.defs.get? (x, b) = some (.result s.nextId) :=
    (hb.get?_defs b).trans (if_pos rfl)
  obtain ⟨D, hD, _, hread, hbelow⟩ := (hb.aside hs ha).readFrom hu hrun
  refine ⟨D, ⟨hD.coded, hb.changes.trans (hread.mono id (fun p hp => hlt.le.trans hp)
    fun _ _ => trivial), ?_, ?_, hread.idle hu hlt (hb.idle ha)⟩, hbelow⟩
  · exact hread.retains hu hD.coded hb.phi (not_le.mpr hlt) (by simp)
  · refine hread.get?_defs (fun hk => ?_) (not_le.mpr hlt) hself
    exact absurd (hk.2.symm.trans hself) (by simp)

/-- The PHI gets the only operand `a`, and gives way to it. -/
structure Yields (s : Builder) (x b : Nat) (a : Value) (t : Builder) (D : Body) (σ : Value → Value)
    (t' : Builder) (D' : Body) : Prop where
  phi : ∃ i ∈ D.code b, i.id = s.nextId ∧ i.op = .phi ∧ i.operands = [a]
  removed : removeTrivialPhi s.nextId t = .ok a t'
  after : Coded t' D'
  gone : ¬ t'.isPhi s.nextId = true
  substitutes : Substitutes σ t D t' D'
  old : ∀ w, w.Below s.nextId → σ w = w
  defs : t'.defs.get? (x, b) = some (σ (.result s.nextId))
  settled : ∀ W, (D.Settled fun q => q = s.nextId ∨ W q) → D'.Settled W

theorem Kept.exists_yields {D : Body} (h : Kept s x b t D) (hs : Coded s B) (ha : Aside s B)
    (hne : a ≠ .result s.nextId) (hbelow : a.Below t.nextId) :
    ∃ t₁ t₂ σ C', Builder.changeBody (fun body => .ok ((), (body.addOperand s.nextId a).2)) t =
        .ok () t₁ ∧ Yields s x b a t₁ (D.addOperand s.nextId a).2 σ t₂ C' := by
  obtain ⟨i, hi, hid, hop, hoperands⟩ := h.phi
  have hphi : t.isPhi s.nextId = true := h.coded.isPhi_iff.mpr ⟨b, i, hi, hid, hop⟩
  obtain ⟨t₁, hadd, ht₁⟩ := h.coded.addOperand s.nextId a
  obtain ⟨j, hj, hji, hjop, hjoperands⟩ := h.coded.addOperand_becomes hi s.nextId a
  rw [if_pos hid, hoperands, List.nil_append] at hjoperands
  have hjn : j.id = s.nextId := hji.trans hid
  have hjop : j.op = .phi := hjop.trans hop
  -- the PHIs that are new use each other only, and that is noted
  have hchanges : Changes False (s.nextId ≤ ·) (fun _ => True) s t₁ :=
    h.changes.tail (.operand le_rfl (Or.inr ⟨hphi, h.idle, hbelow⟩) hadd)
  have hsticky := hchanges.sticky hs hs.sticky_new (fun _ h => h) ht₁.coded
  have hnoted := hchanges.notedAmong hs ha (fun _ h => h)
    (fun c k hk hle => absurd (hs.bound c k hk) (not_lt.mpr hle)) ht₁.coded
  -- so the removal is a substitution that changes nothing from before
  obtain ⟨v, us, t', t₂, C', hrem, hC', hcol, hfirst, hrest⟩ :=
    ht₁.coded.removeTrivialPhi_cascade (p := s.nextId) hsticky le_rfl
  have hcascade : Cascade (s.nextId ≤ ·) t₁ t₂ := hfirst.trans hrest
  obtain ⟨σ, hσ⟩ := hcascade.exists_substitutes ht₁.coded hnoted hC'.coded
  obtain ⟨_, hgives⟩ := ht₁.coded.exists_givesWay hj hjop (v := a) (by
    simp [Inst.mergedValue?, Inst.result, hjn, hjoperands, hne])
  rw [← hjn, hgives.collapse] at hcol
  cases hcol
  refine ⟨t₁, t₂, σ, C', hadd, ⟨j, hj, hjn, hjop, hjoperands⟩, hrem, hC'.coded, ?_, hσ,
    fun w hw => hσ.fixed w fun r hr hr' => ?_, ?_, fun W hset => ?_⟩
  · exact fun hphi => (hgives.isPhi_iff.mp (hrest.isPhi_of_isPhi hphi)).2 hjn.symm
  · rintro rfl
    rcases hcascade.isPhi_or_removed hr with h | ⟨hle, _⟩
    · exact hr' h
    · exact absurd (hw r rfl) (not_lt.mpr hle)
  · rw [hσ.defs, (h.coded.addOperand_eq hadd).2.2, h.defs, Option.map_some]
  · obtain ⟨C'', hC'', hsettled⟩ :=
      ht₁.coded.settled_of_removeTrivialPhi hsticky le_rfl hnoted hset hrem
    exact hC''.body_unique hC'.coded ▸ hsettled

/-- **The PHI gives way to the value** that is found, also if that takes more removals. -/
theorem Begun.exists_removed (hs : Coded s B) (ha : Aside s B) (hb : Begun s B x b u C)
    (hrun : readFrom o x d q u = .ok a t) (hv : v.Below s.nextId)
    (hor : a = v ∨ a = .result (s.nextId + 1) ∧ ∃ l C', StandIn s.nextId v l t C') :
    ∃ t₁ t₂ C', Builder.changeBody (fun body => .ok ((), (body.addOperand s.nextId a).2)) t =
        .ok () t₁ ∧
      removeTrivialPhi s.nextId t₁ = .ok a t₂ ∧ Coded t₂ C' ∧ t₂.defs.get? (x, b) = some v := by
  have hne : a ≠ .result s.nextId := by
    rcases hor with rfl | ⟨rfl, _⟩
    · rintro rfl
      exact lt_irrefl _ (hv _ rfl)
    · simp
  obtain ⟨D, hkept, hbelow⟩ := hb.kept hs ha hrun
  obtain ⟨t₁, t₂, σ, C', hadd, hy⟩ := hkept.exists_yields hs ha hne hbelow
  obtain ⟨i, hi, hid, hop, hoperands⟩ := hy.phi
  refine ⟨t₁, t₂, C', hadd, hy.removed, hy.after, hy.defs.trans (congrArg some ?_)⟩
  rcases hor with rfl | ⟨rfl, l, D', hstand⟩
  · have hσ := hy.substitutes.gone b i hi hop (hid ▸ hy.gone) a (by simp [hoperands])
    rw [Inst.result, hid, hy.old a hv] at hσ
    exact hσ.symm
  · obtain rfl := hstand.coded.body_unique hkept.coded
    have hstand₁ := hstand.addOperand hadd
    exact hstand₁.substitutes hy.substitutes hy.after (hy.settled _ hstand₁.settled) hy.gone hi hid
      hop hoperands (hy.old v hv)

end Builder

end Compiler16.Ssa
