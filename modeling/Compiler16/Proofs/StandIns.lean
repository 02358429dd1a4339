import Compiler16.Proofs.PlainReads

/-!
# PHIs that stand for another

Two PHIs with consecutive numbers have come into a function where only one was needed.  Reads that
come after them meet the same values as if there were only one, but in place of the one PHI they may
meet either of the two, and where both come together, a new PHI is left that stands for it as well.
So the state knows the same of the variable, up to a cluster of PHIs that all stand for the one.

A read that finds a value without leaving a PHI, if there is only one, finds with both of them what
stands for this value.  While such a read is under way, the PHIs that it has made are related by
their numbers, which differ.  When one of them is complete, there are two cases.  It merges a single
value, and gives way without setting off other removals.  Or it merges two; then these stand for the
first PHI, and it joins the cluster.

## Main definitions

* `Body.Linked`: the cluster
* `Value.Matches`: what stands for a value
* `Builder.Shadows`: the state knows the same of a variable
* `Builder.Shadows.Answers`: a read answers with what stands for the value

## Main results

* `Builder.Shadows.complete`: what becomes of a PHI that is complete
* `Builder.Shadows.answers`: where a value is found, a read answers with what stands for it
-/

namespace Compiler16.Ssa

open Compiler16.Source Compiler16.Flow Compiler16.Ssa.Builder

/-- Where two optional values are related, so is what is made of them. -/
theorem rel_map {α β γ δ : Type} {R : α → β → Prop} {R' : γ → δ → Prop} {f : α → γ} {g : β → δ}
    (hR : ∀ a b, R a b → R' (f a) (g b)) {v : Option α} {w : Option β} (h : Option.Rel R v w) :
    Option.Rel R' (v.map f) (w.map g) := by
  cases h with
  | some h => exact .some (hR _ _ h)
  | none => exact .none

/-- The operands and the number are all that matters. -/
theorem Inst.MergesTwo.congr {i j : Inst} (h : i.MergesTwo) (hid : j.id = i.id)
    (hoperands : j.operands = i.operands) : j.MergesTwo := by
  rwa [Inst.MergesTwo, Inst.result, hid, hoperands]

/-- PHIs that come after each other, latest first.  The first two are `n` and `n + 1`, and every
other one merges only its own result and results of those before it. -/
inductive Body.Linked (B : Body) (n : Nat) : List Nat → Prop where
  | pair : Linked B n [n + 1, n]
  | next {l : List Nat} {b : Nat} {i : Inst} (hl : Linked B n l) (hi : i ∈ B.code b)
      (hop : i.op = .phi) (hlt : n + 1 < i.id)
      (hmerged : ∀ w ∈ i.operands, w = i.result ∨ ∃ r ∈ l, w = .result r) (htwo : i.MergesTwo) :
      Linked B n (i.id :: l)

namespace Body.Linked

variable {B C : Body} {n : Nat} {l : List Nat}

theorem mem (h : B.Linked n l) : n ∈ l ∧ n + 1 ∈ l := by
  induction h with
  | pair => simp
  | next _ _ _ _ _ _ ih => exact ⟨List.mem_cons_of_mem _ ih.1, List.mem_cons_of_mem _ ih.2⟩

/-- What is known of a PHI apart from the first two. -/
theorem exists_of_mem (h : B.Linked n l) {p : Nat} (hp : p ∈ l) (hlt : n + 1 < p) :
    ∃ b, ∃ i ∈ B.code b, i.id = p ∧ i.op = .phi ∧
      (∀ w ∈ i.operands, ∃ r ∈ l, w = .result r) ∧ i.MergesTwo := by
  induction h with
  | pair =>
    simp only [List.mem_cons, List.not_mem_nil, or_false] at hp
    omega
  | @next l b i hl hi hop _ hmerged htwo ih =>
    rcases List.mem_cons.mp hp with rfl | hp
    · refine ⟨b, i, hi, rfl, hop, fun w hw => ?_, htwo⟩
      rcases hmerged w hw with rfl | ⟨r, hr, rfl⟩
      · exact ⟨i.id, List.mem_cons_self, rfl⟩
      · exact ⟨r, List.mem_cons_of_mem _ hr, rfl⟩
    · obtain ⟨c, j, hj, hjp, hjop, hoperands, htwo⟩ := ih hp
      refine ⟨c, j, hj, hjp, hjop, fun w hw => ?_, htwo⟩
      obtain ⟨r, hr, rfl⟩ := hoperands w hw
      exact ⟨r, List.mem_cons_of_mem _ hr, rfl⟩

/-- It is enough that the PHIs are retained. -/
theorem mono (h : B.Linked n l)
    (hretains : ∀ b, ∀ i ∈ B.code b, i.id ∈ l → n + 1 < i.id →
      (∀ w ∈ i.operands, ∃ r ∈ l, w = .result r) → C.Retains b i) : C.Linked n l := by
  induction h with
  | pair => exact .pair
  | @next l b i hl hi hop hlt hmerged htwo ih =>
    have hl' := ih fun c j hj hjl hjn hoperands => hretains c j hj (List.mem_cons_of_mem _ hjl) hjn
      fun w hw => by
        obtain ⟨r, hr, hwr⟩ := hoperands w hw
        exact ⟨r, List.mem_cons_of_mem _ hr, hwr⟩
    obtain ⟨j, hj, hji, hjop, hjoperands⟩ := hretains b i hi List.mem_cons_self hlt fun w hw => by
      rcases hmerged w hw with rfl | ⟨r, hr, rfl⟩
      · exact ⟨i.id, List.mem_cons_self, rfl⟩
      · exact ⟨r, List.mem_cons_of_mem _ hr, rfl⟩
    rw [← hji]
    refine .next hl' hj (hjop.trans hop) (hji ▸ hlt) (fun w hw => ?_) (htwo.congr hji hjoperands)
    rw [Inst.result, hji]
    exact hmerged w (hjoperands ▸ hw)

/-- Once the PHI `n` merges only `n + 1`, all but the latter are a chain. -/
theorem exists_chain (h : B.Linked n l) {b : Nat} {i : Inst} (hi : i ∈ B.code b) (hid : i.id = n)
    (hop : i.op = .phi) (hmerged : i.mergedValue? = some (.result (n + 1))) :
    ∃ k, B.Chain n (.result (n + 1)) k ∧ (∀ r ∈ k, ¬ r < n) ∧ ∀ r ∈ l, r = n + 1 ∨ r ∈ k := by
  induction h with
  | pair => exact ⟨[n], .first hi hid hop hmerged, by simp, by simp⟩
  | @next l c j _ hj hjop hlt hall _ ih =>
    obtain ⟨k, hk, hle, hmem⟩ := ih
    refine ⟨j.id :: k, .next hk hj hjop fun w hw => ?_, ?_, ?_⟩
    · rcases hall w hw with rfl | ⟨r, hr, rfl⟩
      · exact Or.inr (Or.inl rfl)
      · rcases hmem r hr with rfl | hr
        · exact Or.inl rfl
        · exact Or.inr (Or.inr ⟨r, hr, rfl⟩)
    · exact List.forall_mem_cons.mpr ⟨by omega, hle⟩
    · refine List.forall_mem_cons.mpr ⟨Or.inr List.mem_cons_self, fun r hr => ?_⟩
      exact (hmem r hr).imp_right (List.mem_cons_of_mem _)

end Body.Linked

/-- What stands for a value: a value from before for itself, the PHIs in `l` for the PHI `n`, and
PHIs under way for each other as `ρ` says. -/
def Value.Matches (n : Nat) (ρ : Nat → Nat → Prop) (l : List Nat) (a a' : Value) : Prop :=
  a.Below n ∧ a' = a ∨ (a = .result n ∧ ∃ p ∈ l, a' = .result p) ∨
    ∃ k p, ρ k p ∧ a = .result k ∧ a' = .result p

theorem Value.Matches.mono {n : Nat} {ρ ρ' : Nat → Nat → Prop} {l l' : List Nat} {a a' : Value}
    (h : Value.Matches n ρ l a a') (hρ : ∀ k p, ρ k p → ρ' k p) (hl : l ⊆ l') :
    Value.Matches n ρ' l' a a' := by
  rcases h with hold | ⟨ha, p, hp, ha'⟩ | ⟨k, p, hkp, ha, ha'⟩
  · exact Or.inl hold
  · exact Or.inr (Or.inl ⟨ha, p, hl hp, ha'⟩)
  · exact Or.inr (Or.inr ⟨k, p, hρ k p hkp, ha, ha'⟩)

namespace Builder

/-- The state knows of a variable what `E` says, where PHIs in `l` stand for the PHI `n`.  PHIs that
are under way have other numbers in `E`: if `ρ k p`, the PHI `p` of the state has the number `k`
there.  From `n` on there are no PHIs but these. -/
structure Shadows (S : Scene) (x n : Nat) (ρ : Nat → Nat → Prop) (l : List Nat) (E : Notes)
    (t : Builder) (C : Body) : Prop where
  coded : Coded t C
  preds : C.preds = S.preds
  isSealed : ∀ q, S.isSealed q = true → E.value q = none → t.isSealed q = true
  before : t.globalValue x = S.before
  below : S.before.Below n
  values : ∀ q, Option.Rel (Value.Matches n ρ l) (E.value q) ((t.notes x).value q)
  linked : C.Linked n l
  first : n < E.next
  labels : ∀ k p, ρ k p → n < k ∧ k < E.next
  unique : ∀ k p p', ρ k p → ρ k p' → p = p'
  apart : ∀ k k' p, ρ k p → ρ k' p → k = k'
  other : ∀ k p, ρ k p → n + 1 < p ∧ p ∉ l
  phis : ∀ p, (p ∈ l ∨ ∃ k, ρ k p) ↔ n ≤ p ∧ t.isPhi p = true

/-- The PHI `p` that is under way beside those of `ρ`. -/
abbrev Beside (ρ : Nat → Nat → Prop) (k p : Nat) : Nat → Nat → Prop :=
  fun k' p' => ρ k' p' ∨ k' = k ∧ p' = p

namespace Shadows

variable {S : Scene} {x n k p q b : Nat} {ρ : Nat → Nat → Prop} {l : List Nat} {E : Notes}
  {t u : Builder} {C : Body} {i : Inst} {a a' v w : Value} {o : Options}

theorem lt_nextId (h : Shadows S x n ρ l E t C) (hp : p ∈ l ∨ ∃ k, ρ k p) : p < t.nextId :=
  h.coded.lt_of_isPhi ((h.phis p).mp hp).2

theorem lt (h : Shadows S x n ρ l E t C) : n + 1 < t.nextId := h.lt_nextId (Or.inl h.linked.mem.2)

theorem below_of_matches (h : Shadows S x n ρ l E t C) (ha : Value.Matches n ρ l a a') :
    a'.Below t.nextId := by
  have hlt := h.lt
  rcases ha with ⟨hold, rfl⟩ | ⟨_, p, hp, rfl⟩ | ⟨k, p, hkp, _, rfl⟩
  · exact hold.mono (by omega)
  · exact fun _ heq => Value.result.inj heq ▸ h.lt_nextId (Or.inl hp)
  · exact fun _ heq => Value.result.inj heq ▸ h.lt_nextId (Or.inr ⟨k, hkp⟩)

/-- What a PHI under way stands for. -/
theorem eq_of_matches_right (h : Shadows S x n ρ l E t C) (hkp : ρ k p)
    (ha : Value.Matches n ρ l a (.result p)) : a = .result k := by
  obtain ⟨hlt, hpl⟩ := h.other k p hkp
  rcases ha with ⟨hold, rfl⟩ | ⟨_, p', hp', heq⟩ | ⟨k', p', hkp', rfl, heq⟩
  · exact absurd (hold p rfl) (by omega)
  · exact absurd (Value.result.inj heq ▸ hp') hpl
  · cases heq
    rw [h.apart k k' p hkp hkp']

/-- What stands for a PHI under way. -/
theorem eq_of_matches_left (h : Shadows S x n ρ l E t C) (hkp : ρ k p)
    (ha : Value.Matches n ρ l (.result k) a') : a' = .result p := by
  have hlt := (h.labels k p hkp).1
  rcases ha with ⟨hold, _⟩ | ⟨heq, _⟩ | ⟨k', p', hkp', heq, rfl⟩
  · exact absurd (hold k rfl) (by omega)
  · exact absurd (Value.result.inj heq) (by omega)
  · cases heq
    rw [h.unique k p p' hkp hkp']

/-- Two values can stand only for the PHI `n`. -/
theorem eq_of_matches_two (h : Shadows S x n ρ l E t C) (hv : Value.Matches n ρ l a v)
    (hw : Value.Matches n ρ l a w) (hne : v ≠ w) : a = .result n := by
  rcases hv with ⟨hold, rfl⟩ | ⟨rfl, _⟩ | ⟨k, p, hkp, rfl, rfl⟩
  · rcases hw with ⟨_, rfl⟩ | ⟨rfl, _⟩ | ⟨k, p, hkp, rfl, _⟩
    · exact absurd rfl hne
    · rfl
    · exact absurd (hold k rfl) (not_lt.mpr (h.labels k p hkp).1.le)
  · rfl
  · exact absurd (h.eq_of_matches_left hkp hw).symm hne

theorem exists_value (h : Shadows S x n ρ l E t C) (hq : E.value q = some a) :
    ∃ a', t.defs.get? (x, q) = some a' ∧ Value.Matches n ρ l a a' := by
  have hrel := h.values q
  rw [hq] at hrel
  generalize hw : (t.notes x).value q = w at hrel
  cases hrel with
  | some ha => exact ⟨_, hw, ha⟩

theorem value_none (h : Shadows S x n ρ l E t C) (hq : E.value q = none) :
    t.defs.get? (x, q) = none := by
  have hrel := h.values q
  rw [hq] at hrel
  generalize hw : (t.notes x).value q = w at hrel
  cases hrel with
  | none => exact hw

/-- A definition is made. -/
theorem define (h : Shadows S x n ρ l E t C) (ha : Value.Matches n ρ l a a') (q : Nat) :
    Shadows S x n ρ l (E.set q a) { t with defs := t.defs.insert (x, q) a' } C where
  coded := h.coded.remember.coded
  preds := h.preds
  isSealed r hr hnone := by
    refine h.isSealed r hr ?_
    by_cases hrq : r = q
    · subst hrq
      simp [Notes.set] at hnone
    · simpa [Notes.set, hrq] using hnone
  before := h.before
  below := h.below
  values r := by
    rw [notes_define]
    by_cases hrq : r = q
    · subst hrq
      simpa [Notes.set] using Option.Rel.some ha
    · simpa [Notes.set, hrq] using h.values r
  linked := h.linked
  first := h.first
  labels := h.labels
  unique := h.unique
  apart := h.apart
  other := h.other
  phis := h.phis

/-- Changes that only touch what is new keep the PHIs linked. -/
theorem linked_of_changes {wild : Prop} {D : Nat × Nat → Prop} {C' : Body}
    (h : Shadows S x n ρ l E t C) (hchanges : Changes wild (t.nextId ≤ ·) D t u)
    (hu : Coded u C') : C'.Linked n l := by
  refine h.linked.mono fun b i hi hil _ hoperands => hchanges.retains h.coded hu hi ?_ ?_
  · exact not_le.mpr (h.lt_nextId (Or.inl hil))
  · intro q hq
    obtain ⟨r, hr, heq⟩ := hoperands _ hq
    exact not_le.mpr (Value.result.inj heq ▸ h.lt_nextId (Or.inl hr))

/-- A PHI comes in. -/
theorem begin {C' : Body} (h : Shadows S x n ρ l E t C) (hC : Begun t C x q u C') :
    Shadows S x n (Beside ρ E.next t.nextId) l
      (E.draw.set q (.result E.next)) u C' where
  coded := hC.follows.coded
  preds := (funext hC.follows.steady.frame.preds).trans h.preds
  isSealed r hr hnone := by
    rw [hC.follows.steady.isSealed]
    refine h.isSealed r hr ?_
    by_cases hrq : r = q
    · subst hrq
      simp [Notes.set] at hnone
    · simpa [Notes.set, Notes.draw, hrq] using hnone
  before := by rw [globalValue, hC.follows.steady.globalDefs]; exact h.before
  below := h.below
  values r := by
    rw [hC.notes]
    by_cases hrq : r = q
    · subst hrq
      have hself : Value.Matches n (Beside ρ E.next t.nextId) l
          (.result E.next) (.result t.nextId) :=
        Or.inr (Or.inr ⟨_, _, Or.inr ⟨rfl, rfl⟩, rfl, rfl⟩)
      simpa [Notes.set] using Option.Rel.some hself
    · simpa [Notes.set, Notes.draw, hrq] using rel_map (f := id) (g := id)
        (fun _ _ ha => ha.mono (fun _ _ => Or.inl) (List.Subset.refl _)) (h.values r)
  linked := h.linked_of_changes hC.changes hC.follows.coded
  first := Nat.lt_succ_of_lt h.first
  labels k p hkp := by
    change n < k ∧ k < E.next + 1
    have hfirst := h.first
    rcases hkp with hkp | ⟨rfl, _⟩
    · have := h.labels k p hkp
      omega
    · omega
  unique k p p' hp hp' := by
    rcases hp with hp | ⟨rfl, rfl⟩ <;> rcases hp' with hp' | ⟨hk, rfl⟩
    · exact h.unique k p p' hp hp'
    · exact absurd (h.labels k p hp).2 (by omega)
    · exact absurd (h.labels _ _ hp').2 (lt_irrefl _)
    · rfl
  apart k k' p hp hp' := by
    rcases hp with hp | ⟨rfl, rfl⟩ <;> rcases hp' with hp' | ⟨rfl, heq⟩
    · exact h.apart k k' p hp hp'
    · exact absurd (h.lt_nextId (Or.inr ⟨k, hp⟩)) (by omega)
    · exact absurd (h.lt_nextId (Or.inr ⟨k', hp'⟩)) (lt_irrefl _)
    · rfl
  other k p hkp := by
    rcases hkp with hkp | ⟨_, rfl⟩
    · exact h.other k p hkp
    · exact ⟨h.lt, fun hmem => lt_irrefl _ (h.lt_nextId (Or.inl hmem))⟩
  phis p := by
    rw [hC.isPhi]
    have hold := h.phis p
    have hlt := h.lt
    constructor
    · rintro (hp | ⟨k, hkp | ⟨_, rfl⟩⟩)
      · have := hold.mp (Or.inl hp)
        exact ⟨this.1, Or.inl this.2⟩
      · have := hold.mp (Or.inr ⟨k, hkp⟩)
        exact ⟨this.1, Or.inl this.2⟩
      · exact ⟨by omega, Or.inr rfl⟩
    · rintro ⟨hn, hp | rfl⟩
      · exact (hold.mpr ⟨hn, hp⟩).imp_right (Exists.imp fun _ => Or.inl)
      · exact Or.inr ⟨E.next, Or.inr ⟨rfl, rfl⟩⟩

/-- A PHI under way, or the one that comes right after `n`, gets an operand. -/
theorem addOperand (h : Shadows S x n ρ l E t C) (hp : p = n + 1 ∨ ∃ k, ρ k p)
    (hrun : Builder.changeBody (fun body => .ok ((), (body.addOperand p v).2)) t = .ok () u) :
    Shadows S x n ρ l E u (C.addOperand p v).2 := by
  obtain ⟨hC, _, hdefs⟩ := h.coded.addOperand_eq hrun
  refine ⟨hC.coded, (funext hC.steady.frame.preds).trans h.preds, fun q hq hnone => ?_, ?_, h.below,
    fun q => ?_, ?_, h.first, h.labels, h.unique, h.apart, h.other, fun r => ?_⟩
  · rw [hC.steady.isSealed]
    exact h.isSealed q hq hnone
  · rw [globalValue, hC.steady.globalDefs]
    exact h.before
  · have := h.values q
    simp only [notes] at this ⊢
    rwa [hdefs]
  · -- the PHI is none of the others
    refine h.linked.mono fun b i hi hil hlt _ => ?_
    have hip : i.id ≠ p := by
      rintro rfl
      rcases hp with heq | ⟨k, hkp⟩
      · omega
      · exact (h.other k _ hkp).2 hil
    obtain ⟨j, hj, hid, hop, hoperands⟩ := h.coded.addOperand_becomes hi p v
    rw [if_neg hip] at hoperands
    exact ⟨j, hj, hid, hop, hoperands⟩
  · rw [h.phis, h.coded.isPhi_addOperand_iff hrun]

/-! ### A PHI is complete -/

/-- What is said of another value does not depend on the PHI. -/
theorem matches_of_beside (ha : Value.Matches n (Beside ρ k p) l a a') (hne : a ≠ .result k) :
    Value.Matches n ρ l a a' := by
  rcases ha with hold | hfirst | ⟨k', p', hkp | ⟨rfl, rfl⟩, rfl, rfl⟩
  · exact Or.inl hold
  · exact Or.inr (Or.inl hfirst)
  · exact Or.inr (Or.inr ⟨k', p', hkp, rfl, rfl⟩)
  · exact absurd rfl hne

/-- The PHI gives way to what stands for its value. -/
theorem givesWay (h : Shadows S x n (Beside ρ k i.id) l E t C) (hk : ∀ k' p, ρ k' p → k' ≠ k)
    (hgives : GivesWay i w t C u) (ha : Value.Matches n ρ l a w) :
    Shadows S x n ρ l (E.redirect k a) u (C.forwardPhi i w) := by
  have hself : Beside ρ k i.id k i.id := Or.inr ⟨rfl, rfl⟩
  have hsteady := hgives.follows.steady
  refine ⟨hgives.after, (funext hsteady.frame.preds).trans h.preds, fun q hq hnone => ?_, ?_,
    h.below, fun q => ?_, ?_, h.first, fun k' p hkp => h.labels k' p (Or.inl hkp),
    fun k' p p' hp hp' => h.unique k' p p' (Or.inl hp) (Or.inl hp'),
    fun k' k'' p hp hp' => h.apart k' k'' p (Or.inl hp) (Or.inl hp'),
    fun k' p hkp => h.other k' p (Or.inl hkp), fun p => ?_⟩
  · rw [hsteady.isSealed]
    exact h.isSealed q hq (by simpa [Notes.redirect] using hnone)
  · rw [globalValue, hsteady.globalDefs]
    exact h.before
  · -- the PHI is replaced on both sides, and nothing else is
    rw [hgives.notes]
    refine rel_map (fun v v' hv => ?_) (h.values q)
    by_cases hvk : v = .result k
    · subst hvk
      rw [h.eq_of_matches_left hself hv, Value.redirect_self, Value.redirect_self]
      exact ha
    · have hvi : v' ≠ .result i.id := by
        rintro rfl
        exact hvk (h.eq_of_matches_right hself hv)
      rw [Value.redirect_of_ne hvk, Value.redirect_of_ne hvi]
      exact matches_of_beside hv hvk
  · refine h.linked.mono fun b j hj hjl _ hoperands => hgives.retains hj ?_ fun hmem => ?_
    · intro heq
      exact (h.other k i.id hself).2 (heq ▸ hjl)
    · obtain ⟨r, hr, heq⟩ := hoperands _ hmem
      exact (h.other k i.id hself).2 (Value.result.inj heq ▸ hr)
  · rw [hgives.isPhi_iff, ← and_assoc, ← h.phis]
    constructor
    · rintro (hp | ⟨k', hkp⟩)
      · exact ⟨Or.inl hp, fun heq => (h.other k i.id hself).2 (heq ▸ hp)⟩
      · refine ⟨Or.inr ⟨k', Or.inl hkp⟩, ?_⟩
        rintro rfl
        exact hk k' _ hkp (h.apart k' k _ (Or.inl hkp) hself)
    · rintro ⟨hp | ⟨k', hkp | ⟨_, rfl⟩⟩, hne⟩
      · exact Or.inl hp
      · exact Or.inr ⟨k', hkp⟩
      · exact absurd rfl hne

/-- The PHI stays, and is one more that stands for the PHI `n`. -/
theorem joins (h : Shadows S x n (Beside ρ k i.id) l E t C) (hk : ∀ k' p, ρ k' p → k' ≠ k)
    (hi : i ∈ C.code b) (hop : i.op = .phi) (htwo : i.MergesTwo)
    (hmerged : ∀ w ∈ i.operands, w = i.result ∨ ∃ r ∈ l, w = .result r) :
    Shadows S x n ρ (i.id :: l) (E.redirect k (.result n)) t C := by
  have hself : Beside ρ k i.id k i.id := Or.inr ⟨rfl, rfl⟩
  obtain ⟨hlt, hil⟩ := h.other k i.id hself
  refine ⟨h.coded, h.preds, fun q hq hnone => ?_, h.before, h.below, fun q => ?_,
    .next h.linked hi hop hlt hmerged htwo, h.first, fun k' p hkp => h.labels k' p (Or.inl hkp),
    fun k' p p' hp hp' => h.unique k' p p' (Or.inl hp) (Or.inl hp'),
    fun k' k'' p hp hp' => h.apart k' k'' p (Or.inl hp) (Or.inl hp'),
    fun k' p hkp => ⟨(h.other k' p (Or.inl hkp)).1, fun hmem => ?_⟩, fun p => ?_⟩
  · exact h.isSealed q hq (by simpa [Notes.redirect] using hnone)
  · -- only `E` changes: what has the number `k` there becomes the PHI `n`
    suffices hrel : Option.Rel (Value.Matches n ρ (i.id :: l))
        ((E.value q).map (Value.redirect k (.result n))) (((t.notes x).value q).map id) by
      simpa [Notes.redirect] using hrel
    refine rel_map (fun v v' hv => ?_) (h.values q)
    by_cases hvk : v = .result k
    · subst hvk
      rw [h.eq_of_matches_left hself hv, Value.redirect_self]
      exact Or.inr (Or.inl ⟨rfl, i.id, List.mem_cons_self, rfl⟩)
    · rw [Value.redirect_of_ne hvk]
      exact (matches_of_beside hv hvk).mono (fun _ _ hkp => hkp) (List.subset_cons_self _ _)
  · rcases List.mem_cons.mp hmem with rfl | hmem
    · exact hk k' _ hkp (h.apart k' k _ (Or.inl hkp) hself)
    · exact (h.other k' p (Or.inl hkp)).2 hmem
  · rw [← h.phis, List.mem_cons]
    constructor
    · rintro ((rfl | hp) | ⟨k', hkp⟩)
      · exact Or.inr ⟨k, hself⟩
      · exact Or.inl hp
      · exact Or.inr ⟨k', Or.inl hkp⟩
    · rintro (hp | ⟨k', hkp | ⟨_, rfl⟩⟩)
      · exact Or.inl (Or.inr hp)
      · exact Or.inr ⟨k', hkp⟩
      · exact Or.inl (Or.inl rfl)

/-- Where a value is found, a read answers with what stands for it. -/
def Answers (S : Scene) (o : Options) (x n d : Nat) : Prop :=
  ∀ {ρ : Nat → Nat → Prop} {l : List Nat} {E E' : Notes} {t : Builder} {C : Body} {q : Nat}
    {a : Value}, Shadows S x n ρ l E t C → Finds S d E q a E' →
    ∃ a' l' u C', readFrom o x d q t = .ok a' u ∧ Shadows S x n ρ l' E' u C' ∧ l ⊆ l' ∧
      Value.Matches n ρ l' a a'

/-- A PHI gets what stands for the values that are found. -/
theorem loop {d : Nat} (hread : Answers S o x n d) {rs : List Nat} {as : List Value} {E' : Notes}
    (hall : Gathers (Finds S d) E rs as E') : ∀ {l : List Nat} {t : Builder} {C : Body} {i : Inst},
      Shadows S x n ρ l E t C → i ∈ C.code b → i.op = .phi → (i.id = n + 1 ∨ ∃ k, ρ k i.id) →
      (∀ w ∈ i.operands, w.Below t.nextId) →
      ∃ as' l' u C', ∃ j ∈ C'.code b,
        rs.forM (fillRound (readFrom o x d) i.id) t = .ok () u ∧ Shadows S x n ρ l' E' u C' ∧
        l ⊆ l' ∧ Changes True (i.id ≤ ·) (fun _ => True) t u ∧ j.id = i.id ∧ j.op = .phi ∧
        j.operands = i.operands ++ as' ∧ List.Forall₂ (Value.Matches n ρ l') as as' := by
  induction hall with
  | nil =>
    intro l t C i h hi hop _ _
    exact ⟨[], l, t, C, i, hi, rfl, h, List.Subset.refl _, .refl, rfl, hop, by simp, .nil⟩
  | @cons E E₁ E₂ q a rs as hfinds hall ih =>
    intro l t C i h hi hop hunder hbelow
    obtain ⟨a', l₁, t₁, C₁, hrun, h₁, hl₁, ha'⟩ := hread h hfinds
    -- the PHI is left alone by the read, and gets the answer
    have hlt : i.id < t.nextId := h.coded.bound b i hi
    obtain ⟨hchanges, _⟩ := Ends.ok (h.coded.readFrom_changes o x d (Or.inl trivial)) hrun
    obtain ⟨t₂, hadd, _⟩ := h₁.coded.addOperand i.id a'
    have h₂ := h₁.addOperand hunder hadd
    obtain ⟨i₂, hi₂, hid, hop₂, hoperands₂⟩ :=
      h.coded.exists_filled hi hbelow hchanges h₁.coded a'
    have hstep : Change True (i.id ≤ ·) (fun _ => True) t₁ t₂ :=
      .operand le_rfl (Or.inl trivial) hadd
    have hnext₁ : t.nextId ≤ t₁.nextId := by
      obtain ⟨C', hC'⟩ := hchanges.follows h.coded
      exact hC'.steady.nextId
    have hnext₂ := (h₁.coded.addOperand_eq hadd).1.steady.nextId
    obtain ⟨as', l', u, C', j, hj, hloop, h', hl', hchanges₂, hji, hjop, hjoperands, has⟩ :=
      ih h₂ hi₂ (hop₂.trans hop) (hid ▸ hunder) fun w hw => by
        rw [hoperands₂] at hw
        rcases List.mem_append.mp hw with hw | hw
        · exact (hbelow w hw).mono (hnext₁.trans hnext₂)
        · rw [List.mem_singleton.mp hw]
          exact (h₁.below_of_matches ha').mono hnext₂
    rw [hid] at hloop hchanges₂ hji
    refine ⟨a' :: as', l', u, C', j, hj, ?_, h', List.Subset.trans hl₁ hl', ?_, hji, hjop, ?_,
      .cons (ha'.mono (fun _ _ hkp => hkp) hl') has⟩
    · exact bind_eq_ok.mpr ⟨(), t₂, bind_eq_ok.mpr ⟨a', t₁, hrun, hadd⟩, hloop⟩
    · refine ((hchanges.mono (fun _ => trivial) (fun p hp => ?_) fun _ _ => trivial).tail
        hstep).trans hchanges₂
      exact hlt.le.trans hp
    · rw [hjoperands, hoperands₂, List.append_assoc]
      rfl

section Complete

variable {as : List Value}
  (h : Shadows S x n (Beside ρ k i.id) l E t C) (hbefore : ∀ k' p, ρ k' p → k' ≠ k ∧ p < i.id)
  (hi : i ∈ C.code b) (hop : i.op = .phi) (hsticky : Sticky (i.id ≤ ·) C)
  (hmatches : List.Forall₂ (Value.Matches n (Beside ρ k i.id) l) as i.operands)
  (has : ∀ w ∈ as, w = a ∨ w = .result k) (ha : a ∈ as) (hne : a ≠ .result k)

include h hbefore hi hsticky in
/-- The PHIs that are noted as users of a PHI that is complete merge two values, and it makes no
difference to them that it gives way. -/
theorem users_mergeTwo (hgives : GivesWay i v t C u) (c : Nat) (j : Inst)
    (hj : j ∈ (C.forwardPhi i v).code c) (hop : j.op = .phi) (huser : j.id ∈ i.users)
    (hne : j.id ≠ i.id) : j.MergesTwo := by
  obtain ⟨hlt, hil⟩ := h.other k i.id (Or.inr ⟨rfl, rfl⟩)
  have hphi := (hgives.isPhi_iff.mp (hgives.after.isPhi_iff.mpr ⟨c, j, hj, rfl, hop⟩)).1
  obtain ⟨d, j₀, hj₀, hid, hop₀⟩ := h.coded.isPhi_iff.mp hphi
  have hle := hsticky b d i hi j₀ hj₀ hgives.phi le_rfl hop₀ (hid ▸ huser)
  rw [hid] at hle
  -- it came in later, so it is one of those that stand for the PHI `n`
  have hmem : j.id ∈ l := by
    rcases (h.phis j.id).mpr ⟨by omega, hphi⟩ with hmem | ⟨k', hkp | ⟨_, heq⟩⟩
    · exact hmem
    · exact absurd (hbefore k' _ hkp).2 (not_lt.mpr hle)
    · exact absurd heq hne
  obtain ⟨e, m, hm, hmj, hmop, hoperands, htwo⟩ := h.linked.exists_of_mem hmem (by omega)
  obtain ⟨m', hm', hid', _, hoperands'⟩ := hgives.retains hm (hmj ▸ hne) fun hmem => by
    obtain ⟨r, hr, heq⟩ := hoperands _ hmem
    exact hil (Value.result.inj heq ▸ hr)
  obtain rfl := hgives.after.indexed.eq_of_id_eq hm' hj (hid'.trans hmj)
  exact htwo.congr hid' hoperands'

include h hmatches has in
/-- An operand that is not the PHI itself stands for the value. -/
theorem matches_of_mem (hw : w ∈ i.operands) (hwi : w ≠ .result i.id) :
    Value.Matches n (Beside ρ k i.id) l a w := by
  obtain ⟨v, hv, hvw⟩ := forall₂_exists_left hmatches hw
  rcases has v hv with rfl | rfl
  · exact hvw
  · exact absurd (h.eq_of_matches_left (Or.inr ⟨rfl, rfl⟩) hvw) hwi

include h hmatches ha hne in
/-- There is such an operand. -/
theorem exists_operand : ∃ w ∈ i.operands, w ≠ .result i.id := by
  obtain ⟨w, hw, haw⟩ := forall₂_exists_left hmatches.flip ha
  refine ⟨w, hw, ?_⟩
  rintro rfl
  exact hne (h.eq_of_matches_right (Or.inr ⟨rfl, rfl⟩) haw)

include h hbefore hi hop hsticky hmatches has ha hne in
/-- A PHI that is complete gives way to what stands for the value, or stands for it itself. -/
theorem complete : ∃ a' l' u C', removeTrivialPhi i.id t = .ok a' u ∧
    Shadows S x n ρ l' (E.redirect k a) u C' ∧ l ⊆ l' ∧ Value.Matches n ρ l' a a' := by
  have hlabel : ∀ k' p, ρ k' p → k' ≠ k := fun k' p hkp => (hbefore k' p hkp).1
  cases hm : i.mergedValue? with
  | some w =>
    obtain ⟨v, hv, hvi⟩ := h.exists_operand hmatches ha hne
    obtain rfl := (eq_of_mergedValue? hm v hv).resolve_left hvi
    have hav := matches_of_beside (h.matches_of_mem hmatches has hv hvi) hne
    obtain ⟨u, hgives⟩ := h.coded.exists_givesWay hi hop hm
    exact ⟨v, l, u, _, hgives.removeTrivialPhi (h.users_mergeTwo hbefore hi hsticky hgives),
      h.givesWay hlabel hgives hav, List.Subset.refl _, hav⟩
  | none =>
    have htwo := Inst.mergesTwo_iff.mpr hm
    obtain ⟨v, hv, w, hw, hvw, hvi, hwi⟩ := id htwo
    -- only one value has two others that stand for it
    obtain rfl := h.eq_of_matches_two (h.matches_of_mem hmatches has hv hvi)
      (h.matches_of_mem hmatches has hw hwi) hvw
    refine ⟨.result i.id, i.id :: l, t, C, h.coded.removeTrivialPhi_of_collapse
      (h.coded.collapse_of_mergesTwo hi hop htwo), h.joins hlabel hi hop htwo fun w hw => ?_,
      List.subset_cons_self _ _, Or.inr (Or.inl ⟨rfl, i.id, List.mem_cons_self, rfl⟩)⟩
    by_cases hwi : w = .result i.id
    · exact Or.inl hwi
    · rcases h.matches_of_mem hmatches has hw hwi with ⟨hold, _⟩ | ⟨_, hlead⟩ | ⟨k', p, hkp, heq, _⟩
      · exact absurd (hold n rfl) (lt_irrefl _)
      · exact Or.inr hlead
      · exact absurd (Value.result.inj heq) (h.labels k' p hkp).1.ne

end Complete

/-- **Where a value is found, a read answers with what stands for it.** -/
theorem answers (ho : o.removeTrivialPhis = true) (d : Nat) : Answers S o x n d := by
  induction d with
  | zero => exact fun _ h => h.elim
  | succ d ih =>
    intro ρ l E E' t C q a h hfinds
    cases hfinds with
    | known hq =>
      obtain ⟨a', hq', ha⟩ := h.exists_value hq
      exact ⟨a', l, t, C, readFrom_succ_eq_ok.mpr (.known hq'), h, List.Subset.refl _, ha⟩
    | outside hq hsealed hpreds ha =>
      subst ha
      have ha : Value.Matches n ρ l S.before S.before := Or.inl ⟨h.below, rfl⟩
      refine ⟨S.before, l, _, C, readFrom_succ_eq_ok.mpr (.outside (h.value_none hq)
        (h.isSealed q hsealed hq) h.coded.body ?_ h.before.symm), h.define ha q,
        List.Subset.refl _, ha⟩
      rw [h.preds, hpreds]
    | single hq hsealed hpreds hr =>
      obtain ⟨a', l', u, C', hrun, h', hl, ha⟩ := ih h hr
      refine ⟨a', l', _, C', readFrom_succ_eq_ok.mpr (.single (h.value_none hq)
        (h.isSealed q hsealed hq) h.coded.body ?_ hrun), h'.define ha q, hl, ha⟩
      rw [h.preds, hpreds]
    | merged hq hsealed hpreds hall has ha hne =>
      have hpreds' : C.preds q = S.preds q := by rw [h.preds]
      have hlt : q < C.graph.size := by
        obtain ⟨r, hr⟩ := List.exists_mem_of_length_pos (Nat.lt_of_lt_of_le Nat.two_pos hpreds)
        exact Body.lt_size_of_mem_preds (hpreds' ▸ hr)
      obtain ⟨t₁, hnew⟩ := h.coded.exists_newPhi hlt
      obtain ⟨_, C₂, hC⟩ := h.coded.begun x hnew
      have h₂ := h.begin hC
      obtain ⟨as', l', u, C', j, hj, hloop, h', hl, hchanges, hid, hop, hoperands, hmatches⟩ :=
        loop ih hall h₂ hC.phi rfl (Or.inr ⟨E.next, Or.inr ⟨rfl, rfl⟩⟩) (by simp)
      have hid : j.id = t.nextId := hid
      have hsticky : Sticky (t.nextId ≤ ·) C' := Changes.sticky ((hC.changes.mono (fun h => h.elim)
        (fun _ h => h) fun _ h => h).trans hchanges) h.coded h.coded.sticky_new (fun _ h => h)
          h'.coded
      have hbefore : ∀ k p, ρ k p → k ≠ E.next ∧ p < j.id := fun k p hkp =>
        ⟨(h.labels k p hkp).2.ne, hid ▸ h.lt_nextId (Or.inr ⟨k, hkp⟩)⟩
      rw [← hid] at h' hmatches hsticky
      obtain ⟨a', l'', u', C'', hrem, h'', hl'', ha'⟩ := h'.complete hbefore hj hop hsticky
        (hoperands ▸ hmatches) has ha hne
      rw [hid] at hrem
      refine ⟨a', l'', _, C'', readFrom_succ_eq_ok.mpr (.merged (h.value_none hq)
        (h.isSealed q hsealed hq) h.coded.body (hpreds' ▸ hpreds) hnew
        ((completePhi_eq_ok hC.follows.coded ho).mpr ⟨u, ?_, hrem⟩)), h''.define ha' q,
        List.Subset.trans hl hl'', ha'⟩
      rw [hC.merged, hpreds']
      exact hloop

end Shadows

end Builder

end Compiler16.Ssa
