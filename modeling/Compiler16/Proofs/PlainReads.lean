import Compiler16.Proofs.WaitingPhis

/-!
# Reads that leave no PHI

A read of a variable goes from block to block.  Where several values come together it makes a PHI,
and removes it again if all of them turn out to be the same.  If the answer of the read is a value
that is known and was there before, all PHIs that it has made are gone in the end.  Of such a read
there is a simpler account, which is about the definitions of the one variable only: a PHI stands
for a value in the meantime, and then the value takes its place.

In this account it is easy to see what difference another definition makes.  Blocks with one
predecessor each may lead to a block that is about to get a PHI.  If one of them already has this
PHI as its definition, the same values are found.

## Main definitions

* `Finds`, `Gathers`: how values are found, if no PHI is left
* `Descends`: blocks with one predecessor each lead from one block to another
* `Alike`: definitions are the same, apart from blocks that lead to a PHI
* `Builder.Begun`: a PHI has come in as the definition of its variable

## Main results

* `Alike.finds`: where definitions are alike, the same values are found
* `Builder.GivesWay.removeTrivialPhi`: when a PHI gives way alone
* `Builder.readsPlainly`: a read that answers with a value from before finds it as said
-/

namespace Compiler16.Ssa

open Compiler16.Source Compiler16.Flow Compiler16.Ssa.Builder

/-! ## How values are found -/

/-- What a read of a variable looks at besides its definitions. -/
structure Scene where
  /-- The predecessors of a block. -/
  preds : Nat → List Nat
  /-- Whether a block is sealed. -/
  isSealed : Nat → Bool
  /-- The value before the function. -/
  before : Value

/-- What a read of a variable changes: the next free number and the definitions. -/
structure Notes where
  /-- The next free number. -/
  next : Nat
  /-- The value at the end of a block. -/
  value : Nat → Option Value

namespace Notes

/-- A number is drawn. -/
def draw (E : Notes) : Notes := { E with next := E.next + 1 }

/-- A definition is made. -/
def set (E : Notes) (q : Nat) (v : Value) : Notes :=
  { E with value := Function.update E.value q (some v) }

/-- A value takes the place of a PHI. -/
def redirect (E : Notes) (p : Nat) (v : Value) : Notes :=
  { E with value := fun q => (E.value q).map (Value.redirect p v) }

end Notes

/-- Values are found for blocks one after the other. -/
inductive Gathers (F : Notes → Nat → Value → Notes → Prop) :
    Notes → List Nat → List Value → Notes → Prop where
  | nil {E : Notes} : Gathers F E [] [] E
  | cons {E E₁ E₂ : Notes} {q : Nat} {a : Value} {l : List Nat} {as : List Value}
      (h : F E q a E₁) (hl : Gathers F E₁ l as E₂) : Gathers F E (q :: l) (a :: as) E₂

/-- How a value is found for a block, if no PHI is left: where several come together, they are all
the same, apart from the PHI that stands for the value in the meantime. -/
inductive FindStep (S : Scene) (F : Notes → Nat → Value → Notes → Prop) (E : Notes) (q : Nat)
    (a : Value) : Notes → Prop where
  | known (hq : E.value q = some a) : FindStep S F E q a E
  | outside (hq : E.value q = none) (hsealed : S.isSealed q = true) (hpreds : S.preds q = [])
      (ha : a = S.before) : FindStep S F E q a (E.set q a)
  | single {r : Nat} {E₁ : Notes} (hq : E.value q = none) (hsealed : S.isSealed q = true)
      (hpreds : S.preds q = [r]) (hr : F E r a E₁) : FindStep S F E q a (E₁.set q a)
  | merged {as : List Value} {E₁ : Notes} (hq : E.value q = none) (hsealed : S.isSealed q = true)
      (hpreds : 2 ≤ (S.preds q).length)
      (hall : Gathers F (E.draw.set q (.result E.next)) (S.preds q) as E₁)
      (has : ∀ w ∈ as, w = a ∨ w = .result E.next) (ha : a ∈ as) (hne : a ≠ .result E.next) :
      FindStep S F E q a ((E₁.redirect E.next a).set q a)

/-- A value is found for a block, at most so many steps deep. -/
def Finds (S : Scene) : Nat → Notes → Nat → Value → Notes → Prop
  | 0, _, _, _, _ => False
  | depth + 1, E, q, a, E' => FindStep S (Finds S depth) E q a E'

theorem Gathers.mono {F F' : Notes → Nat → Value → Notes → Prop} {E E' : Notes} {l : List Nat}
    {as : List Value} (hF : ∀ E q a E', F E q a E' → F' E q a E') (h : Gathers F E l as E') :
    Gathers F' E l as E' := by
  induction h with
  | nil => exact .nil
  | cons hq _ ih => exact .cons (hF _ _ _ _ hq) ih

/-- What is found is found also if one may look deeper. -/
theorem Finds.mono {S : Scene} {d d' : Nat} (hle : d ≤ d') {E E' : Notes} {q : Nat} {a : Value}
    (h : Finds S d E q a E') : Finds S d' E q a E' := by
  induction d generalizing d' E E' q a with
  | zero => exact h.elim
  | succ d ih =>
    obtain ⟨d', rfl⟩ := Nat.exists_eq_add_of_lt hle
    have ih' : ∀ E q a E', Finds S d E q a E' → Finds S (d + d') E q a E' :=
      fun _ _ _ _ => ih (by omega)
    cases h with
    | known hq => exact .known hq
    | outside hq hsealed hpreds ha => exact .outside hq hsealed hpreds ha
    | single hq hsealed hpreds hr => exact .single hq hsealed hpreds (ih' _ _ _ _ hr)
    | merged hq hsealed hpreds hall has ha hne =>
      exact .merged hq hsealed hpreds (hall.mono ih') has ha hne

/-! ## Blocks that lead to a PHI -/

/-- Sealed blocks in `U` with one predecessor each lead from the block to `m`. -/
inductive Descends (S : Scene) (U : Nat → Prop) (m : Nat) : Nat → Prop where
  | last {q : Nat} (hU : U q) (hsealed : S.isSealed q = true) (hpreds : S.preds q = [m]) :
      Descends S U m q
  | next {q r : Nat} (hU : U q) (hsealed : S.isSealed q = true) (hpreds : S.preds q = [r])
      (hr : Descends S U m r) : Descends S U m q

theorem Descends.single {S : Scene} {U : Nat → Prop} {m q : Nat} (h : Descends S U m q) :
    S.isSealed q = true ∧ ∃ r, S.preds q = [r] ∧ (r = m ∨ Descends S U m r) := by
  cases h with
  | last _ hsealed hpreds => exact ⟨hsealed, m, hpreds, Or.inl rfl⟩
  | next _ hsealed hpreds hr => exact ⟨hsealed, _, hpreds, Or.inr hr⟩

theorem Descends.mem {S : Scene} {U : Nat → Prop} {m q : Nat} (h : Descends S U m q) : U q := by
  cases h with
  | last hU => exact hU
  | next hU => exact hU

/-- Blocks that lead to `m` from a block do not come back to it. -/
theorem Descends.rest {S : Scene} {U : Nat → Prop} {m q b : Nat} (h : Descends S U m b)
    (hb : S.preds b = [q]) : q = m ∨ Descends S (fun r => U r ∧ r ≠ b) m q := by
  -- either the block is not passed, or what comes after it is what is to be shown
  suffices hall : ∀ {r}, Descends S U m r → Descends S (fun r => U r ∧ r ≠ b) m r ∨
      (q = m ∨ Descends S (fun r => U r ∧ r ≠ b) m q) by
    exact (hall h).resolve_left fun hself => hself.mem.2 rfl
  intro r hr
  induction hr with
  | @last r hU hsealed hpreds =>
    by_cases hrb : r = b
    · subst hrb
      exact Or.inr (Or.inl (List.singleton_inj.mp (hb.symm.trans hpreds)))
    · exact Or.inl (.last ⟨hU, hrb⟩ hsealed hpreds)
  | @next r r' hU hsealed hpreds _ ih =>
    by_cases hrb : r = b
    · subst hrb
      obtain rfl := List.singleton_inj.mp (hb.symm.trans hpreds)
      exact Or.inr (ih.elim Or.inr id)
    · exact ih.imp_left (.next ⟨hU, hrb⟩ hsealed hpreds)

/-- A value is found by merging what comes into the block. -/
structure MergedAt (S : Scene) (E : Notes) (m : Nat) (a : Value) : Prop where
  value : E.value m = none
  isSealed : S.isSealed m = true
  preds : 2 ≤ (S.preds m).length
  gathers : ∃ d as E', Gathers (Finds S d) (E.draw.set m (.result E.next)) (S.preds m) as E' ∧
    (∀ w ∈ as, w = a ∨ w = .result E.next) ∧ a ∈ as

/-- A value for which a number is drawn is merged somewhere. -/
theorem Finds.exists_mergedAt {S : Scene} {d : Nat} {E E' : Notes} {q : Nat} {a : Value}
    (h : Finds S d E q a E') (hnext : E'.next ≠ E.next) :
    ∃ m, MergedAt S E m a ∧ (q = m ∨ Descends S (fun r => E.value r = none) m q) := by
  induction d generalizing q E' with
  | zero => exact h.elim
  | succ d ih =>
    cases h with
    | known => exact absurd rfl hnext
    | outside => exact absurd rfl hnext
    | single hq hsealed hpreds hr =>
      obtain ⟨m, hm, hlead⟩ := ih hr hnext
      refine ⟨m, hm, Or.inr ?_⟩
      rcases hlead with rfl | hlead
      · exact .last hq hsealed hpreds
      · exact .next hq hsealed hpreds hlead
    | merged hq hsealed hpreds hall has ha =>
      exact ⟨q, ⟨hq, hsealed, hpreds, d, _, _, hall, has, ha⟩, Or.inl rfl⟩

/-- The definitions are the same, apart from blocks that lead to the PHI `k` in the block `m`. -/
structure Alike (S : Scene) (U : Nat → Prop) (m k b : Nat) (D E : Notes) : Prop where
  next : E.next = D.next
  lt : k < D.next
  phi : D.value m = some (.result k)
  same : ∀ q, ¬ Descends S U m q → E.value q = D.value q
  left : ∀ q a, Descends S U m q → D.value q = some a → a = .result k
  right : ∀ q a, Descends S U m q → E.value q = some a → a = .result k
  defined : E.value b = some (.result k)

namespace Alike

variable {S : Scene} {U : Nat → Prop} {m k b d q p : Nat} {D D' E : Notes} {a : Value}

/-- The block `m` gets a PHI, and so does a block from which undefined ones lead there. -/
theorem begin (hb : Descends S (fun r => E.value r = none) m b) :
    Alike S (fun r => E.value r = none) m E.next b (E.draw.set m (.result E.next))
      ((E.draw.set m (.result E.next)).set b (.result E.next)) where
  next := rfl
  lt := Nat.lt_succ_self _
  phi := Function.update_self ..
  same q hq := by
    have hqb : q ≠ b := fun heq => hq (heq ▸ hb)
    exact Function.update_of_ne hqb ..
  left q a hq hval := by
    by_cases hqm : q = m
    · subst hqm
      simpa [Notes.set] using hval.symm
    · have hnone : E.value q = none := hq.mem
      simp [Notes.set, Notes.draw, hqm, hnone] at hval
  right q a hq hval := by
    by_cases hqb : q = b
    · subst hqb
      simpa [Notes.set] using hval.symm
    by_cases hqm : q = m
    · subst hqm
      simpa [Notes.set, hqb] using hval.symm
    · have hnone : E.value q = none := hq.mem
      simp [Notes.set, Notes.draw, hqm, hqb, hnone] at hval
  defined := Function.update_self ..

theorem not_descends (hm : 2 ≤ (S.preds m).length) : ¬ Descends S U m m := by
  intro h
  obtain ⟨_, r, hpreds, _⟩ := h.single
  simp [hpreds] at hm

theorem set (h : Alike S U m k b D E) (hq : ¬ Descends S U m q) (hqm : q ≠ m) (hqb : q ≠ b)
    (a : Value) : Alike S U m k b (D.set q a) (E.set q a) where
  next := h.next
  lt := h.lt
  phi := (Function.update_of_ne hqm.symm ..).trans h.phi
  same r hr := by
    by_cases hrq : r = q
    · subst hrq
      simp [Notes.set]
    · simpa [Notes.set, hrq] using h.same r hr
  left r w hr hw := by
    have hrq : r ≠ q := fun heq => hq (heq ▸ hr)
    exact h.left r w hr (by simpa [Notes.set, hrq] using hw)
  right r w hr hw := by
    have hrq : r ≠ q := fun heq => hq (heq ▸ hr)
    exact h.right r w hr (by simpa [Notes.set, hrq] using hw)
  defined := (Function.update_of_ne hqb.symm ..).trans h.defined

theorem draw (h : Alike S U m k b D E) : Alike S U m k b D.draw E.draw where
  next := congrArg (· + 1) h.next
  lt := Nat.lt_succ_of_lt h.lt
  phi := h.phi
  same := h.same
  left := h.left
  right := h.right
  defined := h.defined

theorem redirect (h : Alike S U m k b D E) (hkp : k ≠ p) (a : Value) :
    Alike S U m k b (D.redirect p a) (E.redirect p a) := by
  have hk : Value.redirect p a (.result k) = .result k :=
    Value.redirect_of_ne fun heq => hkp (Value.result.inj heq)
  have hmap : ∀ {w : Option Value}, w = some (.result k) →
      w.map (Value.redirect p a) = some (.result k) := by
    rintro _ rfl
    rw [Option.map_some, hk]
  refine ⟨h.next, h.lt, hmap h.phi, fun q hq => ?_, fun q w hq hw => ?_, fun q w hq hw => ?_,
    hmap h.defined⟩
  · exact congrArg (Option.map _) (h.same q hq)
  · obtain ⟨w', hw', rfl⟩ := Option.map_eq_some_iff.mp hw
    rw [h.left q w' hq hw', hk]
  · obtain ⟨w', hw', rfl⟩ := Option.map_eq_some_iff.mp hw
    rw [h.right q w' hq hw', hk]

/-- A definition in a block that leads to the PHI. -/
theorem set_left (h : Alike S U m k b D E) (hm : 2 ≤ (S.preds m).length) (hq : Descends S U m q) :
    Alike S U m k b (D.set q (.result k)) E where
  next := h.next
  lt := h.lt
  phi := by
    have hqm : m ≠ q := by
      rintro rfl
      exact not_descends hm hq
    exact (Function.update_of_ne hqm ..).trans h.phi
  same r hr := by
    have hrq : r ≠ q := fun heq => hr (heq ▸ hq)
    simpa [Notes.set, hrq] using h.same r hr
  left r w hr hw := by
    by_cases hrq : r = q
    · subst hrq
      simpa [Notes.set] using hw.symm
    · exact h.left r w hr (by simpa [Notes.set, hrq] using hw)
  right := h.right
  defined := h.defined

theorem set_right (h : Alike S U m k b D E) (hq : Descends S U m q) :
    Alike S U m k b D (E.set q (.result k)) where
  next := h.next
  lt := h.lt
  phi := h.phi
  same r hr := by
    have hrq : r ≠ q := fun heq => hr (heq ▸ hq)
    simpa [Notes.set, hrq] using h.same r hr
  left := h.left
  right r w hr hw := by
    by_cases hrq : r = q
    · subst hrq
      simpa [Notes.set] using hw.symm
    · exact h.right r w hr (by simpa [Notes.set, hrq] using hw)
  defined := by
    by_cases hqb : b = q
    · subst hqb
      simp [Notes.set]
    · simpa [Notes.set, hqb] using h.defined

/-- In a block that leads to the PHI nothing else is found. -/
theorem eq_of_finds (h : Alike S U m k b D E) (hm : 2 ≤ (S.preds m).length)
    (hq : q = m ∨ Descends S U m q) (hfinds : Finds S d D q a D') :
    a = .result k ∧ Alike S U m k b D' E := by
  induction d generalizing q D' with
  | zero => exact hfinds.elim
  | succ d ih =>
    rcases hq with rfl | hq
    · have hval : ∀ {P : Prop}, D.value q = none → P := fun hnone =>
        absurd (hnone.symm.trans h.phi) (by simp)
      cases hfinds with
      | known hq => exact ⟨Option.some.inj (hq.symm.trans h.phi), h⟩
      | outside hq => exact hval hq
      | single hq => exact hval hq
      | merged hq => exact hval hq
    · obtain ⟨_, r, hr, hlead⟩ := hq.single
      cases hfinds with
      | known hval => exact ⟨h.left q a hq hval, h⟩
      | outside _ _ hpreds => cases hr.symm.trans hpreds
      | single _ _ hpreds hfinds =>
        cases hr.symm.trans hpreds
        obtain ⟨rfl, h₁⟩ := ih hlead hfinds
        exact ⟨rfl, h₁.set_left hm hq⟩
      | merged _ _ hpreds => simp [hr] at hpreds

/-- In such a block the PHI is found. -/
theorem exists_finds (h : Alike S U m k b D E) (hm : 2 ≤ (S.preds m).length)
    (hq : Descends S U m q) : ∃ d E', Finds S d E q (.result k) E' ∧ Alike S U m k b D E' := by
  induction hq with
  | @last q hU hsealed hpreds =>
    have hq : Descends S U m q := .last hU hsealed hpreds
    cases hval : E.value q with
    | some a =>
      obtain rfl := h.right q a hq hval
      exact ⟨1, E, .known hval, h⟩
    | none =>
      have hphi : E.value m = some (.result k) := (h.same m (not_descends hm)).trans h.phi
      exact ⟨2, _, .single hval hsealed hpreds (.known hphi), h.set_right hq⟩
  | @next q r hU hsealed hpreds hr ih =>
    have hq : Descends S U m q := .next hU hsealed hpreds hr
    cases hval : E.value q with
    | some a =>
      obtain rfl := h.right q a hq hval
      exact ⟨1, E, .known hval, h⟩
    | none =>
      obtain ⟨d, E', hfinds, h'⟩ := ih
      exact ⟨d + 1, _, .single hval hsealed hpreds hfinds, h'.set_right hq⟩

theorem gathers {F : Notes → Nat → Value → Notes → Prop}
    (hF : ∀ {D E q a D'}, Alike S U m k b D E → F D q a D' →
      ∃ d E', Finds S d E q a E' ∧ Alike S U m k b D' E')
    {l : List Nat} {as : List Value} (hall : Gathers F D l as D') :
    ∀ {E}, Alike S U m k b D E →
      ∃ d E', Gathers (Finds S d) E l as E' ∧ Alike S U m k b D' E' := by
  induction hall with
  | nil => exact fun h => ⟨0, _, .nil, h⟩
  | cons hq _ ih =>
    intro E h
    obtain ⟨d₁, E₁, hfinds, h₁⟩ := hF h hq
    obtain ⟨d₂, E₂, hall, h₂⟩ := ih h₁
    refine ⟨max d₁ d₂, E₂, .cons (hfinds.mono (le_max_left ..)) (hall.mono ?_), h₂⟩
    exact fun _ _ _ _ h => h.mono (le_max_right ..)

/-- **The same values are found.** -/
theorem finds (hm : 2 ≤ (S.preds m).length) (hb : Descends S U m b) (h : Alike S U m k b D E)
    (hfinds : Finds S d D q a D') :
    ∃ d E', Finds S d E q a E' ∧ Alike S U m k b D' E' := by
  induction d generalizing D D' E q a with
  | zero => exact hfinds.elim
  | succ d ih =>
    by_cases hq : Descends S U m q
    · obtain ⟨rfl, h₁⟩ := h.eq_of_finds hm (Or.inr hq) hfinds
      exact h₁.exists_finds hm hq
    -- elsewhere both know the same
    have hsame := h.same q hq
    have hqb : q ≠ b := fun heq => hq (heq ▸ hb)
    have hqm : D.value q = none → q ≠ m := by
      rintro hnone rfl
      exact absurd (hnone.symm.trans h.phi) (by simp)
    cases hfinds with
    | known hval => exact ⟨1, E, .known (hsame.trans hval), h⟩
    | outside hval hsealed hpreds ha =>
      exact ⟨1, _, .outside (hsame.trans hval) hsealed hpreds ha, h.set hq (hqm hval) hqb a⟩
    | single hval hsealed hpreds hr =>
      obtain ⟨d', E', hfinds, h'⟩ := ih h hr
      exact ⟨d' + 1, _, .single (hsame.trans hval) hsealed hpreds hfinds,
        h'.set hq (hqm hval) hqb a⟩
    | merged hval hsealed hpreds hall has ha hne =>
      have hstart := h.draw.set hq (hqm hval) hqb (.result D.next)
      obtain ⟨d', E', hall', h'⟩ := gathers (fun h hr => ih h hr) hall hstart
      rw [← h.next] at hall' has hne
      refine ⟨d' + 1, _, .merged (hsame.trans hval) hsealed hpreds hall' has ha hne, ?_⟩
      rw [h.next]
      exact (h'.redirect h.lt.ne a).set hq (hqm hval) hqb a

end Alike

/-! ## Reads that leave no PHI -/

/-- The block has the instruction still, with the same operands. -/
def Body.Retains (C : Body) (b : Nat) (i : Inst) : Prop :=
  ∃ j ∈ C.code b, j.id = i.id ∧ j.op = i.op ∧ j.operands = i.operands

namespace Builder

variable {wild : Prop} {K : Nat → Prop} {D : Nat × Nat → Prop} {s t u : Builder} {B C : Body}
  {i k : Inst} {o : Options} {l : Nat × Nat} {x b p q : Nat} {a v : Value}

/-- What a read of a variable looks at. -/
def scene (s : Builder) (B : Body) (x : Nat) : Scene := ⟨B.preds, s.isSealed, s.globalValue x⟩

/-- What a read of a variable changes. -/
def notes (s : Builder) (x : Nat) : Notes := ⟨s.nextId, fun q => s.defs.get? (x, q)⟩

theorem Steady.scene (h : Steady s B t C) (x : Nat) : t.scene C x = s.scene B x := by
  have hpreds : C.preds = B.preds := funext h.frame.preds
  have hsealed : t.isSealed = s.isSealed := funext h.isSealed
  simp only [Builder.scene, hpreds, hsealed, globalValue, h.globalDefs]

theorem notes_define (s : Builder) (x q : Nat) (v : Value) :
    notes { s with defs := s.defs.insert (x, q) v } x = (s.notes x).set q v := by
  simp only [notes, Notes.set, Notes.mk.injEq, true_and]
  funext r
  rw [OrderedMap.get?_insert, Function.update_apply]
  simp [eq_comm]

/-! ### What changes leave alone -/

/-- An instruction that does not use the PHI stays as it is. -/
theorem GivesWay.retains (h : GivesWay i v s B t) (hk : k ∈ B.code b) (hki : k.id ≠ i.id)
    (hne : .result i.id ∉ k.operands) : (B.forwardPhi i v).Retains b k := by
  obtain ⟨c, hi⟩ := h.mem
  obtain ⟨f, hmap, _, hf⟩ := h.before.indexed.forwardPhi_map hi v
  have hfk := hf k
  rw [if_neg hki] at hfk
  refine ⟨f k, ?_, hfk.id, hfk.op, ?_⟩
  · rw [hmap, Body.code_mapInsts]
    exact List.mem_map_of_mem hk
  · rw [hfk.operands]
    refine (List.map_congr_left fun w hw => ?_).trans (List.map_id _)
    refine if_neg ?_
    rintro ⟨_, rfl⟩
    exact hne hw

/-- An instruction that neither is in `K` nor uses anything in `K` stays as it is. -/
theorem Change.retains (h : Change wild K D s t) (hs : Coded s B) (ht : Coded t C)
    (hi : i ∈ B.code b) (hK : ¬ K i.id) (huses : ∀ q, .result q ∈ i.operands → ¬ K q) :
    C.Retains b i := by
  have hsame : t.body? = s.body? → C.Retains b i := by
    intro hbody
    obtain rfl := Option.some.inj (hs.body.symm.trans (hbody.symm.trans ht.body))
    exact ⟨i, hi, rfl, rfl, rfl⟩
  have hnewPhi : ∀ {d q u}, Builder.newPhi d s = .ok q u → u.body? = t.body? →
      C.Retains b i := by
    intro d q u hnew hbody
    have hf : Alters True (fun _ => True) s B C fun i => i :=
      alters_newPhi hs hnew (hbody.trans ht.body)
    exact ⟨i, hf.image b i hi, rfl, rfl, rfl⟩
  cases h with
  | draw => exact hsame rfl
  | phi hnew => exact hnewPhi hnew rfl
  | wait _ _ _ hnew => exact hnewPhi hnew rfl
  | define => exact hsame rfl
  | @operand p v _ hKp _ hrun =>
    obtain ⟨j, hj, hid, hop, hoperands⟩ := hs.addOperand_becomes hi p v
    have hip : i.id ≠ p := fun hip => hK (hip ▸ hKp)
    rw [if_neg hip] at hoperands
    exact ⟨j, (hs.addOperand_eq hrun).1.coded.body_unique ht ▸ hj, hid, hop, hoperands⟩
  | givesWay hKq _ hgives =>
    obtain rfl := hgives.before.body_unique hs
    rw [← hgives.after.body_unique ht]
    exact hgives.retains hi (fun heq => hK (heq ▸ hKq)) fun hmem => huses _ hmem hKq

theorem Changes.retains (h : Changes wild K D s t) (hs : Coded s B) (ht : Coded t C)
    (hi : i ∈ B.code b) (hK : ¬ K i.id) (huses : ∀ q, .result q ∈ i.operands → ¬ K q) :
    C.Retains b i := by
  induction h generalizing C with
  | refl => exact ⟨i, hs.body_unique ht ▸ hi, rfl, rfl, rfl⟩
  | tail hrest hstep ih =>
    obtain ⟨C', hC'⟩ := follows hrest hs
    obtain ⟨j, hj, hji, hjop, hjo⟩ := ih hC'.coded
    obtain ⟨l, hl, hlj, hlop, hlo⟩ := hstep.retains hC'.coded ht hj (hji ▸ hK) (hjo ▸ huses)
    exact ⟨l, hl, hlj.trans hji, hlop.trans hjop, hlo.trans hjo⟩

/-- A definition that is a PHI is kept by changes that do not touch the PHI. -/
theorem Change.get?_defs (h : Change wild K D s t) (hD : ¬ D l) (hK : ¬ K p)
    (hk : s.defs.get? l = some (.result p)) : t.defs.get? l = some (.result p) := by
  have hne : ∀ {k}, D k → k ≠ l := fun hDk heq => hD (heq ▸ hDk)
  cases h with
  | draw => exact hk
  | phi hnew =>
    obtain ⟨_, fn, B', _, _, rfl⟩ := newPhi_eq_ok.mp hnew
    exact hk
  | wait hDl _ _ hnew =>
    obtain ⟨rfl, fn, B', _, _, rfl⟩ := newPhi_eq_ok.mp hnew
    exact ((OrderedMap.get?_insert ..).trans (if_neg (hne hDl))).trans hk
  | define hDl _ => exact ((OrderedMap.get?_insert ..).trans (if_neg (hne hDl))).trans hk
  | operand _ _ hrun =>
    obtain ⟨fn, _, _, _, rfl⟩ := changeBody_eq_ok.mp hrun
    exact hk
  | givesWay hKi _ hgives =>
    rw [hgives.get?_defs, hk, Option.map_some, Value.redirect_of_ne]
    intro heq
    exact hK (Value.result.inj heq ▸ hKi)

theorem Changes.get?_defs (h : Changes wild K D s t) (hD : ¬ D l) (hK : ¬ K p)
    (hk : s.defs.get? l = some (.result p)) : t.defs.get? l = some (.result p) := by
  induction h with
  | refl => exact hk
  | tail _ hstep ih => exact hstep.get?_defs hD hK ih

/-- An operand makes a PHI of nothing. -/
theorem Coded.isPhi_addOperand_iff (h : Coded s B)
    (hrun : Builder.changeBody (fun body => .ok ((), (body.addOperand p v).2)) s = .ok () t) :
    t.isPhi q = true ↔ s.isPhi q = true := by
  refine ⟨fun hq => ?_, h.isPhi_of_addOperand hrun⟩
  obtain ⟨f, hf, hcode⟩ := h.indexed.code_addOperand p v
  obtain ⟨c, j, hj, rfl, hop⟩ := (h.addOperand_eq hrun).1.coded.isPhi_iff.mp hq
  rw [hcode] at hj
  obtain ⟨k, hk, rfl⟩ := List.mem_map.mp hj
  exact h.isPhi_iff.mpr ⟨c, k, hk, (hf k).1.symm, (hf k).2.1.symm.trans hop⟩

theorem Coded.exists_newPhi (h : Coded s B) (hb : b < B.graph.size) :
    ∃ t, Builder.newPhi b s = .ok s.nextId t := by
  obtain ⟨fn, hfn, rfl⟩ := h.exists_opened
  obtain ⟨C', hC'⟩ : ∃ C', fn.body.insertPhi { op := .phi, id := s.nextId, block := b } = .ok C' :=
    ⟨_, if_pos hb⟩
  exact ⟨_, newPhi_eq_ok.mpr ⟨rfl, fn, C', hfn, hC', rfl⟩⟩

/-- Rounds that change nothing. -/
theorem forM_unchanged {α : Type} {f : α → Build Unit} {l : List α}
    (h : ∀ a ∈ l, f a t = .ok () t) : l.forM f t = .ok () t := by
  induction l with
  | nil => rfl
  | cons a l ih =>
    obtain ⟨ha, hl⟩ := List.forall_mem_cons.mp h
    exact bind_eq_ok.mpr ⟨(), t, ha, ih hl⟩

/-- **A PHI gives way alone**, if those that are noted as its users merge two values. -/
theorem GivesWay.removeTrivialPhi (h : GivesWay i v s B t)
    (husers : ∀ b, ∀ j ∈ (B.forwardPhi i v).code b, j.op = .phi → j.id ∈ i.users →
      j.id ≠ i.id → j.MergesTwo) : Builder.removeTrivialPhi i.id s = .ok v t := by
  obtain ⟨b, hi⟩ := h.mem
  have hmem : i ∈ B.phis := Body.mem_phis_iff.mpr ⟨b, hi, h.phi⟩
  obtain ⟨d, hd⟩ : ∃ d, B.phis.length = d + 1 :=
    Nat.exists_eq_succ_of_ne_zero (List.length_pos_of_mem hmem).ne'
  refine bind_eq_ok.mpr ⟨B, s, h.before.getBody, ?_⟩
  simp only [Builder.removeFrom, bind_eq_ok]
  refine ⟨_, t, h.collapse, (), t, ?_, rfl⟩
  refine forM_unchanged fun u hu => ?_
  obtain ⟨hu, hui⟩ : u ∈ i.users ∧ u ≠ i.id := by simpa using hu
  refine bind_eq_ok.mpr ⟨t, t, rfl, ?_⟩
  split
  · next hphi =>
    obtain ⟨c, j, hj, rfl, hop⟩ := h.after.isPhi_iff.mp hphi
    have hcol := h.after.collapse_of_mergesTwo hj hop (husers c j hj hop hu hui)
    rw [hd]
    simp only [Builder.removeFrom, bind_eq_ok]
    exact ⟨_, t, ⟨_, t, hcol, (), t, rfl, rfl⟩, rfl⟩
  · rfl

/-! ### Reads -/

theorem completePhi_eq_ok {read : Nat → Build Value} (hs : Coded s B)
    (ho : o.removeTrivialPhis = true) : completePhi o read p s = .ok v t ↔
      ∃ u, (mergedBlocks B p).forM (fillRound read p) s = .ok () u ∧
        removeTrivialPhi p u = .ok v t := by
  unfold completePhi
  rw [if_pos ho, bind_eq_ok]
  constructor
  · rintro ⟨C, s', hC, hrun⟩
    cases hs.getBody.symm.trans hC
    obtain ⟨_, u, hloop, hrem⟩ := bind_eq_ok.mp hrun
    exact ⟨u, hloop, hrem⟩
  · rintro ⟨u, hloop, hrem⟩
    exact ⟨B, s, hs.getBody, bind_eq_ok.mpr ⟨(), u, hloop, hrem⟩⟩

/-- The value was there before, and something is known of it. -/
def Old (s : Builder) (v : Value) : Prop := v.Below s.nextId ∧ v ≠ .unknown

/-- A read that answers with a value from before finds it as said, and leaves no PHI. -/
def ReadsPlainly (o : Options) (x depth : Nat) : Prop :=
  ∀ {s : Builder} {B : Body} {q : Nat} {a : Value} {t : Builder}, Coded s B → Aside s B →
    readFrom o x depth q s = .ok a t → s.Old a →
    Finds (s.scene B x) depth (s.notes x) q a (t.notes x) ∧
      ∀ p, t.isPhi p = true → s.isPhi p = true

/-- What a read leaves, and what is known of its answer. -/
theorem Aside.readFrom {d : Nat} (ha : Aside s B) (hs : Coded s B)
    (hrun : Builder.readFrom o x d q s = .ok v t) :
    ∃ C, Follows s B t C ∧ Aside t C ∧ Changes False (s.nextId ≤ ·) (Undefined s x) s t ∧
      v.Below t.nextId := by
  obtain ⟨hchanges, hdef⟩ := Ends.ok (hs.readFrom_changes o x d (Or.inr (a := False) ha)) hrun
  obtain ⟨C, hC⟩ := hchanges.follows hs
  have haC := (hchanges.aside hs (Or.inr ha) hC.coded).resolve_left id
  exact ⟨C, hC, haC, hchanges, haC.defs_below _ v hdef⟩

/-- A PHI gets an operand after a read, which has not touched it. -/
theorem Coded.exists_filled (hs : Coded s B) (hi : i ∈ B.code b)
    (hbelow : ∀ w ∈ i.operands, w.Below s.nextId) (hread : Changes wild (s.nextId ≤ ·) D s t)
    (ht : Coded t C) (v : Value) :
    ∃ j ∈ (C.addOperand i.id v).2.code b, j.id = i.id ∧ j.op = i.op ∧
      j.operands = i.operands ++ [v] := by
  obtain ⟨k, hk, hki, hkop, hkoperands⟩ := hread.retains hs ht hi
    (not_le.mpr (hs.bound b i hi)) fun q hq => not_le.mpr (hbelow _ hq q rfl)
  obtain ⟨j, hj, hjk, hjop, hjoperands⟩ := ht.addOperand_becomes hk i.id v
  rw [if_pos hki, hkoperands] at hjoperands
  exact ⟨j, hj, hjk.trans hki, hjop.trans hkop, hjoperands⟩

/-- The operands of a PHI are what is read, and if that was there before, it is gathered. -/
theorem ReadsPlainly.loop {d : Nat} (hread : ReadsPlainly o x d) :
    ∀ {l : List Nat} {s u : Builder} {B : Body} {i : Inst}, Coded s B → Aside s B →
      i ∈ B.code b → i.op = .phi → s.Idle i.id →
      l.forM (fillRound (readFrom o x d) i.id) s = .ok () u →
      ∃ C as, ∃ j ∈ C.code b, Coded u C ∧ Changes False (i.id ≤ ·) (fun _ => True) s u ∧
        j.id = i.id ∧ j.op = .phi ∧ j.operands = i.operands ++ as ∧
        ((∀ a ∈ as, s.Old a) →
          Gathers (Finds (s.scene B x) d) (s.notes x) l as (u.notes x) ∧
            ∀ p, u.isPhi p = true → s.isPhi p = true) := by
  intro l
  induction l with
  | nil =>
    intro s u B i hs _ hi hop _ hrun
    obtain ⟨_, rfl⟩ := pure_eq_ok.mp hrun
    exact ⟨B, [], i, hi, hs, .refl, rfl, hop, by simp, fun _ => ⟨.nil, fun _ hp => hp⟩⟩
  | cons q l ih =>
    intro s u B i hs ha hi hop hidle hrun
    obtain ⟨_, s₂, hround, hrun⟩ := bind_eq_ok.mp hrun
    obtain ⟨v, s₁, hv, hadd⟩ := bind_eq_ok.mp hround
    -- the PHI is left alone by the read
    have hlt : i.id < s.nextId := hs.bound b i hi
    obtain ⟨C₁, hC₁, ha₁, hchanges, hbelow⟩ := ha.readFrom hs hv
    have hphi₁ : s₁.isPhi i.id = true :=
      hchanges.isPhi_of_not hs (not_le.mpr hlt) (hs.isPhi_iff.mpr ⟨b, i, hi, rfl, hop⟩)
    have hidle₁ : s₁.Idle i.id := hchanges.idle hs hlt hidle
    -- then it gets the answer
    have hstep : Change False (i.id ≤ ·) (fun _ => True) s₁ s₂ :=
      .operand le_rfl (Or.inr ⟨hphi₁, hidle₁, hbelow⟩) hadd
    obtain ⟨hC₂, hpending, hdefs⟩ := hC₁.coded.addOperand_eq hadd
    have ha₂ := ha₁.change hC₁.coded hstep hC₂.coded
    obtain ⟨i₂, hi₂, hid, hop₂, hoperands₂⟩ :=
      hs.exists_filled hi (ha.operands_below b i hi hop) hchanges hC₁.coded v
    have hidle₂ : s₂.Idle i₂.id :=
      fun y c hw => hidle₁ y c (hid ▸ (waits_of_pending hpending).mp hw)
    obtain ⟨C, as, j, hj, hC, hchanges₂, hji, hjop, hjoperands, hgathers⟩ :=
      ih hC₂.coded ha₂ hi₂ (hop₂.trans hop) hidle₂ (hid.symm ▸ hrun)
    refine ⟨C, v :: as, j, hj, hC, ?_, hji.trans hid, hjop, ?_, fun hold => ?_⟩
    · refine ((hchanges.mono id (fun p hp => ?_) fun _ _ => trivial).tail hstep).trans
        (hid ▸ hchanges₂)
      exact hlt.le.trans hp
    · rw [hjoperands, hoperands₂, List.append_assoc]
      rfl
    · obtain ⟨hv', has⟩ := List.forall_mem_cons.mp hold
      obtain ⟨hfinds, hphis⟩ := hread hs ha hv hv'
      have hsteady := hC₁.steady.trans hC₂.steady
      obtain ⟨hall, hphis₂⟩ := hgathers fun a ha => ⟨(has a ha).1.mono hsteady.nextId, (has a ha).2⟩
      have hnotes : s₂.notes x = s₁.notes x := by
        obtain ⟨_, _, _, _, rfl⟩ := changeBody_eq_ok.mp hadd
        rfl
      rw [hsteady.scene, hnotes] at hall
      refine ⟨.cons hfinds hall, fun p hp => hphis p ?_⟩
      exact (hC₁.coded.isPhi_addOperand_iff hadd).mp (hphis₂ p hp)

theorem GivesWay.notes (h : GivesWay i v s B t) (x : Nat) :
    t.notes x = (s.notes x).redirect i.id v := by
  have hnext : t.nextId = s.nextId := by
    obtain ⟨_, _, rfl⟩ := h.state
    rfl
  simp only [Builder.notes, Notes.redirect, hnext, h.get?_defs]

/-- A PHI that has just come in, and is the definition of its variable. -/
structure Begun (s : Builder) (B : Body) (x q : Nat) (t : Builder) (C : Body) : Prop where
  follows : Follows s B t C
  changes : Changes False (s.nextId ≤ ·) (fun _ => True) s t
  merged : mergedBlocks C s.nextId = B.preds q
  phi : { op := .phi, id := s.nextId, block := q } ∈ C.code q
  notes : t.notes x = (s.notes x).draw.set q (.result s.nextId)
  pending : t.pending = s.pending
  isPhi : ∀ r, t.isPhi r = true ↔ s.isPhi r = true ∨ r = s.nextId

namespace Begun

theorem nextId (h : Begun s B x q t C) : t.nextId = s.nextId + 1 := congrArg Notes.next h.notes

theorem get?_defs (h : Begun s B x q t C) (r : Nat) :
    t.defs.get? (x, r) = if r = q then some (.result s.nextId) else s.defs.get? (x, r) := by
  refine (congrFun (congrArg Notes.value h.notes) r).trans ?_
  by_cases hrq : r = q
  · simp [Notes.set, hrq]
  · simp [Notes.set, Notes.draw, Builder.notes, hrq]

theorem aside (h : Begun s B x q t C) (hs : Coded s B) (ha : Aside s B) : Aside t C :=
  (h.changes.aside hs (Or.inr ha) h.follows.coded).resolve_left id

/-- The PHI does not wait. -/
theorem idle (h : Begun s B x q t C) (ha : Aside s B) : t.Idle s.nextId :=
  fun y c hw => lt_irrefl _ (ha.waits_lt y c _ ((waits_of_pending h.pending).mp hw))

end Begun

theorem Coded.begun {t₁ : Builder} (hs : Coded s B) (x : Nat)
    (hnew : Builder.newPhi q s = .ok p t₁) :
    p = s.nextId ∧ ∃ C, Begun s B x q { t₁ with defs := t₁.defs.insert (x, q) (.result p) } C := by
  obtain ⟨_, _, C, hC, hmerged⟩ := (hs.newPhi q).ok hnew
  have hphi : Change False (s.nextId ≤ ·) (fun _ => True) s t₁ := .phi hnew
  have hself := isPhi_newPhi hs hnew
  obtain ⟨rfl, fn, C', hfn, hins, rfl⟩ := newPhi_eq_ok.mp hnew
  obtain rfl : C' = C := Option.some.inj hC.coded.body
  refine ⟨rfl, C', hC.remember, (Relation.ReflTransGen.single hphi).tail (.define trivial ?_),
    hmerged, (Body.mem_code_insertPhi hins).mpr (Or.inl ⟨rfl, rfl⟩), ?_, rfl,
    fun r => ⟨fun hr => hphi.isPhi_of_isPhi hs hr, ?_⟩⟩
  · exact Or.inr fun _ heq => Value.result.inj heq ▸ Nat.lt_succ_self _
  · rw [notes_define]
    rfl
  · rintro (hr | rfl)
    · exact hphi.isPhi_of_not hs (fun hand => absurd (hs.lt_of_isPhi hr) (not_lt.mpr hand.1)) hr
    · exact hself

/-- None of the PHIs of before is new. -/
theorem Coded.sticky_new (hs : Coded s B) : Sticky (s.nextId ≤ ·) B :=
  fun c _ i hi _ _ _ hle => absurd (hs.bound c i hi) (not_lt.mpr hle)

/-- A removal that answers with another value begins with the PHI giving way to it. -/
theorem Coded.givesWay_of_removeTrivialPhi (h : Coded s B) (hi : i ∈ B.code b) (hop : i.op = .phi)
    (hrun : Builder.removeTrivialPhi i.id s = .ok v t) (hv : v ≠ .result i.id) :
    ∃ u, GivesWay i v s B u := by
  obtain ⟨_, us, u, _, _, hrun', _, hcol, _⟩ :=
    h.removeTrivialPhi_cascade (p := i.id) .all trivial
  cases hrun'.symm.trans hrun
  obtain ⟨_, hself⟩ | ⟨j, hji, hgives⟩ :=
    h.collapse_of_isPhi (h.isPhi_iff.mpr ⟨b, i, hi, rfl, hop⟩) hcol
  · exact absurd hself hv
  · obtain ⟨_, hj⟩ := hgives.mem
    obtain rfl := h.indexed.eq_of_id_eq hj hi hji
    exact ⟨u, hgives⟩

/-- A PHI that is completed and answers with a value from before has gathered only that. -/
theorem ReadsPlainly.complete {d : Nat} (hread : ReadsPlainly o x d)
    (ho : o.removeTrivialPhis = true) (hs : Coded s B) (ha : Aside s B) (hb : Begun s B x q u C)
    (hrun : completePhi o (readFrom o x d) s.nextId u = .ok a t) (hold : s.Old a) :
    ∃ as E, Gathers (Finds (s.scene B x) d) ((s.notes x).draw.set q (.result s.nextId)) (B.preds q)
        as E ∧
      (∀ w ∈ as, w = a ∨ w = .result s.nextId) ∧ a ∈ as ∧ t.notes x = E.redirect s.nextId a ∧
      ∀ p, t.isPhi p = true → s.isPhi p = true := by
  have hu := hb.follows.coded
  have hne : a ≠ .result s.nextId := by
    rintro rfl
    exact lt_irrefl _ (hold.1 _ rfl)
  obtain ⟨u', hloop, hrem⟩ := (completePhi_eq_ok hu ho).mp hrun
  rw [hb.merged] at hloop
  obtain ⟨C', as, i, hi, hC', hchanges, hid, hop, hoperands, hgathers⟩ :=
    hread.loop hu (hb.aside hs ha) hb.phi rfl (hb.idle ha) hloop
  have hid : i.id = s.nextId := hid
  have hoperands : i.operands = as := hoperands
  -- the answer is another value, so all operands are this value or the PHI itself
  rw [← hid] at hrem hne
  obtain ⟨t', hgives⟩ := hC'.givesWay_of_removeTrivialPhi hi hop hrem hne
  have has : ∀ w ∈ as, w = a ∨ w = .result s.nextId := fun w hw => by
    rw [← hid]
    exact (eq_of_mergedValue? hgives.merged w (hoperands ▸ hw)).symm
  have hmem : a ∈ as :=
    hoperands ▸ ((Inst.mem_of_mergedValue? hgives.merged).resolve_left hold.2).1
  have hnext : s.nextId < u.nextId := hb.nextId ▸ Nat.lt_succ_self _
  obtain ⟨hall, hphis⟩ := hgathers fun w hw => by
    rcases has w hw with rfl | rfl
    · exact ⟨hold.1.mono hnext.le, hold.2⟩
    · exact ⟨fun _ heq => Value.result.inj heq ▸ hnext, by simp⟩
  -- no other PHI is new, so none is tried after it
  have hnew : ∀ r, u'.isPhi r = true → s.isPhi r = true ∨ r = i.id :=
    fun r hr => hid ▸ (hb.isPhi r).mp (hphis r hr)
  have hsticky := Changes.sticky (hb.changes.trans hchanges) hs hs.sticky_new (fun _ h => h) hC'
  have halone := hgives.removeTrivialPhi fun c j hj hjop huser hji => by
    have hphi := (hgives.isPhi_iff.mp (hgives.after.isPhi_iff.mpr ⟨c, j, hj, rfl, hjop⟩)).1
    obtain ⟨d, k, hk, hkj, hkop⟩ := hC'.isPhi_iff.mp hphi
    have hle := hsticky _ _ i hi k hk hop hid.ge hkop (hkj ▸ huser)
    have hbefore := (hnew j.id hphi).resolve_right hji
    exact absurd (hs.lt_of_isPhi hbefore) (not_lt.mpr (hkj ▸ hle))
  cases halone.symm.trans hrem
  rw [hb.follows.steady.scene, hb.notes] at hall
  refine ⟨as, _, hall, has, hmem, hid ▸ hgives.notes x, fun p hp => ?_⟩
  obtain ⟨hp, hne⟩ := hgives.isPhi_iff.mp hp
  exact (hnew p hp).resolve_right hne

/-- **A read that answers with a value from before leaves no PHI.** -/
theorem readsPlainly (ho : o.removeTrivialPhis = true) (x depth : Nat) :
    ReadsPlainly o x depth := by
  induction depth with
  | zero => exact fun _ _ hrun => (fail_eq_ok.mp hrun).elim
  | succ depth ih =>
    intro s B q a t hs ha hrun hold
    cases readFrom_succ_eq_ok.mp hrun with
    | known hdef => exact ⟨.known hdef, fun _ hp => hp⟩
    | outside hnone hsealed hB hnil hv =>
      cases hs.body.symm.trans hB
      rw [notes_define]
      exact ⟨.outside hnone hsealed hnil hv, fun _ hp => hp⟩
    | single hnone hsealed hB hone hread =>
      cases hs.body.symm.trans hB
      obtain ⟨hfinds, hphis⟩ := ih hs ha hread hold
      rw [notes_define]
      exact ⟨.single hnone hsealed hone hfinds, hphis⟩
    | waiting _ _ hnew _ hv =>
      obtain ⟨rfl, _⟩ := newPhi_eq_ok.mp hnew
      exact absurd (hold.1 _ hv) (lt_irrefl _)
    | merged hnone hsealed hB htwo hnew hcomplete =>
      cases hs.body.symm.trans hB
      obtain ⟨rfl, C, hC⟩ := hs.begun x hnew
      obtain ⟨as, E, hall, has, hmem, hnotes, hphis⟩ := ih.complete ho hs ha hC hcomplete hold
      rw [notes_define, hnotes]
      refine ⟨.merged hnone hsealed htwo hall has hmem ?_, hphis⟩
      rintro rfl
      exact lt_irrefl _ (hold.1 _ rfl)

end Builder

/-- A read in a block from which others lead to `m` answers as a read there. -/
theorem Descends.exists_readFrom {S : Scene} {U : Nat → Prop} {t u : Builder} {C : Body}
    {o : Options} {x d m q : Nat} {a : Value} (h : Descends S U m q) (hu : Coded u C)
    (hpreds : C.preds = S.preds)
    (hU : ∀ r, U r → u.defs.get? (x, r) = none ∧ (S.isSealed r = true → u.isSealed r = true))
    (hrun : readFrom o x d m u = .ok a t) :
    ∃ d defs, readFrom o x d q u = .ok a { t with defs } := by
  induction h with
  | @last q hq hsealed hone =>
    obtain ⟨hnone, hopen⟩ := hU q hq
    have hone : C.preds q = [m] := by rw [hpreds, hone]
    exact ⟨d + 1, _, readFrom_succ_eq_ok.mpr (.single hnone (hopen hsealed) hu.body hone hrun)⟩
  | @next q r hq hsealed hone _ ih =>
    obtain ⟨hnone, hopen⟩ := hU q hq
    obtain ⟨d', defs, hrun'⟩ := ih
    have hone : C.preds q = [r] := by rw [hpreds, hone]
    have hstep := ReadStep.single hnone (hopen hsealed) hu.body hone hrun'
    exact ⟨d' + 1, defs.insert (x, q) a, readFrom_succ_eq_ok.mpr hstep⟩

end Compiler16.Ssa
