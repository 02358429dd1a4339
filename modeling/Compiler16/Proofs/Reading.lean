import Compiler16.Proofs.Removal

/-!
# Reading variables

Reading a variable at the end of a block gives a value that stands for the variable
there, and so does completing a PHI give a value that stands for it where the PHI is.
The two call each other: a read completes the PHIs that it creates, and completing a
PHI reads at the ends of the predecessors.  So the completion is shown for any way to
read of which this is known, and reading by induction on its depth.

Sealing a block completes the PHIs that wait there.  While it does, all of them are
busy.

## Main definitions

* `Readable`: the variable can be read, for no block is without a value or a place
  where a PHI can wait
* `ReadsSoundly`: what is to be shown of a way to read
* `Filling`, `Sealing`: what the rounds of the two loops keep

## Main results

* `Sound.completePhi`: a completed PHI, or the value that it gave way to
* `readsSoundly_readFrom`, `readsSoundly_readVariable`: reads
* `Sound.sealBlock`: sealing
-/

namespace Compiler16.Ssa

open Compiler16.Flow

namespace Builder

variable {L L' : Ledger} {busy : Nat → Option Progress} {s s' s'' : Builder} {B B' B'' : Body}
  {x y b p q P n : Nat} {v : Value}

/-- The value before the function is no PHI, and where a PHI of the variable may have to
wait, a path may begin. -/
structure Readable (L : Ledger) (s : Builder) (x : Nat) : Prop where
  base : L.Base s.nextId (s.globalValue x)
  root : ∀ b, s.isSealed b = false → L.root b ∨ ∃ a, s.defs.get? (x, b) = some a

theorem Readable.extended (h : Readable L s x) (he : Extended n L s B L' s' B') :
    Readable L' s' x where
  base := by
    rw [globalValue, he.steady.globalDefs]
    exact h.base.mono he.steady.nextId he.phi
  root b hb := by
    rw [he.steady.isSealed] at hb
    rw [he.root]
    rcases h.root b hb with hr | ⟨a, ha⟩
    · exact Or.inl hr
    · exact Or.inr (he.steady.defs _ a ha)

/-- Whenever the read succeeds, its result stands for the variable at the end of the
block. -/
def ReadsSoundly (read : Nat → Build Value) (x : Nat) : Prop :=
  ∀ {L busy s s' B b v}, Sound L busy s B → Readable L s x → read b s = .ok v s' →
    ∃ L' B', Sound L' busy s' B' ∧ Extended s.nextId L s B L' s' B' ∧ L'.AtEnd x v B.preds b

/-! ## Completion of a PHI -/

theorem Sound.not_waits_of_busy (h : Sound L busy s B) {m : Progress} (hbusy : busy p = some m)
    (y c : Nat) : ¬ s.Waits y c p := by
  intro hw
  obtain ⟨_, _, _, _, hwait, _⟩ := h.filling_of_busy hbusy (h.waits_phi y c p hw)
  exact hwait hw

theorem Sound.mergedBlocks (h : Sound L busy s B) (hp : L.phi p = some (x, P)) :
    mergedBlocks B p = B.preds P := by
  obtain ⟨i, hi, rfl⟩ := h.phi_mem p x P hp
  have hinst : B.inst? i.id = some i := h.indexed.inst?_eq_some_iff.mpr ⟨P, hi, rfl⟩
  simp only [Builder.mergedBlocks, hinst, h.indexed.block_eq P i hi]

/-- The body of the loop that gives a PHI its operands. -/
abbrev fillRound (read : Nat → Build Value) (p block : Nat) : Build Unit := do
  let v ← read block
  changeBody fun body => .ok ((), (body.addOperand p v).2)

/-- A PHI of the block `P` is being completed, and has yet to get operands for the
predecessors `l`. -/
def Filling (n : Nat) (L : Ledger) (busy : Nat → Option Progress) (s : Builder) (B : Body)
    (p P : Nat) (l : List Nat) (u : Builder) : Prop :=
  ∃ L' B' m, Sound L' (Function.update busy p (some m)) u B' ∧ Extended n L s B L' u B' ∧
    (B.preds P).drop m.filled = l ∧ m.filled ≤ (B.preds P).length

section Filling

variable {read : Nat → Build Value} (hread : ReadsSoundly read x) (h : Sound L busy s B)
  (hr : Readable L s x) (hp : L.phi p = some (x, P)) (hn : n ≤ p)

include h in
theorem Filling.start {l : Nat} (hbusy : busy p = some ⟨l, 0⟩) :
    Filling n L busy s B p P (B.preds P) s := by
  refine ⟨L, B, ⟨l, 0⟩, ?_, .refl, rfl, Nat.zero_le _⟩
  rw [← hbusy, Function.update_eq_self]
  exact h

include hread h hr hp hn in
theorem Filling.round {rest : List Nat} {u u' : Builder}
    (hfill : Filling n L busy s B p P (q :: rest) u) (hround : fillRound read p q u = .ok () u') :
    Filling n L busy s B p P rest u' := by
  obtain ⟨L₁, B₁, m, hs, he, hdrop, hle⟩ := hfill
  simp only [fillRound, bind_eq_ok, changeBody_eq_ok] at hround
  obtain ⟨w, u₁, hw, fn, body, hfn, hok, rfl⟩ := hround
  cases hok
  obtain ⟨L₂, B₂, hs₁, he₁, hatEnd⟩ := hread hs (hr.extended he) hw
  obtain ⟨fn', hfn', rfl⟩ := hs₁.opened
  obtain rfl := Option.some.inj (hfn.symm.trans hfn')
  have hlt : p < s.nextId := h.phi_lt hp
  have hp₁ : L₁.phi p = some (x, P) := (he.phi p hlt).trans hp
  have hp₂ : L₂.phi p = some (x, P) := (he₁.phi p (hlt.trans_le he.steady.nextId)).trans hp₁
  have hpreds : fn.body.preds = B.preds := he₁.steady.preds.trans he.steady.preds
  have hself : Function.update busy p (some m) p = some m := Function.update_self ..
  have hq : (fn.body.preds P)[m.filled]? = some q := by
    rw [hpreds, ← List.head?_drop, hdrop]
    rfl
  have hadd := hs₁.addOperand hself hp₂ hq (he₁.steady.preds ▸ hatEnd) fn
  rw [Function.update_idem] at hadd
  refine ⟨L₂, _, ⟨u₁.nextId, m.filled + 1⟩, hadd, ?_, ?_, ?_⟩
  · have hnu : n ≤ u.nextId := hn.trans (hlt.le.trans he.steady.nextId)
    exact (he.trans he₁ hnu).trans (hs₁.extended_addOperand hp₂ hn hfn) le_rfl
  · rw [← List.tail_drop, hdrop]
    rfl
  · have : m.filled < (B.preds P).length := by
      by_contra hge
      rw [List.drop_eq_nil_iff.mpr (not_lt.mp hge)] at hdrop
      cases hdrop
    exact this

include h hp in
theorem Filling.finish {u : Builder} (hfill : Filling n L busy s B p P [] u) :
    ∃ L' B', Sound L' (Function.update busy p none) u B' ∧
      Extended n L s B L' u B' ∧ ∀ y c, ¬ u.Waits y c p := by
  obtain ⟨L', B', m, hs, he, hdrop, hle⟩ := hfill
  have hp' : L'.phi p = some (x, P) := (he.phi p (h.phi_lt hp)).trans hp
  have hm : m.filled = (B'.preds P).length := by
    rw [he.steady.preds]
    exact le_antisymm hle (List.drop_eq_nil_iff.mp hdrop)
  have hself : Function.update busy p (some m) p = some m := Function.update_self ..
  have hfin := hs.finish hself hp' hm
  rw [Function.update_idem] at hfin
  exact ⟨L', B', hfin, he, hs.not_waits_of_busy hself⟩

end Filling

/-- **A completed PHI stands for its variable, and so does the value that it gave way
to.** -/
theorem Sound.completePhi (o : Options) {read : Nat → Build Value} (hread : ReadsSoundly read x)
    (h : Sound L busy s B) (hr : Readable L s x) (hp : L.phi p = some (x, P)) {l : Nat}
    (hbusy : busy p = some ⟨l, 0⟩) (hn : n ≤ p)
    (hconf : Confined n (Function.update busy p none) B)
    (hrun : completePhi o read p s = .ok v s') :
    ∃ L' B', Sound L' (Function.update busy p none) s' B' ∧ Extended n L s B L' s' B' ∧
      (v = .result p ∨ L'.Before x v B.preds P) := by
  obtain ⟨C, t, hC, hrest⟩ := bind_eq_ok.mp hrun
  obtain ⟨rfl, rfl⟩ := h.getBody hC
  obtain ⟨_, t', hfill, hrest⟩ := bind_eq_ok.mp hrest
  rw [h.mergedBlocks hp] at hfill
  obtain ⟨L', B₁, hs, he, hwaits⟩ := Filling.finish h hp
    (forM_invariant (fun _ _ _ _ => Filling.round hread h hr hp hn) _ _ _
      (Filling.start h hbusy) hfill)
  split at hrest
  · have hp' : L'.phi p = some (x, P) := (he.phi p (h.phi_lt hp)).trans hp
    have hfree : Free n (Function.update busy p none) t' p :=
      ⟨hn, Function.update_self .., hwaits⟩
    obtain ⟨B₂, hB₂, hv⟩ := hs.removeTrivialPhi (hconf.of_oldUsers he.users) hp' hfree hrest
    refine ⟨L', B₂, hB₂.sound, ?_, he.steady.preds ▸ hv⟩
    exact he.trans (.of_steady hB₂.steady hB₂.users) le_rfl
  · obtain ⟨rfl, rfl⟩ := pure_eq_ok.mp hrest
    exact ⟨L', B₁, hs, he, Or.inl rfl⟩

/-! ## Reads -/

theorem Sound.write_none (h : Sound L busy s B) (hdefs : s.defs.get? (x, b) = none) :
    L.write x b = none := by
  by_contra hne
  obtain ⟨c, hc⟩ := Option.ne_none_iff_exists'.mp hne
  simp [h.write_defs x b c hc] at hdefs

/-- In a sealed block without predecessors the value before the function is found. -/
theorem Sound.lookup (h : Sound L busy s B) (hdefs : s.defs.get? (x, b) = none)
    (hsealed : s.isSealed b = true) (hpreds : B.preds b = []) (hv : L.Base s.nextId v) :
    Sound (L.found x b v) busy { s with defs := s.defs.insert (x, b) v } B ∧
      (L.found x b v).AtEnd x v B.preds b := by
  have hnone : L.start x b = none := by
    by_contra hne
    obtain ⟨c, hc⟩ := Option.ne_none_iff_exists'.mp hne
    obtain ⟨a, ha⟩ := h.start_defs x b c hc
    simp [hdefs] at ha
  have hg : L.Grows (L.found x b v) := Ledger.grows_found hnone
  have hw : (L.found x b v).write x b = none := h.write_none hdefs
  have hatEnd : (L.found x b v).AtEnd x v B.preds b := by
    intro π ht
    cases π with
    | nil => exact Ledger.Enters.reaches (Or.inr (Or.inl ⟨rfl, if_pos ⟨rfl, rfl⟩⟩)) hw
    | cons q π =>
      have hq := ht.mem_preds
      rw [hpreds] at hq
      cases hq
  have hdom := (steady_remember (s := s) (B := B) (x := x) (b := b) (v := v)).defs
  have hstart : ∀ y c d, (L.found x b v).start y c = some d →
      L.start y c = some d ∨ (y = x ∧ c = b) ∧ d = v := by
    intro y c d hd
    by_cases hyc : y = x ∧ c = b
    · exact Or.inr ⟨hyc, (Option.some.inj ((if_pos hyc).symm.trans hd)).symm⟩
    · exact Or.inl ((if_neg hyc).symm.trans hd)
  refine ⟨{ h with
    phi_defs := ?_, standing := ?_, layout := ?_, write_defs := ?_, start_base := ?_,
    defs_atEnd := ?_, start_sealed := ?_, start_defs := ?_ }, hatEnd⟩
  · intro q y c hq
    obtain ⟨a, ha⟩ := h.phi_defs q y c hq
    exact hdom _ a ha
  · intro c j hj y hy
    exact (h.standing c j hj y hy).mono hg.carries (fun _ => rfl) Iff.rfl rfl Iff.rfl
  · intro c
    obtain ⟨head, tail, hsplit, hhead, htail⟩ := h.layout c
    refine ⟨head, tail, hsplit, hhead, forall₂_imp_of_mem htail fun e j hj hk => ?_⟩
    exact hk.mono hg.carries le_rfl (fun _ _ => rfl)
      (h.bound c j (hsplit ▸ List.mem_append_right _ hj))
  · intro y c d hyc
    rw [OrderedMap.get?_insert, if_neg]
    · exact h.write_defs y c d hyc
    · rintro ⟨rfl, rfl⟩
      exact absurd (hw.symm.trans hyc) (by simp)
  · intro y c d hd
    rcases hstart y c d hd with hd | ⟨_, rfl⟩
    · exact h.start_base y c d hd
    · exact hv
  · intro y c a hyc
    rw [OrderedMap.get?_insert] at hyc
    split at hyc
    · next heq =>
      cases heq
      cases hyc
      exact hatEnd
    · exact hg.atEnd (h.defs_atEnd y c a hyc)
  · intro y c d hd
    rcases hstart y c d hd with hd | ⟨⟨rfl, rfl⟩, _⟩
    · exact h.start_sealed y c d hd
    · exact hsealed
  · intro y c d hd
    rcases hstart y c d hd with hd | ⟨⟨rfl, rfl⟩, _⟩
    · obtain ⟨a, ha⟩ := h.start_defs y c d hd
      exact hdom _ a ha
    · exact ⟨v, by rw [OrderedMap.get?_insert, if_pos rfl]⟩

theorem extended_found (h : Sound L busy s B) (hdefs : s.defs.get? (x, b) = none) :
    Extended n L s B (L.found x b (s.globalValue x))
      { s with defs := s.defs.insert (x, b) (s.globalValue x) } B where
  phi _ _ := rfl
  write := rfl
  root := rfl
  emitted := rfl
  start y c d hd := by
    refine (if_neg ?_).trans hd
    rintro ⟨rfl, rfl⟩
    obtain ⟨a, ha⟩ := h.start_defs y c d hd
    simp [hdefs] at ha
  found y c d hd := by
    by_cases hyc : y = x ∧ c = b
    · obtain rfl := Option.some.inj ((if_pos hyc).symm.trans hd)
      obtain ⟨rfl, rfl⟩ := hyc
      exact Or.inr ⟨rfl, hdefs⟩
    · exact Or.inl ((if_neg hyc).symm.trans hd)
  steady := steady_remember
  users := .refl

/-- The ways in which a read succeeds. -/
inductive ReadStep (o : Options) (x depth b : Nat) (s : Builder) (v : Value) : Builder → Prop where
  /-- The value is known. -/
  | known : s.defs.get? (x, b) = some v → ReadStep o x depth b s v s
  /-- It is the value before the function. -/
  | outside {B : Body} : s.defs.get? (x, b) = none → s.isSealed b = true → s.body? = some B →
    B.preds b = [] → v = s.globalValue x →
    ReadStep o x depth b s v { s with defs := s.defs.insert (x, b) v }
  /-- It comes from the only predecessor. -/
  | single {B : Body} {q : Nat} {t : Builder} : s.defs.get? (x, b) = none →
    s.isSealed b = true → s.body? = some B → B.preds b = [q] →
    readFrom o x depth q s = .ok v t →
    ReadStep o x depth b s v { t with defs := t.defs.insert (x, b) v }
  /-- It is merged from several predecessors. -/
  | merged {B : Body} {p : Nat} {t₁ t₂ : Builder} : s.defs.get? (x, b) = none →
    s.isSealed b = true → s.body? = some B → 2 ≤ (B.preds b).length → newPhi b s = .ok p t₁ →
    completePhi o (readFrom o x depth) p
      { t₁ with defs := t₁.defs.insert (x, b) (.result p) } = .ok v t₂ →
    ReadStep o x depth b s v { t₂ with defs := t₂.defs.insert (x, b) v }
  /-- It is a PHI that waits. -/
  | waiting {p : Nat} {t₁ t₂ : Builder} : s.defs.get? (x, b) = none → s.isSealed b = false →
    newPhi b s = .ok p t₁ → addPending b x p t₁ = .ok () t₂ → v = .result p →
    ReadStep o x depth b s v { t₂ with defs := t₂.defs.insert (x, b) v }

theorem readFrom_succ_eq_ok {o : Options} {depth : Nat} :
    readFrom o x (depth + 1) b s = .ok v s' ↔ ReadStep o x depth b s v s' := by
  unfold readFrom
  rw [bind_eq_ok]
  simp only [get_eq_ok]
  constructor
  · rintro ⟨_, _, ⟨rfl, rfl⟩, hrun⟩
    cases hdefs : s.defs.get? (x, b) with
    | some a =>
      rw [hdefs] at hrun
      obtain ⟨rfl, rfl⟩ := pure_eq_ok.mp hrun
      exact .known hdefs
    | none =>
      rw [hdefs] at hrun
      cases hsealed : s.isSealed b with
      | false =>
        simp only [hsealed, Bool.false_eq_true, if_false, bind_eq_ok, pure_eq_ok,
          writeVariable_eq_ok] at hrun
        obtain ⟨p, t₁, hnew, _, t₂, hpend, _, _, ⟨rfl, rfl⟩, _, _, rfl, rfl, rfl⟩ := hrun
        exact .waiting hdefs hsealed hnew hpend rfl
      | true =>
        simp only [hsealed, if_true] at hrun
        obtain ⟨B, _, hB, hrest⟩ := bind_eq_ok.mp hrun
        obtain ⟨⟨fn, hfn, rfl⟩, rfl⟩ := getBody_eq_ok.mp hB
        have hbody := body?_of_opened hfn
        rcases hpreds : fn.body.graph.predecessors b with _ | ⟨q, _ | ⟨q', rest⟩⟩
        · simp only [hpreds, bind_eq_ok, pure_eq_ok, writeVariable_eq_ok] at hrest
          obtain ⟨_, _, ⟨rfl, rfl⟩, _, _, rfl, rfl, rfl⟩ := hrest
          exact .outside hdefs hsealed hbody hpreds rfl
        · simp only [hpreds, bind_eq_ok, pure_eq_ok, writeVariable_eq_ok] at hrest
          obtain ⟨_, t, hread, _, _, rfl, rfl, rfl⟩ := hrest
          exact .single hdefs hsealed hbody hpreds hread
        · simp only [hpreds, bind_eq_ok, pure_eq_ok, writeVariable_eq_ok] at hrest
          obtain ⟨p, t₁, hnew, _, _, rfl, _, t₂, hcomp, _, _, rfl, rfl, rfl⟩ := hrest
          refine .merged hdefs hsealed hbody ?_ hnew hcomp
          rw [Body.preds, hpreds]
          simp
  · have hget : ∀ {B : Body}, s.body? = some B → getBody s = .ok B s := by
      intro B hB
      obtain ⟨fn, hfn, rfl⟩ := Option.map_eq_some_iff.mp hB
      exact getBody_eq_ok.mpr ⟨⟨fn, hfn, rfl⟩, rfl⟩
    rintro (hdefs | ⟨hdefs, hsealed, hB, hpreds, rfl⟩ | ⟨hdefs, hsealed, hB, hpreds, hread⟩ |
      ⟨hdefs, hsealed, hB, hlen, hnew, hcomp⟩ | ⟨hdefs, hsealed, hnew, hpend, rfl⟩) <;>
      refine ⟨s, s, ⟨rfl, rfl⟩, ?_⟩
    · rw [hdefs]
      exact pure_eq_ok.mpr ⟨rfl, rfl⟩
    · simp only [hdefs, hsealed, if_true]
      refine bind_eq_ok.mpr ⟨_, _, hget hB, ?_⟩
      simp only [hpreds, bind_eq_ok, pure_eq_ok, writeVariable_eq_ok]
      exact ⟨_, _, ⟨rfl, rfl⟩, (), _, rfl, rfl, rfl⟩
    · simp only [hdefs, hsealed, if_true]
      refine bind_eq_ok.mpr ⟨_, _, hget hB, ?_⟩
      simp only [hpreds, bind_eq_ok, pure_eq_ok, writeVariable_eq_ok]
      exact ⟨_, _, hread, (), _, rfl, rfl, rfl⟩
    · rename_i B p t₁ t₂
      simp only [hdefs, hsealed, if_true]
      refine bind_eq_ok.mpr ⟨_, _, hget hB, ?_⟩
      rcases hpreds : B.graph.predecessors b with _ | ⟨q, _ | ⟨q', rest⟩⟩
      · simp [hpreds] at hlen
      · simp [hpreds] at hlen
      · simp only [bind_eq_ok, pure_eq_ok, writeVariable_eq_ok]
        exact ⟨_, _, hnew, (), _, rfl, _, _, hcomp, (), _, rfl, rfl, rfl⟩
    · simp only [hdefs, hsealed, Bool.false_eq_true, if_false, bind_eq_ok, pure_eq_ok,
        writeVariable_eq_ok]
      exact ⟨_, _, hnew, (), _, hpend, _, _, ⟨rfl, rfl⟩, (), _, rfl, rfl, rfl⟩

theorem Sound.body?_eq (h : Sound L busy s B) : s.body? = some B := by
  obtain ⟨fn, hfn, rfl⟩ := h.opened
  rw [Builder.body?, hfn]
  rfl

theorem Sound.body? (h : Sound L busy s B) {C : Body} (hC : s.body? = some C) : C = B :=
  Option.some.inj (hC.symm.trans h.body?_eq)

/-- Where no instruction is as young as the next one, nothing is to be said. -/
theorem Sound.confined (h : Sound L busy s B) : Confined s.nextId busy B where
  limit := h.busy_le
  users b j hj hn := absurd (h.bound b j hj) (not_lt.mpr hn)

/-- **Reading gives a value that stands for the variable.** -/
theorem readsSoundly_readFrom (o : Options) (x depth : Nat) :
    ReadsSoundly (readFrom o x depth) x := by
  induction depth with
  | zero =>
    intro L busy s s' B b v _ _ hrun
    exact (fail_eq_ok.mp hrun).elim
  | succ depth ih =>
    intro L busy s s' B b v h hr hrun
    cases readFrom_succ_eq_ok.mp hrun with
    | known hdefs => exact ⟨L, B, h, .refl, h.defs_atEnd x b v hdefs⟩
    | outside hdefs hsealed hB hpreds hv =>
      obtain rfl := h.body? hB
      subst hv
      obtain ⟨hs, ha⟩ := h.lookup hdefs hsealed hpreds hr.base
      exact ⟨_, _, hs, extended_found h hdefs, ha⟩
    | @single C q t hdefs hsealed hB hpreds hread =>
      obtain rfl := h.body? hB
      obtain ⟨L', B', hs, he, hq⟩ := ih h hr hread
      have hnone : L'.write x b = none := he.write ▸ h.write_none hdefs
      have hroot : ¬ L'.root b := by
        intro hb
        have := h.root_sealed b (he.root ▸ hb) hsealed
        rw [hpreds] at this
        cases this
      have ha : L'.AtEnd x v C.preds b := Ledger.AtEnd.of_single hq hnone hroot hpreds
      refine ⟨L', B', hs.remember hnone (he.steady.preds ▸ ha), ?_, ha⟩
      exact he.trans (.of_steady steady_remember .refl) le_rfl
    | @merged C p t₁ t₂ hdefs hsealed hB hlen hnew hcomp =>
      obtain rfl := h.body? hB
      have hroot : ¬ L.root b := by
        intro hb
        have := h.root_sealed b hb hsealed
        simp [this] at hlen
      obtain ⟨B₁, hs₁, he₁⟩ := h.insertBusy (n := s.nextId) hdefs hroot hnew
      obtain ⟨rfl, _⟩ := newPhi_eq_ok.mp hnew
      have hold : Function.update busy s.nextId none = busy := by
        rw [← h.busy_none_of_le le_rfl, Function.update_eq_self]
      have hconf : Confined s.nextId (Function.update
          (Function.update busy s.nextId (some ⟨0, 0⟩)) s.nextId none) B₁ := by
        rw [Function.update_idem, hold]
        exact h.confined.of_oldUsers he₁.users
      obtain ⟨L', B₂, hs₂, he₂, hv⟩ := hs₁.completePhi o ih (hr.extended he₁)
        Ledger.phi_withPhi_self (Function.update_self ..) le_rfl hconf hcomp
      rw [Function.update_idem, hold] at hs₂
      have hp : L'.phi s.nextId = some (x, b) :=
        (he₂.phi _ (hs₁.phi_lt Ledger.phi_withPhi_self)).trans Ledger.phi_withPhi_self
      have he := he₁.trans he₂ le_rfl
      have hnone : L'.write x b = none := he.write ▸ h.write_none hdefs
      have ha : L'.AtEnd x v C.preds b :=
        Ledger.atEnd_of_completed hnone hp (he₁.steady.preds ▸ hv)
      refine ⟨L', B₂, hs₂.remember hnone (he.steady.preds ▸ ha), ?_, ha⟩
      exact he.trans (.of_steady steady_remember .refl) le_rfl
    | @waiting p t₁ t₂ hdefs hopen hnew hpend hv =>
      have hroot : L.root b := by
        rcases hr.root b hopen with hb | ⟨a, ha⟩
        · exact hb
        · simp [hdefs] at ha
      obtain ⟨B₁, hs₁, he₁⟩ := h.insertWaiting (n := s.nextId) hdefs hopen hroot hnew hpend
      obtain ⟨rfl, _⟩ := newPhi_eq_ok.mp hnew
      subst hv
      refine ⟨_, B₁, hs₁, he₁, ?_⟩
      have hnone : (L.withPhi s.nextId x b).write x b = none := h.write_none hdefs
      exact Ledger.atEnd_of_completed hnone Ledger.phi_withPhi_self (Or.inl rfl)

theorem readsSoundly_readVariable (o : Options) (x : Nat) : ReadsSoundly (readVariable o x) x := by
  intro L busy s s' B b v h hr hrun
  obtain ⟨_, _, hget, hread⟩ := bind_eq_ok.mp hrun
  obtain ⟨rfl, rfl⟩ := get_eq_ok.mp hget
  exact readsSoundly_readFrom o x _ h hr hread

/-- Whatever was written is found by a read in the same block. -/
theorem readVariable_of_defs {o : Options} {a : Value} (hdefs : s.defs.get? (x, b) = some v)
    (hrun : readVariable o x b s = .ok a s') : a = v := by
  obtain ⟨_, _, hget, hread⟩ := bind_eq_ok.mp hrun
  obtain ⟨rfl, rfl⟩ := get_eq_ok.mp hget
  cases hdepth : s.readDepth with
  | zero =>
    rw [hdepth] at hread
    exact (fail_eq_ok.mp hread).elim
  | succ depth =>
    rw [hdepth] at hread
    cases readFrom_succ_eq_ok.mp hread with
    | known h => exact Option.some.inj (h.symm.trans hdefs)
    | _ h => exact absurd (h.symm.trans hdefs) (by simp)

/-! ## Sealing -/

/-- No PHI is being completed. -/
def idle : Nat → Option Progress := fun _ => none

/-- The PHIs of a list are being completed, and have got no operand yet. -/
def underway (l : List (Nat × Nat)) : Nat → Option Progress :=
  fun p => if p ∈ l.map Prod.snd then some ⟨0, 0⟩ else none

theorem underway_of_mem {l : List (Nat × Nat)} (h : (x, p) ∈ l) : underway l p = some ⟨0, 0⟩ :=
  if_pos (List.mem_map.mpr ⟨(x, p), h, rfl⟩)

theorem exists_mem_of_underway {l : List (Nat × Nat)} {m : Progress} (h : underway l p = some m) :
    m = ⟨0, 0⟩ ∧ ∃ x, (x, p) ∈ l := by
  unfold underway at h
  split at h
  · next hp =>
    cases h
    obtain ⟨⟨x, q⟩, hmem, rfl⟩ := List.mem_map.mp hp
    exact ⟨rfl, x, hmem⟩
  · cases h

/-- The PHIs that wait in a block. -/
def waitingPhis (s : Builder) (b : Nat) : List (Nat × Nat) := (s.pending.get? b).getD []

theorem mem_waitingPhis : (x, p) ∈ s.waitingPhis b ↔ s.Waits x b p := by
  unfold waitingPhis Waits
  cases s.pending.get? b <;> simp

theorem waits_erase {c : Nat} :
    Waits { s with pending := s.pending.erase b } x c p ↔ c ≠ b ∧ s.Waits x c p := by
  unfold Waits
  rw [OrderedMap.get?_erase]
  by_cases hbc : b = c
  · simp [hbc]
  · simp [hbc, Ne.symm hbc]

/-- The PHIs that wait in a block are taken up. -/
theorem Sound.beginSeal (h : Sound L idle s B) (hroot : L.root b) :
    Sound (L.close b) (underway (s.waitingPhis b))
      { s with pending := s.pending.erase b } B := by
  have hc : L.Carries (L.close b) B.preds B.preds := Ledger.grows_close.carries
  have hphi : ∀ y q, (y, q) ∈ s.waitingPhis b → L.phi q = some (y, b) :=
    fun y q hq => h.waits_phi y b q (mem_waitingPhis.mp hq)
  refine { h with
    standing := ?_, layout := ?_, defs_atEnd := ?_, waits_phi := ?_, waits_open := ?_,
    waits_users := ?_, pending_nodup := ?_, busy_phi := ?_, busy_le := ?_, busy_users := ?_,
    root_sealed := ?_ }
  · intro c j hj y hy
    by_cases hcb : c = b
    · subst hcb
      cases h.standing c j hj y hy with
      | waiting hop _ hw _ ho =>
        refine .filling hop ⟨0, 0⟩ (underway_of_mem (mem_waitingPhis.mpr hw))
          (fun hw' => (waits_erase.mp hw').1 rfl) (fun hr => hr.2 rfl) ?_ (by rw [ho]; rfl)
        intro k o hk
        simp [ho] at hk
      | filling _ _ hb _ _ _ _ => cases hb
      | complete _ _ _ hr _ _ => exact absurd hroot hr
      | copied _ _ _ hr _ _ _ => exact absurd hroot hr
    · refine (h.standing c j hj y hy).mono hc (fun _ => rfl) ⟨And.left, fun hr => ⟨hr, hcb⟩⟩ ?_ ?_
      · refine if_neg fun hmem => hcb ?_
        obtain ⟨⟨z, q⟩, hq, hqj⟩ := List.mem_map.mp hmem
        obtain rfl : q = j.id := hqj
        exact (Prod.ext_iff.mp (Option.some.inj (hy.symm.trans (hphi z _ hq)))).2
      · exact waits_erase.trans (and_iff_right hcb)
  · intro c
    obtain ⟨head, tail, hsplit, hhead, htail⟩ := h.layout c
    refine ⟨head, tail, hsplit, hhead, forall₂_imp_of_mem htail fun e j hj hk => ?_⟩
    exact hk.mono hc le_rfl (fun _ _ => rfl) (h.bound c j (hsplit ▸ List.mem_append_right _ hj))
  · exact fun y c a ha => Ledger.grows_close.atEnd (h.defs_atEnd y c a ha)
  · exact fun y c q hw => h.waits_phi y c q (waits_erase.mp hw).2
  · exact fun y c q hw => h.waits_open y c q (waits_erase.mp hw).2
  · exact fun y c q hw => h.waits_users y c q (waits_erase.mp hw).2
  · intro c l hl
    rw [OrderedMap.get?_erase] at hl
    split at hl
    · cases hl
    · exact h.pending_nodup c l hl
  · intro q m hq
    obtain ⟨_, y, hy⟩ := exists_mem_of_underway hq
    rw [show (L.close b).phi q = some (y, b) from hphi y q hy]
    rfl
  · intro q m hq
    obtain ⟨rfl, _⟩ := exists_mem_of_underway hq
    exact Nat.zero_le _
  · intro q m hq c j hj hu
    obtain ⟨_, y, hy⟩ := exists_mem_of_underway hq
    exact absurd hu (h.waits_users y b q (mem_waitingPhis.mp hy) c j hj)
  · exact fun c hc => h.root_sealed c hc.1

/-- Once they are complete, the block counts as sealed. -/
theorem Sound.endSeal (h : Sound L idle s B) (hroot : ¬ L.root b) :
    Sound L idle { s with sealedBlocks := s.sealedBlocks ++ [b] } B := by
  have hsealed : ∀ c, isSealed { s with sealedBlocks := s.sealedBlocks ++ [b] } c = true ↔
      s.isSealed c = true ∨ c = b := by
    intro c
    simp [isSealed]
  -- a PHI that waited there would need the block to be a root
  have hno : ∀ y q, ¬ s.Waits y b q := by
    intro y q hw
    obtain ⟨j, hj, rfl⟩ := h.phi_mem q y b (h.waits_phi y b q hw)
    cases h.standing b j hj y (h.waits_phi y b _ hw) with
    | waiting _ _ _ hr _ => exact hroot hr
    | filling _ _ hb _ _ _ _ => cases hb
    | complete _ _ hw' _ _ _ => exact hw' hw
    | copied _ _ hw' _ _ _ _ => exact hw' hw
  refine { h with
    standing := ?_, waits_open := ?_, root_sealed := ?_, start_sealed := ?_ }
  · intro c j hj y hy
    exact (h.standing c j hj y hy).mono Ledger.Grows.refl.carries (fun _ => rfl) Iff.rfl rfl Iff.rfl
  · intro y c q hw
    rw [Bool.eq_false_iff, ne_eq, hsealed, not_or]
    constructor
    · simpa using h.waits_open y c q hw
    · rintro rfl
      exact hno y q hw
  · intro c hc hs
    rcases (hsealed c).mp hs with hs | rfl
    · exact h.root_sealed c hc hs
    · exact absurd hc hroot
  · exact fun y c d hd => (hsealed c).mpr (Or.inl (h.start_sealed y c d hd))

theorem sealBlock_of_sealed {o : Options} (hsealed : s.isSealed b = true) :
    sealBlock o b s = .ok () s' ↔ s = s' := by
  unfold sealBlock
  rw [bind_eq_ok]
  simp only [get_eq_ok]
  constructor
  · rintro ⟨_, _, ⟨rfl, rfl⟩, hrun⟩
    rw [if_pos hsealed] at hrun
    exact (pure_eq_ok.mp hrun).2
  · rintro rfl
    refine ⟨s, s, ⟨rfl, rfl⟩, ?_⟩
    rw [if_pos hsealed]
    exact pure_eq_ok.mpr ⟨rfl, rfl⟩

theorem sealBlock_eq_ok {o : Options} (hopen : s.isSealed b = false) :
    sealBlock o b s = .ok () s' ↔ ∃ u, ((s.waitingPhis b).forM fun e => do
        let _ ← completePhi o (readVariable o e.1) e.2 : Build Unit)
          { s with pending := s.pending.erase b } = .ok () u ∧
      s' = { u with sealedBlocks := u.sealedBlocks ++ [b] } := by
  unfold sealBlock
  rw [bind_eq_ok]
  simp only [get_eq_ok]
  constructor
  · rintro ⟨_, _, ⟨rfl, rfl⟩, hrun⟩
    rw [if_neg (by simp [hopen])] at hrun
    simp only [bind_eq_ok, set_eq_ok, modify_eq_ok] at hrun
    obtain ⟨_, _, rfl, _, u, hloop, rfl⟩ := hrun
    exact ⟨u, hloop, rfl⟩
  · rintro ⟨u, hloop, rfl⟩
    refine ⟨s, s, ⟨rfl, rfl⟩, ?_⟩
    rw [if_neg (by simp [hopen])]
    exact bind_eq_ok.mpr ⟨⟨⟩, _, set_eq_ok.mpr rfl,
      bind_eq_ok.mpr ⟨(), u, hloop, modify_eq_ok.mpr rfl⟩⟩

/-- The block `b` is being sealed, and the PHIs `l` have yet to be completed. -/
def Sealing (L : Ledger) (s : Builder) (B : Body) (b : Nat) (l : List (Nat × Nat))
    (u : Builder) : Prop :=
  (∃ done, s.waitingPhis b = done ++ l) ∧ ∃ L' B', Sound L' (underway l) u B' ∧
    Extended 0 (L.close b) { s with pending := s.pending.erase b } B L' u B'

section Sealing

variable (o : Options) (h : Sound L idle s B) (hopen : s.isSealed b = false)
  (hroots : ∀ c, s.isSealed c = false → L.root c)
  (hbase : ∀ x, L.Base s.nextId (s.globalValue x))

include h hopen hroots in
theorem Sealing.start :
    Sealing L s B b (s.waitingPhis b) { s with pending := s.pending.erase b } :=
  ⟨⟨[], rfl⟩, _, B, h.beginSeal (hroots b hopen), .refl⟩

include h hroots hbase in
/-- The variable of a waiting PHI is defined in the block, so it can be read all along. -/
theorem Sealing.readable (hw : s.Waits x b p) :
    Readable (L.close b) { s with pending := s.pending.erase b } x := by
  refine ⟨hbase x, fun c hc => ?_⟩
  by_cases hcb : c = b
  · subst hcb
    exact Or.inr (h.phi_defs p x c (h.waits_phi x c p hw))
  · exact Or.inl ⟨hroots c hc, hcb⟩

include h in
/-- No two waiting PHIs of a block have one number. -/
theorem Sealing.underway_rest {done rest : List (Nat × Nat)}
    (hsplit : s.waitingPhis b = done ++ (x, p) :: rest) :
    Function.update (underway ((x, p) :: rest)) p none = underway rest := by
  have hmem : ∀ e ∈ (x, p) :: rest, L.phi e.2 = some (e.1, b) := fun e he =>
    h.waits_phi _ b _ (mem_waitingPhis.mp (hsplit ▸ List.mem_append_right _ he))
  have hnodup : ((s.waitingPhis b).map Prod.fst).Nodup := by
    unfold waitingPhis
    cases hl : s.pending.get? b with
    | none => simp
    | some l => exact h.pending_nodup b l hl
  funext r
  by_cases hrp : r = p
  · subst hrp
    rw [Function.update_self]
    refine (if_neg fun hr => ?_).symm
    obtain ⟨⟨z, r'⟩, hz, hzr⟩ := List.mem_map.mp hr
    obtain rfl : r' = r := hzr
    have hx := hmem _ (List.mem_cons_self ..)
    have hz' := hmem _ (List.mem_cons_of_mem _ hz)
    obtain rfl : x = z := (Prod.ext_iff.mp (Option.some.inj (hx.symm.trans hz'))).1
    rw [hsplit, List.map_append, List.nodup_append, List.map_cons, List.nodup_cons] at hnodup
    exact hnodup.2.1.1 (List.mem_map.mpr ⟨_, hz, rfl⟩)
  · rw [Function.update_of_ne hrp, underway, underway, List.map_cons]
    simp only [List.mem_cons, hrp, false_or]

include h hroots hbase in
theorem Sealing.round {rest : List (Nat × Nat)} {u u' : Builder}
    (hseal : Sealing L s B b ((x, p) :: rest) u)
    (hround : Builder.completePhi o (readVariable o x) p u = .ok v u') :
    Sealing L s B b rest u' := by
  obtain ⟨⟨done, hsplit⟩, L₁, B₁, hs, he⟩ := hseal
  refine ⟨⟨done ++ [(x, p)], by rw [hsplit]; simp⟩, ?_⟩
  have hw : s.Waits x b p :=
    mem_waitingPhis.mp (hsplit ▸ List.mem_append_right _ (List.mem_cons_self ..))
  have hp := h.waits_phi x b p hw
  have hp₁ : L₁.phi p = some (x, b) := (he.phi p (h.phi_lt hp)).trans hp
  have hrest := Sealing.underway_rest h hsplit
  have hconf : Confined 0 (Function.update (underway ((x, p) :: rest)) p none) B₁ := by
    rw [hrest]
    refine ⟨fun r m hm => ?_, fun _ _ _ _ _ _ => Nat.zero_le _⟩
    obtain ⟨rfl, _⟩ := exists_mem_of_underway hm
    exact le_rfl
  obtain ⟨L₂, B₂, hs₂, he₂, _⟩ := hs.completePhi o (readsSoundly_readVariable o x)
    ((Sealing.readable h hroots hbase hw).extended he) hp₁
    (underway_of_mem (List.mem_cons_self ..)) (Nat.zero_le _) hconf hround
  rw [hrest] at hs₂
  exact ⟨L₂, B₂, hs₂, he.trans he₂ le_rfl⟩

include h hopen hroots hbase in
/-- **Sealing a block completes the PHIs that wait there.** -/
theorem Sound.sealBlock (hrun : Builder.sealBlock o b s = .ok () s') :
    ∃ L' B' u, Sound L' idle s' B' ∧
      Extended 0 (L.close b) { s with pending := s.pending.erase b } B L' u B' ∧
      s' = { u with sealedBlocks := u.sealedBlocks ++ [b] } := by
  obtain ⟨u, hloop, rfl⟩ := (sealBlock_eq_ok hopen).mp hrun
  have hdone : Sealing L s B b [] u := by
    refine forM_invariant (fun e rest t t' ht hround => ?_) _ _ _
      (Sealing.start h hopen hroots) hloop
    obtain ⟨w, t₁, hcomp, hpure⟩ := bind_eq_ok.mp hround
    obtain ⟨_, rfl⟩ := pure_eq_ok.mp hpure
    exact Sealing.round o h hroots hbase ht hcomp
  obtain ⟨_, L', B', hs, he⟩ := hdone
  have hend : Sound L' idle u B' := hs
  refine ⟨L', B', u, hend.endSeal ?_, he, rfl⟩
  rw [he.root]
  exact fun hr => hr.2 rfl

end Sealing

end Builder

end Compiler16.Ssa
