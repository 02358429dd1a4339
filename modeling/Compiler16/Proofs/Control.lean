import Compiler16.Proofs.Statements

/-!
# Conditions and loops

A condition is lowered in three parts: what computes it, the body in blocks of its own, and
the branch that is put in at the end of the block of the condition when the body is done.
A loop is the same from its header on, only that the end of the body leads back to the
header, and the header is sealed last.

## Main results

* `ifThen_lowered`, `whileDo_lowered`: conditions and loops
* `lowerStmt_lowered`, `lowerBody_lowered`: all statements
-/

namespace Compiler16.Ssa

open Compiler16.Source Compiler16.Flow Compiler16.Ssa.Builder Compiler16.Ssa.Lowering

variable {F : Setting}

namespace View

variable {V V' : View} {b c : Nat}

theorem closed_congr (he : V'.emitted c = V.emitted c) : V'.closed c = V.closed c := by
  rw [closed, he, closed]

theorem Wired.congr (h : V.Wired c) (he : V'.emitted c = V.emitted c)
    (hs : V'.succs c = V.succs c) : V'.Wired c := by
  rw [Wired, he, hs]
  exact h

theorem Done.congr (h : V.Done c) (he : V'.emitted c = V.emitted c)
    (hs : V'.succs c = V.succs c) : V'.Done c :=
  ⟨(closed_congr he).trans h.1, h.2.congr he hs⟩

/-- What was the last block lies in none of the loops that have come since. -/
theorem Within.outside (h : V.Within b V') (hN : Nested V.size V.preds) (hb : b + 1 = V.size) :
    Outside V'.preds b := by
  rintro d e he ⟨hlt, hle⟩
  rw [h.preds d hlt.le] at he
  have := hN.lt_size d e he (hlt.le.trans hle)
  omega

theorem spot_eq_first (hk : V.known b = fun _ => none) (he : V.emitted b = []) :
    V.spot b = .first b := by
  rw [spot, hk, he]
  rfl

end View

/-- Statements are lowered as they should be. -/
def LowersBody (F : Setting) (body : List Stmt) : Prop :=
  ∀ ⦃S : Stage F⦄ ⦃b : Nat⦄ ⦃s' : Builder⦄, S.At b →
    lowerBody F.context body S.state = .ok () s' → ∃ (S' : Stage F) (b' : Nat), S'.state = s' ∧
      Lowered (fun I n => execBody I F.context n body S.slot) (Stmt.textsOf body)
        ((Traced.lowerBody F.context body).accesses S.state) b b' S S'

/-- A body was lowered that control enters from the block `b` alone, and the branch at the end
of `b` that leads there or past it.  The code of the body ends in the block `e`. -/
structure Guarded (body : List Stmt) (log : Log) (b e : Nat) (v : Value) (S S' : Stage F) :
    Prop where
  lt : b < e
  size : S'.view.size = e + 2
  onward : Onward (Stmt.textsOf body) log S S'
  within : S.view.Within b S'.view
  branch : ∃ i, S'.view.emitted b =
    S.view.emitted b ++ [⟨i, .br, [b + 1, e + 1], none, [.fixed v]⟩]
  succs : S'.view.succs b = [b + 1, e + 1]
  known : S'.view.known b = S.view.known b
  done : ∀ c, b < c → c < e → S'.view.Done c
  wired : S'.view.Wired e
  isSealed : ∀ c, b < c → c ≤ e → S'.view.isSealed c = true
  exit_preds : S'.view.preds (e + 1) = [b]
  exit_succs : S'.view.succs (e + 1) = []
  exit_isSealed : S'.view.isSealed (e + 1) = false
  exit_emitted : S'.view.emitted (e + 1) = []
  exit_known : S'.view.known (e + 1) = fun _ => none
  outside : Outside S'.view.preds e
  enters : ∀ c, b < c → c ≤ e → ∀ q ∈ S'.view.preds c, b ≤ q ∧ q ≤ e
  leaves : ∀ c, ∀ q ∈ S'.view.preds c, b < q → q ≤ e → b ≤ c ∧ c ≤ e
  achieves : ∀ L : Ledger, L.Continues S'.view (b + 1) e → ∀ {V W : Type} (I : Interpretation V W)
    (args : Nat → V), Achieves I args L (fun n => execBody I F.context n body S.slot)
      (.first (b + 1)) (S'.view.next? e)

/-- **A body is lowered that control enters from the last block**, and then the branch there
is emitted. -/
theorem LowersBody.guarded {S : Stage F} {b t e x : Nat} {v : Value} {body : List Stmt}
    {s₁ s₂ s₃ : Builder} (hbody : LowersBody F body) (hat : S.At b)
    (hopen : S.view.closed b = false) (hv : ∃ d ∈ S.view.emitted b, v = .result d.id)
    (henter : enterBlock F.context b S.state = .ok t s₁)
    (hlower : lowerBody F.context body s₁ = .ok () s₂) (hcur : s₂.current = some e)
    (hfork : branchOn b v t s₂ = .ok x s₃) :
    x = e + 1 ∧ ∃ S' : Stage F, S'.state = s₃ ∧
      Guarded body ((Traced.lowerBody F.context body).accesses s₁) b e v S S' := by
  have hlast := hat.last
  obtain ⟨rfl, S₁, rfl, honward₁, hat₁, hview₁⟩ := S.enter (by omega) (S.outside_of_at hat) henter
  rw [← hlast] at hat₁ hview₁ hfork
  obtain ⟨S₂, e', rfl, h₂⟩ := hbody hat₁ hlower
  obtain rfl : e' = e := Option.some.inj (h₂.current.current.symm.trans hcur)
  obtain ⟨hpreds₀, hsuccs₀, -, hemitted₀, hknown₀⟩ := S.fresh hlast.ge
  have hle : b + 1 ≤ e' := h₂.le
  have hlast₂ := h₂.current.last
  -- the block of the condition is as it was, but for the edge to the body
  have hwithin₁ : S.view.Within b S₁.view := by
    rw [hview₁]
    exact ((View.Within.create.trans (.link le_rfl (Nat.lt_succ_self b))).trans
      (.markSealed (Nat.lt_succ_self b))).trans .goto
  have hwithin₂ : S.view.Within b S₂.view := hwithin₁.trans (h₂.within.mono (Nat.le_succ b))
  have hemitted : S₂.view.emitted b = S.view.emitted b := by
    rw [h₂.within.emitted b (Nat.lt_succ_self b), hview₁]
    rfl
  have hsuccs : S₂.view.succs b = [b + 1] := by
    rw [h₂.within.succs b (Nat.lt_succ_self b), hview₁]
    simp [S.succs_eq_nil hat.leaves]
  have hknown : S₂.view.known b = S.view.known b := by
    rw [h₂.within.known b (Nat.lt_succ_self b), hview₁]
    rfl
  have hbody₂ : b ∈ S₂.view.preds (b + 1) := by
    rw [h₂.within.preds (b + 1) le_rfl, hview₁]
    simp
  have hout : Outside S₂.view.preds b := hwithin₂.outside S.inside.nested hlast
  obtain ⟨rfl, S₃, i, rfl, honward₃, hview₃⟩ := S₂.fork (by omega)
    (by rw [View.closed_congr hemitted]; exact hopen) (by rw [hemitted]; exact hv) hbody₂ hout hfork
  rw [← hlast₂] at hview₃ ⊢
  obtain ⟨hpreds₂, hsuccs₂, hsealed₂, hemitted₂, hknown₂⟩ := S₂.fresh hlast₂.ge
  have hne : ∀ c, b < c → c ≠ b := fun c hc => hc.ne'
  -- nothing else changes with the branch
  have hemitted₃ : ∀ c, c ≠ b → S₃.view.emitted c = S₂.view.emitted c := by
    intro c hc
    rw [hview₃]
    exact Function.update_of_ne hc _ _
  have hsuccs₃ : ∀ c, c ≠ b → S₃.view.succs c = S₂.view.succs c := by
    intro c hc
    rw [hview₃]
    exact Function.update_of_ne hc _ _
  have hpreds₃ : ∀ c, c ≠ e' + 1 → S₃.view.preds c = S₂.view.preds c := by
    intro c hc
    rw [hview₃]
    exact Function.update_of_ne hc _ _
  have hexit : S₃.view.preds (e' + 1) = [b] := by
    rw [hview₃]
    simp [hpreds₂]
  have hknown₃ : S₃.view.known = S₂.view.known := by
    rw [hview₃]
    rfl
  have hsealed₃ : S₃.view.isSealed = S₂.view.isSealed := by
    rw [hview₃]
    rfl
  have hfirst : S₁.view.spot (b + 1) = .first (b + 1) := by
    refine View.spot_eq_first ?_ ?_
    · rw [hview₁]
      exact hknown₀
    · rw [hview₁]
      exact hemitted₀
  refine ⟨rfl, S₃, rfl, ?_⟩
  constructor
  case lt => omega
  case size =>
    rw [hview₃]
    show S₂.view.size + 1 = _
    omega
  case onward => simpa using (honward₁.trans h₂.onward).trans honward₃
  case within =>
    rw [hview₃]
    exact ((hwithin₂.trans .create).trans (.emit le_rfl)).trans (.link le_rfl (by omega))
  case branch =>
    refine ⟨i, ?_⟩
    rw [hview₃]
    simp [hemitted]
  case succs =>
    rw [hview₃]
    simp [hsuccs]
  case known => rw [hknown₃, hknown]
  case done =>
    intro c hb hc
    exact (h₂.done c hb hc).congr (hemitted₃ c (hne c hb)) (hsuccs₃ c (hne c hb))
  case wired =>
    have hb : e' ≠ b := by omega
    exact (S₂.wired_of_leaves h₂.current.leaves).congr (hemitted₃ e' hb) (hsuccs₃ e' hb)
  case isSealed =>
    intro c hb hc
    rw [hsealed₃]
    by_cases hc₁ : c = b + 1
    · subst hc₁
      rw [h₂.within.isSealed _ le_rfl, hview₁]
      simp
    · exact h₂.isSealed c (by omega) hc
  case exit_preds => exact hexit
  case exit_succs => rw [hsuccs₃ _ (by omega), hsuccs₂]
  case exit_isSealed => rw [hsealed₃, hsealed₂]
  case exit_emitted => rw [hemitted₃ _ (by omega), hemitted₂]
  case exit_known => rw [hknown₃, hknown₂]
  case outside =>
    rintro h d hd ⟨hlt, hle'⟩
    by_cases hh : h = e' + 1
    · omega
    · rw [hpreds₃ h hh] at hd
      exact S₂.outside_of_at h₂.current h d hd ⟨hlt, hle'⟩
  case enters =>
    intro c hb hc q hq
    rw [hpreds₃ c (by omega)] at hq
    have hq₂ := S₂.lt_of_mem_preds hq
    refine ⟨?_, by omega⟩
    by_contra hlt
    -- an edge from before the block was there before, and led before it as well
    have hq₀ : c ∈ S.view.succs q := by
      rw [← hwithin₂.succs q (not_le.mp hlt)]
      exact S₂.mem_succs_iff.mpr hq
    rw [S.mem_succs_iff] at hq₀
    have : c < S.view.size := Body.lt_size_of_mem_preds hq₀
    omega
  case leaves =>
    intro c q hq hb hqe
    by_cases hc : c = e' + 1
    · subst hc
      rw [hexit, List.mem_singleton] at hq
      omega
    · rw [hpreds₃ c hc] at hq
      have hc₂ : c < S₂.view.size := Body.lt_size_of_mem_preds hq
      refine ⟨?_, by omega⟩
      by_contra hlt
      rw [hwithin₂.preds c (by omega)] at hq
      have := S.lt_of_mem_preds hq
      omega
  case achieves =>
    intro L hL V W I args
    have hL₂ : L.Continues S₂.view (b + 1) e' := by
      refine ⟨fun c hb hc => ?_, fun c hb hc => ?_, ?_⟩
      · rw [hL.emitted c hb hc, hemitted₃ c (by omega)]
      · rw [hL.known c hb hc, hknown₃]
      · rw [← hemitted₃ e' (by omega)]
        exact hL.grows
    have hnext : S₃.view.next? e' = S₂.view.next? e' := by
      rw [View.next?, View.next?, View.closed_congr (hemitted₃ e' (by omega)), View.spot, View.spot,
        hemitted₃ e' (by omega), hknown₃]
    have hopen₁ : S₁.view.closed (b + 1) = false := by
      rw [hview₁]
      simp [View.closed, hemitted₀]
    have hslot : S₁.slot = S.slot := honward₁.slot
    rw [hnext, ← hfirst, ← hslot]
    exact h₂.achieves hopen₁ L hL₂ I args

/-! ## The end of the body -/

namespace Guarded

variable {body : List Stmt} {log : Log} {b e t : Nat} {v : Value} {S S' : Stage F} {V : View}

/-- At the end of the body control goes on, and every block from that of the condition to
there is done. -/
theorem done_of_jump (h : Guarded body log b e v S S') (hleaves : ∀ d, b ∉ S.view.preds d)
    (hjump : S'.view.Jumps e t V) {c : Nat} (hb : b ≤ c) (hc : c ≤ e) : V.Done c := by
  have hlt := h.lt
  by_cases hce : c = e
  · exact hce ▸ hjump.done h.wired
  · by_cases hcb : c = b
    · subst hcb
      obtain ⟨i, hi⟩ := h.branch
      constructor
      · rw [View.closed, hjump.emitted c hce, hi]
        simp [Op.isTerminator]
      · rw [View.Wired, hjump.emitted c hce, hjump.succs c hce, hi, h.succs, List.flatMap_append,
          S.targets_eq_nil hleaves]
        rfl
    · exact (h.done c (by omega) (by omega)).congr (hjump.emitted c hce) (hjump.succs c hce)

/-- The code of the body leads to where control goes on at its end. -/
theorem achieves_of_jump (h : Guarded body log b e v S S') (hjump : S'.view.Jumps e t V)
    {L : Ledger} {last : Nat} (hL : L.Continues V b last) (hlast : e < last) {V W : Type}
    (I : Interpretation V W) (args : Nat → V) :
    Achieves I args L (fun n => execBody I F.context n body S.slot) (.first (b + 1))
      (some (.first t)) := by
  have hlt := h.lt
  have hcode : L.Continues S'.view (b + 1) e := by
    refine ⟨fun c hb hc => ?_, fun c hb hc => ?_, ?_⟩
    · rw [hL.emitted c (by omega) (by omega), hjump.emitted c hc.ne]
    · rw [hL.known c (by omega) (by omega), hjump.known]
    · rw [hL.emitted e (by omega) hlast]
      exact hjump.grows
  refine (h.achieves L hcode I args).toNext fun Q hQ => ?_
  unfold View.next? at hQ
  split at hQ
  · cases hQ
  · next hopen =>
    cases hQ
    obtain ⟨j, hj⟩ := hjump.leaves (Bool.not_eq_true _ ▸ hopen)
    refine ⟨?_, j, ?_⟩
    · rw [View.spot, hL.known e (by omega) hlast, hjump.known]
    · rw [View.spot, hL.emitted e (by omega) hlast, hj]

/-- The code of the block of the condition, in a ledger to come. -/
theorem emitted_of_jump (h : Guarded body log b e v S S') (hjump : S'.view.Jumps e t V) {L : Ledger}
    {last : Nat} (hL : L.Continues V b last) (hlast : e < last) :
    (L.write · b) = S.view.known b ∧ ∃ i, L.emitted b =
      S.view.emitted b ++ [⟨i, .br, [b + 1, e + 1], none, [.fixed v]⟩] := by
  have hlt := h.lt
  obtain ⟨i, hi⟩ := h.branch
  refine ⟨?_, i, ?_⟩
  · rw [hL.known b le_rfl (by omega), hjump.known, h.known]
  · rw [hL.emitted b le_rfl (by omega), hjump.emitted b hlt.ne, hi]

/-- When control has gone on, the block behind the body is the last one, and is empty. -/
theorem at_exit (h : Guarded body log b e v S S') (hjump : S'.view.Jumps e t V) {T : Stage F}
    (hcurrent : T.view.current = some (e + 1)) (hsize : T.view.size = V.size)
    (hsuccs : T.view.succs = V.succs) : T.At (e + 1) := by
  refine ⟨hcurrent, ?_, fun d hd => ?_⟩
  · exact (hsize.trans (hjump.size.trans h.size)).symm
  · have hnil : T.view.succs (e + 1) = [] := by
      rw [hsuccs, hjump.succs _ (by omega), h.exit_succs]
    rw [← T.mem_succs_iff, hnil] at hd
    cases hd

theorem next?_exit (h : Guarded body log b e v S S') (hjump : S'.view.Jumps e t V) {V' : View}
    (hemitted : V'.emitted = V.emitted) (hknown : V'.known = V.known) :
    V'.next? (e + 1) = some (.first (e + 1)) := by
  have hnil : V'.emitted (e + 1) = [] := by
    rw [hemitted, hjump.emitted _ (by omega), h.exit_emitted]
  have hnone : V'.known (e + 1) = fun _ => none := by
    rw [hknown, hjump.known, h.exit_known]
  rw [View.next?_of_open (by rw [View.closed, hnil]; rfl), View.spot_eq_first hnone hnil]

end Guarded

/-! ## Conditions and loops -/

section Rules

variable {S : Stage F} {b source t e x : Nat} {v : Value} {cond : Expr} {body : List Stmt}

/-- **A condition is lowered.** -/
theorem LowersBody.ifThen {s₁ s₂ s₃ s₄ s₅ s₆ s₇ : Builder} (hbody : LowersBody F body)
    (hat : S.At b) (hopen : S.view.closed b = false)
    (hallowed : F.Allows (assignedBy F.context cond))
    (hcond : lowerExpr F.context cond S.state = .ok v s₁) (hsource : s₁.current = some source)
    (henter : enterBlock F.context source s₁ = .ok t s₂)
    (hlower : lowerBody F.context body s₂ = .ok () s₃) (hcur : s₃.current = some e)
    (hfork : branchOn source v t s₃ = .ok x s₄) (hgo : branchTo e x s₄ = .ok () s₅)
    (hseal : sealBlock F.context.options x s₅ = .ok () s₆)
    (hmove : setCurrent x s₆ = .ok () s₇) : ∃ (S' : Stage F) (b' : Nat), S'.state = s₇ ∧
      Lowered (fun I n => exec I F.context n (.ifThen cond body) S.slot)
        (cond.texts + Stmt.textsOf body) ((Traced.lowerBody F.context body).accesses s₂ ++
          (Traced.lowerExpr F.context cond).accesses S.state) b b' S S' := by
  obtain ⟨S₁, seg, rfl, h₁⟩ := lowerExpr_emits cond hat hopen hallowed hcond
  have hat₁ := h₁.step.stays hat
  obtain rfl : b = source := Option.some.inj (hat₁.current.symm.trans hsource)
  obtain ⟨rfl, S₂, rfl, h₂⟩ := hbody.guarded hat₁ (h₁.step.closed_eq_false hopen h₁.plain)
    h₁.mem_emitted henter hlower hcur hfork
  have hlt := h₂.lt
  obtain ⟨S₃, rfl, honward₃, hjump⟩ := S₂.goOn h₂.exit_isSealed
    (fun _ => S₂.inside.nested.forward h₂.size.symm (Nat.lt_succ_self e) h₂.outside) hgo
  have hpred : b ∈ S₃.view.preds (e + 1) :=
    hjump.keeps b (by rw [h₂.exit_preds]; exact List.mem_singleton_self b)
  obtain ⟨S₄, rfl, honward₄, hview₄⟩ := S₃.sealAt (by rw [hjump.isSealed, h₂.exit_isSealed])
    ⟨b, hpred, by omega⟩ (S₃.inside.nested.outside_last (hjump.size.trans h₂.size).symm) hseal
  obtain ⟨S₅, rfl, honward₅, hview₅⟩ := S₄.moveTo hmove
  have hview : S₅.view = (S₃.view.markSealed (e + 1)).goto (e + 1) := by rw [hview₅, hview₄]
  refine ⟨S₅, e + 1, rfl, ?_⟩
  constructor
  case current =>
    exact h₂.at_exit hjump (by rw [hview]; rfl) (by rw [hview]; rfl) (by rw [hview]; rfl)
  case le => omega
  case onward =>
    simpa using (((h₁.step.onward.trans h₂.onward).trans honward₃).trans honward₄).trans honward₅
  case within =>
    have hwithin₁ : S.view.Within b S₁.view := by
      rw [h₁.step.view]
      exact (View.Within.emit le_rfl).trans (.learn le_rfl)
    rw [hview]
    exact (((hwithin₁.trans h₂.within).trans (hjump.within hlt.le (by omega))).trans
      (.markSealed (by omega))).trans .goto
  case done =>
    intro c hb hc
    rw [hview]
    exact h₂.done_of_jump hat₁.leaves hjump hb (by omega)
  case isSealed =>
    intro c hb hc
    rw [hview]
    by_cases hce : c = e + 1
    · simp [hce]
    · simp [Function.update_of_ne hce, hjump.isSealed, h₂.isSealed c hb (by omega)]
  case achieves =>
    intro _ L hL V W I args
    have hL₃ : L.Continues S₃.view b (e + 1) := by
      rw [hview] at hL
      exact ⟨hL.emitted, hL.known, hL.grows⟩
    obtain ⟨hwrite, i, hcode⟩ := h₂.emitted_of_jump hjump hL₃ (Nat.lt_succ_self e)
    have hbranch := Achieves.branch (P := S.view.spot b)
      (f := fun n => exec I F.context n (.ifThen cond body) S.slot) (h₁.computes I args) hwrite
      (by rw [View.spot, hcode, h₁.step.emitted])
      (h₂.achieves_of_jump hjump hL₃ (Nat.lt_succ_self e) I args) ?_
    · rw [h₂.next?_exit hjump (by rw [hview]; rfl) (by rw [hview]; rfl)]
      exact hbranch
    · intro n μ a μ' heval
      have hslot : S₁.slot = S.slot + cond.texts := h₁.step.onward.slot
      simp [exec, heval, hslot]

/-- **A header is opened**, and control goes on to it. -/
theorem Stage.header {h : Nat} {s₀ s₁ s₂ : Builder} (hat : S.At b) (hopen : S.view.closed b = false)
    (hcreate : createBlock S.state = .ok h s₀) (hleave : branchTo b h s₀ = .ok () s₁)
    (hgoto : setCurrent h s₁ = .ok () s₂) : h = b + 1 ∧ ∃ (S' : Stage F) (i : Nat),
      S'.state = s₂ ∧ Onward 0 [] S S' ∧ S'.At (b + 1) ∧
      S'.view =
        ((S.view.create.emit b [⟨i, .br, [b + 1], none, []⟩]).link b (b + 1)).goto (b + 1) := by
  have hlast := hat.last
  obtain ⟨rfl, S₁, rfl, honward₁, hview₁, -⟩ := S.create hcreate
  have hnested : Nested S₁.view.size (S₁.view.link b S.view.size).preds := by
    rw [hview₁]
    exact (S.inside.nested.mono (Nat.le_succ _)).forward rfl (by omega) (S.outside_of_at hat)
  obtain ⟨S₂, i, rfl, honward₂, hview₂⟩ := S₁.jump (by rw [hview₁]; exact hopen)
    (by rw [hview₁]; exact (S.fresh le_rfl).2.2.1) hnested hleave
  obtain ⟨S₃, rfl, honward₃, hview₃⟩ := S₂.moveTo hgoto
  rw [hview₂, hview₁, ← hlast] at hview₃
  refine ⟨hlast.symm, S₃, i, rfl, (honward₁.trans honward₂).trans honward₃, ?_, hview₃⟩
  constructor
  · rw [hview₃]
    rfl
  · rw [hview₃]
    exact congrArg (· + 1) hlast
  · intro d hd
    rw [hview₃] at hd
    rcases mem_update_append hd with hd | ⟨-, heq⟩
    · have := S.lt_of_mem_preds hd
      omega
    · omega

/-- **A loop is lowered.** -/
theorem LowersBody.whileDo {h : Nat} {s₀ s₁ s₂ s₃ s₄ s₅ s₆ s₇ s₈ s₉ s₁₀ : Builder}
    (hbody : LowersBody F body) (hat : S.At b) (hopen : S.view.closed b = false)
    (hallowed : F.Allows (assignedBy F.context cond))
    (hcreate : createBlock S.state = .ok h s₀) (hleave : branchTo b h s₀ = .ok () s₁)
    (hgoto : setCurrent h s₁ = .ok () s₂)
    (hcond : lowerExpr F.context cond s₂ = .ok v s₃) (hsource : s₃.current = some source)
    (henter : enterBlock F.context source s₃ = .ok t s₄)
    (hlower : lowerBody F.context body s₄ = .ok () s₅) (hcur : s₅.current = some e)
    (hfork : branchOn source v t s₅ = .ok x s₆) (hgo : branchTo e h s₆ = .ok () s₇)
    (hseal : sealBlock F.context.options h s₇ = .ok () s₈)
    (hseal' : sealBlock F.context.options x s₈ = .ok () s₉)
    (hmove : setCurrent x s₉ = .ok () s₁₀) : ∃ (S' : Stage F) (b' : Nat), S'.state = s₁₀ ∧
      Lowered (fun I n => exec I F.context n (.whileDo cond body) S.slot)
        (cond.texts + Stmt.textsOf body) ((Traced.lowerBody F.context body).accesses s₄ ++
          (Traced.lowerExpr F.context cond).accesses s₂) b b' S S' := by
  have hlast := hat.last
  obtain ⟨hpreds₀, -, hsealed₀, hemitted₀, hknown₀⟩ := S.fresh (c := b + 1) hlast.ge
  obtain ⟨rfl, S₁, i, rfl, honward₁, hat₁, hview₁⟩ := Stage.header hat hopen hcreate hleave hgoto
  have hne : b ≠ b + 1 := (Nat.lt_succ_self b).ne
  -- what is known of the header and of the block before it
  have hemitted₁ : S₁.view.emitted (b + 1) = [] := by
    rw [hview₁]
    simp [hemitted₀]
  have hknown₁ : S₁.view.known (b + 1) = fun _ => none := by
    rw [hview₁]
    exact hknown₀
  have hopen₁ : S₁.view.closed (b + 1) = false := by
    rw [View.closed, hemitted₁]
    rfl
  have hbefore : S₁.view.emitted b = S.view.emitted b ++ [⟨i, .br, [b + 1], none, []⟩] := by
    rw [hview₁]
    simp
  have hdone₁ : S₁.view.Done b := by
    have hwired := S.wired_of_leaves hat.leaves
    rw [hview₁]
    exact (View.Jumps.of_branch (V := S.view.create)).done hwired
  have hwithin₁ : S.view.Within b S₁.view := by
    rw [hview₁]
    exact ((View.Within.create.trans (.emit le_rfl)).trans
      (.link le_rfl (Nat.lt_succ_self b))).trans .goto
  -- the condition is computed in the header, and then comes the body
  obtain ⟨S₂, seg, rfl, h₂⟩ := lowerExpr_emits cond hat₁ hopen₁ hallowed hcond
  have hat₂ := h₂.step.stays hat₁
  obtain rfl : source = b + 1 := Option.some.inj (hsource.symm.trans hat₂.current)
  obtain ⟨rfl, S₃, rfl, h₃⟩ := hbody.guarded hat₂ (h₂.step.closed_eq_false hopen₁ h₂.plain)
    h₂.mem_emitted henter hlower hcur hfork
  have hlt := h₃.lt
  have hwithin₃ : S₁.view.Within (b + 1) S₃.view := by
    refine .trans ?_ h₃.within
    rw [h₂.step.view]
    exact (View.Within.emit le_rfl).trans (.learn le_rfl)
  have hopen₃ : S₃.view.isSealed (b + 1) = false := by
    rw [hwithin₃.isSealed _ le_rfl, hview₁]
    exact hsealed₀
  have hpred₃ : b ∈ S₃.view.preds (b + 1) := by
    rw [hwithin₃.preds _ le_rfl, hview₁]
    simp
  -- its end leads back to the header
  have hsize₃ : e + 1 < S₃.view.size := by
    rw [h₃.size]
    exact Nat.lt_succ_self _
  have hout₃ := hwithin₃.outside S₁.inside.nested hat₁.last
  obtain ⟨S₄, rfl, honward₄, hjump⟩ := S₃.goOn hopen₃ (fun _ => S₃.inside.nested.back hlt.le
    hsize₃ hout₃ h₃.outside h₃.enters h₃.leaves) hgo
  have hout₄ : Outside S₄.view.preds (b + 1) := by
    rintro k d hd ⟨hk, hle⟩
    rw [hjump.preds k hk.ne] at hd
    exact hout₃ k d hd ⟨hk, hle⟩
  obtain ⟨S₅, rfl, honward₅, hview₅⟩ := S₄.sealAt (by rw [hjump.isSealed, hopen₃])
    ⟨b, hjump.keeps b hpred₃, Nat.lt_succ_self b⟩ hout₄ hseal
  have hexit : b + 1 ∈ S₅.view.preds (e + 1) := by
    rw [hview₅]
    show b + 1 ∈ S₄.view.preds (e + 1)
    rw [hjump.preds _ (by omega), h₃.exit_preds]
    exact List.mem_singleton_self _
  have hsize₅ : S₅.view.size = e + 2 := by
    rw [hview₅]
    exact hjump.size.trans h₃.size
  obtain ⟨S₆, rfl, honward₆, hview₆⟩ := S₅.sealAt (b := e + 1)
    (by
      rw [hview₅]
      simp [Function.update_of_ne (show e + 1 ≠ b + 1 by omega), hjump.isSealed, h₃.exit_isSealed])
    ⟨b + 1, hexit, by omega⟩ (S₅.inside.nested.outside_last hsize₅.symm) hseal'
  obtain ⟨S₇, rfl, honward₇, hview₇⟩ := S₆.moveTo hmove
  have hview : S₇.view = ((S₄.view.markSealed (b + 1)).markSealed (e + 1)).goto (e + 1) := by
    rw [hview₇, hview₆, hview₅]
  refine ⟨S₇, e + 1, rfl, ?_⟩
  constructor
  case current =>
    exact h₃.at_exit hjump (by rw [hview]; rfl) (by rw [hview]; rfl) (by rw [hview]; rfl)
  case le => omega
  case onward =>
    simpa using (((((honward₁.trans h₂.step.onward).trans h₃.onward).trans honward₄).trans
      honward₅).trans honward₆).trans honward₇
  case within =>
    rw [hview]
    exact ((((hwithin₁.trans (hwithin₃.mono (Nat.le_succ b))).trans
      (hjump.within (by omega) (Nat.lt_succ_self b))).trans
      (.markSealed (Nat.lt_succ_self b))).trans (.markSealed (by omega))).trans .goto
  case done =>
    intro c hb hc
    rw [hview]
    by_cases hcb : c = b
    · subst hcb
      have hlt' : c < c + 1 := Nat.lt_succ_self c
      exact (hdone₁.congr (hwithin₃.emitted c hlt') (hwithin₃.succs c hlt')).congr
        (hjump.emitted c (by omega)) (hjump.succs c (by omega))
    · exact h₃.done_of_jump hat₂.leaves hjump (show b + 1 ≤ c by omega) (by omega)
  case isSealed =>
    intro c hb hc
    rw [hview]
    by_cases hce : c = e + 1
    · simp [hce]
    · by_cases hcb : c = b + 1
      · subst hcb
        simp [Function.update_of_ne hce]
      · simp [Function.update_of_ne hce, Function.update_of_ne hcb, hjump.isSealed,
          h₃.isSealed c (by omega) (by omega)]
  case achieves =>
    intro _ L hL V W I args
    rw [h₃.next?_exit hjump (by rw [hview]; rfl) (by rw [hview]; rfl)]
    have hL₄ : L.Continues S₄.view b (e + 1) := by
      rw [hview] at hL
      exact ⟨hL.emitted, hL.known, hL.grows⟩
    have hL₄' := hL₄.right (Nat.le_succ b)
    obtain ⟨hwrite, j, hcode⟩ := h₃.emitted_of_jump hjump hL₄' (Nat.lt_succ_self e)
    have hlt' : b < b + 1 := Nat.lt_succ_self b
    have hknown : (L.write · b) = S.view.known b := by
      rw [hL₄.known b le_rfl (by omega), hjump.known, hwithin₃.known b hlt', hview₁]
      rfl
    have hleave : L.emitted b = S.view.emitted b ++ [⟨i, .br, [b + 1], none, []⟩] := by
      rw [hL₄.emitted b le_rfl (by omega), hjump.emitted b (by omega), hwithin₃.emitted b hlt',
        hbefore]
    have hcomputes := h₂.computes I args
    rw [hknown₁] at hcomputes
    rw [h₂.step.emitted, hemitted₁, List.nil_append] at hcode
    have hslot₁ : S₁.slot = S.slot := honward₁.slot
    have hslot₂ : S₂.slot = S₁.slot + cond.texts := h₂.step.onward.slot
    refine Achieves.loop (P := S.view.spot b) hknown hleave hcomputes hwrite hcode
      (h₃.achieves_of_jump hjump hL₄' (Nat.lt_succ_self e) I args) fun n μ => ?_
    rw [exec, hslot₂, hslot₁]

end Rules

/-! ## All statements -/

/-- Statements that are lowered in an open block. -/
def LowersStmt (F : Setting) (s : Stmt) : Prop :=
  ∀ ⦃S : Stage F⦄ ⦃b : Nat⦄ ⦃s' : Builder⦄, S.At b →
    lowerStmt F.context s S.state = .ok () s' → ∃ (S' : Stage F) (b' : Nat), S'.state = s' ∧
      Lowered (fun I n => exec I F.context n s S.slot) s.texts
        ((Traced.lowerStmt F.context s).accesses S.state) b b' S S'

/-- Control first gets to an open block. -/
theorem LowersStmt.of_open {s : Stmt} {next : Build Unit} {traced : Traced Unit}
    (hs : lowerStmt F.context s = (do ensureOpenBlock F.context; next))
    (htraced : Traced.lowerStmt F.context s = (do Traced.ensureOpenBlock F.context; traced))
    (h : ∀ ⦃S : Stage F⦄ ⦃b : Nat⦄ ⦃s' : Builder⦄, S.At b → S.view.closed b = false →
      next S.state = .ok () s' → ∃ (S' : Stage F) (b' : Nat), S'.state = s' ∧
        Lowered (fun I n => exec I F.context n s S.slot) s.texts (traced.accesses S.state) b b'
          S S') :
    LowersStmt F s := by
  intro S b s' hat hrun
  rw [hs] at hrun
  obtain ⟨_, s₁, hensure, hnext⟩ := bind_eq_ok.mp hrun
  obtain ⟨S₁, b₁, rfl, hopen, h₁⟩ := S.ensureOpen hat hensure
  obtain ⟨S₂, b₂, rfl, h₂⟩ := h h₁.current hopen hnext
  have hslot : S₁.slot = S.slot := h₁.onward.slot
  rw [hslot] at h₂
  refine ⟨S₂, b₂, rfl, ?_⟩
  have hseq := h₁.seq (h := fun I n => exec I F.context n s S.slot) h₂ fun _ _ _ => rfl
  rw [htraced, Traced.Silent.ensureOpenBlock.next
    (Traced.result_eq_ok (Traced.result_ensureOpenBlock _) hensure)]
  rwa [Nat.zero_add, List.append_nil] at hseq

mutual

/-- **Lowering a statement.** -/
theorem lowerStmt_lowered : ∀ s : Stmt, F.Allows (assignedByStmt F.context s) → LowersStmt F s
  | .compound body, hallowed => by
    refine .of_open (by rw [lowerStmt]) (by rw [Traced.lowerStmt]) fun S b s' hat _ hrun => ?_
    rw [assignedByStmt] at hallowed
    obtain ⟨S', b', rfl, h⟩ := lowerBody_lowered body hallowed hat hrun
    refine ⟨S', b', rfl, ?_⟩
    rw [Stmt.texts]
    exact h.congr fun I => by funext n μ; rw [exec]
  | .declare d, hallowed => by
    refine .of_open (by rw [lowerStmt]) (by rw [Traced.lowerStmt]) fun S b s' hat hopen hrun => ?_
    rw [assignedByStmt] at hallowed
    obtain ⟨S', rfl, h⟩ := lowerVar_lowered hat hopen hallowed hrun
    rw [Stmt.texts]
    exact ⟨S', b, rfl, h⟩
  | .ifThen cond body, hallowed => by
    refine .of_open (by rw [lowerStmt]) (by rw [Traced.lowerStmt]) fun S b s' hat hopen hrun => ?_
    rw [assignedByStmt] at hallowed
    simp only [bind_eq_ok, getCurrent_eq_ok] at hrun
    obtain ⟨v, s₁, hcond, b₁, _, ⟨hsource, rfl⟩, t, s₂, henter, _, s₃, hlower, e, _, ⟨hcur, rfl⟩,
      x, s₄, hfork, _, s₅, hgo, _, s₆, hseal, hmove⟩ := hrun
    rw [Stmt.texts, Traced.accesses_bind (Traced.result_eq_ok (Traced.result_lowerExpr _ _) hcond),
      Traced.accesses_guarded (getCurrent_eq_ok.mpr ⟨hsource, rfl⟩) henter hlower fun _ _ =>
        (Traced.Silent.call _).bind fun _ => (Traced.Silent.branchOn _ _ _).bind fun _ =>
          (Traced.Silent.branchTo _ _).bind fun _ => (Traced.Silent.call _).bind fun _ =>
            Traced.Silent.call _]
    exact LowersBody.ifThen (lowerBody_lowered body hallowed.right) hat hopen hallowed.left hcond
      hsource henter hlower hcur hfork hgo hseal hmove
  | .whileDo cond body, hallowed => by
    refine .of_open (by rw [lowerStmt]) (by rw [Traced.lowerStmt]) fun S b s' hat hopen hrun => ?_
    rw [assignedByStmt] at hallowed
    simp only [bind_eq_ok, getCurrent_eq_ok] at hrun
    obtain ⟨b₀, _, ⟨hcur₀, rfl⟩, h, s₀, hcreate, _, s₁, hleave, _, s₂, hgoto, v, s₃, hcond, _, _,
      ⟨hsource, rfl⟩, t, s₄, henter, _, s₅, hlower, e, _, ⟨hcur, rfl⟩, x, s₆, hfork, _, s₇, hgo, _,
      s₈, hseal, _, s₉, hseal', hmove⟩ := hrun
    obtain rfl : b₀ = b := Option.some.inj (hcur₀.symm.trans hat.current)
    rw [Stmt.texts, Traced.accesses_call_bind (getCurrent_eq_ok.mpr ⟨hcur₀, rfl⟩),
      Traced.accesses_call_bind hcreate,
      (Traced.Silent.branchTo _ _).next (Traced.result_eq_ok (Traced.result_branchTo _ _) hleave),
      Traced.accesses_call_bind hgoto,
      Traced.accesses_bind (Traced.result_eq_ok (Traced.result_lowerExpr _ _) hcond),
      Traced.accesses_guarded (getCurrent_eq_ok.mpr ⟨hsource, rfl⟩) henter hlower fun _ _ =>
        (Traced.Silent.call _).bind fun _ => (Traced.Silent.branchOn _ _ _).bind fun _ =>
          (Traced.Silent.branchTo _ _).bind fun _ => (Traced.Silent.call _).bind fun _ =>
            (Traced.Silent.call _).bind fun _ => Traced.Silent.call _]
    exact LowersBody.whileDo (lowerBody_lowered body hallowed.right) hat hopen hallowed.left hcreate
      hleave hgoto hcond hsource henter hlower hcur hfork hgo hseal hseal' hmove
  | .ret none, hallowed => by
    refine .of_open (by rw [lowerStmt]) (by rw [Traced.lowerStmt]) fun S b s' hat hopen hrun => ?_
    obtain ⟨v, _, hemit, hs⟩ := bind_eq_ok.mp hrun
    obtain ⟨_, rfl⟩ := pure_eq_ok.mp hs
    obtain ⟨S', rfl, h⟩ := ret_lowered (f := fun I n => exec I F.context n (.ret none) S.slot)
      Hands.nil hat hopen (fun L i hcode _ _ I args => .ret (P := S.view.spot b)
        (by rw [List.append_nil] at hcode; exact hcode) fun n μ => by rw [exec]) hemit
    rw [(Traced.Silent.call _).bind fun _ => .pure _]
    exact ⟨S', b, rfl, h⟩
  | .ret (some value), hallowed => by
    refine .of_open (by rw [lowerStmt]) (by rw [Traced.lowerStmt]) fun S b s' hat hopen hrun => ?_
    rw [assignedByStmt] at hallowed
    simp only [bind_eq_ok] at hrun
    obtain ⟨v, s₁, hexpr, w, _, hemit, hs⟩ := hrun
    obtain ⟨_, rfl⟩ := pure_eq_ok.mp hs
    obtain ⟨S₁, seg, rfl, h₁⟩ := lowerExpr_emits value hat hopen hallowed hexpr
    obtain ⟨S', rfl, h⟩ := ret_lowered
      (f := fun I n => exec I F.context n (.ret (some value)) S.slot) (Hands.cons h₁ Hands.nil) hat
      hopen (fun L i hcode _ _ I args => .retValue (P := S.view.spot b) (h₁.computes I args)
        (by rw [List.append_nil] at hcode; exact hcode)
        fun n μ a μ' heval => by simp [exec, heval]) hemit
    have hresult := Traced.result_eq_ok (Traced.result_lowerExpr _ _) hexpr
    rw [Traced.accesses_bind_silent hresult fun _ => (Traced.Silent.call _).bind fun _ => .pure _]
    exact ⟨S', b, rfl, h⟩
  | .print _, _ | .scan _, _ => by
    refine .of_open (by rw [lowerStmt]) (by rw [Traced.lowerStmt]) fun S b s' hat hopen hrun => ?_
    obtain ⟨_, rfl⟩ := pure_eq_ok.mp hrun
    exact ⟨S, b, rfl, .skip hat fun I n μ => by rw [exec]⟩
  | .expr value, hallowed => by
    refine .of_open (by rw [lowerStmt]) (by rw [Traced.lowerStmt]) fun S b s' hat hopen hrun => ?_
    rw [assignedByStmt] at hallowed
    obtain ⟨v, _, hexpr, hs⟩ := bind_eq_ok.mp hrun
    obtain ⟨_, rfl⟩ := pure_eq_ok.mp hs
    obtain ⟨S₁, seg, rfl, h₁⟩ := lowerExpr_emits value hat hopen hallowed hexpr
    have hresult := Traced.result_eq_ok (Traced.result_lowerExpr _ _) hexpr
    rw [Stmt.texts, Traced.accesses_bind_silent hresult fun _ => .pure _]
    refine ⟨S₁, b, rfl, h₁.lowered .refl hat hopen fun I args =>
      ⟨_, h₁.computes I args, fun n μ a μ' heval => by simp [exec, heval]⟩⟩

/-- **Lowering statements one after the other.** -/
theorem lowerBody_lowered : ∀ body : List Stmt, F.Allows (assignedByBody F.context body) →
    LowersBody F body
  | [], _ => by
    intro S b s' hat hrun
    rw [lowerBody] at hrun
    obtain ⟨_, rfl⟩ := pure_eq_ok.mp hrun
    exact ⟨S, b, rfl, .skip hat fun I n μ => by rw [execBody]⟩
  | s :: rest, hallowed => by
    intro S b s' hat hrun
    rw [assignedByBody] at hallowed
    rw [lowerBody] at hrun
    obtain ⟨_, s₁, hstmt, hrest⟩ := bind_eq_ok.mp hrun
    obtain ⟨S₁, b₁, rfl, h₁⟩ := lowerStmt_lowered s hallowed.left hat hstmt
    obtain ⟨S₂, b₂, rfl, h₂⟩ := lowerBody_lowered rest hallowed.right h₁.current hrest
    have hslot : S₁.slot = S.slot + s.texts := h₁.onward.slot
    rw [hslot] at h₂
    rw [Stmt.textsOf, Traced.lowerBody,
      Traced.accesses_bind (Traced.result_eq_ok (Traced.result_lowerStmt _ _) hstmt)]
    exact ⟨S₂, b₂, rfl, h₁.seq h₂ fun I n μ => by rw [execBody]⟩

end

end Compiler16.Ssa
