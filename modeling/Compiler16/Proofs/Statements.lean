import Compiler16.Proofs.Expressions

/-!
# Lowering of statements

A statement is lowered from the last block on.  When it is done, the current block is the
last one again; all blocks between have been left by control, with the edges that their last
instructions say, and all new blocks are sealed.  Blocks from before are as they were.

What has been lowered does what the statement does, also in every ledger to come: only the
current block gets more code.

## Main definitions

* `View.Within`: blocks before some block are as they were
* `View.Done`, `View.Wired`: control has left a block, along the edges that its last
  instruction names
* `Ledger.Continues`: a ledger that is to come
* `Lowered`: a piece of a program was lowered

## Main results

* `lowerStmt_lowered`, `lowerBody_lowered`: what lowering does
-/

namespace Compiler16.Ssa

open Compiler16.Source Compiler16.Flow Compiler16.Ssa.Builder Compiler16.Ssa.Lowering

variable {F : Setting}

/-! ## Views of blocks -/

namespace View

/-- The edges that leave the block are those that its instructions name. -/
def Wired (V : View) (b : Nat) : Prop := V.succs b = (V.emitted b).flatMap (·.targets)

/-- Control has left the block along its edges. -/
def Done (V : View) (b : Nat) : Prop := V.closed b = true ∧ V.Wired b

/-- The place where the code of a block ends. -/
def spot (V : View) (b : Nat) : Spot := ⟨b, V.known b, V.emitted b⟩

/-- The place where control goes on, unless it has left the block. -/
def next? (V : View) (b : Nat) : Option Spot := if V.closed b then none else some (V.spot b)

/-- Nothing was emitted or written before the block, no new edge leaves a block before it,
and neither it nor a block before it was sealed or has got a new edge. -/
structure Within (b : Nat) (V V' : View) : Prop where
  size : V.size ≤ V'.size
  preds : ∀ c ≤ b, V'.preds c = V.preds c
  succs : ∀ c < b, V'.succs c = V.succs c
  isSealed : ∀ c ≤ b, V'.isSealed c = V.isSealed c
  emitted : ∀ c < b, V'.emitted c = V.emitted c
  known : ∀ c < b, V'.known c = V.known c
  grows : V.emitted b <+: V'.emitted b

namespace Within

variable {V V' V'' : View} {b c q t : Nat} {seg : List Emitted} {known : Nat → Option Value}

theorem refl : Within b V V :=
  ⟨le_rfl, fun _ _ => rfl, fun _ _ => rfl, fun _ _ => rfl, fun _ _ => rfl, fun _ _ => rfl,
    List.prefix_rfl⟩

theorem trans (h : Within b V V') (h' : Within b V' V'') : Within b V V'' where
  size := h.size.trans h'.size
  preds c hc := (h'.preds c hc).trans (h.preds c hc)
  succs c hc := (h'.succs c hc).trans (h.succs c hc)
  isSealed c hc := (h'.isSealed c hc).trans (h.isSealed c hc)
  emitted c hc := (h'.emitted c hc).trans (h.emitted c hc)
  known c hc := (h'.known c hc).trans (h.known c hc)
  grows := h.grows.trans h'.grows

theorem mono (h : Within c V V') (hbc : b ≤ c) : Within b V V' where
  size := h.size
  preds d hd := h.preds d (hd.trans hbc)
  succs d hd := h.succs d (hd.trans_le hbc)
  isSealed d hd := h.isSealed d (hd.trans hbc)
  emitted d hd := h.emitted d (hd.trans_le hbc)
  known d hd := h.known d (hd.trans_le hbc)
  grows := by
    rcases hbc.eq_or_lt with rfl | hlt
    · exact h.grows
    · rw [h.emitted b hlt]

theorem create : Within b V V.create := { refl (V := V) with size := Nat.le_succ _ }

theorem goto : Within b V (V.goto c) := { refl (V := V) with }

theorem link (hq : b ≤ q) (ht : b < t) : Within b V (V.link q t) :=
  { refl (V := V) with
    preds := fun c hc => Function.update_of_ne (by omega) _ _
    succs := fun c hc => Function.update_of_ne (by omega) _ _ }

theorem markSealed (hc : b < c) : Within b V (V.markSealed c) :=
  { refl (V := V) with isSealed := fun d hd => Function.update_of_ne (by omega) _ _ }

theorem emit (hc : b ≤ c) : Within b V (V.emit c seg) :=
  { refl (V := V) with
    emitted := fun d hd => Function.update_of_ne (by omega) _ _
    grows := by
      by_cases hbc : b = c
      · subst hbc
        simp
      · rw [View.emit_emitted, Function.update_of_ne hbc] }

theorem learn (hc : b ≤ c) : Within b V (V.learn c known) :=
  { refl (V := V) with known := fun d hd => Function.update_of_ne (by omega) _ _ }

end Within

end View

/-- From the block `b` on, the ledger has the code of the blocks before `b'`, and at least
that of `b'`. -/
structure Ledger.Continues (L : Ledger) (V : View) (b b' : Nat) : Prop where
  emitted : ∀ c, b ≤ c → c < b' → L.emitted c = V.emitted c
  known : ∀ c, b ≤ c → c < b' → (L.write · c) = V.known c
  grows : V.emitted b' <+: L.emitted b'

namespace Ledger.Continues

variable {L : Ledger} {V V' : View} {b b' b'' : Nat}

theorem left (h : L.Continues V' b b'') (hV : V.Within b' V') (hb : b ≤ b') (hle : b' ≤ b'') :
    L.Continues V b b' where
  emitted c hc hc' := (h.emitted c hc (hc'.trans_le hle)).trans (hV.emitted c hc')
  known c hc hc' := (h.known c hc (hc'.trans_le hle)).trans (hV.known c hc')
  grows := by
    rcases hle.eq_or_lt with rfl | hlt
    · exact hV.grows.trans h.grows
    · rw [h.emitted b' hb hlt]
      exact hV.grows

theorem right (h : L.Continues V b b'') (hb : b ≤ b') : L.Continues V b' b'' where
  emitted c hc := h.emitted c (hb.trans hc)
  known c hc := h.known c (hb.trans hc)
  grows := h.grows

end Ledger.Continues

/-- What running a piece of a program does, for every meaning of operations. -/
abbrev Meaning : Type 1 :=
  ∀ {V W : Type}, Interpretation V W → Nat → Memory V W → Option (Outcome V × Memory V W)

/-- A piece of a program was lowered, from the block `b` to the block `b'`. -/
structure Lowered (f : Meaning) (t : Nat) (log : Log) (b b' : Nat) (S S' : Stage F) : Prop where
  current : S'.At b'
  le : b ≤ b'
  onward : Onward t log S S'
  within : S.view.Within b S'.view
  done : ∀ c, b ≤ c → c < b' → S'.view.Done c
  isSealed : ∀ c, b < c → c ≤ b' → S'.view.isSealed c = true
  achieves : S.view.closed b = false → ∀ L : Ledger, L.Continues S'.view b b' →
    ∀ {V W : Type} (I : Interpretation V W) (args : Nat → V),
      Achieves I args L (f I) (S.view.spot b) (S'.view.next? b')

namespace Lowered

variable {f g h : Meaning} {t t' b b' b'' : Nat} {log log' : Log} {S S' S'' : Stage F}
  {seg : List Emitted}

/-- **One piece after another.** -/
theorem seq (h₁ : Lowered f t log b b' S S') (h₂ : Lowered g t' log' b' b'' S' S'')
    (hh : ∀ {V W : Type} (I : Interpretation V W) n μ, h I n μ = andThen (f I n μ) (g I n)) :
    Lowered h (t + t') (log' ++ log) b b'' S S'' where
  current := h₂.current
  le := h₁.le.trans h₂.le
  onward := h₁.onward.trans h₂.onward
  within := h₁.within.trans (h₂.within.mono h₁.le)
  done c hb hc := by
    by_cases hlt : c < b'
    · obtain ⟨hclosed, hwired⟩ := h₁.done c hb hlt
      rw [View.Done, View.closed, View.Wired, h₂.within.emitted c hlt, h₂.within.succs c hlt]
      exact ⟨hclosed, hwired⟩
    · exact h₂.done c (not_lt.mp hlt) hc
  isSealed c hb hc := by
    by_cases hle : c ≤ b'
    · rw [h₂.within.isSealed c hle]
      exact h₁.isSealed c hb hle
    · exact h₂.isSealed c (not_le.mp hle) hc
  achieves hopen L hL _ _ I args := by
    have hL₁ := hL.left h₂.within h₁.le h₂.le
    refine (h₁.achieves hopen L hL₁ I args).seq (fun Q hQ => ?_) (hh I)
    unfold View.next? at hQ
    split at hQ
    · cases hQ
    · next hopen' =>
      cases hQ
      exact h₂.achieves (Bool.not_eq_true _ ▸ hopen') L (hL.right h₁.le) I args

theorem congr (h : Lowered f t log b b' S S')
    (hg : ∀ {V W : Type} (I : Interpretation V W), g I = f I) : Lowered g t log b b' S S' :=
  { h with achieves := fun hopen L hL _ _ I args => (hg I) ▸ h.achieves hopen L hL I args }

/-- Only instructions of the current block have come. -/
theorem of_extends (h : Extends b seg t log S S') (hat : S.At b)
    (hachieves : S.view.closed b = false → ∀ L : Ledger, L.Continues S'.view b b →
      ∀ {V W : Type} (I : Interpretation V W) (args : Nat → V),
        Achieves I args L (f I) (S.view.spot b) (S'.view.next? b)) :
    Lowered f t log b b S S' where
  current := h.stays hat
  le := le_rfl
  onward := h.onward
  within := by
    rw [h.view]
    exact (View.Within.emit le_rfl).trans (View.Within.learn le_rfl)
  done c hb hc := absurd hc (not_lt.mpr hb)
  isSealed c hb hc := absurd hb (not_lt.mpr hc)
  achieves := hachieves

/-- Nothing is lowered. -/
theorem skip (hat : S.At b) (hf : ∀ {V W : Type} (I : Interpretation V W) n μ,
    f I n μ = some (.normal, μ)) : Lowered f 0 [] b b S S := by
  refine .of_extends .refl hat fun hopen L _ _ _ I args => ?_
  rw [View.next?, if_neg (by rw [hopen]; exact Bool.false_ne_true)]
  exact Achieves.skip (hf I)

end Lowered

/-! ## Steps from block to block -/

namespace Stage

variable (S : Stage F) {b c source t : Nat} {v : Value} {s' : Builder}

theorem mem_succs_iff {d : Nat} : d ∈ S.view.succs c ↔ c ∈ S.view.preds d := by
  rw [← List.count_pos_iff, ← List.count_pos_iff]
  exact (S.inside.mirrored c d) ▸ Iff.rfl

theorem lt_of_mem_preds {q d : Nat} (hq : q ∈ S.view.preds d) : q < S.view.size :=
  S.inside.sound.preds_lt d q hq

/-- Nothing is known of a block that is yet to come. -/
theorem fresh (hc : S.view.size ≤ c) : S.view.preds c = [] ∧ S.view.succs c = [] ∧
    S.view.isSealed c = false ∧ S.view.emitted c = [] ∧ S.view.known c = fun _ => none := by
  refine ⟨?_, ?_, S.inside.isSealed_eq_false hc, S.inside.emitted_eq_nil hc, ?_⟩
  · rw [List.eq_nil_iff_forall_not_mem]
    exact fun q hq => absurd (Body.lt_size_of_mem_preds hq) (not_lt.mpr hc)
  · rw [List.eq_nil_iff_forall_not_mem]
    exact fun d hd => absurd (S.lt_of_mem_preds (S.mem_succs_iff.mp hd)) (not_lt.mpr hc)
  · funext x
    exact S.inside.write_eq_none hc

theorem succs_eq_nil (hleaves : ∀ d, b ∉ S.view.preds d) : S.view.succs b = [] := by
  rw [List.eq_nil_iff_forall_not_mem]
  exact fun d hd => hleaves d (S.mem_succs_iff.mp hd)

theorem targets_eq_nil (hleaves : ∀ d, b ∉ S.view.preds d) :
    (S.view.emitted b).flatMap (·.targets) = [] := by
  rw [List.flatMap_eq_nil_iff]
  intro e he
  rw [List.eq_nil_iff_forall_not_mem]
  exact fun t ht => hleaves t (S.inside.tidy.target b e he t ht)

theorem wired_of_leaves (hleaves : ∀ d, b ∉ S.view.preds d) : S.view.Wired b := by
  rw [View.Wired, S.succs_eq_nil hleaves, S.targets_eq_nil hleaves]

theorem isTerminated_eq : S.state.isTerminated b = S.view.closed b :=
  S.inside.sound.isTerminated_eq b

/-- If control has left the current block, a new one is opened. -/
theorem ensureOpen (hat : S.At b) (hrun : ensureOpenBlock F.context S.state = .ok () s') :
    ∃ (S' : Stage F) (b' : Nat), S'.state = s' ∧ S'.view.closed b' = false ∧
      Lowered (fun _ _ μ => some (.normal, μ)) 0 [] b b' S S' := by
  simp only [ensureOpenBlock, bind_eq_ok, getCurrent_eq_ok, get_eq_ok] at hrun
  obtain ⟨b₀, _, ⟨hb₀, rfl⟩, _, _, ⟨rfl, rfl⟩, hrun⟩ := hrun
  obtain rfl : b₀ = b := Option.some.inj (hb₀.symm.trans hat.current)
  rw [S.isTerminated_eq] at hrun
  by_cases hclosed : S.view.closed b₀ = true
  · rw [if_pos hclosed] at hrun
    simp only [bind_eq_ok] at hrun
    obtain ⟨t, s₁, hcreate, _, s₂, hseal, hgoto⟩ := hrun
    obtain ⟨rfl, S₁, rfl, honward₁, hview₁, hcode⟩ := S.create hcreate
    obtain ⟨hpreds, -, hopen, -, -⟩ := S.fresh le_rfl
    have hlt : S.view.size < S₁.view.size := by
      rw [hview₁]
      exact Nat.lt_succ_self _
    obtain ⟨S₂, rfl, honward₂, hview₂⟩ := S₁.sealNew hlt (by rw [hview₁]; exact hopen) hcode
      (by rw [hview₁]; exact hpreds) hseal
    obtain ⟨S₃, rfl, honward₃, hview₃⟩ := S₂.moveTo hgoto
    have hview : S₃.view = (S.view.create.markSealed S.view.size).goto S.view.size := by
      rw [hview₃, hview₂, hview₁]
    have hlast := hat.last
    refine ⟨S₃, S.view.size, rfl, ?_, ?_⟩
    · rw [hview]
      simp [View.closed, (S.fresh le_rfl).2.2.2.1]
    · constructor
      case current =>
        constructor
        · rw [hview]
          rfl
        · rw [hview]
          rfl
        · rw [hview]
          exact fun d hd => absurd (S.lt_of_mem_preds hd) (lt_irrefl _)
      case le => omega
      case onward => exact (honward₁.trans honward₂).trans honward₃
      case within =>
        rw [hview]
        exact (View.Within.create.trans (.markSealed (by omega))).trans .goto
      case done =>
        intro c hb hc
        obtain rfl : c = b₀ := by omega
        rw [hview]
        exact ⟨hclosed, S.wired_of_leaves hat.leaves⟩
      case isSealed =>
        intro c hb hc
        obtain rfl : c = S.view.size := by omega
        rw [hview]
        simp
      case achieves =>
        intro hopen
        rw [hclosed] at hopen
        cases hopen
  · rw [if_neg hclosed] at hrun
    obtain ⟨_, rfl⟩ := pure_eq_ok.mp hrun
    exact ⟨S, b₀, rfl, Bool.not_eq_true _ ▸ hclosed, .skip hat fun _ _ _ => rfl⟩

/-- **A new block is opened**, which control enters only from `source`. -/
theorem enter (hsource : source < S.view.size) (hout : Outside S.view.preds source)
    (hrun : enterBlock F.context source S.state = .ok t s') : t = S.view.size ∧ ∃ S' : Stage F,
    S'.state = s' ∧ Onward 0 [] S S' ∧ S'.At t ∧
      S'.view = ((S.view.create.link source t).markSealed t).goto t := by
  simp only [enterBlock, bind_eq_ok, pure_eq_ok] at hrun
  obtain ⟨t, s₁, hcreate, _, s₂, hlink, _, s₃, hseal, _, s₄, hgoto, rfl, rfl⟩ := hrun
  obtain ⟨rfl, S₁, rfl, honward₁, hview₁, -⟩ := S.create hcreate
  have hopen₁ : S₁.view.isSealed S.view.size = false := by
    rw [hview₁]
    exact (S.fresh le_rfl).2.2.1
  have hnested : Nested S₁.view.size (S₁.view.link source S.view.size).preds := by
    rw [hview₁]
    exact (S.inside.nested.mono (Nat.le_succ _)).forward rfl hsource hout
  obtain ⟨S₂, rfl, honward₂, hview₂⟩ := S₁.link hopen₁ hnested hlink
  have hpred : ∃ q ∈ S₂.view.preds S.view.size, q < S.view.size :=
    ⟨source, by simp [hview₂], hsource⟩
  have hout₂ : Outside S₂.view.preds S.view.size :=
    S₂.inside.nested.outside_last (by
      rw [show S₂.body.graph.size = _ from congrArg View.size hview₂, hview₁]
      rfl)
  obtain ⟨S₃, rfl, honward₃, hview₃⟩ := S₂.sealAt (by rw [hview₂]; exact hopen₁) hpred hout₂ hseal
  obtain ⟨S₄, rfl, honward₄, hview₄⟩ := S₃.moveTo hgoto
  have hview : S₄.view =
      ((S.view.create.link source S.view.size).markSealed S.view.size).goto S.view.size := by
    rw [hview₄, hview₃, hview₂, hview₁]
  refine ⟨rfl, S₄, rfl, ((honward₁.trans honward₂).trans honward₃).trans honward₄, ?_, hview⟩
  constructor
  · rw [hview]
    rfl
  · rw [hview]
    rfl
  · intro d hd
    rw [hview] at hd
    rcases mem_update_append hd with hd | ⟨-, heq⟩
    · exact absurd (S.lt_of_mem_preds hd) (lt_irrefl _)
    · omega

/-- **Control leaves a block** for `body`, or for a new block if the condition is zero. -/
theorem fork {body : Nat} (hb : b < S.view.size) (hopen : S.view.closed b = false)
    (hv : ∃ d ∈ S.view.emitted b, v = .result d.id) (hbody : b ∈ S.view.preds body)
    (hout : Outside S.view.preds b) (hrun : branchOn b v body S.state = .ok t s') :
    t = S.view.size ∧ ∃ (S' : Stage F) (i : Nat), S'.state = s' ∧ Onward 0 [] S S' ∧
      S'.view = (S.view.create.emit b [⟨i, .br, [body, t], none, [.fixed v]⟩]).link b t := by
  simp only [branchOn, bind_eq_ok, pure_eq_ok] at hrun
  obtain ⟨t, s₁, hcreate, _, s₂, hemit, _, s₃, hlink, rfl, rfl⟩ := hrun
  obtain ⟨rfl, S₁, rfl, honward₁, hview₁, -⟩ := S.create hcreate
  obtain ⟨d, hd, rfl⟩ := hv
  have hd₁ : d ∈ S₁.view.emitted b := by
    rw [hview₁]
    exact hd
  have hnested : Nested S₁.view.size (S₁.view.link b S.view.size).preds := by
    rw [hview₁]
    exact (S.inside.nested.mono (Nat.le_succ _)).forward rfl hb hout
  have hprovided : S₁.Provided b [.fixed (.result d.id)] := by
    refine ⟨by simp, fun w hw => Or.inr (Or.inr ⟨d, hd₁, ?_⟩)⟩
    rw [List.mem_singleton, Role.fixed.injEq] at hw
    exact hw
  have hne : body ≠ S.view.size := (Body.lt_size_of_mem_preds hbody).ne
  obtain ⟨S₂, rfl, honward₂, hview₂⟩ := S₁.branchAt (b := b)
    (by rw [hview₁]; exact hopen) (.cons ⟨rfl, S₁.inside.base_of_emitted hd₁⟩ .nil) hprovided
    (by simpa using S₁.inside.live_of_emitted hd₁)
    (by rw [hview₁]; exact (S.fresh le_rfl).2.2.1) ⟨by simpa using hne, Or.inl ⟨rfl, rfl⟩⟩
    (by
      intro u hu
      rw [List.mem_pair] at hu
      rcases hu with rfl | rfl
      · rw [hview₁]
        exact Or.inr hbody
      · exact Or.inl rfl)
    hnested hemit hlink
  exact ⟨rfl, S₂, S₁.state.nextId, rfl, honward₁.trans honward₂, by rw [hview₂, hview₁]⟩

end Stage

/-- Control goes on from the end of a block to another, unless it has left the block
before. -/
structure View.Jumps (b t : Nat) (V V' : View) : Prop where
  size : V'.size = V.size
  isSealed : V'.isSealed = V.isSealed
  known : V'.known = V.known
  emitted : ∀ c ≠ b, V'.emitted c = V.emitted c
  succs : ∀ c ≠ b, V'.succs c = V.succs c
  preds : ∀ c ≠ t, V'.preds c = V.preds c
  keeps : ∀ q ∈ V.preds t, q ∈ V'.preds t
  enters : ∀ q ∈ V'.preds t, q ∈ V.preds t ∨ q = b
  grows : V.emitted b <+: V'.emitted b
  done : V.Wired b → V'.Done b
  leaves : V.closed b = false → ∃ i, V'.emitted b = V.emitted b ++ [⟨i, .br, [t], none, []⟩]

namespace View.Jumps

variable {V V' : View} {b t : Nat}

theorem of_closed (h : V.closed b = true) : Jumps b t V V :=
  ⟨rfl, rfl, rfl, fun _ _ => rfl, fun _ _ => rfl, fun _ _ => rfl, fun _ hq => hq, fun _ => Or.inl,
    List.prefix_rfl, fun hw => ⟨h, hw⟩, fun hopen => by rw [h] at hopen; cases hopen⟩

theorem of_branch {i : Nat} : Jumps b t V ((V.emit b [⟨i, .br, [t], none, []⟩]).link b t) where
  size := rfl
  isSealed := rfl
  known := rfl
  emitted c hc := Function.update_of_ne hc _ _
  succs c hc := Function.update_of_ne hc _ _
  preds c hc := Function.update_of_ne hc _ _
  keeps q hq := by
    rw [link_preds, Function.update_self]
    exact List.mem_append_left _ hq
  enters q hq := (mem_update_append hq).imp_right And.right
  grows := by simp
  done hw := by
    constructor
    · simp [closed, Op.isTerminator]
    · rw [Wired] at hw ⊢
      simp [hw]
  leaves _ := ⟨i, by simp⟩

theorem within {b₀ : Nat} (h : Jumps b t V V') (hb : b₀ ≤ b) (ht : b₀ < t) : Within b₀ V V' where
  size := h.size.ge
  preds c hc := h.preds c (by omega)
  succs c hc := h.succs c (by omega)
  isSealed c _ := by rw [h.isSealed]
  emitted c hc := h.emitted c (by omega)
  known c _ := by rw [h.known]
  grows := by
    by_cases hbb : b₀ = b
    · exact hbb ▸ h.grows
    · rw [h.emitted b₀ hbb]

end View.Jumps

/-- **Control goes on to another block.** -/
theorem Stage.jump (S : Stage F) {b t : Nat} {s' : Builder} (hopen : S.view.closed b = false)
    (ht : S.view.isSealed t = false) (hnested : Nested S.view.size (S.view.link b t).preds)
    (hrun : branchTo b t S.state = .ok () s') : ∃ (S' : Stage F) (i : Nat), S'.state = s' ∧
      Onward 0 [] S S' ∧ S'.view = (S.view.emit b [⟨i, .br, [t], none, []⟩]).link b t := by
  simp only [branchTo, bind_eq_ok, get_eq_ok] at hrun
  obtain ⟨_, _, ⟨rfl, rfl⟩, hrun⟩ := hrun
  rw [S.isTerminated_eq, hopen, if_neg Bool.false_ne_true] at hrun
  obtain ⟨_, s₁, hemit, hlink⟩ := bind_eq_ok.mp hrun
  obtain ⟨S', rfl, honward, hview⟩ := S.branchAt (t := t) hopen .nil ⟨by simp, by simp⟩ (by simp) ht
    ⟨List.nodup_singleton t, Or.inr ⟨rfl, rfl⟩⟩ (fun u hu => Or.inl (List.mem_singleton.mp hu))
    hnested hemit hlink
  exact ⟨S', _, rfl, honward, hview⟩

/-- Control goes on to another block, if it is still there. -/
theorem Stage.goOn (S : Stage F) {b t : Nat} {s' : Builder} (ht : S.view.isSealed t = false)
    (hnested : S.view.closed b = false → Nested S.view.size (S.view.link b t).preds)
    (hrun : branchTo b t S.state = .ok () s') : ∃ S' : Stage F, S'.state = s' ∧ Onward 0 [] S S' ∧
      S.view.Jumps b t S'.view := by
  by_cases hclosed : S.view.closed b = true
  · simp only [branchTo, bind_eq_ok, get_eq_ok] at hrun
    obtain ⟨_, _, ⟨rfl, rfl⟩, hrun⟩ := hrun
    rw [S.isTerminated_eq, if_pos hclosed] at hrun
    obtain ⟨_, rfl⟩ := pure_eq_ok.mp hrun
    exact ⟨S, rfl, .refl, .of_closed hclosed⟩
  · have hopen : S.view.closed b = false := Bool.not_eq_true _ ▸ hclosed
    obtain ⟨S', i, rfl, honward, hview⟩ := S.jump hopen ht (hnested hopen) hrun
    exact ⟨S', rfl, honward, hview ▸ .of_branch⟩

/-! ## Statements that stay in a block -/

section Straight

variable {S S' : Stage F} {b : Nat} {v : Value} {s' : Builder} {e : Expr} {seg : List Emitted}
  {log : Log}

theorem View.next?_of_open {V : View} (h : V.closed b = false) : V.next? b = some (V.spot b) := by
  rw [next?, if_neg (by rw [h]; exact Bool.false_ne_true)]

theorem Extends.spot {t : Nat} (h : Extends b seg t log S S') :
    S'.view.spot b = ⟨b, S'.view.known b, (S.view.spot b).done ++ seg⟩ := by
  rw [View.spot, h.emitted]
  rfl

/-- An expression is computed for what it does. -/
theorem Emits.lowered {f : Meaning} {S'' : Stage F} (h : Emits e b S S' seg v)
    (hstep : Extends b [] 0 log S' S'') (hat : S.At b) (hopen : S.view.closed b = false)
    (hcomputes : ∀ {V W : Type} (I : Interpretation V W) (args : Nat → V),
      ∃ g, Computes I args g S.state.nextId (S.view.known b) seg (S''.view.known b) v ∧
        ∀ n μ a μ', g μ = some (a, μ') → f I n μ = some (.normal, μ')) :
    Lowered f e.texts (log ++ (Traced.lowerExpr F.context e).accesses S.state) b b S S'' := by
  have hext := h.step.trans hstep
  rw [List.append_nil, Nat.add_zero] at hext
  refine .of_extends hext hat fun _ L hL _ _ I args => ?_
  obtain ⟨g, hg, hf⟩ := hcomputes I args
  have hcode : (S.view.spot b).done ++ seg <+: L.emitted b := hext.emitted ▸ hL.grows
  rw [View.next?_of_open (hext.closed_eq_false hopen h.plain), hext.spot]
  exact Achieves.compute (P := S.view.spot b) hg hcode hf

theorem lowerVar_lowered {d : VarDecl} (hat : S.At b) (hopen : S.view.closed b = false)
    (hallowed : F.Allows (assignedByVar F.context d))
    (hrun : lowerVar F.context d S.state = .ok () s') : ∃ S' : Stage F, S'.state = s' ∧
      Lowered (fun I n => exec I F.context n (.declare d) S.slot) d.texts
        ((Traced.lowerVar F.context d).accesses S.state) b b S S' := by
  have hskip : d.value? = none → Traced.lowerVar F.context d = pure () → S.state = s' →
      ∃ S' : Stage F, S'.state = s' ∧
        Lowered (fun I n => exec I F.context n (.declare d) S.slot) d.texts
          ((Traced.lowerVar F.context d).accesses S.state) b b S S' := by
    intro hnone hpure hs
    have htexts : d.texts = 0 := by rw [VarDecl.texts, hnone]
    rw [hpure, Traced.accesses_pure, htexts]
    exact ⟨S, hs, .skip hat fun I n μ => by simp [exec, execVar, hnone]⟩
  unfold lowerVar at hrun
  by_cases hparam : d.isParameter = true
  · rw [if_pos hparam] at hrun
    exact hskip (if_pos hparam) (if_pos hparam) (pure_eq_ok.mp hrun).2
  · rw [if_neg hparam] at hrun
    cases hinit : d.init with
    | none =>
      rw [hinit] at hrun
      refine hskip ((if_neg hparam).trans hinit) ?_ (pure_eq_ok.mp hrun).2
      rw [Traced.lowerVar, if_neg hparam, hinit]
    | some init =>
      rw [hinit] at hrun
      simp only [bind_eq_ok, symbolOf_eq_ok] at hrun
      obtain ⟨v, s₁, hexpr, x, _, ⟨hx, rfl⟩, hassign⟩ := hrun
      have hvalue : d.value? = some init := (if_neg hparam).trans hinit
      rw [assignedByVar, hvalue] at hallowed
      obtain ⟨S₁, seg, rfl, h₁⟩ := lowerExpr_emits init hat hopen hallowed.right hexpr
      obtain ⟨e, he, hv⟩ := h₁.value
      have hmem : e ∈ S₁.view.emitted b := by
        rw [h₁.step.emitted]
        exact List.mem_append_right _ he
      obtain ⟨S₂, rfl, hknown, hstep⟩ := S₁.assign (h₁.step.stays hat) hmem hv (h₁.plain e he)
        (fun hglobal => hallowed.left x (by simp [hx]) hglobal v) hassign
      have htexts : d.texts = init.texts := by rw [VarDecl.texts, hvalue]
      rw [Traced.accesses_declaration hparam hinit hexpr (symbolOf_eq_ok.mpr ⟨hx, rfl⟩) hassign
        (h₁.step.stays hat).current, htexts]
      refine ⟨S₂, rfl, h₁.lowered hstep hat hopen fun I args => ?_⟩
      rw [hknown]
      refine ⟨fun μ => (evalExpr I F.context init S.slot μ).map fun r =>
        (r.1, { r.2 with store := Function.update r.2.store x r.1 }),
        (h₁.computes I args).assign fun μ a μ' heval => by simp [heval], ?_⟩
      intro n μ a μ' heval
      obtain ⟨⟨a', μ₁⟩, he, ⟨⟩⟩ := Option.map_eq_some_iff.mp heval
      simp [exec, execVar, hvalue, he, hx]

/-- Control leaves the function. -/
theorem ret_lowered {f : Meaning} {operands : List Value} {roles : List Role} {es : List Expr}
    (h : Hands es log b S S' seg roles operands) (hat : S.At b) (hopen : S.view.closed b = false)
    (hachieves : ∀ (L : Ledger) i,
      (S.view.spot b).done ++ seg ++ [⟨i, .ret, [], none, roles⟩] <+: L.emitted b →
      ∀ {V W : Type} (I : Interpretation V W) (args : Nat → V),
        Achieves I args L (f I) (S.view.spot b) none)
    (hrun : emit .ret operands S'.state = .ok v s') : ∃ S'' : Stage F, S''.state = s' ∧
      Lowered f (Expr.textsOf es) log b b S S'' := by
  obtain ⟨rfl, S'', rfl, honward, hremoved, hview⟩ := S'.emitAt (h.step.stays hat)
    (h.step.closed_eq_false hopen h.plain) Op.noConfusion Op.noConfusion Op.noConfusion h.plays
    h.provided h.live hrun
  have hstep : Extends b [⟨S'.state.nextId, .ret, [], none, roles⟩] 0 [] S' S'' :=
    .of_removed honward (by rw [hview]; exact View.learn_self.symm) hremoved
  have hext := h.step.trans hstep
  refine ⟨S'', rfl, .of_extends hext hat fun _ L hL _ _ I args => ?_⟩
  have hclosed : S''.view.closed b = true := by
    rw [View.closed, hext.emitted]
    simp [Op.isTerminator]
  rw [View.next?, if_pos hclosed]
  refine hachieves L S'.state.nextId ?_ I args
  rw [List.append_assoc]
  exact hext.emitted ▸ hL.grows

end Straight

end Compiler16.Ssa
