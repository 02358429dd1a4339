import Compiler16.Proofs.Control

/-!
# Functions from beginning to end

A function begins with an empty entry, in which the parameters are written, one argument for
each.  Then its statements are lowered.  When that is done every block is sealed, so no PHI
waits for operands any more, and the function can end.

## Main definitions

* `Opening`: a function has begun, and its parameters are written
* `Complete`: its statements are lowered

## Main results

* `Stage.begin`, `Stage.params`, `buildFunction_complete`: the stages of a function
* `Complete.finished`: no PHI waits
* `Complete.execute_iff`: running the function does what its declaration says
-/

namespace Compiler16.Ssa

open Compiler16.Source Compiler16.Flow Compiler16.Ssa.Builder Compiler16.Ssa.Lowering

variable {F : Setting}

/-! ## The beginning -/

/-- The setting of a function that begins in a state. -/
structure Setting.Fits (F : Setting) (s : Builder) : Prop where
  first : F.first = s.nextId
  removed : F.removed = s.removed
  before : ∀ x, F.before x (s.globalValue x)
  known : s.Known

theorem Ledger.Tidy.initial {n : Nat} {preds : Nat → List Nat} :
    Ledger.initial.Tidy [] n preds where
  argument _ h := by cases h
  first _ _ h := by cases h
  write _ _ _ h := by cases h
  fixed b before e after h := by
    have : before ++ e :: after = [] := h.symm
    simp at this
  not_free _ _ h := by cases h
  last b before e after h := by
    have : before ++ e :: after = [] := h.symm
    simp at this
  target _ _ h := by cases h

/-- **A function begins.** -/
theorem Stage.begin {s s' : Builder} {name : String} {entry : Nat} (hF : F.Fits s)
    (hrun : beginFunction name s = .ok entry s') : entry = 0 ∧ ∃ S : Stage F, S.state = s' ∧
      S.At 0 ∧ S.view.preds 0 = [] ∧ S.view.emitted 0 = [] ∧ S.view.known 0 = (fun _ => none) ∧
      S.body.arguments = [] ∧ s'.nextId = s.nextId ∧ s'.compiled = s.compiled ∧
      s'.opened.map OpenFunction.name = some name ∧ Records s [] S := by
  obtain ⟨rfl, B, hs, hsize, harguments, hcode, hpreds, hsuccs, hs'⟩ := Sound.begin hrun
  have hinside : Inside F .initial s' B := by
    subst hs'
    constructor
    case sound => exact hs
    case neat => exact .begin (hF.known.mono le_rfl rfl rfl) hcode rfl
    case phi_first =>
      intro p k hp
      cases hp
    case removed_before => exact fun d hd => hF.removed ▸ hd
    case removed => exact fun d hd => Or.inl (hF.removed ▸ hd)
    case entry => trivial
    case entry_sealed => rfl
    case sealed_lt =>
      intro b hb
      rw [hsize]
      simpa [isSealed, Nat.lt_one_iff] using hb
    case open_root => exact fun _ _ => trivial
    case write_lt =>
      intro x b v hv
      cases hv
    case base => exact fun x i hi => ⟨(hF.known.live x i hi).1, rfl⟩
    case globals => exact hF.before
    case start =>
      intro x b v hv
      cases hv
    case first => exact hF.first.le
    case tidy =>
      rw [harguments]
      exact .initial
    case formed =>
      intro b e he
      cases he
    case grounded => exact fun _ _ => Or.inl trivial
    case mirrored =>
      intro a b
      rw [hsuccs, hpreds, List.count_nil, List.count_nil]
    case nested =>
      have hempty : B.preds = fun _ => [] := funext hpreds
      rw [hempty]
      constructor <;> intros <;> contradiction
  refine ⟨rfl, ⟨.initial, s', B, hinside⟩, rfl, ⟨?_, hsize.symm, fun d hd => ?_⟩,
    hpreds 0, rfl, rfl, harguments, by rw [hs'], by rw [hs'], by rw [hs']; rfl,
    ⟨fun _ _ => rfl, fun _ _ _ _ h => (List.not_mem_nil h).elim, ?_, fun x => Or.inl ?_, ?_, ?_⟩⟩
  · show s'.current = some 0
    rw [hs']
  · have hd : 0 ∈ B.preds d := hd
    rw [hpreds] at hd
    cases hd
  · intro post pre x b a hlog
    simp at hlog
  · show s'.globalValue x = _
    rw [hs']
    rfl
  · intro x v hv
    cases hv
  · intro post pre x a hlog
    simp at hlog

/-! ## Parameters -/

theorem Ledger.Tidy.bind {L : Ledger} {arguments : List Value} {n x b i : Nat}
    {preds : Nat → List Nat} (h : L.Tidy arguments n preds) :
    (L.wrote x b (.argument i)).Tidy (arguments ++ [.argument i]) n preds where
  argument v hv := by
    rcases List.mem_append.mp hv with hv | hv
    · exact h.argument v hv
    · exact ⟨i, List.mem_singleton.mp hv⟩
  first := h.first
  write y c v hv := by
    by_cases hyc : y = x ∧ c = b
    · have hvi : v = .argument i := (Option.some.inj ((if_pos hyc).symm.trans hv)).symm
      exact Or.inl (by simp [hvi])
    · exact (h.write y c v ((if_neg hyc).symm.trans hv)).imp_left (List.mem_append_left _)
  fixed c before e after heq v hv :=
    (h.fixed c before e after heq v hv).imp_left (List.mem_append_left _)
  not_free := h.not_free
  last := h.last
  target := h.target

/-- **A parameter is written**, with an argument of its own. -/
theorem Stage.param (S : Stage F) {d : VarDecl} {s' : Builder} (hat : S.At 0)
    (hpreds : S.view.preds 0 = [])
    (hrun : lowerParam F.context 0 d S.state = .ok () s') :
    ∃ (S' : Stage F) (x : Nat), F.context.symbol? d.node = some x ∧ S'.state = s' ∧
      S'.view = S.view.learn 0
        (Function.update (S.view.known 0) x (some (.argument S.state.nextId))) ∧
      S'.body.arguments = S.body.arguments ++ [.argument S.state.nextId] ∧
      s'.nextId = S.state.nextId + 1 ∧ s'.compiled = S.state.compiled ∧
      s'.opened.map OpenFunction.name = S.state.opened.map OpenFunction.name ∧
      ∀ s before, Records s before S →
        Records s ((.write x 0 (.argument S.state.nextId), none) :: before) S' := by
  simp only [lowerParam, bind_eq_ok, symbolOf_eq_ok, freshId_eq_ok, changeBody_eq_ok,
    writeVariable_eq_ok] at hrun
  obtain ⟨x, _, ⟨hx, rfl⟩, _, _, ⟨rfl, rfl⟩, _, _, ⟨⟨name, B⟩, B', hfn, hB, rfl⟩, rfl⟩ := hrun
  cases hB
  have hfn : S.state.opened = some ⟨name, B⟩ := hfn
  obtain rfl : B = S.body := S.inside.sound.body? (body?_of_opened hfn)
  have hv : S.ledger.Base (S.state.nextId + 1) (.argument S.state.nextId) := by
    intro i hi
    cases hi
  have hnext : S.state.nextId ≤ S.state.nextId + 1 := Nat.le_succ _
  have hgraph : Sound S.ledger idle
      { S.state with
        nextId := S.state.nextId + 1
        opened := some ⟨name, S.body.addArgument (.argument S.state.nextId)⟩ }
      (S.body.addArgument (.argument S.state.nextId)) :=
    S.inside.sound.of_same_graph hnext ⟨_, rfl, rfl⟩ rfl rfl rfl rfl rfl
  have hneat : Neat (suspects F.context.options) S.ledger idle
      { S.state with
        nextId := S.state.nextId + 1
        opened := some ⟨name, S.body.addArgument (.argument S.state.nextId)⟩ }
      (S.body.addArgument (.argument S.state.nextId)) :=
    S.inside.neat.reshape hnext rfl rfl rfl rfl rfl rfl (fun _ _ _ hq => hq) fun _ _ => rfl
  have hinside : Inside F (S.ledger.wrote x 0 (.argument S.state.nextId)) _
      (S.body.addArgument (.argument S.state.nextId)) :=
    { S.inside with
      sound := hgraph.write hat.leaves (hgraph.inert_of_base hv)
      neat := hneat.write hat.leaves (fun _ hd => Value.noConfusion hd)
        (fun _ hd => Value.noConfusion hd) (Or.inr ⟨S.inside.entry_sealed, hpreds⟩) (Or.inl rfl)
      write_lt := fun y c w hw => by
        by_cases hyc : y = x ∧ c = 0
        · rw [hyc.2]
          exact Nat.lt_of_succ_le hat.last.le
        · exact S.inside.write_lt y c w ((if_neg hyc).symm.trans hw)
      base := fun y => (S.inside.base y).mono hnext fun _ _ => rfl
      first := S.inside.first.trans hnext
      tidy := S.inside.tidy.bind }
  refine ⟨⟨_, _, _, hinside⟩, x, hx, rfl, ?_, rfl, rfl, rfl, ?_, fun s before h => ?_⟩
  · exact View.ext rfl rfl rfl rfl rfl rfl Ledger.known_wrote
  · rw [hfn]
    rfl
  · exact h.wrote ⟨hnext, fun _ _ => rfl, (Ledger.carries_wrote hat.leaves).atEntry⟩ rfl rfl
      (Or.inl rfl)

theorem accesses_lowerParam {c : Context} {d : VarDecl} {entry x : Nat} {s s' : Builder}
    (hx : c.symbol? d.node = some x) (hrun : lowerParam c entry d s = .ok () s') :
    (Traced.lowerParam c entry d).accesses s = [(.write x entry (.argument s.nextId), none)] := by
  simp only [lowerParam, bind_eq_ok, symbolOf_eq_ok] at hrun
  obtain ⟨y, _, ⟨hy, rfl⟩, i, s₁, hfresh, _, s₂, hadd, hwrite⟩ := hrun
  obtain rfl : y = x := Option.some.inj (hy.symm.trans hx)
  rw [Traced.lowerParam,
    Traced.accesses_symbolOf_bind (symbolOf_eq_ok.mpr ⟨hx, rfl⟩),
    Traced.accesses_call_bind hfresh, Traced.accesses_call_bind hadd, Traced.accesses_noted hwrite,
    (freshId_eq_ok.mp hfresh).1]
  rfl

/-- Parameters are written, one argument for each. -/
structure Binds (params : List VarDecl) (S S' : Stage F) : Prop where
  view : S'.view = S.view.learn 0 (S'.view.known 0)
  arguments : S'.body.arguments =
    S.body.arguments ++ (List.range' S.state.nextId params.length).map Value.argument
  compiled : S'.state.compiled = S.state.compiled
  name : S'.state.opened.map OpenFunction.name = S.state.opened.map OpenFunction.name
  records : ∀ s before, Records s before S →
    Records s ((params.forM (Traced.lowerParam F.context 0)).accesses S.state ++ before) S'
  binds : ∀ {V W : Type} (I : Interpretation V W) (args σ results : Nat → V) (values : List V),
    (∀ k < params.length, args (S.state.nextId + k) = values.getD k I.undefined) →
    bindParams I F.context params values (storeOf I args (S.view.known 0) σ results) =
      some (storeOf I args (S'.view.known 0) σ results)

theorem Stage.params {params : List VarDecl} {s' : Builder} : ∀ {S : Stage F}, S.At 0 →
    S.view.preds 0 = [] → params.forM (lowerParam F.context 0) S.state = .ok () s' →
    ∃ S' : Stage F, S'.state = s' ∧ Binds params S S' := by
  induction params with
  | nil =>
    intro S _ _ hrun
    obtain ⟨_, rfl⟩ := pure_eq_ok.mp hrun
    refine ⟨S, rfl, View.learn_self.symm, (List.append_nil _).symm, rfl, rfl, fun _ _ h => h, ?_⟩
    intro V W I args σ results values _
    rfl
  | cons d params ih =>
    intro S hat hpreds hrun
    rw [forM_cons, bind_eq_ok] at hrun
    obtain ⟨_, s₁, hparam, hrest⟩ := hrun
    obtain ⟨S₁, x, hx, rfl, hview, harguments, hnext, hcompiled, hname, hrecords⟩ :=
      S.param hat hpreds hparam
    have hat₁ : S₁.At 0 := by
      constructor <;> rw [hview]
      · exact hat.current
      · exact hat.last
      · exact hat.leaves
    obtain ⟨S₂, rfl, h₂⟩ := ih hat₁ (by rw [hview]; exact hpreds) hrest
    refine ⟨S₂, rfl, ?_, ?_, h₂.compiled.trans hcompiled, h₂.name.trans hname,
      fun s before h => ?_, ?_⟩
    · rw [h₂.view, hview]
      simp [View.learn]
    · rw [h₂.arguments, harguments, hnext, List.length_cons, List.range'_succ]
      simp
    · show Records s ((Traced.lowerParam F.context 0 d >>= fun _ =>
        params.forM (Traced.lowerParam F.context 0)).accesses S.state ++ before) S₂
      rw [Traced.accesses_bind (Traced.result_eq_ok (Traced.result_lowerParam _ _ _) hparam),
        accesses_lowerParam hx hparam, List.append_assoc]
      exact h₂.records s _ (hrecords s before h)
    · intro V W I args σ results values hargs
      have hfirst : args S.state.nextId = values.headD I.undefined := by
        have := hargs 0 (Nat.succ_pos _)
        cases values <;> simpa using this
      -- the others get the rest of the values
      have hrest : ∀ k < params.length,
          args (S₁.state.nextId + k) = values.tail.getD k I.undefined := by
        intro k hk
        have := hargs (k + 1) (Nat.succ_lt_succ hk)
        rw [hnext, Nat.add_right_comm, Nat.add_assoc, this]
        cases values <;> simp
      have hknown : S₁.view.known 0 =
          Function.update (S.view.known 0) x (some (.argument S.state.nextId)) := by
        rw [hview]
        simp
      have hstore : storeOf I args (S₁.view.known 0) σ results = Function.update
          (storeOf I args (S.view.known 0) σ results) x (values.headD I.undefined) := by
        rw [hknown, storeOf_update, ← hfirst]
        rfl
      rw [bindParams, hx, Option.bind_eq_bind, Option.bind_some, ← hstore]
      exact h₂.binds I args σ results values.tail hrest

/-! ## The whole function -/

/-- A function has begun in the state `s`, and its parameters are written. -/
structure Opening (d : FunctionDecl) (s : Builder) (S : Stage F) : Prop where
  current : S.At 0
  preds : S.view.preds 0 = []
  emitted : S.view.emitted 0 = []
  compiled : S.state.compiled = s.compiled
  name : S.state.opened.map OpenFunction.name = some d.name
  records : ∃ log, Records s log S ∧ (Traced.buildFunction F.context d).accesses s =
    (Traced.lowerBody F.context d.body).accesses S.state ++ log
  binds : ∀ {V W : Type} (I : Interpretation V W) (B : Body) (σ results : Nat → V)
    (values : List V), B.arguments = S.body.arguments → bindParams I F.context d.params values σ =
      some (storeOf I (B.argumentValue I values) (S.view.known 0) σ results)

/-- The function that began in the state `s` is lowered but for its end. -/
def Complete (d : FunctionDecl) (s : Builder) (S : Stage F) : Prop :=
  ∃ (S₁ : Stage F) (b : Nat), Opening d s S₁ ∧
    Lowered (fun I n => execBody I F.context n d.body S₁.slot) (Stmt.textsOf d.body)
      ((Traced.lowerBody F.context d.body).accesses S₁.state) 0 b S₁ S

theorem buildFunction_complete {d : FunctionDecl} {s s' : Builder} (hF : F.Fits s)
    (hallowed : F.Allows (assignedByBody F.context d.body))
    (hrun : buildFunction F.context d s = .ok () s') :
    ∃ S : Stage F, S.state = s' ∧ Complete d s S := by
  simp only [buildFunction, bind_eq_ok] at hrun
  obtain ⟨entry, s₁, hbegin, _, s₂, hparams, hbody⟩ := hrun
  obtain ⟨rfl, S₁, rfl, hat₁, hpreds, hemitted, hknown, harguments, hnext, hcompiled, hname,
    hrecords⟩ := Stage.begin hF hbegin
  obtain ⟨S₂, rfl, h₂⟩ := Stage.params hat₁ hpreds hparams
  have hat₂ : S₂.At 0 := by
    constructor <;> rw [h₂.view]
    · exact hat₁.current
    · exact hat₁.last
    · exact hat₁.leaves
  obtain ⟨S₃, b, rfl, h₃⟩ := lowerBody_lowered d.body hallowed hat₂ hbody
  refine ⟨S₃, rfl, S₂, b, ?_, h₃⟩
  constructor
  case current => exact hat₂
  case preds =>
    rw [h₂.view]
    exact hpreds
  case emitted =>
    rw [h₂.view]
    exact hemitted
  case compiled => rw [h₂.compiled, hcompiled]
  case name => rw [h₂.name, hname]
  case records =>
    have hresult : (forM d.params (Traced.lowerParam F.context 0)).result S₁.state =
        .ok () S₂.state := by
      rw [Traced.result_forM]
      simp only [Traced.result_lowerParam]
      exact hparams
    refine ⟨_, h₂.records s [] hrecords, ?_⟩
    rw [Traced.buildFunction, Traced.accesses_call_bind hbegin,
      List.append_nil]
    exact Traced.accesses_bind hresult
  case binds =>
    intro V W I B σ results values hB
    have hstore : storeOf I (B.argumentValue I values) (S₁.view.known 0) σ results = σ := by
      rw [hknown]
      rfl
    have hbinds := h₂.binds I (B.argumentValue I values) σ results values fun k hk => ?_
    · rwa [hstore] at hbinds
    -- the arguments are numbered one after the other
    have hlist : B.arguments =
        (List.range' S₁.state.nextId d.params.length).map Value.argument := by
      rw [hB, h₂.arguments, harguments, List.nil_append]
    have hnodup : B.arguments.Nodup := by
      rw [hlist]
      exact (List.nodup_range' ..).map fun a b h => Value.argument.inj h
    have hlt : k < B.arguments.length := by simpa [hlist] using hk
    have hget : B.arguments[k] = .argument (S₁.state.nextId + k) := by simp [hlist]
    rw [Body.argumentValue, ← hget, hnodup.idxOf_getElem]

namespace Complete

variable {d : FunctionDecl} {s : Builder} {S : Stage F} {b : Nat} (h : Complete d s S)

include h

theorem isSealed (hb : b < S.view.size) : S.view.isSealed b = true := by
  obtain ⟨S₁, last, _, hlow⟩ := h
  rcases Nat.eq_zero_or_pos b with rfl | hpos
  · exact S.inside.entry_sealed
  · have := hlow.current.last
    exact hlow.isSealed b hpos (by omega)

/-- No PHI waits for its operands. -/
theorem finished : Finished S.ledger S.state S.body where
  sound := S.inside.sound
  waits x b p hw := by
    obtain ⟨j, hj, -⟩ := S.inside.sound.phi_mem p x b (S.inside.sound.waits_phi x b p hw)
    have hopen : S.view.isSealed b = false := S.inside.sound.waits_open x b p hw
    rw [h.isSealed (Body.lt_size_of_mem_code hj)] at hopen
    cases hopen
  root := S.inside.entry

/-- What was read and written in the function is what its lowering accesses. -/
theorem records : Records s ((Traced.buildFunction F.context d).accesses s) S := by
  obtain ⟨S₁, last, hopening, hlow⟩ := h
  obtain ⟨log, hlog, haccesses⟩ := hopening.records
  rw [haccesses]
  exact hlow.onward.records s log hlog

/-- All blocks but the last are left, along the edges that their instructions name. -/
theorem done (hb : b + 1 < S.view.size) : S.view.Done b := by
  obtain ⟨S₁, last, _, hlow⟩ := h
  have := hlow.current.last
  exact hlow.done b (Nat.zero_le b) (by omega)

theorem wired (hb : b < S.view.size) : S.view.Wired b := by
  by_cases hlast : b + 1 < S.view.size
  · exact (h.done hlast).2
  · obtain ⟨S₁, last, _, hlow⟩ := h
    have := hlow.current.last
    obtain rfl : b = last := by omega
    exact S.wired_of_leaves hlow.current.leaves

/-- Only the last instruction of a block has targets, so the edges are its targets. -/
theorem succs_eq (hb : b < S.view.size) : S.view.succs b =
    ((S.view.emitted b).getLast?.map Emitted.targets).getD [] := by
  rw [h.wired hb]
  rcases List.eq_nil_or_concat' (S.view.emitted b) with hnil | ⟨seg, e, heq⟩
  · rw [hnil]
    rfl
  · rw [heq, List.flatMap_append, List.getLast?_concat]
    have hseg : seg.flatMap Emitted.targets = [] := by
      rw [List.flatMap_eq_nil_iff]
      intro e' he'
      obtain ⟨before, after, rfl⟩ := List.append_of_mem he'
      have hmem : e' ∈ S.ledger.emitted b := by
        show e' ∈ S.view.emitted b
        simp [heq]
      have hformed := S.inside.formed b e' hmem
      unfold Emitted.Formed at hformed
      split at hformed
      · next hop =>
        have hlast := S.inside.tidy.last b before e' (after ++ [e])
          (by show S.view.emitted b = _; simp [heq]) (by rw [hop]; rfl)
        simp at hlast
      · exact hformed.1
      · exact hformed
    rw [hseg]
    simp

/-- No two edges lead from one block to another. -/
theorem nodup_preds (b : Nat) : (S.body.preds b).Nodup := by
  rw [List.nodup_iff_count_le_one]
  intro a
  by_cases ha : a ∈ S.body.preds b
  · rw [← S.inside.mirrored a b]
    refine List.nodup_iff_count_le_one.mp ?_ b
    show (S.view.succs a).Nodup
    rw [h.succs_eq (S.lt_of_mem_preds ha)]
    cases hlast : (S.view.emitted a).getLast? with
    | none => exact List.nodup_nil
    | some e =>
      have hformed := S.inside.formed a e (List.mem_of_getLast? hlast)
      show e.targets.Nodup
      unfold Emitted.Formed at hformed
      split at hformed
      · exact hformed.1
      · rw [hformed.1]
        exact List.nodup_nil
      · rw [hformed]
        exact List.nodup_nil
  · rw [List.count_eq_zero.mpr ha]
    exact Nat.zero_le 1

theorem name : S.state.opened = some ⟨d.name, S.body⟩ := by
  obtain ⟨S₁, last, hopening, hlow⟩ := h
  obtain ⟨⟨name, B⟩, hfn, hB⟩ := S.inside.sound.opened
  have hname := hlow.onward.name
  rw [hopening.name, hfn] at hname
  cases hname
  cases hB
  exact hfn

/-- What is compiled besides the function stays, but for the texts. -/
theorem compiled : S.state.compiled.functions = s.compiled.functions ∧
    S.state.compiled.globals = s.compiled.globals ∧
    S.slot = s.compiled.arrays.length + Stmt.textsOf d.body := by
  obtain ⟨S₁, last, hopening, hlow⟩ := h
  refine ⟨?_, ?_, ?_⟩
  · rw [hlow.onward.functions, hopening.compiled]
  · rw [hlow.onward.globals, hopening.compiled]
  · rw [hlow.onward.slot, Stage.slot, hopening.compiled]

/-! ### Running the function -/

section Run

variable {V W : Type} (I : Interpretation V W) {σ : Nat → V} {values : List V} {w : W}

/-- What the statements do with the arguments is what the ledger does. -/
theorem follows (σ : Nat → V) (values : List V) (w : W) (n : Nat) : ∃ μ X,
    bindParams I F.context d.params values σ = some μ ∧
    Follows I (S.body.argumentValue I values) S.ledger X n (S.ledger.entering I 0 σ w)
      (execBody I F.context n d.body s.compiled.arrays.length ⟨μ, w⟩) ∧
    ∀ P, X = some P → S.ledger.emitted P.block = P.done := by
  obtain ⟨S₁, last, hopening, hlow⟩ := h
  have hslot : S₁.slot = s.compiled.arrays.length := by rw [Stage.slot, hopening.compiled]
  have hbinds := hopening.binds I S.body σ I.global values hlow.onward.arguments
  have hopen : S₁.view.closed 0 = false := by
    rw [View.closed, hopening.emitted]
    rfl
  have hcontinues : S.ledger.Continues S.view 0 last :=
    ⟨fun _ _ _ => rfl, fun _ _ _ => rfl, List.prefix_rfl⟩
  have hachieves := hlow.achieves hopen S.ledger hcontinues I (S.body.argumentValue I values) n
    ⟨_, w⟩ (S.ledger.entering I 0 σ w) ⟨rfl, ?_, rfl, rfl⟩
  · rw [hslot] at hachieves
    refine ⟨_, _, hbinds, hachieves, fun P hP => ?_⟩
    unfold View.next? at hP
    split at hP
    · cases hP
    · cases hP
      rfl
  · rw [View.spot, hopening.emitted]
    rfl

/-- **A function does what its declaration says**: it has a result whenever the statements
have one, and the same. -/
theorem execute_iff (hbefore : ∀ x v, F.before x v →
      (∀ args, denote I args I.global v = σ x) ∧ ∀ i, v = .result i → i < F.first)
    {r : Option V × W} : (∃ n, S.body.execute I values w n = some r) ↔
      ∃ n, interpret I F.context d s.compiled.arrays.length σ values w n = some r := by
  have horderly : S.ledger.Orderly S.body.arguments F.first S.body.preds :=
    { S.inside.tidy with
      start := fun x b i hi => (hbefore x _ (S.inside.start x b _ hi)).2 i rfl }
  have hrun : ∀ n, S.body.execute I values w n =
      S.ledger.run I (S.body.argumentValue I values) n 0 σ w := fun n =>
    h.finished.run_eq horderly (fun x v hv => (hbefore x v (S.inside.start x 0 v hv)).1 _) n
  constructor
  · rintro ⟨n, hn⟩
    rw [hrun] at hn
    cases n with
    | zero => cases hn
    | succ n =>
      rw [Ledger.run_succ] at hn
      obtain ⟨μ, X, hμ, hfollows, hX⟩ := h.follows I σ values w n
      refine ⟨n, ?_⟩
      simp only [interpret, hμ, Option.bind_eq_bind, Option.bind_some]
      cases hexec : execBody I F.context n d.body s.compiled.arrays.length ⟨μ, w⟩ with
      | none =>
        rw [hexec] at hfollows
        rw [hfollows.resume_eq_none] at hn
        cases hn
      | some o =>
        rw [hexec] at hfollows
        obtain ⟨m, hm⟩ := hfollows.exists_resume hX
        rw [← Ledger.resume_unique hm hn]
        rfl
  · rintro ⟨n, hn⟩
    obtain ⟨μ, X, hμ, hfollows, hX⟩ := h.follows I σ values w n
    simp only [interpret, hμ, Option.bind_eq_bind, Option.bind_some, Option.bind_eq_some_iff] at hn
    obtain ⟨o, hexec, ⟨⟩⟩ := hn
    rw [hexec] at hfollows
    obtain ⟨m, hm⟩ := hfollows.exists_resume hX
    exact ⟨m + 1, by rw [hrun, Ledger.run_succ, hm]⟩

end Run

end Complete

end Compiler16.Ssa
