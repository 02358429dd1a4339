import Compiler16.Proofs.NeatEdits
import Compiler16.Proofs.Simulating
import Compiler16.Proofs.Versioning

/-!
# Stages of a function

A function is lowered step by step, and what holds between the steps is part of what a
*stage* is: a ledger, a state and a body that agree, blocks that are sealed or roots,
instructions that use what comes from their own block, loops that lie one in another.
Every step leads from a stage to another.

What a step does is said of the *view* of a stage, which is all that the lowering of
statements depends on: the blocks and edges, which blocks are sealed, and what was emitted
and written in them.  The values of variables that are found on the way do not show there.

## Main definitions

* `Setting`, `Inside`, `Stage`: what holds between the steps
* `View`, `Onward`: what a stage looks like, and what goes on from one to the next
* `Records`: which variables were read and written since the function began
* `Stage.At`: the block into which instructions go, the last one, which no edge leaves yet

## Main results

* `Stage.read`, `Stage.emitAt`, `Stage.write`, `Stage.branchAt`, `Stage.create`, `Stage.link`,
  `Stage.sealAt`, `Stage.sealNew`: the steps
-/

namespace Compiler16.Ssa

open Compiler16.Flow Compiler16.Ssa.Builder

/-- What does not change while a function is lowered. -/
structure Setting where
  context : Context
  /-- Which values a variable may have before the function. -/
  before : Nat → Value → Prop
  /-- The instructions of the function have numbers from this one on. -/
  first : Nat
  /-- The PHIs that were removed from functions before. -/
  removed : List Nat

/-- A branch has two targets and a condition, or one target and none; nothing else has
targets, and a copy has one operand. -/
def Emitted.Formed (e : Emitted) : Prop :=
  match e.op with
  | .br => e.targets.Nodup ∧
    (e.targets.length = 2 ∧ e.roles.length = 1 ∨ e.targets.length = 1 ∧ e.roles.length = 0)
  | .mov => e.targets = [] ∧ e.roles.length = 1
  | _ => e.targets = []

/-- What holds while a function is lowered. -/
structure Inside (F : Setting) (L : Ledger) (s : Builder) (B : Body) : Prop where
  sound : Sound L idle s B
  neat : Neat (suspects F.context.options) L idle s B
  phi_first : ∀ p k, L.phi p = some k → F.first ≤ p
  removed_before : ∀ d ∈ F.removed, d ∈ s.removed
  removed : ∀ d ∈ s.removed, d ∈ F.removed ∨ F.first ≤ d
  entry : L.root 0
  entry_sealed : s.isSealed 0 = true
  sealed_lt : ∀ b, s.isSealed b = true → b < B.graph.size
  open_root : ∀ b, s.isSealed b = false → L.root b
  write_lt : ∀ x b v, L.write x b = some v → b < B.graph.size
  base : ∀ x, L.Base s.nextId (s.globalValue x)
  globals : ∀ x, F.before x (s.globalValue x)
  start : ∀ x b v, L.start x b = some v → F.before x v
  first : F.first ≤ s.nextId
  tidy : L.Tidy B.arguments F.first B.preds
  formed : ∀ b, ∀ e ∈ L.emitted b, e.Formed
  grounded : ∀ b < B.graph.size, L.root b ∨ ∃ q ∈ B.preds b, q < b
  mirrored : ∀ a b, (B.graph.successors a).count b = (B.preds b).count a
  nested : Nested B.graph.size B.preds

/-- A stage of the lowering of a function. -/
structure Stage (F : Setting) where
  ledger : Ledger
  state : Builder
  body : Body
  inside : Inside F ledger state body

/-- What the lowering of statements depends on. -/
@[ext]
structure View where
  size : Nat
  current : Option Nat
  preds : Nat → List Nat
  succs : Nat → List Nat
  isSealed : Nat → Bool
  /-- What was emitted into a block. -/
  emitted : Nat → List Emitted
  /-- What was written in a block. -/
  known : Nat → Nat → Option Value

namespace View

variable (V : View)

/-- Control leaves the block at the last instruction that was emitted there. -/
def closed (b : Nat) : Bool := (V.emitted b).getLast?.any (·.op.isTerminator)

/-- One more block. -/
@[simps -fullyApplied]
def create : View := { V with size := V.size + 1 }

/-- The block is the current one. -/
@[simps -fullyApplied]
def goto (b : Nat) : View := { V with current := some b }

/-- One more edge. -/
@[simps -fullyApplied]
def link (source target : Nat) : View :=
  { V with
    preds := Function.update V.preds target (V.preds target ++ [source])
    succs := Function.update V.succs source (V.succs source ++ [target]) }

/-- The block is sealed. -/
@[simps -fullyApplied]
def markSealed (b : Nat) : View := { V with isSealed := Function.update V.isSealed b true }

/-- More instructions in a block. -/
@[simps -fullyApplied]
def emit (b : Nat) (seg : List Emitted) : View :=
  { V with emitted := Function.update V.emitted b (V.emitted b ++ seg) }

/-- Something else was written in a block. -/
@[simps -fullyApplied]
def learn (b : Nat) (known : Nat → Option Value) : View :=
  { V with known := Function.update V.known b known }

end View

variable {F : Setting}

namespace Stage

/-- What a stage looks like. -/
def view (S : Stage F) : View where
  size := S.body.graph.size
  current := S.state.current
  preds := S.body.preds
  succs := S.body.graph.successors
  isSealed := S.state.isSealed
  emitted := S.ledger.emitted
  known b x := S.ledger.write x b

/-- The next free array. -/
abbrev slot (S : Stage F) : Nat := S.state.compiled.arrays.length

/-- Instructions go into the last block, and no edge leaves it. -/
structure At (S : Stage F) (b : Nat) : Prop where
  current : S.view.current = some b
  last : b + 1 = S.view.size
  leaves : ∀ d, b ∉ S.view.preds d

end Stage

/-! ## Reads and writes -/

/-- No PHI stands in the entry, so a value that a variable has there was found before the
function. -/
theorem Inside.start_of_atEntry {L : Ledger} {s : Builder} {B : Body} {x : Nat} {a : Value}
    (h : Inside F L s B) (ha : L.AtEntry x a B.preds 0) : L.start x 0 = some a := by
  rcases ha [] (.start h.entry) with ⟨p, rfl, hp⟩ | ⟨_, hs⟩ | hr
  · obtain ⟨j, hj, rfl⟩ := h.sound.phi_mem p x 0 hp
    cases h.sound.standing 0 j hj x hp with
    | waiting _ _ hwaits _ _ =>
      have hopen := h.sound.waits_open x 0 j.id hwaits
      rw [h.entry_sealed] at hopen
      cases hopen
    | filling _ _ _ _ hroot _ _ => exact absurd h.entry hroot
    | complete _ _ _ hroot _ _ => exact absurd h.entry hroot
    | copied _ _ _ hroot _ _ _ => exact absurd h.entry hroot
  · exact hs
  · exact hr.elim

/-- The value was assigned to a variable of the outermost scope, or the variable had it in the
state `s` already. -/
def Log.Offers (c : Context) (s : Builder) (log : Log) (x : Nat) (v : Value) : Prop :=
  v = s.globalValue x ∨ c.symbols.isGlobal x = true ∧ ∃ b, (.write x b v, none) ∈ log

theorem Log.Offers.mono {c : Context} {s : Builder} {log log' : Log} {x : Nat} {v : Value}
    (h : log.Offers c s x v) (hsub : ∀ e ∈ log, e ∈ log') : log'.Offers c s x v := by
  refine h.imp_right ?_
  rintro ⟨hglobal, b, hb⟩
  exact ⟨hglobal, b, hsub _ hb⟩

/-- What was read and written since the function began in the state `s`.  The values that were
read stand for the variables.  What the entry takes for the value of a variable before the
function may come from an assignment in it. -/
structure Records (s : Builder) (log : Log) (S : Stage F) : Prop where
  write : ∀ x b, S.ledger.write x b = log.written x b
  base : ∀ x b v r, (Call.write x b v, r) ∈ log → S.ledger.Base S.state.nextId v
  reads : ∀ (post pre : Log) x b a, log = post ++ (.read x b, some a) :: pre →
    Holds S.ledger S.body.preds x b a (pre.written x b)
  globals : ∀ x, log.Offers F.context s x (S.state.globalValue x)
  start : ∀ x v, S.ledger.start x 0 = some v → log.Offers F.context s x v
  entry : ∀ (post pre : Log) x a, log = post ++ (.read x 0, some a) :: pre →
    pre.written x 0 = none → pre.Offers F.context s x a

namespace Records

variable {s : Builder} {log : Log} {S S' : Stage F}

theorem base_written (h : Records s log S) {post pre : Log} (hlog : log = post ++ pre) {x b : Nat}
    {v : Value} (hv : pre.written x b = some v) : S.ledger.Base S.state.nextId v := by
  obtain ⟨r, hr⟩ := Log.mem_of_written hv
  exact h.base x b v r (hlog ▸ List.mem_append_right _ hr)

/-- What was written last was never a PHI. -/
theorem base_lastWritten (h : Records s log S) {x : Nat} {w : Value}
    (hw : S.ledger.Base S.state.nextId w) (β : List Nat) :
    S.ledger.Base S.state.nextId (log.lastWritten x w β) := by
  induction β with
  | nil => exact hw
  | cons b β ih =>
    rw [Log.lastWritten]
    cases hv : log.written x b with
    | none => exact ih
    | some v => exact h.base_written (List.nil_append log).symm hv

/-- Nothing is read or written.  Values of variables before the function may be found. -/
theorem quiet (h : Records s log S)
    (ha : Advances S.ledger S.state S.body S'.ledger S'.state S'.body)
    (hwrite : S'.ledger.write = S.ledger.write)
    (hglobals : S'.state.globalDefs = S.state.globalDefs)
    (hstart : ∀ x v, S'.ledger.start x 0 = some v →
      S.ledger.start x 0 = some v ∨ v = S.state.globalValue x) : Records s log S' where
  write := by rw [hwrite]; exact h.write
  base x b v r hmem := ha.base (h.base x b v r hmem)
  reads post pre x b a hlog := (h.reads post pre x b a hlog).advances ha
  globals x := by
    rw [globalValue, hglobals]
    exact h.globals x
  start x v hv := by
    rcases hstart x v hv with hv | rfl
    · exact h.start x v hv
    · exact h.globals x
  entry := h.entry

/-- A variable was read, and nothing else has changed. -/
theorem read {x b : Nat} {a : Value} (h : Records s log S)
    (ha : Holds S.ledger S.body.preds x b a (log.written x b)) :
    Records s ((.read x b, some a) :: log) S where
  write := h.write
  base y c v r hmem := by
    rcases List.mem_cons.mp hmem with heq | hmem
    · cases heq
    · exact h.base y c v r hmem
  reads post pre y d v hlog := by
    cases post with
    | nil =>
      cases hlog
      exact ha
    | cons e post => exact h.reads post pre y d v (List.cons.inj hlog).2
  globals y := (h.globals y).mono fun _ he => List.mem_cons_of_mem _ he
  start y v hv := (h.start y v hv).mono fun _ he => List.mem_cons_of_mem _ he
  entry post pre y v hlog hw := by
    cases post with
    | nil =>
      cases hlog
      rw [hw] at ha
      exact h.start x a (S.inside.start_of_atEntry ha)
    | cons e post => exact h.entry post pre y v (List.cons.inj hlog).2 hw

/-- A variable is written in a block. -/
theorem wrote {x b : Nat} {v : Value} (h : Records s log S)
    (ha : Advances S.ledger S.state S.body S'.ledger S'.state S'.body)
    (hwrite : S'.ledger.write = (S.ledger.wrote x b v).write)
    (hstart : S'.ledger.start = S.ledger.start)
    (hglobals : S'.state.globalDefs = S.state.globalDefs ∨
      F.context.symbols.isGlobal x = true ∧
        S'.state.globalDefs = S.state.globalDefs.insert x v) :
    Records s ((.write x b v, none) :: log) S' where
  write y c := by
    rw [hwrite]
    show (if y = x ∧ c = b then some v else S.ledger.write y c) =
      if y = x ∧ c = b then some v else log.written y c
    rw [h.write]
  base y c w r hmem := by
    rcases List.mem_cons.mp hmem with heq | hmem
    · cases heq
      refine S'.inside.neat.write_base S'.inside.sound (x := x) (b := b) ?_
      rw [hwrite]
      exact if_pos ⟨rfl, rfl⟩
    · exact ha.base (h.base y c w r hmem)
  reads post pre y c a hlog := by
    cases post with
    | nil => cases hlog
    | cons e post => exact (h.reads post pre y c a (List.cons.inj hlog).2).advances ha
  globals y := by
    have hold : Log.Offers F.context s ((.write x b v, none) :: log) y (S.state.globalValue y) :=
      (h.globals y).mono fun _ he => List.mem_cons_of_mem _ he
    rw [globalValue]
    rcases hglobals with hsame | ⟨hx, hinsert⟩
    · rw [hsame]
      exact hold
    · rw [hinsert, OrderedMap.get?_insert]
      by_cases hy : x = y
      · subst hy
        rw [if_pos rfl]
        exact Or.inr ⟨hx, b, List.mem_cons_self ..⟩
      · rw [if_neg hy]
        exact hold
  start y w hw := (h.start y w (hstart ▸ hw)).mono fun _ he => List.mem_cons_of_mem _ he
  entry post pre y a hlog hw := by
    cases post with
    | nil => cases hlog
    | cons e post => exact h.entry post pre y a (List.cons.inj hlog).2 hw

end Records

/-- From one stage to a later one, with `t` more texts.  The log has what was read and written
on the way. -/
structure Onward (t : Nat) (log : Log) (S S' : Stage F) : Prop where
  advances : Advances S.ledger S.state S.body S'.ledger S'.state S'.body
  arguments : S'.body.arguments = S.body.arguments
  slot : S'.slot = S.slot + t
  functions : S'.state.compiled.functions = S.state.compiled.functions
  globals : S'.state.compiled.globals = S.state.compiled.globals
  name : S'.state.opened.map OpenFunction.name = S.state.opened.map OpenFunction.name
  records : ∀ s before, Records s before S → Records s (log ++ before) S'

namespace Onward

variable {t t' : Nat} {log log' : Log} {S S' S'' : Stage F}

theorem refl : Onward 0 [] S S := ⟨.refl, rfl, rfl, rfl, rfl, rfl, fun _ _ h => h⟩

theorem trans (h : Onward t log S S') (h' : Onward t' log' S' S'') :
    Onward (t + t') (log' ++ log) S S'' where
  advances := h.advances.trans h'.advances
  arguments := h'.arguments.trans h.arguments
  slot := by rw [h'.slot, h.slot, Nat.add_assoc]
  functions := h'.functions.trans h.functions
  globals := h'.globals.trans h.globals
  name := h'.name.trans h.name
  records s before hs := by
    rw [List.append_assoc]
    exact h'.records s _ (h.records s before hs)

/-- Nothing is read or written. -/
theorem quiet (ha : Advances S.ledger S.state S.body S'.ledger S'.state S'.body)
    (harguments : S'.body.arguments = S.body.arguments) (hslot : S'.slot = S.slot + t)
    (hfunctions : S'.state.compiled.functions = S.state.compiled.functions)
    (hglobals : S'.state.compiled.globals = S.state.compiled.globals)
    (hname : S'.state.opened.map OpenFunction.name = S.state.opened.map OpenFunction.name)
    (hwrite : S'.ledger.write = S.ledger.write)
    (hdefs : S'.state.globalDefs = S.state.globalDefs)
    (hstart : S'.ledger.start = S.ledger.start) : Onward t [] S S' :=
  ⟨ha, harguments, hslot, hfunctions, hglobals, hname, fun _ _ h =>
    h.quiet ha hwrite hdefs fun _ _ hv => Or.inl (hstart ▸ hv)⟩

end Onward

/-! ## Closed blocks -/

theorem forall₂_getLast? {α β : Type} {R : α → β → Prop} {l : List α} {m : List β}
    (h : List.Forall₂ R l m) : l = [] ∧ m = [] ∨
      ∃ a b, l.getLast? = some a ∧ m.getLast? = some b ∧ R a b := by
  induction h with
  | nil => exact Or.inl ⟨rfl, rfl⟩
  | @cons a b l m hab _ ih =>
    rcases ih with ⟨rfl, rfl⟩ | ⟨a', b', ha, hb, hr⟩
    · exact Or.inr ⟨a, b, rfl, rfl, hab⟩
    · exact Or.inr ⟨a', b', by simp [List.getLast?_cons, ha], by simp [List.getLast?_cons, hb], hr⟩

/-- Control leaves the block at the last instruction that was emitted there. -/
def Ledger.closed (L : Ledger) (b : Nat) : Bool := (L.emitted b).getLast?.any (·.op.isTerminator)

theorem Ledger.emitted_emit {L : Ledger} {b : Nat} {e : Emitted} :
    (L.emit b e).emitted = Function.update L.emitted b (L.emitted b ++ [e]) := by
  funext c
  by_cases hc : c = b
  · subst hc
    rw [emitted_emit_self, Function.update_self]
  · rw [emitted_emit_of_ne hc, Function.update_of_ne hc]

theorem Ledger.mem_emitted_emit {L : Ledger} {b c : Nat} {e d : Emitted}
    (hd : d ∈ (L.emit b e).emitted c) : d ∈ L.emitted c ∨ c = b ∧ d = e := by
  by_cases hc : c = b
  · subst hc
    rw [emitted_emit_self, List.mem_append, List.mem_singleton] at hd
    exact hd.imp_right fun hd => ⟨rfl, hd⟩
  · exact Or.inl (emitted_emit_of_ne hc ▸ hd)

theorem Ledger.known_wrote {L : Ledger} {x b : Nat} {v : Value} :
    (fun c y => (L.wrote x b v).write y c) = Function.update (fun c y => L.write y c) b
      (Function.update (fun y => L.write y b) x (some v)) := by
  funext c y
  show (if y = x ∧ c = b then some v else L.write y c) = _
  by_cases hc : c = b
  · subst hc
    rw [Function.update_self]
    by_cases hy : y = x
    · subst hy
      rw [if_pos ⟨rfl, rfl⟩, Function.update_self]
    · rw [if_neg fun h => hy h.1, Function.update_of_ne hy]
  · rw [if_neg fun h => hc h.2, Function.update_of_ne hc]

theorem Body.any_isTerminated (B : Body) (b : Nat) :
    (B.graph.block? b).any Block.isTerminated = (B.code b).getLast?.any (·.op.isTerminator) := by
  unfold Body.code
  cases B.graph.block? b <;> rfl

theorem Builder.Sound.isTerminated_eq {L : Ledger} {s : Builder} {B : Body}
    {busy : Nat → Option Progress}
    (h : Sound L busy s B) (b : Nat) : s.isTerminated b = L.closed b := by
  obtain ⟨head, tail, hcode, hhead, htail⟩ := h.layout b
  have hterm : s.isTerminated b = (B.graph.block? b).any Block.isTerminated := by
    rw [isTerminated, h.body?_eq]
  rw [hterm, Body.any_isTerminated, Ledger.closed]
  rcases forall₂_getLast? htail with ⟨hemitted, rfl⟩ | ⟨e, j, he, hj, hk⟩
  · -- PHIs and copies do not make control leave the block
    rw [hemitted, hcode, List.append_nil]
    cases hlast : head.getLast? with
    | none => rfl
    | some j =>
      have hj := List.mem_of_getLast? hlast
      have hjb : j ∈ B.code b := hcode ▸ List.mem_append_left _ hj
      obtain ⟨⟨x, c⟩, hx⟩ := Option.isSome_iff_exists.mp (hhead j hj)
      obtain rfl := h.phi_block hjb hx
      cases h.standing c j hjb x hx with
      | waiting hop _ _ _ _ => simp [hop, Op.isTerminator]
      | filling hop _ _ _ _ _ _ => simp [hop, Op.isTerminator]
      | complete hop _ _ _ _ _ => simp [hop, Op.isTerminator]
      | copied hop _ _ _ _ _ _ => simp [hop, Op.isTerminator]
  · rw [he, hcode, List.getLast?_append, hj, Option.some_or]
    simp [hk.op]

/-! ## Tidy ledgers -/

theorem append_singleton_eq {α : Type} {l before after : List α} {a d : α}
    (h : l ++ [a] = before ++ d :: after) : after = [] ∧ d = a ∧ before = l ∨
      ∃ after', after = after' ++ [a] ∧ l = before ++ d :: after' := by
  rcases List.eq_nil_or_concat' after with rfl | ⟨after', a', rfl⟩
  · obtain ⟨rfl, hd⟩ := List.append_inj' h rfl
    exact Or.inl ⟨rfl, (List.cons.inj hd).1.symm, rfl⟩
  · rw [← List.cons_append, ← List.append_assoc] at h
    obtain ⟨rfl, ha⟩ := List.append_inj' h rfl
    exact Or.inr ⟨after', by rw [(List.cons.inj ha).1], rfl⟩

namespace Ledger.Tidy

variable {L L' : Ledger} {arguments : List Value} {n x b : Nat} {preds preds' : Nat → List Nat}
  {e : Emitted} {v : Value} (h : L.Tidy arguments n preds)

include h

theorem mono (hemitted : L'.emitted = L.emitted) (hwrite : L'.write = L.write)
    (hpreds : ∀ d, ∀ q ∈ preds d, q ∈ preds' d) : L'.Tidy arguments n preds' where
  argument := h.argument
  first := by rw [hemitted]; exact h.first
  write := by rw [hemitted, hwrite]; exact h.write
  fixed := by rw [hemitted]; exact h.fixed
  not_free := by rw [hemitted]; exact h.not_free
  last := by rw [hemitted]; exact h.last
  target c d hd u hu := hpreds u c (h.target c d (hemitted ▸ hd) u hu)

theorem wrote (he : e ∈ L.emitted b) (hv : v = .result e.id) (hop : e.op.isTerminator = false) :
    (L.wrote x b v).Tidy arguments n preds :=
  { h with
    write := by
      intro y c d hd
      by_cases hyc : y = x ∧ c = b
      · obtain ⟨rfl, rfl⟩ := hyc
        have hdv : d = v := (Option.some.inj ((if_pos ⟨rfl, rfl⟩).symm.trans hd)).symm
        exact Or.inr ⟨e, he, hdv.trans hv, hop⟩
      · exact h.write y c d ((if_neg hyc).symm.trans hd) }

/-- One more instruction in a block that control has not left, given where its operands
and targets are. -/
theorem emit (hopen : L.closed b = false) (hid : n ≤ e.id)
    (hfixed : ∀ v, .fixed v ∈ e.roles →
      v ∈ arguments ∨ (∃ i payload, v = .literal i payload) ∨ ∃ d ∈ L.emitted b, v = .result d.id)
    (hfree : .free ∉ e.roles) (hpreds : ∀ d, ∀ q ∈ preds d, q ∈ preds' d)
    (htarget : ∀ t ∈ e.targets, b ∈ preds' t) : (L.emit b e).Tidy arguments n preds' := by
  constructor
  case argument => exact h.argument
  case first =>
    intro c d hd
    rcases mem_emitted_emit hd with hd | ⟨_, rfl⟩
    · exact h.first c d hd
    · exact hid
  case write =>
    intro y c v hv
    refine (h.write y c v hv).imp_right ?_
    rintro ⟨d, hd, hrest⟩
    refine ⟨d, ?_, hrest⟩
    by_cases hc : c = b
    · subst hc
      rw [emitted_emit_self]
      exact List.mem_append_left _ hd
    · rwa [emitted_emit_of_ne hc]
  case fixed =>
    intro c before d after heq
    by_cases hc : c = b
    · subst hc
      rw [emitted_emit_self] at heq
      rcases append_singleton_eq heq with ⟨rfl, rfl, rfl⟩ | ⟨after', rfl, hl⟩
      · exact hfixed
      · exact h.fixed c before d after' hl
    · rw [emitted_emit_of_ne hc] at heq
      exact h.fixed c before d after heq
  case not_free =>
    intro c d hd
    rcases mem_emitted_emit hd with hd | ⟨_, rfl⟩
    · exact h.not_free c d hd
    · exact hfree
  case last =>
    intro c before d after heq hterm
    by_cases hc : c = b
    · subst hc
      rw [emitted_emit_self] at heq
      rcases append_singleton_eq heq with ⟨rfl, rfl, rfl⟩ | ⟨after', rfl, hl⟩
      · rfl
      · -- control would have left the block before
        obtain rfl := h.last c before d after' hl hterm
        simp [closed, hl, hterm] at hopen
    · rw [emitted_emit_of_ne hc] at heq
      exact h.last c before d after heq hterm
  case target =>
    intro c d hd t ht
    rcases mem_emitted_emit hd with hd | ⟨rfl, rfl⟩
    · exact hpreds t c (h.target c d hd t ht)
    · exact htarget t ht

end Ledger.Tidy

/-! ## What every step keeps -/

namespace Inside

variable {L : Ledger} {s : Builder} {B : Body} {x b : Nat} {e : Emitted} (h : Inside F L s B)

include h

theorem emitted_eq_nil (hb : B.graph.size ≤ b) : L.emitted b = [] := by
  obtain ⟨head, tail, hcode, _, htail⟩ := h.sound.layout b
  rw [List.eq_nil_iff_forall_not_mem]
  intro e he
  obtain ⟨j, hj, _⟩ := forall₂_exists_right htail he
  have hmem : j ∈ B.code b := hcode ▸ List.mem_append_right _ hj
  exact absurd (Body.lt_size_of_mem_code hmem) (not_lt.mpr hb)

theorem write_eq_none (hb : B.graph.size ≤ b) : L.write x b = none := by
  by_contra hne
  obtain ⟨v, hv⟩ := Option.ne_none_iff_exists'.mp hne
  exact absurd (h.write_lt x b v hv) (not_lt.mpr hb)

theorem isSealed_eq_false (hb : B.graph.size ≤ b) : s.isSealed b = false := by
  by_contra hne
  exact absurd (h.sealed_lt b (Bool.not_eq_false _ ▸ hne)) (not_lt.mpr hb)

/-- An emitted instruction was never a PHI. -/
theorem base_of_emitted (he : e ∈ L.emitted b) : L.Base s.nextId (.result e.id) := by
  obtain ⟨head, tail, hcode, _, htail⟩ := h.sound.layout b
  obtain ⟨j, hj, hk⟩ := forall₂_exists_right htail he
  rintro i ⟨rfl⟩
  rw [← hk.id]
  exact ⟨h.sound.bound b j (hcode ▸ List.mem_append_right _ hj), hk.phi⟩

/-- An emitted instruction was not removed. -/
theorem live_of_emitted (he : e ∈ L.emitted b) : s.Live (.result e.id) := by
  obtain ⟨head, tail, hcode, _, htail⟩ := h.sound.layout b
  obtain ⟨j, hj, hk⟩ := forall₂_exists_right htail he
  have hmem : j ∈ B.code b := hcode ▸ List.mem_append_right _ hj
  rintro i ⟨rfl⟩
  rw [← hk.id]
  exact ⟨h.sound.bound b j hmem, h.neat.not_removed hmem hk.phi⟩

theorem readable (x : Nat) : Readable L s x :=
  ⟨h.base x, fun b hb => Or.inl (h.open_root b hb)⟩

theorem shape : Shape L B := ⟨h.grounded, h.nested⟩

/-- New PHIs are of this function. -/
theorem first_le_of_phi {L' : Ledger} (hphi : ∀ i < s.nextId, L'.phi i = L.phi i) :
    ∀ p k, L'.phi p = some k → F.first ≤ p := by
  intro p k hp
  rcases Nat.lt_or_ge p s.nextId with hlt | hge
  · exact h.phi_first p k ((hphi p hlt).symm.trans hp)
  · exact h.first.trans hge

/-- Only PHIs of this function are removed. -/
theorem removed_of_retires {L' : Ledger} {s' : Builder} {K : Nat → Prop}
    (hphi : ∀ i < s.nextId, L'.phi i = L.phi i) (hr : Retires K s s')
    (hK : ∀ d, K d → (L'.phi d).isSome) : ∀ d ∈ s'.removed, d ∈ F.removed ∨ F.first ≤ d := by
  intro d hd
  rcases hr.only d hd with hd | hd
  · exact h.removed d hd
  · obtain ⟨k, hk⟩ := Option.isSome_iff_exists.mp (hK d hd)
    exact Or.inr (h.first_le_of_phi hphi d k hk)

/-- Reads keep all this. -/
theorem extended {L' : Ledger} {s' : Builder} {B' : Body} {n : Nat}
    (hst : NeatStep F.context.options n idle L s B L' s' B') : Inside F L' s' B' := by
  have he := hst.extended
  have hsize : B'.graph.size = B.graph.size := he.steady.frame.size
  have hglobal : ∀ x, s'.globalValue x = s.globalValue x := by
    intro x
    rw [globalValue, he.steady.globalDefs]
    rfl
  constructor
  case sound => exact hst.sound
  case neat => exact hst.neat
  case phi_first => exact h.first_le_of_phi he.phi
  case removed_before => exact fun d hd => hst.retires.removed d (h.removed_before d hd)
  case removed => exact h.removed_of_retires he.phi hst.retires fun _ hd => hd.2
  case entry => exact he.root ▸ h.entry
  case entry_sealed => rw [he.steady.isSealed]; exact h.entry_sealed
  case sealed_lt => intro c hc; rw [he.steady.isSealed] at hc; exact hsize ▸ h.sealed_lt c hc
  case open_root => intro c hc; rw [he.steady.isSealed] at hc; exact he.root ▸ h.open_root c hc
  case write_lt => rw [he.write, hsize]; exact h.write_lt
  case base => intro x; rw [hglobal]; exact (h.base x).mono he.steady.nextId he.phi
  case globals => intro x; rw [hglobal]; exact h.globals x
  case start =>
    intro x c v hv
    rcases he.found x c v hv with hv | ⟨rfl, _⟩
    · exact h.start x c v hv
    · exact h.globals x
  case first => exact h.first.trans he.steady.nextId
  case tidy =>
    rw [he.steady.frame.arguments, he.steady.preds]
    exact h.tidy.mono he.emitted he.write fun _ _ hq => hq
  case formed => rw [he.emitted]; exact h.formed
  case grounded => rw [hsize, he.root, he.steady.preds]; exact h.grounded
  case mirrored =>
    intro a c
    rw [he.steady.frame.successors, he.steady.frame.preds]
    exact h.mirrored a c
  case nested => rw [hsize, he.steady.preds]; exact h.nested

/-- Blocks, edges and instructions are added. -/
theorem build {L' : Ledger} {s' : Builder} {B' : Body} (hs : Sound L' idle s' B')
    (hn : Neat (suspects F.context.options) L' idle s' B') (hremoved : s'.removed = s.removed)
    (ha : Advances L s B L' s' B') (hroot : L'.root = L.root) (hstart : L'.start = L.start)
    (hwrite : L'.write = L.write) (hsize : B.graph.size ≤ B'.graph.size)
    (hsealed : s'.sealedBlocks = s.sealedBlocks) (hglobals : s'.globalDefs = s.globalDefs)
    (hpreds : ∀ d, ∀ q ∈ B.preds d, q ∈ B'.preds d)
    (htidy : L'.Tidy B'.arguments F.first B'.preds) (hformed : ∀ b, ∀ e ∈ L'.emitted b, e.Formed)
    (hmirrored : ∀ a b, (B'.graph.successors a).count b = (B'.preds b).count a)
    (hnested : Nested B'.graph.size B'.preds) : Inside F L' s' B' := by
  have hisSealed : ∀ c, s'.isSealed c = s.isSealed c := fun c => by rw [isSealed, hsealed]; rfl
  have hglobal : ∀ x, s'.globalValue x = s.globalValue x := fun x => by
    rw [globalValue, hglobals]
    rfl
  constructor
  case sound => exact hs
  case neat => exact hn
  case phi_first => exact h.first_le_of_phi ha.phi
  case removed_before => rw [hremoved]; exact h.removed_before
  case removed => rw [hremoved]; exact h.removed
  case entry => exact hroot ▸ h.entry
  case entry_sealed => rw [hisSealed]; exact h.entry_sealed
  case sealed_lt => intro c hc; rw [hisSealed] at hc; exact (h.sealed_lt c hc).trans_le hsize
  case open_root => intro c hc; rw [hisSealed] at hc; exact hroot ▸ h.open_root c hc
  case write_lt => rw [hwrite]; exact fun x c v hv => (h.write_lt x c v hv).trans_le hsize
  case base => intro x; rw [hglobal]; exact ha.base (h.base x)
  case globals => intro x; rw [hglobal]; exact h.globals x
  case start => rw [hstart]; exact h.start
  case first => exact h.first.trans ha.nextId
  case tidy => exact htidy
  case formed => exact hformed
  case grounded =>
    intro c _
    rw [hroot]
    by_cases hc : c < B.graph.size
    · refine (h.grounded c hc).imp_right ?_
      rintro ⟨q, hq, hlt⟩
      exact ⟨q, hpreds c q hq, hlt⟩
    · exact Or.inl (h.open_root c (h.isSealed_eq_false (not_lt.mp hc)))
  case mirrored => exact hmirrored
  case nested => exact hnested

end Inside

/-- An edge stands both in the successors of its source and in the predecessors of its
target. -/
theorem mirrored_link {preds succs : Nat → List Nat} {q t : Nat}
    (h : ∀ a b, (succs a).count b = (preds b).count a) (a b : Nat) :
    (Function.update succs q (succs q ++ [t]) a).count b =
      (Function.update preds t (preds t ++ [q]) b).count a := by
  by_cases ha : a = q <;> by_cases hb : b = t
  · subst ha hb
    simp [h]
  · subst ha
    simp [Function.update_of_ne hb, h, Ne.symm hb]
  · subst hb
    simp [Function.update_of_ne ha, h, Ne.symm ha]
  · simp [Function.update_of_ne ha, Function.update_of_ne hb, h]

namespace Stage

variable (S : Stage F) {x b : Nat} {v : Value} {s' : Builder}

theorem outside_of_at (hat : S.At b) : Outside S.view.preds b :=
  S.inside.nested.outside_last hat.last

/-! ## Steps that stay in a block -/

/-- Numbers are drawn, texts are added, and another block is made the current one. -/
def quiet (n : Nat) (hn : S.state.nextId ≤ n) (current : Option Nat) (compiled : CompiledUnit) :
    Stage F where
  ledger := S.ledger
  state := { S.state with nextId := n, current, compiled }
  body := S.body
  inside :=
    { S.inside with
      sound := S.inside.sound.of_same_graph hn S.inside.sound.opened rfl rfl rfl rfl rfl
      neat := S.inside.neat.reshape hn rfl rfl rfl rfl rfl rfl (fun _ _ _ hq => hq) fun _ _ => rfl
      base := fun x => (S.inside.base x).mono hn fun _ _ => rfl
      first := S.inside.first.trans hn }

theorem onward_quiet {n : Nat} (hn : S.state.nextId ≤ n) (current : Option Nat) :
    Onward 0 [] S (S.quiet n hn current S.state.compiled) :=
  .quiet ⟨hn, fun _ _ => rfl, fun ha => ha⟩ rfl rfl rfl rfl rfl rfl rfl rfl

/-- **A variable is read** in the current block.  The view stays as it is, and what was not
removed is not removed. -/
theorem read (hat : S.At b) (hrun : readVariable F.context.options x b S.state = .ok v s') :
    ∃ S' : Stage F, S'.state = s' ∧ S'.view = S.view ∧ Onward 0 [(.read x b, some v)] S S' ∧
      (∀ w, S.state.Live w → s'.Live w) ∧ s'.Live v ∧
      S'.ledger.Plays s'.nextId S'.body.preds b (roleOf (S.view.known b) x) v := by
  obtain ⟨L', B', hst, hend, hdef⟩ :=
    readsNeatly_readVariable _ x S.inside.sound S.inside.neat S.inside.shape (S.inside.readable x)
      (.of_outside (S.outside_of_at hat)) (Nat.lt_of_succ_le hat.last.le) hrun
  have he := hst.extended
  have ha := he.advances S.inside.sound
  have hcompiled := he.steady.compiled
  have hview : view ⟨L', s', B', S.inside.extended hst⟩ = S.view := by
    refine View.ext he.steady.frame.size he.steady.current he.steady.preds
      (funext he.steady.frame.successors) (funext he.steady.isSealed) he.emitted ?_
    funext c y
    exact congrFun (congrFun he.write y) c
  have hholds : Holds L' B'.preds x b v (S.ledger.write x b) := by
    cases hw : S.ledger.write x b with
    | some w => exact readVariable_of_defs (S.inside.sound.write_defs x b w hw) hrun
    | none =>
      rw [← he.steady.preds] at hend
      exact hend.atEntry (he.write ▸ hw)
  refine ⟨⟨L', s', B', S.inside.extended hst⟩, rfl, hview, ?_, fun w hw i hi => ?_,
    hst.neat.defs _ v hdef, ?_⟩
  · refine ⟨ha, he.steady.frame.arguments, congrArg (fun u => u.arrays.length) hcompiled,
      congrArg CompilationUnit.functions hcompiled, congrArg CompilationUnit.globals hcompiled,
      he.steady.name, fun s before h => ?_⟩
    have hquiet : Records s before ⟨L', s', B', S.inside.extended hst⟩ :=
      h.quiet ha he.write he.steady.globalDefs fun y w hw => (he.found y 0 w hw).imp_right And.left
    exact hquiet.read (h.write x b ▸ hholds)
  · refine ⟨(hw i hi).1.trans_le he.steady.nextId, fun hmem => ?_⟩
    rcases hst.retires.only i hmem with hmem | hi'
    · exact (hw i hi).2 hmem
    · exact absurd (hw i hi).1 (not_lt.mpr hi'.1)
  · show L'.Plays s'.nextId B'.preds b (roleOf (S.view.known b) x) v
    rw [roleOf, show S.view.known b x = S.ledger.write x b from rfl]
    cases hw : S.ledger.write x b with
    | some w =>
      rw [hw] at hholds
      exact ⟨hholds, ha.base (S.inside.neat.write_base S.inside.sound hw)⟩
    | none =>
      rw [hw] at hholds
      exact hholds

/-- Where the operands of an instruction of a block may come from. -/
def Provided (S : Stage F) (b : Nat) (roles : List Role) : Prop :=
  .free ∉ roles ∧ ∀ v, .fixed v ∈ roles → v ∈ S.body.arguments ∨
    (∃ i payload, v = .literal i payload) ∨ ∃ d ∈ S.view.emitted b, v = .result d.id

/-- **An instruction is emitted into the current block.** -/
theorem emitAt {op : Op} {operands : List Value} {callee : Option String} {roles : List Role}
    (hat : S.At b) (hopen : S.view.closed b = false) (hop : op ≠ .phi) (hbr : op ≠ .br)
    (hmov : op = .mov → roles.length = 1)
    (hroles : List.Forall₂ (S.ledger.Plays S.state.nextId S.body.preds b) roles operands)
    (hprovided : S.Provided b roles) (hlive : ∀ w ∈ operands, S.state.Live w)
    (hrun : emitInst op operands callee S.state = .ok v s') :
    v = .result S.state.nextId ∧ ∃ S' : Stage F, S'.state = s' ∧ Onward 0 [] S S' ∧
      S'.state.removed = S.state.removed ∧
      S'.view = S.view.emit b [⟨S.state.nextId, op, [], callee, roles⟩] := by
  obtain ⟨rfl, happ⟩ := (emitInst_eq_ok hat.current).mp hrun
  obtain ⟨fn, B', hfn, hB, rfl, hs, ha⟩ := S.inside.sound.appendNext rfl hop rfl hroles happ
  have hfresh : ∀ c, ∀ j ∈ S.body.code c, j.id ≠ S.state.nextId :=
    fun c j hj => Nat.ne_of_lt (S.inside.sound.bound c j hj)
  have hframe := (S.inside.sound.indexed.append_ok hfresh hB).2.1
  have hpreds : B'.preds = S.body.preds := funext hframe.preds
  have htidy : (S.ledger.emit b ⟨S.state.nextId, op, [], callee, roles⟩).Tidy
      S.body.arguments F.first S.body.preds :=
    S.inside.tidy.emit hopen S.inside.first hprovided.2 hprovided.1 (fun _ _ hq => hq)
      (fun _ ht => by cases ht)
  have hformed : ∀ c, ∀ d ∈ (S.ledger.emit b ⟨S.state.nextId, op, [], callee, roles⟩).emitted c,
      d.Formed := by
    intro c d hd
    rcases Ledger.mem_emitted_emit hd with hd | ⟨_, rfl⟩
    · exact S.inside.formed c d hd
    · unfold Emitted.Formed
      split
      · contradiction
      · next hmov' => exact ⟨rfl, hmov hmov'⟩
      · rfl
  have hneat := S.inside.neat.append S.inside.sound rfl hop rfl hlive hB
    ⟨S.state.nextId, op, [], callee, roles⟩ fn
  have hinside := S.inside.build hs hneat rfl ha rfl rfl rfl hframe.size.ge rfl rfl
    (hpreds ▸ fun _ _ hq => hq) (by rw [hpreds, hframe.arguments]; exact htidy) hformed
    (fun a c => by rw [hframe.successors, hframe.preds]; exact S.inside.mirrored a c)
    (by rw [hframe.size, hpreds]; exact S.inside.nested)
  refine ⟨rfl, ⟨_, _, B', hinside⟩, rfl,
    .quiet ha hframe.arguments rfl rfl rfl (by simp [hfn]) rfl rfl rfl, rfl, ?_⟩
  exact View.ext hframe.size rfl hpreds (funext hframe.successors) rfl Ledger.emitted_emit rfl

/-- **A variable is written in the current block.** -/
theorem write {v : Value} {e : Emitted} (hat : S.At b) (he : e ∈ S.view.emitted b)
    (hv : v = .result e.id) (hop : e.op.isTerminator = false) {globalDefs : OrderedMap Nat Value}
    (hglobals : globalDefs = S.state.globalDefs ∨ F.context.symbols.isGlobal x = true ∧
      globalDefs = S.state.globalDefs.insert x v ∧ F.before x v) :
    ∃ S' : Stage F,
      S'.state = { S.state with defs := S.state.defs.insert (x, b) v, globalDefs } ∧
      Onward 0 [(.write x b v, none)] S S' ∧
      S'.view = S.view.learn b (Function.update (S.view.known b) x (some v)) := by
  have hbase : S.ledger.Base S.state.nextId v := hv ▸ S.inside.base_of_emitted he
  have hs : Sound (S.ledger.wrote x b v) idle
      { S.state with defs := S.state.defs.insert (x, b) v, globalDefs } S.body :=
    (S.inside.sound.write hat.leaves (S.inside.sound.inert_of_base hbase)).of_same_graph le_rfl
      S.inside.sound.opened rfl rfl rfl rfl rfl
  have hn : Neat (suspects F.context.options) (S.ledger.wrote x b v) idle
      { S.state with defs := S.state.defs.insert (x, b) v, globalDefs } S.body := by
    refine S.inside.neat.write hat.leaves (hv ▸ S.inside.live_of_emitted he)
      (fun d hd => (hbase d hd).2) (Or.inl ?_) (hglobals.imp_right fun h => h.2.1)
    obtain ⟨head, tail, hcode, _, htail⟩ := S.inside.sound.layout b
    obtain ⟨j, hj, hk⟩ := forall₂_exists_right htail he
    exact ⟨j, hcode ▸ List.mem_append_right _ hj, by rw [hv, hk.id]⟩
  -- what a variable has before later functions is what it had, or the new value
  have hglobal : ∀ y, globalValue { S.state with
      defs := S.state.defs.insert (x, b) v, globalDefs } y = S.state.globalValue y ∨
        y = x ∧ globalValue { S.state with
          defs := S.state.defs.insert (x, b) v, globalDefs } y = v ∧ F.before x v := by
    intro y
    rcases hglobals with rfl | ⟨_, rfl, hG⟩
    · exact Or.inl rfl
    · simp only [globalValue, OrderedMap.get?_insert]
      by_cases hy : x = y
      · exact Or.inr ⟨hy.symm, by rw [if_pos hy]; rfl, hG⟩
      · exact Or.inl (by rw [if_neg hy])
  have hlt : b < S.body.graph.size := Nat.lt_of_succ_le hat.last.le
  have hold : ∀ {y c}, c ≠ b → (S.ledger.wrote x b v).write y c = S.ledger.write y c :=
    fun hc => if_neg fun h => hc h.2
  have ha : Advances S.ledger S.state S.body (S.ledger.wrote x b v)
      { S.state with defs := S.state.defs.insert (x, b) v, globalDefs } S.body :=
    ⟨le_rfl, fun _ _ => rfl, (Ledger.carries_wrote hat.leaves).atEntry⟩
  refine ⟨⟨S.ledger.wrote x b v, _, S.body, { S.inside with
    sound := hs, neat := hn, write_lt := fun y c w hw => ?_, base := fun y => ?_,
    globals := fun y => ?_, tidy := S.inside.tidy.wrote he hv hop }⟩, rfl,
    ⟨ha, rfl, rfl, rfl, rfl, rfl, fun _ _ h =>
      h.wrote ha rfl rfl (hglobals.imp_right fun hg => ⟨hg.1, hg.2.1⟩)⟩, ?_⟩
  · by_cases hc : c = b
    · exact hc ▸ hlt
    · exact S.inside.write_lt y c w (hold hc ▸ hw)
  · rcases hglobal y with hy | ⟨_, hy, _⟩
    · rw [hy]
      exact S.inside.base y
    · rw [hy]
      exact hbase
  · rcases hglobal y with hy | ⟨rfl, hy, hG⟩
    · rw [hy]
      exact S.inside.globals y
    · rw [hy]
      exact hG
  · exact View.ext rfl rfl rfl rfl rfl rfl Ledger.known_wrote

/-! ## Steps from block to block -/

/-- **Another block is made the current one.** -/
theorem moveTo (hrun : setCurrent b S.state = .ok () s') : ∃ S' : Stage F, S'.state = s' ∧
    Onward 0 [] S S' ∧ S'.view = S.view.goto b := by
  obtain rfl := setCurrent_eq_ok.mp hrun
  exact ⟨S.quiet _ le_rfl (some b) S.state.compiled, rfl, S.onward_quiet le_rfl _, rfl⟩

/-- **A block is created.** -/
theorem create (hrun : createBlock S.state = .ok b s') : b = S.view.size ∧ ∃ S' : Stage F,
    S'.state = s' ∧ Onward 0 [] S S' ∧ S'.view = S.view.create ∧ S'.body.code b = [] := by
  obtain ⟨hb, hs, ha, fn, hfn, rfl⟩ := S.inside.sound.createBlock hrun
  have hpreds : (S.body.createBlock none).2.preds = S.body.preds :=
    funext fun c => Body.preds_createBlock ..
  have hsuccs : (S.body.createBlock none).2.graph.successors = S.body.graph.successors :=
    funext fun c => Body.successors_createBlock ..
  have hsize := Body.size_createBlock S.body none
  have hle : S.body.graph.size ≤ (S.body.createBlock none).2.graph.size := by
    rw [hsize]
    exact Nat.le_succ _
  have htidy : S.ledger.Tidy (S.body.createBlock none).2.arguments F.first
      (S.body.createBlock none).2.preds := by
    rw [hpreds, Body.arguments_createBlock]
    exact S.inside.tidy
  have hneat : Neat (suspects F.context.options) S.ledger idle
      { S.state with opened := some { fn with body := (S.body.createBlock none).2 } }
      (S.body.createBlock none).2 :=
    S.inside.neat.reshape le_rfl rfl rfl rfl rfl rfl (funext fun c => Body.code_createBlock ..)
      (hpreds ▸ fun _ _ _ hq => hq) (fun c _ => congrFun hpreds c)
  have hinside := S.inside.build hs hneat rfl ha rfl rfl rfl hle rfl rfl
    (hpreds ▸ fun _ _ hq => hq) htidy S.inside.formed
    (by rw [hpreds, hsuccs]; exact S.inside.mirrored)
    (by rw [hpreds]; exact S.inside.nested.mono hle)
  have hcode : (S.body.createBlock none).2.code b = [] := by
    rw [Body.code_createBlock, List.eq_nil_iff_forall_not_mem, hb]
    exact fun j hj => absurd (Body.lt_size_of_mem_code hj) (lt_irrefl _)
  exact ⟨hb, ⟨S.ledger, _, _, hinside⟩, rfl,
    .quiet ha (Body.arguments_createBlock ..) rfl rfl rfl (by simp [hfn]) rfl rfl rfl,
    View.ext hsize rfl hpreds hsuccs rfl rfl rfl, hcode⟩

theorem preds_update {B B' : Body} {source : Nat}
    (h : ∀ k, B'.preds k = if k = b then B.preds k ++ [source] else B.preds k) :
    B'.preds = Function.update B.preds b (B.preds b ++ [source]) := by
  funext k
  rw [h]
  by_cases hk : k = b
  · subst hk
    rw [if_pos rfl, Function.update_self]
  · rw [if_neg hk, Function.update_of_ne hk]

theorem succs_update {B B' : Body} {target : Nat} (h : ∀ k, B'.graph.successors k =
      if k = b then B.graph.successors k ++ [target] else B.graph.successors k) :
    B'.graph.successors =
      Function.update B.graph.successors b (B.graph.successors b ++ [target]) := by
  funext k
  rw [h]
  by_cases hk : k = b
  · subst hk
    rw [if_pos rfl, Function.update_self]
  · rw [if_neg hk, Function.update_of_ne hk]

/-- **An edge is added**, into a block that is not sealed. -/
theorem link {source : Nat} (hopen : S.view.isSealed b = false)
    (hnested : Nested S.view.size (S.view.link source b).preds)
    (hrun : Builder.addEdge source b S.state = .ok () s') : ∃ S' : Stage F,
    S'.state = s' ∧ Onward 0 [] S S' ∧ S'.view = S.view.link source b := by
  obtain ⟨fn, B', hfn, hB, hs, ha, rfl⟩ :=
    S.inside.sound.addEdge (S.inside.open_root b hopen) hopen hrun
  obtain ⟨_, _, hsize, _, _, hargs, hp, hsucc⟩ := Body.addEdge_ok hB
  have hpreds := preds_update hp
  have hsuccs := succs_update hsucc
  have hsub : ∀ d, ∀ q ∈ S.body.preds d, q ∈ B'.preds d := by
    intro d q hq
    rw [hp]
    split
    · exact List.mem_append_left _ hq
    · exact hq
  have hneat := S.inside.neat.addEdge (S.inside.open_root b hopen) hopen hB fn
  have hinside := S.inside.build hs hneat rfl ha rfl rfl rfl hsize.ge rfl rfl hsub
    (by rw [hargs]; exact S.inside.tidy.mono rfl rfl hsub) S.inside.formed
    (by rw [hpreds, hsuccs]; exact mirrored_link S.inside.mirrored)
    (by rw [hpreds, hsize]; exact hnested)
  exact ⟨⟨S.ledger, _, _, hinside⟩, rfl,
    .quiet ha hargs rfl rfl rfl (by simp [hfn]) rfl rfl rfl,
    View.ext hsize rfl hpreds hsuccs rfl rfl rfl⟩

/-- **Control leaves a block**: a branch is emitted, and an edge is added to one of its
targets; to the others an edge leads already. -/
theorem branchAt {cond : Option Value} {targets : List Nat} {roles : List Role} {t : Nat}
    {s₁ : Builder} (hopen : S.view.closed b = false)
    (hroles : List.Forall₂ (S.ledger.Plays S.state.nextId S.body.preds b) roles cond.toList)
    (hprovided : S.Provided b roles) (hlive : ∀ w ∈ cond.toList, S.state.Live w)
    (ht : S.view.isSealed t = false)
    (hformed : Emitted.Formed ⟨S.state.nextId, .br, targets, none, roles⟩)
    (htargets : ∀ u ∈ targets, u = t ∨ b ∈ S.view.preds u)
    (hnested : Nested S.view.size (S.view.link b t).preds)
    (hemit : emitBranch b cond targets S.state = .ok () s₁)
    (hlink : Builder.addEdge b t s₁ = .ok () s') : ∃ S' : Stage F,
    S'.state = s' ∧ Onward 0 [] S S' ∧
      S'.view = (S.view.emit b [⟨S.state.nextId, .br, targets, none, roles⟩]).link b t := by
  have hfresh : ∀ c, ∀ j ∈ S.body.code c, j.id ≠ S.state.nextId :=
    fun c j hj => Nat.ne_of_lt (S.inside.sound.bound c j hj)
  obtain ⟨fn, B₁, hfn, hB₁, rfl, hs₁, ha₁⟩ :=
    S.inside.sound.appendNext rfl Op.noConfusion rfl hroles (emitBranch_eq_ok.mp hemit)
  have hframe := (S.inside.sound.indexed.append_ok hfresh hB₁).2.1
  obtain ⟨fn', B', hfn', hB', hs, ha, rfl⟩ :=
    hs₁.addEdge (S.inside.open_root t ht) ht hlink
  obtain ⟨_, _, hsize, _, _, hargs, hp, hsucc⟩ := Body.addEdge_ok hB'
  rw [hframe.size] at hsize
  rw [hframe.arguments] at hargs
  simp only [hframe.preds] at hp
  simp only [hframe.successors] at hsucc
  have hpreds := preds_update hp
  have hsuccs := succs_update hsucc
  have hsub : ∀ d, ∀ q ∈ S.body.preds d, q ∈ B'.preds d := by
    intro d q hq
    rw [hp]
    split
    · exact List.mem_append_left _ hq
    · exact hq
  have htidy : (S.ledger.emit b ⟨S.state.nextId, .br, targets, none, roles⟩).Tidy
      S.body.arguments F.first B'.preds := by
    refine S.inside.tidy.emit hopen S.inside.first hprovided.2 hprovided.1 hsub fun u hu => ?_
    rcases htargets u hu with rfl | hb
    · rw [hp, if_pos rfl]
      exact List.mem_append_right _ (List.mem_singleton_self b)
    · exact hsub u b hb
  have hform : ∀ c, ∀ d ∈ (S.ledger.emit b ⟨S.state.nextId, .br, targets, none, roles⟩).emitted c,
      d.Formed := by
    intro c d hd
    rcases Ledger.mem_emitted_emit hd with hd | ⟨_, rfl⟩
    · exact S.inside.formed c d hd
    · exact hformed
  have hneat₁ := S.inside.neat.append S.inside.sound rfl Op.noConfusion rfl hlive hB₁
    ⟨S.state.nextId, .br, targets, none, roles⟩ fn
  have hneat := hneat₁.addEdge (S.inside.open_root t ht) ht hB' fn'
  have hinside := S.inside.build hs hneat rfl (ha₁.trans ha) rfl rfl rfl hsize.ge rfl rfl hsub
    (hargs ▸ htidy) hform (by rw [hpreds, hsuccs]; exact mirrored_link S.inside.mirrored)
    (by rw [hpreds, hsize]; exact hnested)
  have hname : fn'.name = fn.name := by
    cases hfn'
    rfl
  exact ⟨⟨_, _, B', hinside⟩, rfl,
    .quiet (ha₁.trans ha) hargs rfl rfl rfl (by simp [hfn, hname]) rfl rfl rfl,
    View.ext hsize rfl hpreds hsuccs rfl Ledger.emitted_emit rfl⟩

theorem isSealed_append {s : Builder} :
    isSealed { s with sealedBlocks := s.sealedBlocks ++ [b] } =
      Function.update s.isSealed b true := by
  funext c
  by_cases hc : c = b
  · subst hc
    simp [isSealed]
  · rw [Function.update_of_ne hc]
    simp [isSealed, hc]

/-- **A block is sealed** outside of all loops, to which an edge leads from a block before it. -/
theorem sealAt (hopen : S.view.isSealed b = false) (hpred : ∃ q ∈ S.view.preds b, q < b)
    (hout : Outside S.view.preds b)
    (hrun : Builder.sealBlock F.context.options b S.state = .ok () s') : ∃ S' : Stage F,
    S'.state = s' ∧ Onward 0 [] S S' ∧ S'.view = S.view.markSealed b := by
  have h := S.inside
  have hshape : Shape (S.ledger.close b) S.body := by
    refine ⟨fun c hc => ?_, h.nested⟩
    by_cases hcb : c = b
    · exact Or.inr (hcb ▸ hpred)
    · exact (h.grounded c hc).imp_left fun hr => ⟨hr, hcb⟩
  obtain ⟨L', B', u, hs, he, rfl, hn, hr⟩ :=
    h.neat.sealBlock h.sound hopen h.open_root h.base hshape hout hrun
  have ha := he.advances_of_seal h.sound
  have hsize : B'.graph.size = S.body.graph.size := he.steady.frame.size
  have hpreds : B'.preds = S.body.preds := he.steady.preds
  have hargs : B'.arguments = S.body.arguments := he.steady.frame.arguments
  have hroot : ∀ c, L'.root c ↔ S.ledger.root c ∧ c ≠ b := fun c => by rw [he.root]; rfl
  have hview : isSealed { u with sealedBlocks := u.sealedBlocks ++ [b] } =
      Function.update S.view.isSealed b true := by
    rw [isSealed_append, show u.isSealed = S.view.isSealed from funext he.steady.isSealed]
  have hsealed : ∀ c, isSealed { u with sealedBlocks := u.sealedBlocks ++ [b] } c = true ↔
      S.state.isSealed c = true ∨ c = b := by
    intro c
    simp [isSealed, he.steady.sealedBlocks]
  have hglobal : ∀ x, globalValue { u with sealedBlocks := u.sealedBlocks ++ [b] } x =
      S.state.globalValue x := by
    intro x
    show (u.globalDefs.get? x).getD .unknown = _
    rw [he.steady.globalDefs]
    rfl
  have hne : b ≠ 0 := by
    rintro rfl
    exact absurd (h.entry_sealed.symm.trans hopen) (by simp)
  have hinside : Inside F L' { u with sealedBlocks := u.sealedBlocks ++ [b] } B' := by
    constructor
    case sound => exact hs
    case neat => exact hn
    case phi_first => exact h.first_le_of_phi ha.phi
    case removed_before => exact fun d hd => hr.removed d (h.removed_before d hd)
    case removed => exact h.removed_of_retires ha.phi hr fun _ hd => hd
    case entry => exact (hroot 0).mpr ⟨h.entry, hne.symm⟩
    case entry_sealed => exact (hsealed 0).mpr (Or.inl h.entry_sealed)
    case sealed_lt =>
      intro c hc
      rw [hsize]
      rcases (hsealed c).mp hc with hc | rfl
      · exact h.sealed_lt c hc
      · obtain ⟨q, hq, _⟩ := hpred
        exact Body.lt_size_of_mem_preds hq
    case open_root =>
      intro c hc
      have hc' : ¬ (S.state.isSealed c = true ∨ c = b) := by
        rw [← hsealed, hc]
        simp
      rw [not_or, Bool.not_eq_true] at hc'
      exact (hroot c).mpr ⟨h.open_root c hc'.1, hc'.2⟩
    case write_lt =>
      rw [he.write, hsize]
      exact h.write_lt
    case base =>
      intro x
      rw [hglobal]
      exact ha.base (h.base x)
    case globals =>
      intro x
      rw [hglobal]
      exact h.globals x
    case start =>
      intro x c v hv
      rcases he.found x c v hv with hv | ⟨rfl, _⟩
      · exact h.start x c v hv
      · exact h.globals x
    case first => exact h.first.trans ha.nextId
    case tidy =>
      rw [hargs, hpreds]
      exact h.tidy.mono he.emitted he.write fun _ _ hq => hq
    case formed =>
      rw [he.emitted]
      exact h.formed
    case grounded =>
      rw [hpreds, he.root, hsize]
      exact hshape.grounded
    case mirrored =>
      intro a c
      rw [he.steady.frame.successors, he.steady.frame.preds]
      exact h.mirrored a c
    case nested =>
      rw [hsize, hpreds]
      exact h.nested
  refine ⟨⟨L', _, B', hinside⟩, rfl, ⟨ha, hargs, ?_, ?_, ?_, he.steady.name, fun _ _ h => ?_⟩, ?_⟩
  · exact congrArg (fun u => u.arrays.length) he.steady.compiled
  · exact congrArg CompilationUnit.functions he.steady.compiled
  · exact congrArg CompilationUnit.globals he.steady.compiled
  · exact h.quiet ha he.write he.steady.globalDefs fun y w hw =>
      (he.found y 0 w hw).imp_right And.left
  · refine View.ext hsize he.steady.current hpreds (funext he.steady.frame.successors) hview
      he.emitted ?_
    funext c y
    exact congrFun (congrFun he.write y) c

/-- **A new block is sealed** that no edge enters. -/
theorem sealNew (hlt : b < S.view.size) (hopen : S.view.isSealed b = false)
    (hcode : S.body.code b = []) (hpreds : S.view.preds b = [])
    (hrun : Builder.sealBlock F.context.options b S.state = .ok () s') : ∃ S' : Stage F,
    S'.state = s' ∧ Onward 0 [] S S' ∧ S'.view = S.view.markSealed b := by
  obtain ⟨hs, rfl⟩ := S.inside.sound.sealIsolated _ hopen hcode hpreds hrun
  have hsealed : ∀ c, isSealed { S.state with
      pending := S.state.pending.erase b, sealedBlocks := S.state.sealedBlocks ++ [b] } c = true ↔
      S.state.isSealed c = true ∨ c = b := by
    intro c
    simp [isSealed]
  refine ⟨⟨S.ledger, _, S.body, { S.inside with
    sound := hs, neat := S.inside.neat.sealIsolated S.inside.sound hcode, entry_sealed := ?_,
    sealed_lt := ?_, open_root := ?_ }⟩, rfl,
    .quiet ⟨le_rfl, fun _ _ => rfl, fun ha => ha⟩ rfl rfl rfl rfl rfl rfl rfl rfl,
    View.ext rfl rfl rfl rfl ?_ rfl rfl⟩
  · exact (hsealed 0).mpr (Or.inl S.inside.entry_sealed)
  · intro c hc
    rcases (hsealed c).mp hc with hc | rfl
    · exact S.inside.sealed_lt c hc
    · exact hlt
  · intro c hc
    have hc' : ¬ (S.state.isSealed c = true ∨ c = b) := by
      rw [← hsealed, hc]
      simp
    rw [not_or, Bool.not_eq_true] at hc'
    exact S.inside.open_root c hc'.1
  · exact isSealed_append (s := { S.state with pending := S.state.pending.erase b })

end Stage

end Compiler16.Ssa
