import Compiler16.Proofs.Answering
import Compiler16.Proofs.Resolution

/-!
# Reads along every path

The construction as its callers see it: they begin a function, and then create blocks
and edges, seal blocks, emit instructions, and write and read variables, in an order
of their own and over any graph.  They keep to few rules: no edge enters a sealed block,
nothing is written in a block that an edge leaves, and what is written is no PHI at that time.

Then every read is sound.  Along each path of the finished graph, following its answer leads
to the value that was last written on this path.  A removed PHI is a PHI no longer, so the copy
that is left of one may be written too; it then denotes what it copies, and so does the answer.
Any other written value is itself what the answer denotes.

## Main definitions

* `Call`, `Call.exec`: a call, and what it does
* `Log`, `Log.written`, `Log.Emitted`: calls with their answers, last call first
* `Call.Allowed`, `Session`: the rules, and calls that keep to them
* `Log.replay`: the state after a session, computed
* `Tracks`: what holds all along

## Main results

* `Tracks.call`: what one call preserves
* `Session.tracks`: what a session preserves
* `read_denotes_last_written`: reads are answered, and the answers are right
-/

namespace Compiler16.Ssa

open Compiler16.Flow

/-! ## Calls -/

/-- A call that goes on with the construction of a function. -/
inductive Call where
  | createBlock
  | addEdge (source target : Nat)
  | sealBlock (block : Nat)
  | setCurrent (block : Nat)
  | argument
  | literal (payload : Int)
  | emit (op : Op) (operands : List Value) (callee : Option String)
  | write (symbol block : Nat) (v : Value)
  | read (symbol block : Nat)
  deriving DecidableEq

/-- What a call does.  Reads, emitted instructions and new arguments and literals answer
with a value. -/
def Call.exec (o : Options) : Call → Build (Option Value)
  | createBlock => do
    let _ ← Builder.createBlock
    return none
  | addEdge source target => do
    Builder.addEdge source target
    return none
  | sealBlock block => do
    Builder.sealBlock o block
    return none
  | setCurrent block => do
    Builder.setCurrent block
    return none
  | argument => do
    let v := Value.argument (← Builder.freshId)
    Builder.changeBody fun body => .ok ((), body.addArgument v)
    return some v
  | literal payload => do return some (← Builder.freshLiteral payload)
  | emit op operands callee => do return some (← Builder.emitInst op operands callee)
  | write symbol block v => do
    Builder.writeVariable symbol block v
    return none
  | read symbol block => do return some (← Builder.readVariable o symbol block)

/-- Whether the call emits an instruction. -/
def Call.isEmit : Call → Bool
  | emit .. => true
  | _ => false

/-- Calls with their answers, last call first. -/
abbrev Log := List (Call × Option Value)

namespace Log

/-- The value last written to a variable in a block. -/
def written (x b : Nat) : Log → Option Value
  | [] => none
  | (.write y c v, _) :: log => if x = y ∧ b = c then some v else written x b log
  | _ :: log => written x b log

theorem mem_of_written {x b : Nat} {v : Value} : ∀ {log : Log}, log.written x b = some v →
    ∃ r, (.write x b v, r) ∈ log := by
  intro log
  fun_induction written x b log with
  | case1 => exact fun h => by cases h
  | case2 _ _ _ _ _ hxb =>
    obtain ⟨rfl, rfl⟩ := hxb
    rintro ⟨⟩
    exact ⟨_, List.mem_cons_self ..⟩
  | case3 _ _ _ _ _ _ ih | case4 _ _ _ ih =>
    exact fun h => (ih h).imp fun _ => List.mem_cons_of_mem _

/-- The instruction was emitted. -/
def Emitted (log : Log) (i : Nat) : Prop :=
  ∃ e ∈ log, e.1.isEmit = true ∧ e.2 = some (.result i)

instance (log : Log) (i : Nat) : Decidable (log.Emitted i) :=
  inferInstanceAs (Decidable (∃ e ∈ log, _))

theorem emitted_cons_iff {log : Log} {c : Call} {r : Option Value} {i : Nat} :
    Emitted ((c, r) :: log) i ↔ (c.isEmit = true ∧ r = some (.result i)) ∨ log.Emitted i :=
  List.exists_mem_cons_iff ..

theorem emitted_cons_of_not_emit {log : Log} {c : Call} {r : Option Value} {i : Nat}
    (hc : c.isEmit = false) : Emitted ((c, r) :: log) i ↔ log.Emitted i := by
  simp [emitted_cons_iff, hc]

/-- The value last written to a variable on a path, or else the value before. -/
def lastWritten (log : Log) (x : Nat) (d : Value) : List Nat → Value
  | [] => d
  | b :: π => (log.written x b).getD (lastWritten log x d π)

end Log

/-- The rules.  An edge enters a block that is not sealed; a variable is written in a
block that no edge leaves, and if its value is the result of an instruction, then of one that is
no PHI, or is older than the function; and PHIs are not emitted. -/
def Call.Allowed (first : Nat) (s : Builder) : Call → Prop
  | addEdge _ target => s.isSealed target = false
  | write _ block v => (∀ B ∈ s.body?, ∀ d < B.graph.size, block ∉ B.preds d) ∧
    ∀ i ∈ v.inst?, i < first ∨ ∃ j ∈ s.body?.bind (·.inst? i), j.op ≠ .phi
  | emit op _ _ => op ≠ .phi
  | _ => True

instance (first : Nat) (s : Builder) (c : Call) : Decidable (c.Allowed first s) :=
  match c with
  | .addEdge .. => inferInstanceAs (Decidable (_ = false))
  | .write .. => inferInstanceAs (Decidable (_ ∧ _))
  | .emit .. => inferInstanceAs (Decidable (_ ≠ _))
  | .createBlock | .sealBlock _ | .setCurrent _ | .argument | .literal _ | .read .. =>
    .isTrue trivial

/-- Calls that keep to the rules and succeed, from the state in which a function has just
begun. -/
inductive Session (o : Options) (s₁ : Builder) : Log → Builder → Prop where
  | start : Session o s₁ [] s₁
  | call {log : Log} {s s' : Builder} {c : Call} {r : Option Value} : Session o s₁ log s →
    c.Allowed s₁.nextId s → c.exec o s = .ok r s' → Session o s₁ ((c, r) :: log) s'

/-- The state after a session, if the calls of the log keep to the rules and have these
answers. -/
def Log.replay (o : Options) (s₁ : Builder) : Log → Option Builder
  | [] => some s₁
  | (c, r) :: log =>
    (replay o s₁ log).bind fun s =>
      if c.Allowed s₁.nextId s then
        match c.exec o s with
        | .ok r' s' => if r' = r then some s' else none
        | .error _ _ => none
      else none

theorem Session.of_replay {o : Options} {s₁ s : Builder} {log : Log}
    (h : log.replay o s₁ = some s) : Session o s₁ log s := by
  induction log generalizing s with
  | nil =>
    cases h
    exact .start
  | cons e log ih =>
    obtain ⟨t, ht, h⟩ := Option.bind_eq_some_iff.mp h
    split at h
    · next hallowed =>
      split at h
      · next r' s' hrun =>
        split at h
        · next hr =>
          cases h
          exact .call (ih ht) hallowed (hr ▸ hrun)
        · cases h
      · cases h
    · cases h

namespace Builder

/-! ## What holds all along -/

/-- The ledger says what the log says. -/
structure Tracks (s₀ : Builder) (log : Log) (L : Ledger) (s : Builder) (B : Body) : Prop where
  sound : Sound L idle s B
  entry : L.root 0
  entry_sealed : s.isSealed 0 = true
  open_root : ∀ b, s.isSealed b = false → L.root b
  current : ∃ b, s.current = some b
  globals : s.globalDefs = s₀.globalDefs
  first : s₀.nextId ≤ s.nextId
  phi_first : ∀ p xb, L.phi p = some xb → s₀.nextId ≤ p
  start : ∀ x b v, L.start x b = some v → v = s₀.globalValue x
  write : ∀ x b, L.write x b = log.written x b
  emitted : ∀ i, log.Emitted i → i < s.nextId ∧ L.phi i = none
  emitted_log : ∀ b, ∀ e ∈ L.emitted b, log.Emitted e.id

variable {s₀ s₁ s s' : Builder} {log : Log} {L : Ledger} {B : Body} {o : Options} {x b : Nat}

theorem Tracks.begin {name : String} {entry : Nat}
    (hrun : beginFunction name s₀ = .ok entry s₁) :
    s₁.nextId = s₀.nextId ∧ ∃ B, Tracks s₀ [] .initial s₁ B := by
  obtain ⟨_, B, hs, _, _, _, _, _, rfl⟩ := Sound.begin hrun
  refine ⟨rfl, B, ?_⟩
  constructor
  case sound => exact hs
  case entry => trivial
  case entry_sealed => rfl
  case open_root => exact fun _ _ => trivial
  case current => exact ⟨0, rfl⟩
  case globals => rfl
  case first => exact le_rfl
  case phi_first =>
    intro p xb hp
    cases hp
  case start =>
    intro x b v hv
    cases hv
  case write => exact fun _ _ => rfl
  case emitted =>
    rintro i ⟨e, he, _⟩
    cases he
  case emitted_log =>
    intro b e he
    cases he

section Calls

variable (hglobals : ∀ x i, s₀.globalValue x = .result i → i < s₀.nextId)

/-- What is older than the function is no PHI of it. -/
theorem Tracks.phi_none_of_lt (h : Tracks s₀ log L s B) {i : Nat} (hi : i < s₀.nextId) :
    L.phi i = none := by
  by_contra hne
  obtain ⟨xb, hxb⟩ := Option.ne_none_iff_exists'.mp hne
  exact absurd (h.phi_first i xb hxb) (not_le.mpr hi)

include hglobals in
/-- The values before the function are no PHIs of it. -/
theorem Tracks.base (h : Tracks s₀ log L s B) (x : Nat) : L.Base s.nextId (s.globalValue x) := by
  intro i hi
  rw [globalValue, h.globals] at hi
  exact ⟨(hglobals x i hi).trans_le h.first, h.phi_none_of_lt (hglobals x i hi)⟩

include hglobals in
theorem Tracks.readable (h : Tracks s₀ log L s B) (x : Nat) : Readable L s x :=
  ⟨h.base hglobals x, fun b hb => Or.inl (h.open_root b hb)⟩

/-- A call by which nothing is written or emitted. -/
theorem Tracks.quiet {L' : Ledger} {B' : Body} {c : Call} {r : Option Value}
    (h : Tracks s₀ log L s B) (hemit : c.isEmit = false)
    (hwrite : ∀ x b, Log.written x b ((c, r) :: log) = log.written x b)
    (hs : Sound L' idle s' B') (ha : Advances L s B L' s' B') (hw : L'.write = L.write)
    (he : L'.emitted = L.emitted)
    (hstart : ∀ x b v, L'.start x b = some v → L.start x b = some v ∨ v = s.globalValue x)
    (hentry : L'.root 0) (hsealed : s'.isSealed 0 = true)
    (hopen : ∀ b, s'.isSealed b = false → L'.root b) (hcurrent : ∃ b, s'.current = some b)
    (hglobals : s'.globalDefs = s.globalDefs) : Tracks s₀ ((c, r) :: log) L' s' B' where
  sound := hs
  entry := hentry
  entry_sealed := hsealed
  open_root := hopen
  current := hcurrent
  globals := hglobals.trans h.globals
  first := h.first.trans ha.nextId
  phi_first p xb hp := by
    by_cases hlt : p < s.nextId
    · exact h.phi_first p xb ((ha.phi p hlt).symm.trans hp)
    · exact h.first.trans (not_lt.mp hlt)
  start x b v hv := by
    rcases hstart x b v hv with hv | rfl
    · exact h.start x b v hv
    · rw [globalValue, h.globals]
      rfl
  write x b := by rw [hwrite, hw, h.write]
  emitted i hi := by
    obtain ⟨hlt, hnone⟩ := h.emitted i ((Log.emitted_cons_of_not_emit hemit).mp hi)
    exact ⟨hlt.trans_le ha.nextId, (ha.phi i hlt).trans hnone⟩
  emitted_log b e hmem := by
    rw [he] at hmem
    exact (Log.emitted_cons_of_not_emit hemit).mpr (h.emitted_log b e hmem)

variable {r : Option Value}

theorem Tracks.createBlock (h : Tracks s₀ log L s B)
    (hrun : Call.createBlock.exec o s = .ok r s') :
    ∃ L' B', Tracks s₀ ((.createBlock, r) :: log) L' s' B' ∧ Advances L s B L' s' B' := by
  obtain ⟨b, u, hcreate, hpure⟩ := bind_eq_ok.mp hrun
  obtain ⟨_, rfl⟩ := pure_eq_ok.mp hpure
  obtain ⟨_, hs, ha, fn, hfn, rfl⟩ := h.sound.createBlock hcreate
  exact ⟨L, _, h.quiet rfl (fun _ _ => rfl) hs ha rfl rfl (fun _ _ _ => Or.inl) h.entry
    h.entry_sealed h.open_root h.current rfl, ha⟩

theorem Tracks.addEdge {source target : Nat} (h : Tracks s₀ log L s B)
    (hopen : s.isSealed target = false) (hrun : (Call.addEdge source target).exec o s = .ok r s') :
    ∃ L' B', Tracks s₀ ((.addEdge source target, r) :: log) L' s' B' ∧
      Advances L s B L' s' B' := by
  obtain ⟨_, u, hadd, hpure⟩ := bind_eq_ok.mp hrun
  obtain ⟨_, rfl⟩ := pure_eq_ok.mp hpure
  obtain ⟨fn, B', _, _, hs, ha, rfl⟩ := h.sound.addEdge (h.open_root target hopen) hopen hadd
  exact ⟨L, B', h.quiet rfl (fun _ _ => rfl) hs ha rfl rfl (fun _ _ _ => Or.inl) h.entry
    h.entry_sealed h.open_root h.current rfl, ha⟩

/-- A call that changes neither blocks nor instructions. -/
theorem Tracks.same_graph {B' : Body} {c : Call} (h : Tracks s₀ log L s B)
    (hemit : c.isEmit = false)
    (hwrite : ∀ x b, Log.written x b ((c, r) :: log) = log.written x b)
    (hnext : s.nextId ≤ s'.nextId) (hopened : ∃ fn, s'.opened = some fn ∧ fn.body = B')
    (hgraph : B'.graph = B.graph) (hhome : B'.home = B.home) (hdefs : s'.defs = s.defs)
    (hpending : s'.pending = s.pending) (hsealed : s'.sealedBlocks = s.sealedBlocks)
    (hcurrent : ∃ b, s'.current = some b) (hglobals : s'.globalDefs = s.globalDefs) :
    ∃ L' B', Tracks s₀ ((c, r) :: log) L' s' B' ∧ Advances L s B L' s' B' := by
  have hs : Sound L idle s' B' :=
    h.sound.of_same_graph hnext hopened hgraph hhome hdefs hpending hsealed
  have hpreds : B'.preds = B.preds := by
    funext c
    rw [Body.preds, hgraph]
  have ha : Advances L s B L s' B' :=
    ⟨hnext, fun _ _ => rfl, hpreds ▸ fun ha => ha⟩
  have hsealed' : ∀ c, s'.isSealed c = s.isSealed c := fun c => by rw [isSealed, hsealed]; rfl
  refine ⟨L, B', h.quiet hemit hwrite hs ha rfl rfl (fun _ _ _ => Or.inl) h.entry ?_
    (fun c hc => ?_) hcurrent hglobals, ha⟩
  · rw [hsealed', h.entry_sealed]
  · rw [hsealed'] at hc
    exact h.open_root c hc

theorem Tracks.setCurrent (h : Tracks s₀ log L s B)
    (hrun : (Call.setCurrent b).exec o s = .ok r s') :
    ∃ L' B', Tracks s₀ ((.setCurrent b, r) :: log) L' s' B' ∧ Advances L s B L' s' B' := by
  obtain ⟨_, u, hset, hpure⟩ := bind_eq_ok.mp hrun
  obtain ⟨_, rfl⟩ := pure_eq_ok.mp hpure
  rw [setCurrent_eq_ok] at hset
  subst hset
  exact h.same_graph rfl (fun _ _ => rfl) le_rfl h.sound.opened rfl rfl rfl rfl rfl ⟨b, rfl⟩
    rfl

theorem Tracks.argument (h : Tracks s₀ log L s B) (hrun : Call.argument.exec o s = .ok r s') :
    ∃ L' B', Tracks s₀ ((.argument, r) :: log) L' s' B' ∧ Advances L s B L' s' B' := by
  obtain ⟨i, t, hfresh, hrest⟩ := bind_eq_ok.mp hrun
  obtain ⟨rfl, rfl⟩ := freshId_eq_ok.mp hfresh
  obtain ⟨_, u, hbody, hpure⟩ := bind_eq_ok.mp hrest
  obtain ⟨_, rfl⟩ := pure_eq_ok.mp hpure
  obtain ⟨fn, C, hfn, hC, rfl⟩ := changeBody_eq_ok.mp hbody
  cases hC
  obtain rfl := h.sound.body? (C := fn.body) (by rw [body?, show s.opened = some fn from hfn]; rfl)
  exact h.same_graph rfl (fun _ _ => rfl) (Nat.le_succ _) ⟨_, rfl, rfl⟩ rfl rfl rfl rfl rfl
    h.current rfl

theorem Tracks.literal {payload : Int} (h : Tracks s₀ log L s B)
    (hrun : (Call.literal payload).exec o s = .ok r s') :
    ∃ L' B', Tracks s₀ ((.literal payload, r) :: log) L' s' B' ∧ Advances L s B L' s' B' := by
  obtain ⟨v, u, hlit, hpure⟩ := bind_eq_ok.mp hrun
  obtain ⟨_, rfl⟩ := pure_eq_ok.mp hpure
  obtain ⟨i, t, hfresh, hpure⟩ := bind_eq_ok.mp hlit
  obtain ⟨rfl, rfl⟩ := freshId_eq_ok.mp hfresh
  obtain ⟨_, rfl⟩ := pure_eq_ok.mp hpure
  exact h.same_graph rfl (fun _ _ => rfl) (Nat.le_succ _) h.sound.opened rfl rfl rfl rfl rfl
    h.current rfl

theorem Tracks.writeVariable {v : Value} (h : Tracks s₀ log L s B)
    (hallowed : (Call.write x b v).Allowed s₀.nextId s)
    (hrun : (Call.write x b v).exec o s = .ok r s') :
    ∃ L' B', Tracks s₀ ((.write x b v, r) :: log) L' s' B' ∧ Advances L s B L' s' B' := by
  obtain ⟨_, u, hset, hpure⟩ := bind_eq_ok.mp hrun
  obtain ⟨_, rfl⟩ := pure_eq_ok.mp hpure
  rw [writeVariable_eq_ok] at hset
  subst hset
  obtain ⟨hleaves, hvalue⟩ := hallowed
  have hb : ∀ d, b ∉ B.preds d := fun d hd =>
    hleaves B h.sound.body?_eq d (Body.lt_size_of_mem_preds hd) hd
  have hinert : B.Inert s.nextId v := by
    intro i hi
    rcases hvalue i ((Value.inst?_eq_some_iff v i).mpr hi) with hlt | ⟨j, hj, hop⟩
    · refine ⟨hlt.trans_le h.first, fun c k hk hid hphi => ?_⟩
      obtain ⟨y, hy⟩ := h.sound.phi_of_isPhi hk hphi
      exact absurd (h.phi_first k.id _ hy) (not_le.mpr (hid ▸ hlt))
    · rw [h.sound.body?_eq] at hj
      obtain ⟨c, hmem, rfl⟩ := h.sound.indexed.inst?_eq_some_iff.mp hj
      refine ⟨h.sound.bound c j hmem, fun c' k hk hid => ?_⟩
      rw [h.sound.indexed.eq_of_id_eq hk hmem hid]
      exact hop
  refine ⟨_, B, { h with
    sound := h.sound.write hb hinert, write := fun y c => ?_, emitted := fun i hi => ?_,
    emitted_log := fun c e he => ?_ }, ⟨le_rfl, fun _ _ => rfl, (Ledger.carries_wrote hb).atEntry⟩⟩
  · show (if y = x ∧ c = b then some v else L.write y c) =
      if y = x ∧ c = b then some v else log.written y c
    rw [h.write]
  · exact h.emitted i ((Log.emitted_cons_of_not_emit rfl).mp hi)
  · exact (Log.emitted_cons_of_not_emit rfl).mpr (h.emitted_log c e he)

theorem Tracks.emit {op : Op} {operands : List Value} {callee : Option String}
    (h : Tracks s₀ log L s B) (hop : op ≠ .phi)
    (hrun : (Call.emit op operands callee).exec o s = .ok r s') :
    ∃ L' B', Tracks s₀ ((.emit op operands callee, r) :: log) L' s' B' ∧
      Advances L s B L' s' B' := by
  obtain ⟨v, u, hemit, hpure⟩ := bind_eq_ok.mp hrun
  obtain ⟨rfl, rfl⟩ := pure_eq_ok.mp hpure
  obtain ⟨b, hb⟩ := h.current
  obtain ⟨rfl, happ⟩ := (emitInst_eq_ok hb).mp hemit
  have hroles : List.Forall₂ (L.Plays s.nextId B.preds b) (operands.map fun _ => .free)
      operands := by
    rw [List.forall₂_map_left_iff]
    exact List.forall₂_same.mpr fun _ _ => trivial
  obtain ⟨fn, B', _, _, rfl, hs, ha⟩ := h.sound.appendNext rfl hop rfl hroles happ
  refine ⟨_, B', { h with
    sound := hs, first := Nat.le_succ_of_le h.first, emitted := fun i hi => ?_,
    emitted_log := fun c e he => ?_ }, ha⟩
  · rcases Log.emitted_cons_iff.mp hi with ⟨_, heq⟩ | hi
    · cases heq
      exact ⟨Nat.lt_succ_self _, h.sound.phi_none_of_le le_rfl⟩
    · obtain ⟨hlt, hnone⟩ := h.emitted i hi
      exact ⟨Nat.lt_succ_of_lt hlt, hnone⟩
  · have hold : ∀ e ∈ L.emitted c, Log.Emitted ((Call.emit op operands callee,
        some (.result s.nextId)) :: log) e.id :=
      fun e he => Log.emitted_cons_iff.mpr (Or.inr (h.emitted_log c e he))
    by_cases hc : c = b
    · have he' : e ∈ L.emitted c ++
          [⟨s.nextId, op, [], callee, operands.map fun _ => .free⟩] := by
        simpa only [Ledger.emit, if_pos hc] using he
      rcases List.mem_append.mp he' with he | he
      · exact hold e he
      · obtain rfl := List.mem_singleton.mp he
        exact Log.emitted_cons_iff.mpr (Or.inl ⟨rfl, rfl⟩)
    · have he' : e ∈ L.emitted c := by simpa only [Ledger.emit, if_neg hc] using he
      exact hold e he'

include hglobals in
theorem Tracks.sealBlock (h : Tracks s₀ log L s B)
    (hrun : (Call.sealBlock b).exec o s = .ok r s') :
    ∃ L' B', Tracks s₀ ((.sealBlock b, r) :: log) L' s' B' ∧ Advances L s B L' s' B' := by
  obtain ⟨_, u, hseal, hpure⟩ := bind_eq_ok.mp hrun
  obtain ⟨_, rfl⟩ := pure_eq_ok.mp hpure
  cases hsealed : s.isSealed b with
  | true =>
    obtain rfl := (sealBlock_of_sealed hsealed).mp hseal
    exact ⟨L, B, h.quiet rfl (fun _ _ => rfl) h.sound .refl rfl rfl (fun _ _ _ => Or.inl) h.entry
      h.entry_sealed h.open_root h.current rfl, .refl⟩
  | false =>
    obtain ⟨L', B', t, hs, he, rfl⟩ :=
      h.sound.sealBlock o hsealed h.open_root (h.base hglobals) hseal
    have ha := he.advances_of_seal h.sound
    have hroot : ∀ c, L'.root c ↔ L.root c ∧ c ≠ b := fun c => by rw [he.root]; rfl
    have hmem : ∀ c, isSealed { t with sealedBlocks := t.sealedBlocks ++ [b] } c = true ↔
        s.isSealed c = true ∨ c = b := by
      intro c
      simp [isSealed, he.steady.sealedBlocks]
    refine ⟨L', B', h.quiet rfl (fun _ _ => rfl) hs ha he.write he.emitted
      (fun y c v hv => ?_) ?_ ?_ (fun c hc => ?_) ?_ he.steady.globalDefs, ha⟩
    · exact (he.found y c v hv).imp_right And.left
    · -- the entry is sealed from the beginning
      rw [hroot]
      refine ⟨h.entry, ?_⟩
      rintro rfl
      exact absurd (h.entry_sealed.symm.trans hsealed) (by simp)
    · exact (hmem 0).mpr (Or.inl h.entry_sealed)
    · have hc' : ¬ (s.isSealed c = true ∨ c = b) := by
        rw [← hmem, hc]
        simp
      rw [not_or, Bool.not_eq_true] at hc'
      exact (hroot c).mpr ⟨h.open_root c hc'.1, hc'.2⟩
    · show ∃ c, t.current = some c
      rw [he.steady.current]
      exact h.current

include hglobals in
theorem Tracks.readVariable (h : Tracks s₀ log L s B) (hrun : (Call.read x b).exec o s = .ok r s') :
    ∃ L' B', Tracks s₀ ((.read x b, r) :: log) L' s' B' ∧ Advances L s B L' s' B' ∧
      ∃ a, r = some a ∧ L'.AtEnd x a B'.preds b := by
  obtain ⟨a, u, hread, hpure⟩ := bind_eq_ok.mp hrun
  obtain ⟨rfl, rfl⟩ := pure_eq_ok.mp hpure
  obtain ⟨L', B', hs, he, hend⟩ :=
    readsSoundly_readVariable o x h.sound (h.readable hglobals x) hread
  have ha := he.advances h.sound
  refine ⟨L', B', h.quiet rfl (fun _ _ => rfl) hs ha he.write he.emitted
    (fun y c v hv => ?_) (he.root ▸ h.entry) ?_ (fun c hc => ?_) ?_ he.steady.globalDefs, ha,
    a, rfl, he.steady.preds ▸ hend⟩
  · exact (he.found y c v hv).imp_right And.left
  · rw [he.steady.isSealed]
    exact h.entry_sealed
  · rw [he.steady.isSealed] at hc
    exact he.root ▸ h.open_root c hc
  · rw [he.steady.current]
    exact h.current

include hglobals in
/-- **What one call preserves.** -/
theorem Tracks.call {c : Call} (h : Tracks s₀ log L s B) (hallowed : c.Allowed s₀.nextId s)
    (hrun : c.exec o s = .ok r s') :
    ∃ L' B', Tracks s₀ ((c, r) :: log) L' s' B' ∧ Advances L s B L' s' B' := by
  cases c with
  | createBlock => exact h.createBlock hrun
  | addEdge source target => exact h.addEdge hallowed hrun
  | sealBlock b => exact h.sealBlock hglobals hrun
  | setCurrent b => exact h.setCurrent hrun
  | argument => exact h.argument hrun
  | literal payload => exact h.literal hrun
  | emit op operands callee => exact h.emit hallowed hrun
  | write x b v => exact h.writeVariable hallowed hrun
  | read x b =>
    obtain ⟨L', B', h', ha, _⟩ := h.readVariable hglobals hrun
    exact ⟨L', B', h', ha⟩

end Calls

/-! ## Sessions -/

/-- A value that a variable has somewhere in a block: if it was not written there before,
it is the value where control enters the block. -/
def Holds (L : Ledger) (preds : Nat → List Nat) (x b : Nat) (a : Value) : Option Value → Prop
  | some v => a = v
  | none => L.AtEntry x a preds b

theorem Holds.advances {L' : Ledger} {B' : Body} {a : Value} {w : Option Value}
    (h : Holds L B.preds x b a w) (ha : Advances L s B L' s' B') : Holds L' B'.preds x b a w := by
  cases w with
  | some v => exact h
  | none => exact ha.atEntry h

end Builder

open Builder

section Sessions

variable {o : Options} {s₀ s₁ s : Builder} {log : Log} {name : String} {entry : Nat}

/-- The answer of a read holds. -/
theorem Session.holds_read {L : Ledger} {B : Body} {x b : Nat} {r : Option Value} {s' : Builder}
    (hglobals : ∀ x i, s₀.globalValue x = .result i → i < s₀.nextId) (h : Tracks s₀ log L s B)
    (hrun : (Call.read x b).exec o s = .ok r s') :
    ∃ L' B', Tracks s₀ ((.read x b, r) :: log) L' s' B' ∧ Advances L s B L' s' B' ∧
      ∀ a, r = some a → Holds L' B'.preds x b a (log.written x b) := by
  obtain ⟨L', B', h', ha, a, rfl, hend⟩ := h.readVariable hglobals hrun
  refine ⟨L', B', h', ha, ?_⟩
  rintro _ ⟨rfl⟩
  cases hw : log.written x b with
  | some v =>
    have hwrite : L.write x b = some v := (h.write x b).trans hw
    obtain ⟨c, u, hread, hpure⟩ := bind_eq_ok.mp hrun
    obtain ⟨⟨rfl⟩, rfl⟩ := pure_eq_ok.mp hpure
    exact readVariable_of_defs (h.sound.write_defs x b v hwrite) hread
  | none => exact hend.atEntry ((h'.write x b).trans hw)

/-- **What a session preserves.**  All answers of before go on to hold. -/
theorem Session.tracks (hbegin : beginFunction name s₀ = .ok entry s₁)
    (hglobals : ∀ x i, s₀.globalValue x = .result i → i < s₀.nextId)
    (h : Session o s₁ log s) : ∃ L B, Tracks s₀ log L s B ∧
      ∀ (post pre : Log) x b a, log = post ++ (.read x b, some a) :: pre →
        Holds L B.preds x b a (pre.written x b) := by
  obtain ⟨hnext, B₀, h₀⟩ := Tracks.begin hbegin
  induction h with
  | start => exact ⟨_, B₀, h₀, fun post pre x b a hlog => by simp at hlog⟩
  | @call log s s' c r _ hallowed hrun ih =>
    obtain ⟨L, B, h, hreads⟩ := ih
    rw [hnext] at hallowed
    obtain ⟨L', B', h', ha, hnew⟩ : ∃ L' B', Tracks s₀ ((c, r) :: log) L' s' B' ∧
        Advances L s B L' s' B' ∧ ∀ x b a, c = .read x b → r = some a →
          Holds L' B'.preds x b a (log.written x b) := by
      by_cases hc : ∃ x b, c = .read x b
      · obtain ⟨x, b, rfl⟩ := hc
        obtain ⟨L', B', h', ha, hread⟩ := Session.holds_read hglobals h hrun
        refine ⟨L', B', h', ha, ?_⟩
        rintro _ _ a ⟨rfl, rfl⟩ hr
        exact hread a hr
      · obtain ⟨L', B', h', ha⟩ := h.call hglobals hallowed hrun
        exact ⟨L', B', h', ha, fun x b a hread _ => absurd ⟨x, b, hread⟩ hc⟩
    refine ⟨L', B', h', fun post pre x b a hlog => ?_⟩
    cases post with
    | nil =>
      cases hlog
      exact hnew x b a rfl rfl
    | cons e post =>
      obtain ⟨_, hlog⟩ := List.cons.inj hlog
      exact (hreads post pre x b a hlog).advances ha

theorem Ledger.lastWritten_eq {L : Ledger} {x : Nat} (h : ∀ b, L.write x b = log.written x b)
    (d : Value) (β : List Nat) : L.lastWritten x d β = log.lastWritten x d β := by
  induction β with
  | nil => rfl
  | cons b β ih => rw [Ledger.lastWritten, Log.lastWritten, ih, h]

/-- **What a variable has in a block leads to the value last written**: there before, or else
before on the path. -/
theorem Builder.Finished.reduces_of_holds {L : Ledger} {B : Body} {own : Nat → Prop} {x b : Nat}
    {a d : Value} {w : Option Value} {π : List (Nat × Nat)} (h : Finished L s B)
    (hown : ∀ p i, B.inst? p = some i → (own p ↔ L.phi p = none))
    (hd : ∀ v, L.start x 0 = some v → v = d) (hπ : Path B π) (hend : endOf π = b)
    (ha : Holds L B.preds x b a w) : ∃ σ ρ, π = σ ++ ρ ∧ L.Quiet x (σ.map Prod.fst).tail ∧
      (w ≠ none → σ = []) ∧
      Reduces B own π a ρ (w.getD (L.lastWritten x d (blocksOf π).tail)) := by
  cases w with
  | some v =>
    obtain rfl : a = v := ha
    exact ⟨[], π, rfl, fun c hc => (List.not_mem_nil hc).elim, fun _ => rfl, .refl⟩
  | none =>
    obtain ⟨β, hβ⟩ := blocksOf_eq_cons π
    have hent : L.Enters x a (blocksOf π) := by
      rw [hβ, hend]
      exact ha β (hend ▸ hβ ▸ hπ.trail h.root)
    obtain ⟨σ, ρ, hsplit, hquiet, hreduces⟩ := h.reduces_of_enters hown hd hπ hent
    exact ⟨σ, ρ, hsplit, hquiet, fun hw => absurd rfl hw, hreduces⟩

/-- When all blocks are sealed, no PHI waits. -/
theorem Builder.Tracks.finished {L : Ledger} {B : Body} (h : Tracks s₀ log L s B)
    (hsealed : ∀ b < B.graph.size, s.isSealed b = true) : Finished L s B where
  sound := h.sound
  root := h.entry
  waits x b p hw := by
    obtain ⟨j, hj, _⟩ := h.sound.phi_mem p x b (h.sound.waits_phi x b p hw)
    have := hsealed b (Body.lt_size_of_mem_code hj)
    rw [h.sound.waits_open x b p hw] at this
    cases this

/-- An instruction was emitted, or it was created as a PHI. -/
theorem Builder.Tracks.emitted_iff {L : Ledger} {B : Body} (h : Tracks s₀ log L s B) (p : Nat)
    (i : Inst) (hi : B.inst? p = some i) : log.Emitted p ↔ L.phi p = none := by
  refine ⟨fun he => (h.emitted p he).2, fun hp => ?_⟩
  obtain ⟨b, hib, rfl⟩ := h.sound.indexed.inst?_eq_some_iff.mp hi
  obtain ⟨head, tail, hcode, hhead, htail⟩ := h.sound.layout b
  rw [hcode, List.mem_append] at hib
  rcases hib with hmem | hmem
  · have := hhead i hmem
    rw [hp] at this
    cases this
  · obtain ⟨e, he, hk⟩ := forall₂_exists_left htail hmem
    rw [hk.id]
    exact h.emitted_log b e he

/-- **Reads on any graph are sound.**  In a session a read of an existing block is
answered, if no sealed blocks with one predecessor each form a ring, and so is the sealing
of a block.  Along every path of the finished graph, following the answer of a read leads to the
value last written: in the block of the read before the read, or else before on the path,
or else it is the value from before the function.  It gets there without going back beyond
the last write.  So the answer denotes what this value denotes from there on, and that is the
value itself, unless it is what is left of a PHI. -/
theorem read_denotes_last_written (o : Options) {s₀ s₁ s : Builder} {name : String}
    {entry : Nat} {pre : Log} {B : Body} (hbegin : beginFunction name s₀ = .ok entry s₁)
    (hglobals : ∀ x i, s₀.globalValue x = .result i → i < s₀.nextId)
    (hpre : Session o s₁ pre s) (hB : s.body? = some B) :
    (NoRing s B → (∀ x, ∀ b < B.graph.size, ∃ a s', readVariable o x b s = .ok a s') ∧
      ∀ b, ∃ s', sealBlock o b s = .ok () s') ∧
    ∀ {post s' B' x b a}, Session o s₁ (post ++ (.read x b, some a) :: pre) s' →
      s'.body? = some B' → (∀ c < B'.graph.size, s'.isSealed c = true) →
      ∀ π, Path B' π → endOf π = b →
        let log := post ++ (.read x b, some a) :: pre
        let w := (pre.written x b).getD (log.lastWritten x (s₀.globalValue x) (blocksOf π).tail)
        (∃ σ ρ, π = σ ++ ρ ∧ (∀ e ∈ σ.tail, log.written x e.1 = none) ∧
          (pre.written x b ≠ none → σ = []) ∧ Reduces B' log.Emitted π a ρ w ∧
          ∀ r, Resolves B' log.Emitted π a r ↔ Resolves B' log.Emitted ρ w r) ∧
        ((∀ i, w = .result i → i < s₀.nextId ∨ log.Emitted i) →
          ∀ r, Resolves B' log.Emitted π a r ↔ r = w) := by
  constructor
  · intro hring
    obtain ⟨L, C, h, _⟩ := hpre.tracks hbegin hglobals
    obtain rfl := h.sound.body? hB
    exact ⟨fun x b hb => h.sound.readVariable_total o hring hb,
      fun b => h.sound.sealBlock_total o hring b⟩
  · intro post s' B' x b a hall hB' hsealed π hπ hend log w
    obtain ⟨L, C, h, hreads⟩ := hall.tracks hbegin hglobals
    obtain rfl := h.sound.body? hB'
    obtain ⟨σ, ρ, hsplit, hquiet, hhere, hreduces⟩ := (h.finished hsealed).reduces_of_holds
      h.emitted_iff (h.start x 0) hπ hend (hreads post pre x b a rfl)
    rw [Ledger.lastWritten_eq (h.write x)] at hreduces
    refine ⟨⟨σ, ρ, hsplit, fun e he => ?_, hhere, hreduces, fun r => hreduces.resolves_iff⟩,
      fun hplain r => hreduces.resolves_iff_eq fun i hi => ?_⟩
    · rw [← h.write]
      exact hquiet e.1 (List.map_tail ▸ List.mem_map_of_mem he)
    · cases hinst : B'.inst? i with
      | none => exact Or.inr rfl
      | some j =>
        refine Or.inl ((h.emitted_iff i j hinst).mpr ?_)
        rcases hplain i hi with hlt | hemitted
        · exact h.phi_none_of_lt hlt
        · exact (h.emitted i hemitted).2

/-- Two blocks that lead to each other, and both are entered from the entry.  From the first of
them one goes on to a third and a fourth block; in the third, what is left of a removed PHI is
written to another variable. -/
def crossingCalls : Log :=
  [(.sealBlock 4, none), (.read 6 4, some (.result 6)), (.addEdge 3 4, none), (.createBlock, none),
    (.write 6 3 (.result 5), none), (.sealBlock 3, none), (.read 5 3, some (.result 5)),
    (.addEdge 1 3, none), (.createBlock, none),
    (.sealBlock 1, none), (.sealBlock 2, none), (.addEdge 2 1, none), (.read 5 2, some (.result 4)),
    (.addEdge 1 2, none), (.write 5 1 (.result 3), none),
    (.emit .add [.result 2, .literal 1 1] none, some (.result 3)), (.setCurrent 1, none),
    (.read 5 1, some (.result 2)), (.literal 1, some (.literal 1 1)), (.addEdge 0 2, none),
    (.addEdge 0 1, none), (.createBlock, none), (.createBlock, none),
    (.write 5 0 (.literal 0 7), none), (.literal 7, some (.literal 0 7))]

/-- The read in the first of the two blocks, along the path that has entered it before and
along the one that comes from the other; and the read in the fourth block, whose answer leads to
what was left of the PHI. -/
theorem read_denotes_last_written_crossing : ∃ s₁ s B, beginFunction "f" {} = .ok 0 s₁ ∧
    Session {} s₁ crossingCalls s ∧ s.body? = some B ∧
    Path B [(1, 1), (2, 1), (1, 0)] ∧ Path B [(1, 1), (2, 0)] ∧ Path B [(4, 0), (3, 0), (1, 0)] ∧
    Resolves B crossingCalls.Emitted [(1, 1), (2, 1), (1, 0)] (.result 2) (.result 3) ∧
    Resolves B crossingCalls.Emitted [(1, 1), (2, 0)] (.result 2) (.literal 0 7) ∧
    ∃ ρ, Reduces B crossingCalls.Emitted [(4, 0), (3, 0), (1, 0)] (.result 6) ρ (.result 5) := by
  obtain ⟨s₁, hbegin⟩ : ∃ s₁, beginFunction "f" {} = .ok 0 s₁ := ⟨_, rfl⟩
  have hfinal : (crossingCalls.replay {} s₁).bind (fun s => s.body?.map fun B =>
      (s.sealedBlocks, (List.range B.graph.size).map B.preds)) =
      some ([0, 2, 1, 3, 4], [[], [0, 2], [0, 1], [1], [3]]) := by
    cases hbegin
    decide +kernel
  obtain ⟨s, hs, hB⟩ := Option.bind_eq_some_iff.mp hfinal
  obtain ⟨B, hB, heq⟩ := Option.map_eq_some_iff.mp hB
  obtain ⟨hsealed, hpreds⟩ := Prod.mk.inj heq
  have hsize : B.graph.size = 5 := by simpa using congrArg List.length hpreds
  rw [hsize] at hpreds
  obtain ⟨_, hone, htwo, hthree, hfour⟩ : B.preds 0 = [] ∧ B.preds 1 = [0, 2] ∧
      B.preds 2 = [0, 1] ∧ B.preds 3 = [1] ∧ B.preds 4 = [3] := by
    simpa [List.range_succ] using hpreds
  have hall : ∀ c < B.graph.size, s.isSealed c = true := by
    rw [hsize]
    simp only [isSealed, hsealed]
    decide
  have hfirst : Path B [(1, 0)] := .cons (by simp [hone, endOf]) .nil
  have hlong : Path B [(1, 1), (2, 1), (1, 0)] :=
    .cons (by simp [hone, endOf]) (.cons (by simp [htwo, endOf]) hfirst)
  have hshort : Path B [(1, 1), (2, 0)] :=
    .cons (by simp [hone, endOf]) (.cons (by simp [htwo, endOf]) .nil)
  have hon : Path B [(4, 0), (3, 0), (1, 0)] :=
    .cons (by simp [hfour, endOf]) (.cons (by simp [hthree, endOf]) hfirst)
  have hglobals : ∀ x i, globalValue {} x = .result i → i < 0 := by
    intro x i hi
    cases hi
  have hbefore : ∀ k ∈ [2, 18],
      ((Log.replay {} s₁ (crossingCalls.drop k)).bind Builder.body?).isSome := by
    cases hbegin
    decide +kernel
  obtain ⟨C, hC⟩ := Option.isSome_iff_exists.mp (hbefore 18 (by decide))
  obtain ⟨t, ht, hC⟩ := Option.bind_eq_some_iff.mp hC
  have hsession : Session {} s₁ (crossingCalls.take 17 ++ (.read 5 1, some (.result 2)) ::
      crossingCalls.drop 18) s := .of_replay hs
  have hread := (read_denotes_last_written {} hbegin hglobals (.of_replay ht) hC).2 hsession hB hall
  obtain ⟨C', hC'⟩ := Option.isSome_iff_exists.mp (hbefore 2 (by decide))
  obtain ⟨t', ht', hC'⟩ := Option.bind_eq_some_iff.mp hC'
  have hsession' : Session {} s₁ (crossingCalls.take 1 ++ (.read 6 4, some (.result 6)) ::
      crossingCalls.drop 2) s := .of_replay hs
  obtain ⟨_, ρ, _, _, _, hreduces, _⟩ := ((read_denotes_last_written {} hbegin hglobals
    (.of_replay ht') hC').2 hsession' hB hall _ hon rfl).1
  refine ⟨s₁, s, B, hbegin, .of_replay hs, hB, hlong, hshort, hon, ?_, ?_, ρ, hreduces⟩
  · refine ((hread _ hlong rfl).2 (fun i hi => ?_) _).mpr rfl
    cases hi
    exact Or.inr (by decide)
  · refine ((hread _ hshort rfl).2 (fun i hi => ?_) _).mpr rfl
    cases hi

end Sessions

end Compiler16.Ssa
