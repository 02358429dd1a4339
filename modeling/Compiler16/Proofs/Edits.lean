import Compiler16.Proofs.Reading

/-!
# Changes from outside

What a caller of the construction does between reads: it writes variables, creates
blocks and edges, emits instructions and seals blocks without predecessors.  Each
keeps the state sound, under a condition of its own:

* a variable is written in a block that no edge leaves, and not to a PHI;
* an edge leads into a block that is not sealed;
* the operands of an emitted instruction play the roles that the ledger notes.

## Main results

* `Sound.begin`: a function that has just begun
* `Sound.reshape`: blocks and edges change, but no code
* `Sound.write`, `Sound.createBlock`, `Sound.addEdge`, `Sound.append`: the changes
* `Sound.sealIsolated`: a sealed block in which paths still begin
-/

namespace Compiler16.Ssa

open Compiler16.Flow

/-- The ledger of a function that has just begun. -/
def Ledger.initial : Ledger where
  phi _ := none
  write _ _ := none
  start _ _ := none
  root _ := True
  emitted _ := []

/-- The ledger after an instruction was emitted. -/
def Ledger.emit (L : Ledger) (b : Nat) (e : Emitted) : Ledger :=
  { L with emitted := fun c => if c = b then L.emitted c ++ [e] else L.emitted c }

@[simp] theorem Ledger.emitted_emit_self {L : Ledger} {b : Nat} {e : Emitted} :
    (L.emit b e).emitted b = L.emitted b ++ [e] := if_pos rfl

theorem Ledger.emitted_emit_of_ne {L : Ledger} {b c : Nat} {e : Emitted} (h : c ≠ b) :
    (L.emit b e).emitted c = L.emitted c := if_neg h

theorem Ledger.grows_emit {L : Ledger} {b : Nat} {e : Emitted} : L.Grows (L.emit b e) :=
  ⟨fun _ _ h => h, rfl, fun _ _ _ h => h, fun _ h => h⟩

namespace Builder

variable {L : Ledger} {busy : Nat → Option Progress} {s s' : Builder} {B B' : Body}
  {x b p n : Nat} {v : Value}

/-- From one state of a construction to a later one: numbers are not given twice, no
number of before becomes a PHI, and what stands for a variable goes on to do so. -/
structure Advances (L : Ledger) (s : Builder) (B : Body) (L' : Ledger) (s' : Builder)
    (B' : Body) : Prop where
  nextId : s.nextId ≤ s'.nextId
  phi : ∀ i < s.nextId, L'.phi i = L.phi i
  atEntry : ∀ {x a b}, L.AtEntry x a B.preds b → L'.AtEntry x a B'.preds b

theorem Advances.refl : Advances L s B L s B := ⟨le_rfl, fun _ _ => rfl, fun ha => ha⟩

theorem Advances.trans {L' L'' : Ledger} {s'' : Builder} {B'' : Body}
    (h : Advances L s B L' s' B') (h' : Advances L' s' B' L'' s'' B'') :
    Advances L s B L'' s'' B'' where
  nextId := h.nextId.trans h'.nextId
  phi i hi := (h'.phi i (hi.trans_le h.nextId)).trans (h.phi i hi)
  atEntry ha := h'.atEntry (h.atEntry ha)

theorem Advances.base {L' : Ledger} (h : Advances L s B L' s' B') (hv : L.Base s.nextId v) :
    L'.Base s'.nextId v :=
  hv.mono h.nextId h.phi

theorem Extended.advances {L' : Ledger} (he : Extended n L s B L' s' B') (h : Sound L busy s B) :
    Advances L s B L' s' B' :=
  ⟨he.steady.nextId, he.phi, he.steady.preds ▸ (he.grows h).atEntry⟩

/-- A function that has just begun. -/
theorem Sound.begin {name : String} {entry : Nat} (hrun : beginFunction name s = .ok entry s') :
    entry = 0 ∧ ∃ B, Sound .initial idle s' B ∧ B.graph.size = 1 ∧ B.arguments = [] ∧
      (∀ b, B.code b = []) ∧ (∀ b, B.preds b = []) ∧ (∀ b, B.graph.successors b = []) ∧
      s' = { s with
        opened := some { name, body := B }, current := some 0, defs := {}, pending := {},
        sealedBlocks := [0] } := by
  unfold beginFunction at hrun
  simp only [bind_eq_ok, get_eq_ok] at hrun
  obtain ⟨_, _, ⟨rfl, rfl⟩, hrun⟩ := hrun
  cases hopened : s.opened with
  | some f => simp [hopened] at hrun
  | none =>
    simp only [hopened, bind_eq_ok, modify_eq_ok, pure_eq_ok] at hrun
    obtain ⟨_, _, rfl, rfl, rfl⟩ := hrun
    have hcode : ∀ b, (Body.empty.createBlock none).2.code b = [] :=
      fun b => Body.code_createBlock ..
    have hpreds : ∀ b, (Body.empty.createBlock none).2.preds b = [] :=
      fun b => Body.preds_createBlock ..
    have hsuccs : ∀ b, (Body.empty.createBlock none).2.graph.successors b = [] :=
      fun b => Body.successors_createBlock ..
    refine ⟨rfl, _, ?_, rfl, rfl, hcode, hpreds, hsuccs, rfl⟩
    have hempty : ∀ {b j}, j ∈ (Body.empty.createBlock none).2.code b → False := by
      intro b j hj
      rw [hcode] at hj
      cases hj
    constructor
    case opened => exact ⟨_, rfl, rfl⟩
    case indexed =>
      refine ⟨fun n b => ⟨fun hn => ?_, ?_⟩, fun b j hj => (hempty hj).elim, fun b => ?_⟩
      · cases hn
      · rintro ⟨j, hj, _⟩
        exact (hempty hj).elim
      · rw [hcode]
        exact List.nodup_nil
    case layout =>
      intro b
      exact ⟨[], [], hcode b, fun j hj => (List.not_mem_nil hj).elim, .nil⟩
    case preds_lt =>
      intro b q hq
      rw [hpreds] at hq
      cases hq
    case waits_phi => rintro y c q ⟨l, hl, _⟩; cases hl
    case waits_open => rintro y c q ⟨l, hl, _⟩; cases hl
    case waits_users => rintro y c q ⟨l, hl, _⟩; cases hl
    case root_sealed => exact fun b _ _ => hpreds b
    all_goals intros
    all_goals first
      | contradiction
      | exact (hempty ‹_›).elim

/-- The code stays as it is, and what stands for a variable goes on to do so. -/
theorem Sound.reshape (h : Sound L busy s B) (hnext : s.nextId ≤ s'.nextId)
    (hopened : ∃ fn, s'.opened = some fn ∧ fn.body = B') (hcode : B'.code = B.code)
    (hhome : B'.home = B.home) (hdefs : s'.defs = s.defs) (hpending : s'.pending = s.pending)
    (hsealed : s'.sealedBlocks = s.sealedBlocks)
    (hlt : ∀ c, ∀ q ∈ B'.preds c, q < B'.graph.size) (hc : L.Carries L B.preds B'.preds)
    (hatEnd : ∀ {y a c}, L.AtEnd y a B.preds c → L.AtEnd y a B'.preds c)
    (hpreds : ∀ c, ¬ L.root c ∨ s.isSealed c = true → B'.preds c = B.preds c) :
    Sound L busy s' B' := by
  have hwaits : ∀ y c q, s'.Waits y c q ↔ s.Waits y c q := by
    intro y c q
    rw [Waits, hpending]
    rfl
  have hisSealed : ∀ c, s'.isSealed c = s.isSealed c := fun c => by rw [isSealed, hsealed]; rfl
  constructor
  case opened => exact hopened
  case indexed =>
    obtain ⟨h₁, h₂, h₃⟩ := h.indexed
    exact ⟨by rw [hcode, hhome]; exact h₁, by rw [hcode]; exact h₂, by rw [hcode]; exact h₃⟩
  case bound =>
    intro c j hj
    exact (h.bound c j (hcode ▸ hj)).trans_le hnext
  case users_lt =>
    intro c j hj u hu
    exact (h.users_lt c j (hcode ▸ hj) u hu).trans_le hnext
  case preds_lt => exact hlt
  case phi_mem =>
    rw [hcode]
    exact h.phi_mem
  case phi_inj => exact h.phi_inj
  case phi_defs =>
    rw [hdefs]
    exact h.phi_defs
  case standing =>
    intro c j hj y hy
    exact (h.standing c j (hcode ▸ hj) y hy).mono hc (fun hr => hpreds c (Or.inl hr)) Iff.rfl rfl
      (hwaits y c j.id)
  case layout =>
    intro c
    obtain ⟨head, tail, hsplit, hhead, htail⟩ := h.layout c
    refine ⟨head, tail, by rw [hcode, hsplit], hhead, ?_⟩
    exact forall₂_imp_of_mem htail fun e j hj hk => hk.mono hc hnext (fun _ _ => rfl)
      (h.bound c j (hsplit ▸ List.mem_append_right _ hj))
  case write_defs =>
    rw [hdefs]
    exact h.write_defs
  case write_inert =>
    exact fun y c d hw => (h.write_inert y c d hw).mono hnext fun e j hj _ hop =>
      ⟨j, hcode ▸ hj, rfl, hop⟩
  case start_base => exact fun y c d hs => (h.start_base y c d hs).mono hnext fun _ _ => rfl
  case defs_atEnd =>
    rw [hdefs]
    exact fun y c a ha => hatEnd (h.defs_atEnd y c a ha)
  case waits_phi => exact fun y c q hw => h.waits_phi y c q ((hwaits y c q).mp hw)
  case waits_open =>
    intro y c q hw
    rw [hisSealed]
    exact h.waits_open y c q ((hwaits y c q).mp hw)
  case waits_users =>
    rw [hcode]
    exact fun y c q hw => h.waits_users y c q ((hwaits y c q).mp hw)
  case pending_nodup =>
    rw [hpending]
    exact h.pending_nodup
  case busy_phi => exact h.busy_phi
  case busy_le => exact fun q m hq => (h.busy_le q m hq).trans hnext
  case busy_users =>
    rw [hcode]
    exact h.busy_users
  case root_sealed =>
    intro c hc hs
    rw [hisSealed] at hs
    rw [hpreds c (Or.inr hs)]
    exact h.root_sealed c hc hs
  case start_sealed =>
    intro y c d hs
    rw [hisSealed]
    exact h.start_sealed y c d hs
  case start_defs =>
    rw [hdefs]
    exact h.start_defs

/-- What the invariant does not look at may change. -/
theorem Sound.of_same_graph (h : Sound L busy s B) (hnext : s.nextId ≤ s'.nextId)
    (hopened : ∃ fn, s'.opened = some fn ∧ fn.body = B') (hgraph : B'.graph = B.graph)
    (hhome : B'.home = B.home) (hdefs : s'.defs = s.defs) (hpending : s'.pending = s.pending)
    (hsealed : s'.sealedBlocks = s.sealedBlocks) : Sound L busy s' B' := by
  have hcode : B'.code = B.code := by
    funext c
    rw [Body.code, hgraph]
    rfl
  have hpreds : B'.preds = B.preds := by
    funext c
    rw [Body.preds, hgraph]
  refine h.reshape hnext hopened hcode hhome hdefs hpending hsealed ?_ ?_ ?_ ?_
  · rw [hpreds, hgraph]
    exact h.preds_lt
  · rw [hpreds]
    exact Ledger.Grows.refl.carries
  · rw [hpreds]
    exact fun ha => ha
  · exact fun c _ => by rw [hpreds]

/-- A variable is written at the end of a block that no edge leaves. -/
theorem Sound.write (h : Sound L busy s B) (hb : ∀ d, b ∉ B.preds d) (hv : B.Inert s.nextId v) :
    Sound (L.wrote x b v) busy { s with defs := s.defs.insert (x, b) v } B := by
  have hc : L.Carries (L.wrote x b v) B.preds B.preds := Ledger.carries_wrote hb
  have hdom := (steady_remember (s := s) (B := B) (x := x) (b := b) (v := v)).defs
  have hwrite : ∀ y c d, (L.wrote x b v).write y c = some d →
      (y = x ∧ c = b) ∧ d = v ∨ ¬ (y = x ∧ c = b) ∧ L.write y c = some d := by
    intro y c d hd
    by_cases hyc : y = x ∧ c = b
    · exact Or.inl ⟨hyc, (Option.some.inj ((if_pos hyc).symm.trans hd)).symm⟩
    · exact Or.inr ⟨hyc, (if_neg hyc).symm.trans hd⟩
  refine { h with
    phi_defs := ?_, standing := ?_, layout := ?_, write_defs := ?_, write_inert := ?_,
    defs_atEnd := ?_, start_defs := ?_ }
  · intro q y c hq
    obtain ⟨a, ha⟩ := h.phi_defs q y c hq
    exact hdom _ a ha
  · intro c j hj y hy
    exact (h.standing c j hj y hy).mono hc (fun _ => rfl) Iff.rfl rfl Iff.rfl
  · intro c
    obtain ⟨head, tail, hsplit, hhead, htail⟩ := h.layout c
    refine ⟨head, tail, hsplit, hhead, forall₂_imp_of_mem htail fun e j hj hk => ?_⟩
    exact hk.mono hc le_rfl (fun _ _ => rfl) (h.bound c j (hsplit ▸ List.mem_append_right _ hj))
  · intro y c d hd
    rw [OrderedMap.get?_insert]
    rcases hwrite y c d hd with ⟨⟨rfl, rfl⟩, rfl⟩ | ⟨hne, hd⟩
    · exact if_pos rfl
    · rw [if_neg]
      · exact h.write_defs y c d hd
      · rintro ⟨rfl, rfl⟩
        exact hne ⟨rfl, rfl⟩
  · intro y c d hd
    rcases hwrite y c d hd with ⟨_, rfl⟩ | ⟨_, hd⟩
    · exact hv
    · exact h.write_inert y c d hd
  · intro y c a ha
    rw [OrderedMap.get?_insert] at ha
    split at ha
    · next heq =>
      cases heq
      cases ha
      exact Ledger.atEnd_wrote
    · next hne =>
      refine (h.defs_atEnd y c a ha).wrote hb ?_
      rintro ⟨rfl, rfl⟩
      exact hne rfl
  · intro y c d hd
    obtain ⟨a, ha⟩ := h.start_defs y c d hd
    exact hdom _ a ha

/-- A block is created.  Paths may begin there already. -/
theorem Sound.createBlock (h : Sound L busy s B) (hrun : createBlock s = .ok b s') :
    b = B.graph.size ∧ Sound L busy s' (B.createBlock none).2 ∧
      Advances L s B L s' (B.createBlock none).2 ∧ ∃ fn, s.opened = some fn ∧
        s' = { s with opened := some { fn with body := (B.createBlock none).2 } } := by
  obtain ⟨fn, body, hfn, hok, rfl⟩ := changeBody_eq_ok.mp hrun
  obtain ⟨fn', hfn', rfl⟩ := h.opened
  obtain rfl := Option.some.inj (hfn.symm.trans hfn')
  cases hok
  have hcode : (fn.body.createBlock none).2.code = fn.body.code :=
    funext fun c => Body.code_createBlock ..
  have hpreds : (fn.body.createBlock none).2.preds = fn.body.preds :=
    funext fun c => Body.preds_createBlock ..
  refine ⟨rfl, ?_, ⟨le_rfl, fun _ _ => rfl, hpreds ▸ fun ha => ha⟩, fn, hfn, rfl⟩
  refine h.reshape le_rfl ⟨_, rfl, rfl⟩ hcode (Body.home_createBlock ..) rfl rfl rfl ?_ ?_ ?_ ?_
  · intro c q hq
    rw [hpreds] at hq
    rw [Body.size_createBlock]
    exact Nat.lt_succ_of_lt (h.preds_lt c q hq)
  · rw [hpreds]
    exact Ledger.Grows.refl.carries
  · rw [hpreds]
    exact fun ha => ha
  · exact fun c _ => by rw [hpreds]

/-- An edge is added into a block that is not sealed. -/
theorem Sound.addEdge {source target : Nat} (h : Sound L busy s B) (hroot : L.root target)
    (hopen : s.isSealed target = false) (hrun : addEdge source target s = .ok () s') :
    ∃ fn B', s.opened = some fn ∧ Body.addEdge source target B = .ok () B' ∧ Sound L busy s' B' ∧
      Advances L s B L s' B' ∧ s' = { s with opened := some { fn with body := B' } } := by
  rw [addEdge_eq_changeBody] at hrun
  obtain ⟨fn, B', hfn, hok, rfl⟩ := changeBody_eq_ok.mp hrun
  obtain ⟨fn', hfn', rfl⟩ := h.opened
  obtain rfl := Option.some.inj (hfn.symm.trans hfn')
  have hedge := changed_eq_ok.mp hok
  obtain ⟨hsrc, htgt, hsize, hcode, hhome, _, hpreds, _⟩ := Body.addEdge_ok hedge
  have hstart : ∀ y, L.start y target = none := by
    intro y
    by_contra hne
    obtain ⟨c, hc⟩ := Option.ne_none_iff_exists'.mp hne
    simp [h.start_sealed y target c hc] at hopen
  have hnew : ∀ c q, q ∈ B'.preds c → q ∈ fn.body.preds c ∨ c = target ∧ q = source := by
    intro c q hq
    rw [hpreds] at hq
    split at hq
    · next hct =>
      rcases List.mem_append.mp hq with hq | hq
      · exact Or.inl hq
      · exact Or.inr ⟨hct, List.mem_singleton.mp hq⟩
    · exact Or.inl hq
  have hc := Ledger.carries_of_newEdge hroot hstart hnew
  refine ⟨fn, B', hfn, hedge, ?_, ⟨le_rfl, fun _ _ => rfl, hc.atEntry⟩, rfl⟩
  refine h.reshape le_rfl ⟨_, rfl, rfl⟩ (funext hcode) hhome rfl rfl rfl ?_ hc
    (Ledger.AtEnd.of_newEdge hroot hstart hnew) ?_
  · intro c q hq
    rw [hsize]
    rcases hnew c q hq with hq | ⟨_, rfl⟩
    · exact h.preds_lt c q hq
    · exact hsrc
  · -- the target is a root, and it is not sealed
    intro c hc
    rw [hpreds, if_neg]
    rintro rfl
    rcases hc with hc | hc
    · exact hc hroot
    · exact absurd (hc.symm.trans hopen) (by simp)

/-- An instruction is emitted. -/
theorem Sound.append (h : Sound L busy s B) {i : Inst} (hid : i.id = s.nextId)
    (hop : i.op ≠ .phi) {roles : List Role}
    (hroles : List.Forall₂ (L.Plays (s.nextId + 1) B.preds i.block) roles i.operands)
    (husers : i.users = []) (hB : B.append i = .ok B') (fn : OpenFunction) :
    Sound (L.emit i.block ⟨i.id, i.op, i.targets, i.callee, roles⟩) busy
      { s with nextId := s.nextId + 1, opened := some { fn with body := B' } } B' := by
  have hfresh : ∀ c, ∀ j ∈ B.code c, j.id ≠ i.id :=
    fun c j hj => hid ▸ Nat.ne_of_lt (h.bound c j hj)
  obtain ⟨_, hframe, hB', f, hf, hfops, hcode⟩ := h.indexed.append_ok hfresh hB
  have hpreds : B'.preds = B.preds := funext hframe.preds
  have hmem' : ∀ c j, j ∈ B'.code c ↔
      ∃ k, (c = i.block ∧ k = i ∨ k ∈ B.code c) ∧ f k = j := by
    intro c j
    rw [hcode, List.mem_map]
    split <;> simp [*, or_comm]
  have hu : ∀ k, ∀ u ∈ (f k).users, u ∈ k.users ∨ u = i.id := fun k u hk =>
    ((hf k).users u hk).imp_right fun hu => hu.resolve_left List.not_mem_nil
  have hnone : L.phi i.id = none := h.phi_none_of_le hid.ge
  have hg : L.Grows (L.emit i.block ⟨i.id, i.op, i.targets, i.callee, roles⟩) := Ledger.grows_emit
  have hbase : ∀ {a}, L.Base s.nextId a → L.Base (s.nextId + 1) a :=
    fun ha => ha.mono (Nat.le_succ _) fun _ _ => rfl
  constructor
  case opened => exact ⟨_, rfl, rfl⟩
  case indexed => exact hB'
  case bound =>
    intro c j hj
    obtain ⟨k, ⟨_, rfl⟩ | hk, rfl⟩ := (hmem' c j).mp hj
    · rw [(hf k).id, hid]
      exact Nat.lt_succ_self _
    · rw [(hf k).id]
      exact Nat.lt_succ_of_lt (h.bound c k hk)
  case users_lt =>
    intro c j hj u huj
    obtain ⟨k, hk, rfl⟩ := (hmem' c j).mp hj
    rcases hu k u huj with huk | rfl
    · rcases hk with ⟨_, rfl⟩ | hk
      · rw [husers] at huk
        cases huk
      · exact Nat.lt_succ_of_lt (h.users_lt c k hk u huk)
    · exact hid ▸ Nat.lt_succ_self _
  case preds_lt =>
    rw [hpreds, hframe.size]
    exact h.preds_lt
  case phi_mem =>
    intro q y c hq
    obtain ⟨j, hj, hjq⟩ := h.phi_mem q y c hq
    exact ⟨f j, (hmem' c _).mpr ⟨j, Or.inr hj, rfl⟩, (hf j).id.trans hjq⟩
  case phi_inj => exact h.phi_inj
  case phi_defs => exact h.phi_defs
  case standing =>
    intro c j hj y hy
    obtain ⟨k, hk, rfl⟩ := (hmem' c j).mp hj
    rw [(hf k).id] at hy
    rcases hk with ⟨_, rfl⟩ | hk
    · exact absurd (hnone.symm.trans hy) (by simp)
    · rw [hpreds]
      exact ((h.standing c k hk y hy).congr (hf k).id (hf k).op (hfops k) rfl).mono
        hg.carries (fun _ => rfl) Iff.rfl rfl Iff.rfl
  case layout =>
    intro c
    obtain ⟨head, tail, hsplit, hhead, htail⟩ := h.layout c
    have hold : List.Forall₂ (Kept (L.emit i.block ⟨i.id, i.op, i.targets, i.callee, roles⟩)
        (s.nextId + 1) B.preds c) (L.emitted c) (tail.map f) := by
      rw [List.forall₂_map_right_iff]
      refine forall₂_imp_of_mem htail fun e j hj hk => ?_
      have hk' := hk.mono hg.carries (Nat.le_succ _) (fun _ _ => rfl)
        (h.bound c j (hsplit ▸ List.mem_append_right _ hj))
      exact ⟨(hf j).id.trans hk'.id, (hf j).op.trans hk'.op, (hf j).targets.trans hk'.targets,
        (hf j).callee.trans hk'.callee, hk'.not_phi, (hf j).id ▸ hk'.phi, hfops j ▸ hk'.operands⟩
    have hhead' : ∀ j ∈ head.map f, (L.phi j.id).isSome := by
      intro j hj
      obtain ⟨k, hk, rfl⟩ := List.mem_map.mp hj
      rw [(hf k).id]
      exact hhead k hk
    rw [hpreds]
    by_cases hc : c = i.block
    · subst hc
      refine ⟨head.map f, tail.map f ++ [f i], ?_, hhead', ?_⟩
      · rw [hcode, if_pos rfl, hsplit]
        simp
      · have hself : Kept (L.emit i.block ⟨i.id, i.op, i.targets, i.callee, roles⟩)
            (s.nextId + 1) B.preds i.block ⟨i.id, i.op, i.targets, i.callee, roles⟩ (f i) := by
          refine ⟨(hf i).id, (hf i).op, (hf i).targets, (hf i).callee, hop, (hf i).id ▸ hnone, ?_⟩
          rw [hfops i]
          exact hroles.imp fun _ _ hp =>
            hp.mono hg.carries le_rfl fun _ _ => rfl
        rw [Ledger.emitted_emit_self]
        exact List.rel_append hold (.cons hself .nil)
    · refine ⟨head.map f, tail.map f, ?_, hhead', ?_⟩
      · rw [hcode, if_neg hc, hsplit, List.map_append]
      · rw [Ledger.emitted_emit_of_ne hc]
        exact hold
  case write_defs => exact h.write_defs
  case write_inert =>
    intro y c d hw
    refine (h.write_inert y c d hw).mono (Nat.le_succ _) fun e j hj _ hphi => ?_
    obtain ⟨k, hk, rfl⟩ := (hmem' e j).mp hj
    rcases hk with ⟨_, rfl⟩ | hk
    · exact absurd ((hf k).op.symm.trans hphi) hop
    · exact ⟨k, hk, (hf k).id.symm, (hf k).op.symm.trans hphi⟩
  case start_base => exact fun y c d hs => hbase (h.start_base y c d hs)
  case defs_atEnd =>
    rw [hpreds]
    exact fun y c a ha => hg.atEnd (h.defs_atEnd y c a ha)
  case waits_phi => exact h.waits_phi
  case waits_open => exact h.waits_open
  case waits_users =>
    intro y c q hw d j hj huj
    obtain ⟨k, hk, rfl⟩ := (hmem' d j).mp hj
    rcases hu k q huj with huk | rfl
    · rcases hk with ⟨_, rfl⟩ | hk
      · rw [husers] at huk
        cases huk
      · exact h.waits_users y c q hw d k hk huk
    · exact absurd (hnone.symm.trans (h.waits_phi y c _ hw)) (by simp)
  case pending_nodup => exact h.pending_nodup
  case busy_phi => exact h.busy_phi
  case busy_le => exact fun q m hq => Nat.le_succ_of_le (h.busy_le q m hq)
  case busy_users =>
    intro q m hq d j hj huj
    obtain ⟨k, hk, rfl⟩ := (hmem' d j).mp hj
    rw [(hf k).id]
    rcases hu k q huj with huk | rfl
    · rcases hk with ⟨_, rfl⟩ | hk
      · rw [husers] at huk
        cases huk
      · exact h.busy_users q m hq d k hk huk
    · exact absurd ((h.busy_none_of_le hid.ge).symm.trans hq) (by simp)
  case root_sealed =>
    rw [hpreds]
    exact h.root_sealed
  case start_sealed => exact h.start_sealed
  case start_defs => exact h.start_defs

theorem append_eq_ok {i : Inst} : append i s = .ok () s' ↔
    ∃ fn B', s.opened = some fn ∧ fn.body.append i = .ok B' ∧
      s' = { s with opened := some { fn with body := B' } } := by
  unfold append
  rw [changeBody_eq_ok]
  constructor
  · rintro ⟨fn, B', hfn, hok, rfl⟩
    cases hB : fn.body.append i with
    | error e =>
      rw [hB] at hok
      cases hok
    | ok C =>
      rw [hB] at hok
      cases hok
      exact ⟨fn, B', hfn, hB, rfl⟩
  · rintro ⟨fn, B', hfn, hB, rfl⟩
    exact ⟨fn, B', hfn, by rw [hB]; rfl, rfl⟩

theorem emitInst_eq_ok {op : Op} {operands : List Value} {callee : Option String}
    (hcur : s.current = some b) : emitInst op operands callee s = .ok v s' ↔
      v = .result s.nextId ∧ append { op, id := s.nextId, block := b, operands, callee }
        { s with nextId := s.nextId + 1 } = .ok () s' := by
  unfold emitInst
  simp only [bind_eq_ok, get_eq_ok, freshId_eq_ok]
  constructor
  · rintro ⟨_, _, ⟨rfl, rfl⟩, _, u, ⟨rfl, hu⟩, hrun⟩
    simp only [hcur, bind_eq_ok, pure_eq_ok] at hrun
    obtain ⟨_, _, happ, rfl, rfl⟩ := hrun
    exact ⟨rfl, hu ▸ happ⟩
  · rintro ⟨rfl, happ⟩
    generalize hu : { s with nextId := s.nextId + 1 } = u at happ
    refine ⟨s, s, ⟨rfl, rfl⟩, _, u, ⟨rfl, hu⟩, ?_⟩
    rw [hcur]
    exact bind_eq_ok.mpr ⟨(), s', happ, pure_eq_ok.mpr ⟨rfl, rfl⟩⟩

theorem emitBranch_eq_ok {cond : Option Value} {targets : List Nat} :
    emitBranch b cond targets s = .ok () s' ↔
      append { op := .br, id := s.nextId, block := b, operands := cond.toList, targets }
        { s with nextId := s.nextId + 1 } = .ok () s' := by
  unfold emitBranch
  simp only [bind_eq_ok, freshId_eq_ok]
  constructor
  · rintro ⟨_, _, ⟨rfl, rfl⟩, happ⟩
    exact happ
  · exact fun happ => ⟨_, _, ⟨rfl, rfl⟩, happ⟩

/-- The state after an instruction was emitted at the end of its block. -/
theorem Sound.appendNext (h : Sound L busy s B) {i : Inst} (hid : i.id = s.nextId)
    (hop : i.op ≠ .phi) (husers : i.users = []) {roles : List Role}
    (hroles : List.Forall₂ (L.Plays s.nextId B.preds i.block) roles i.operands)
    (hrun : Builder.append i { s with nextId := s.nextId + 1 } = .ok () s') :
    ∃ fn B', s.opened = some fn ∧ B.append i = .ok B' ∧
      s' = { s with nextId := s.nextId + 1, opened := some { fn with body := B' } } ∧
      Sound (L.emit i.block ⟨i.id, i.op, i.targets, i.callee, roles⟩) busy s' B' ∧
      Advances L s B (L.emit i.block ⟨i.id, i.op, i.targets, i.callee, roles⟩) s' B' := by
  obtain ⟨fn, B', hfn, hB, rfl⟩ := append_eq_ok.mp hrun
  obtain ⟨fn', hfn', rfl⟩ := h.opened
  obtain rfl : fn = fn' := Option.some.inj (hfn.symm.trans hfn')
  have hroles' : List.Forall₂ (L.Plays (s.nextId + 1) fn.body.preds i.block) roles i.operands :=
    hroles.imp fun _ _ hp => hp.mono Ledger.Grows.refl.carries (Nat.le_succ _) fun _ _ => rfl
  have hs := h.append hid hop hroles' husers hB fn
  have hfresh : ∀ c, ∀ j ∈ fn.body.code c, j.id ≠ i.id :=
    fun c j hj => hid ▸ Nat.ne_of_lt (h.bound c j hj)
  have hpreds : B'.preds = fn.body.preds :=
    funext (h.indexed.append_ok hfresh hB).2.1.preds
  exact ⟨fn, B', hfn, hB, rfl, hs, Nat.le_succ _, fun _ _ => rfl,
    hpreds ▸ Ledger.grows_emit.atEntry⟩

/-- Sealing a block keeps what was known before. -/
theorem Extended.advances_of_seal {L' : Ledger} {u : Builder} (h : Sound L busy s B)
    (he : Extended 0 (L.close b) { s with pending := s.pending.erase b } B L' u B') :
    Advances L s B L' { u with sealedBlocks := u.sealedBlocks ++ [b] } B' := by
  have hg : L.Grows L' := ⟨fun p _ hp => (he.phi p (h.phi_lt hp)).trans hp, he.write, he.start,
    fun c hc => ((he.root ▸ hc : (L.close b).root c)).1⟩
  exact ⟨he.steady.nextId, he.phi, he.steady.preds ▸ hg.atEntry⟩

/-- A block without predecessors is sealed, and paths go on to begin there. -/
theorem Sound.sealIsolated (o : Options) (h : Sound L idle s B) (hopen : s.isSealed b = false)
    (hcode : B.code b = []) (hpreds : B.preds b = []) (hrun : Builder.sealBlock o b s = .ok () s') :
    Sound L idle s' B ∧
      s' = { s with pending := s.pending.erase b, sealedBlocks := s.sealedBlocks ++ [b] } := by
  have hno : ∀ y q, ¬ s.Waits y b q := by
    intro y q hw
    obtain ⟨j, hj, _⟩ := h.phi_mem q y b (h.waits_phi y b q hw)
    rw [hcode] at hj
    cases hj
  have hempty : s.waitingPhis b = [] := by
    rw [List.eq_nil_iff_forall_not_mem]
    rintro ⟨y, q⟩ hq
    exact hno y q (mem_waitingPhis.mp hq)
  obtain ⟨u, hloop, rfl⟩ := (sealBlock_eq_ok hopen).mp hrun
  rw [hempty, forM_nil, pure_eq_ok] at hloop
  obtain ⟨_, rfl⟩ := hloop
  refine ⟨?_, rfl⟩
  have hwaits : ∀ y c q, Waits { s with
      pending := s.pending.erase b, sealedBlocks := s.sealedBlocks ++ [b] } y c q ↔
      s.Waits y c q := by
    refine fun y c q => waits_erase.trans ⟨And.right, fun hw => ⟨?_, hw⟩⟩
    rintro rfl
    exact hno y q hw
  have hsealed : ∀ c, isSealed { s with
      pending := s.pending.erase b, sealedBlocks := s.sealedBlocks ++ [b] } c = true ↔
      s.isSealed c = true ∨ c = b := by
    intro c
    simp [isSealed]
  refine { h with
    standing := ?_, waits_phi := ?_, waits_open := ?_, waits_users := ?_, pending_nodup := ?_,
    root_sealed := ?_, start_sealed := ?_ }
  · intro c j hj y hy
    exact (h.standing c j hj y hy).mono Ledger.Grows.refl.carries (fun _ => rfl) Iff.rfl rfl
      (hwaits y c j.id)
  · exact fun y c q hw => h.waits_phi y c q ((hwaits y c q).mp hw)
  · intro y c q hw
    rw [Bool.eq_false_iff, ne_eq, hsealed, not_or]
    constructor
    · simpa using h.waits_open y c q ((hwaits y c q).mp hw)
    · rintro rfl
      exact hno y q ((hwaits y c q).mp hw)
  · exact fun y c q hw => h.waits_users y c q ((hwaits y c q).mp hw)
  · intro c l hl
    rw [OrderedMap.get?_erase] at hl
    split at hl
    · cases hl
    · exact h.pending_nodup c l hl
  · intro c hc hs
    rcases (hsealed c).mp hs with hs | rfl
    · exact h.root_sealed c hc hs
    · exact hpreds
  · exact fun y c d hd => (hsealed c).mpr (Or.inl (h.start_sealed y c d hd))

end Builder

end Compiler16.Ssa
