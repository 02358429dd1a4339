import Compiler16.Proofs.Edits
import Compiler16.Proofs.NeatReading

/-!
# Changes of neat states

A state stays neat when blocks, edges and instructions are added and when variables are
written, as in `Edits` it goes on to agree with its ledger.  An instruction may have as operands
only what is not removed.

## Main results

* `Neat.begin`: a function begins
* `Neat.reshape`: blocks and edges are added
* `Neat.append`, `Neat.write`: an instruction is emitted, a variable is written
* `Neat.sealIsolated`: a block is sealed that no edge enters
-/

namespace Compiler16.Ssa

open Compiler16.Flow

namespace Builder

variable {L : Ledger} {busy : Nat → Option Progress} {s s' : Builder} {B B' : Body}
  {W : Nat → Prop} {x b : Nat} {v : Value}

/-- Results among the values of global variables are of instructions that there are, and that
were not removed. -/
structure Known (s : Builder) : Prop where
  live : ∀ x, s.Live (s.globalValue x)
  removed_lt : ∀ d ∈ s.removed, d < s.nextId

theorem Neat.known (hn : Neat W L busy s B) : s.Known := ⟨hn.globals, hn.removed_lt⟩

/-- What is new was not removed. -/
theorem Known.live_nextId (hs : s.Known) (hnext : s.nextId < s'.nextId)
    (hremoved : s'.removed = s.removed) : s'.Live (.result s.nextId) := by
  rintro d ⟨rfl⟩
  exact ⟨hnext, fun hmem => lt_irrefl _ (hs.removed_lt _ (hremoved ▸ hmem))⟩

theorem Known.mono (hs : s.Known) (hnext : s.nextId ≤ s'.nextId) (hremoved : s'.removed = s.removed)
    (hglobals : s'.globalDefs = s.globalDefs) : s'.Known := by
  refine ⟨fun x => ?_, fun d hd => (hs.removed_lt d (hremoved ▸ hd)).trans_le hnext⟩
  rw [globalValue, hglobals]
  exact (hs.live x).mono hnext hremoved

/-- A function that has just begun. -/
theorem Neat.begin (hs : s.Known) (hcode : ∀ b, B.code b = []) (hdefs : s.defs = {}) :
    Neat W .initial busy s B := by
  have hempty : ∀ {c j}, j ∉ B.code c := by
    intro c j hj
    rw [hcode] at hj
    cases hj
  have hnone : ∀ {k v}, s.defs.get? k ≠ some v := by
    intro k v hk
    rw [hdefs] at hk
    cases hk
  refine ⟨⟨fun k i hi => absurd hi hempty, fun k i hi => absurd hi hempty, ?_⟩, ?_,
    fun k v hk => absurd hk hnone, hs.live, fun _ _ _ => rfl, hs.removed_lt,
    fun d _ b j hj => absurd hj hempty, fun b j hj => absurd hj hempty,
    fun b j hj => absurd hj hempty, fun y c v hv => absurd hv hnone,
    fun b j hj => absurd hj hempty⟩
  · rintro u d _ ⟨c, j, hj, _⟩
    exact hempty hj
  · rintro u d ⟨c, j, hj, _⟩
    exact absurd hj hempty

/-- The code stays as it is, and so do the predecessors of blocks where no path begins. -/
theorem Neat.reshape (hn : Neat W L busy s B) (hnext : s.nextId ≤ s'.nextId)
    (hremoved : s'.removed = s.removed) (hdefs : s'.defs = s.defs)
    (hglobals : s'.globalDefs = s.globalDefs) (hsealed : s'.sealedBlocks = s.sealedBlocks)
    (hpending : s'.pending = s.pending) (hcode : B'.code = B.code)
    (hkeeps : ∀ c (k : Nat) q, (B.preds c)[k]? = some q → (B'.preds c)[k]? = some q)
    (hpreds : ∀ c, (¬ L.root c ∨ s.isSealed c = true) → B'.preds c = B.preds c) :
    Neat W L busy s' B' := by
  have hknown : s'.Known := hn.known.mono hnext hremoved hglobals
  have hglobal : ∀ y, s'.globalValue y = s.globalValue y := fun y => by simp [globalValue, hglobals]
  constructor
  case tracked =>
    rw [hremoved]
    exact hn.tracked.congr (congrFun hcode)
  case uses_lt =>
    rintro u d ⟨c, j, hj, hju, ho⟩
    exact (hn.uses_lt u d ⟨c, j, hcode ▸ hj, hju, ho⟩).trans_le hnext
  case defs =>
    rw [hdefs]
    exact fun k v hk => (hn.defs k v hk).mono hnext hremoved
  case globals => exact hknown.live
  case globals_phi =>
    simp only [hglobal]
    exact hn.globals_phi
  case removed_lt => exact hknown.removed_lt
  case removed =>
    rw [hremoved, hcode]
    exact hn.removed
  case copied =>
    rw [hremoved, hcode]
    exact hn.copied
  case operand =>
    rw [hcode, hdefs]
    intro c j hj hop y hy k o ho
    obtain ⟨q, hq, hqo⟩ := hn.operand c j hj hop y hy k o ho
    exact ⟨q, hkeeps c k q hq, hqo⟩
  case origin =>
    rw [hcode, hdefs]
    intro y c a ha
    refine (hn.origin y c a ha).imp_right fun h => ?_
    rw [isSealed, hsealed, hpreds c h.1]
    exact h
  case settled =>
    rw [hcode]
    intro c j hj hop hb hw
    refine hn.settled c j hj hop hb fun y e hwait => hw y e ?_
    unfold Waits at hwait ⊢
    rwa [hpending]

/-- An edge is added into a block that is not sealed. -/
theorem Neat.addEdge {source target : Nat} (hn : Neat W L busy s B) (hroot : L.root target)
    (hopen : s.isSealed target = false) (hB : Body.addEdge source target B = .ok () B')
    (fn : OpenFunction) : Neat W L busy { s with opened := some { fn with body := B' } } B' := by
  obtain ⟨_, _, _, hcode, _, _, hpreds, _⟩ := Body.addEdge_ok hB
  refine hn.reshape le_rfl rfl rfl rfl rfl rfl (funext hcode) (fun c k q hq => ?_) fun c hc => ?_
  · rw [hpreds]
    split
    · rw [List.getElem?_append_left (List.getElem?_eq_some_iff.mp hq).1]
      exact hq
    · exact hq
  · rw [hpreds, if_neg]
    rintro rfl
    rcases hc with hc | hc
    · exact hc hroot
    · exact absurd (hc.symm.trans hopen) (by simp)

/-- An instruction is emitted. -/
theorem Neat.append (h : Sound L busy s B) (hn : Neat W L busy s B) {i : Inst}
    (hid : i.id = s.nextId) (hop : i.op ≠ .phi) (husers : i.users = [])
    (hlive : ∀ v ∈ i.operands, s.Live v) (hB : B.append i = .ok B') (e : Emitted)
    (fn : OpenFunction) : Neat W (L.emit i.block e) busy
      { s with nextId := s.nextId + 1, opened := some { fn with body := B' } } B' := by
  have hfresh : ∀ c, ∀ j ∈ B.code c, j.id ≠ i.id :=
    fun c j hj => hid ▸ Nat.ne_of_lt (h.bound c j hj)
  obtain ⟨_, hframe, _, f, hf, hfops, hcode⟩ := h.indexed.append_ok hfresh hB
  have hpreds : B'.preds = B.preds := funext hframe.preds
  have hmem : ∀ c j, j ∈ B'.code c ↔ ∃ k, (c = i.block ∧ k = i ∨ k ∈ B.code c) ∧ f k = j := by
    intro c j
    rw [hcode, List.mem_map]
    split <;> simp [*, or_comm]
  have hlt : ∀ d, .result d ∈ i.operands → d < s.nextId := fun d hd => (hlive _ hd d rfl).1
  have hnew : s.nextId ∉ s.removed := fun hmem => lt_irrefl _ (hn.removed_lt _ hmem)
  have hphis : ∀ c j, j ∈ B'.code c → j.op = .phi → ∃ k ∈ B.code c, k.op = .phi ∧ f k = j := by
    intro c j hj hjop
    obtain ⟨k, ⟨_, rfl⟩ | hk, rfl⟩ := (hmem c j).mp hj
    · exact absurd ((hf k).op ▸ hjop) hop
    · exact ⟨k, hk, (hf k).op ▸ hjop, rfl⟩
  constructor
  case tracked =>
    refine hn.tracked.append h.indexed hfresh (fun u hu => ?_) (fun hself => ?_) ?_ husers hB
    · exact absurd (hn.uses_lt u _ hu) (by rw [hid]; exact lt_irrefl _)
    · exact absurd (hlt _ hself) (by rw [hid]; exact lt_irrefl _)
    · exact fun d hd hmem => (hlive _ hmem d rfl).2 hd
  case uses_lt =>
    rintro u d ⟨c, _, hj, _, ho⟩
    obtain ⟨k, ⟨_, rfl⟩ | hk, rfl⟩ := (hmem c _).mp hj
    · exact Nat.lt_succ_of_lt (hlt d (hfops k ▸ ho))
    · exact Nat.lt_succ_of_lt (hn.uses_lt k.id d ⟨c, k, hk, rfl, hfops k ▸ ho⟩)
  case defs => exact fun k v hk => (hn.defs k v hk).mono (Nat.le_succ _) rfl
  case globals => exact fun y => (hn.globals y).mono (Nat.le_succ _) rfl
  case globals_phi => exact hn.globals_phi
  case removed_lt => exact fun d hd => Nat.lt_succ_of_lt (hn.removed_lt d hd)
  case removed =>
    intro d hd c _ hj hjd
    obtain ⟨k, ⟨_, rfl⟩ | hk, rfl⟩ := (hmem c _).mp hj
    · rw [(hf k).id, hid] at hjd
      exact absurd (hjd ▸ hd) hnew
    · rw [(hf k).op]
      exact hn.removed d hd c k hk ((hf k).id.symm.trans hjd)
  case copied =>
    intro c _ hj hsome
    obtain ⟨k, ⟨_, rfl⟩ | hk, rfl⟩ := (hmem c _).mp hj
    · rw [(hf k).id, hid] at hsome
      have hnone : (L.emit k.block e).phi s.nextId = none := h.phi_none_of_le le_rfl
      simp [hnone] at hsome
    · rw [(hf k).op, (hf k).id]
      exact hn.copied c k hk ((hf k).id ▸ hsome)
  case operand =>
    intro c j hj hjop y hy k o ho
    obtain ⟨l, hl, hlop, rfl⟩ := hphis c j hj hjop
    rw [hpreds]
    exact hn.operand c l hl hlop y ((hf l).id ▸ hy) k o (hfops l ▸ ho)
  case origin =>
    intro y c a ha
    rw [hpreds]
    refine (hn.origin y c a ha).imp_left ?_
    rintro ⟨j, hj, hv, hsource⟩
    refine ⟨f j, (hmem c _).mpr ⟨j, Or.inr hj, rfl⟩, hv.trans (congrArg _ (hf j).id.symm), ?_⟩
    rw [(hf j).id]
    exact hsource
  case settled =>
    intro c j hj hjop hb hw
    obtain ⟨l, hl, hlop, rfl⟩ := hphis c j hj hjop
    rw [(hf l).id] at hb hw ⊢
    rw [Inst.mergedValue?, Inst.result, hfops, (hf l).id]
    exact hn.settled c l hl hlop hb hw

/-- A variable is written at the end of a block that no edge leaves: with the result of an
instruction of the block, or with an argument in a block that no edge enters. -/
theorem Neat.write (hn : Neat W L busy s B) (hb : ∀ d, b ∉ B.preds d) (hv : s.Live v)
    (hphi : ∀ d, v = .result d → L.phi d = none)
    (hsource : (∃ j ∈ B.code b, v = .result j.id) ∨ s.isSealed b = true ∧ B.preds b = [])
    {globalDefs : OrderedMap Nat Value}
    (hglobals : globalDefs = s.globalDefs ∨ globalDefs = s.globalDefs.insert x v) :
    Neat W (L.wrote x b v) busy { s with defs := s.defs.insert (x, b) v, globalDefs } B := by
  have hglobal : ∀ y, globalValue { s with defs := s.defs.insert (x, b) v, globalDefs } y =
      s.globalValue y ∨
      globalValue { s with defs := s.defs.insert (x, b) v, globalDefs } y = v := by
    intro y
    rcases hglobals with rfl | rfl
    · exact Or.inl rfl
    · simp only [globalValue, OrderedMap.get?_insert]
      by_cases hy : x = y
      · exact Or.inr (by rw [if_pos hy]; rfl)
      · exact Or.inl (by rw [if_neg hy])
  -- what is remembered for predecessors stays
  have hpred : ∀ {y c q a}, q ∈ B.preds c → s.defs.get? (y, q) = some a →
      (s.defs.insert (x, b) v).get? (y, q) = some a := by
    intro y c q a hq ha
    rw [OrderedMap.get?_insert, if_neg, ha]
    rintro ⟨rfl, rfl⟩
    exact hb c hq
  refine { hn with defs := ?_, globals := ?_, globals_phi := ?_, operand := ?_, origin := ?_ }
  · intro k a ha
    rw [OrderedMap.get?_insert] at ha
    split at ha
    · cases ha
      exact hv
    · exact hn.defs k a ha
  · intro y
    rcases hglobal y with hy | hy
    · rw [hy]
      exact hn.globals y
    · rw [hy]
      exact hv
  · intro y d hd
    rcases hglobal y with hy | hy
    · exact hn.globals_phi y d (hy ▸ hd)
    · exact hphi d (hy ▸ hd)
  · intro c j hj hop y hy k o ho
    obtain ⟨q, hq, hqo⟩ := hn.operand c j hj hop y hy k o ho
    exact ⟨q, hq, hpred (List.mem_of_getElem? hq) hqo⟩
  · intro y c a ha
    rw [OrderedMap.get?_insert] at ha
    split at ha
    · next heq =>
      cases heq
      cases ha
      rcases hsource with ⟨j, hj, hvj⟩ | ⟨hsealed, hpreds⟩
      · exact Or.inl ⟨j, hj, hvj, Or.inl (if_pos ⟨rfl, rfl⟩)⟩
      · refine Or.inr ⟨Or.inr hsealed, fun q hq => ?_⟩
        rw [hpreds] at hq
        cases hq
    · next hne =>
      have hold : (L.wrote x b v).write y c = L.write y c := by
        refine if_neg ?_
        rintro ⟨rfl, rfl⟩
        exact hne rfl
      rw [hold]
      exact (hn.origin y c a ha).imp_right fun h => ⟨h.1, fun q hq => hpred hq (h.2 q hq)⟩

/-- A block without code is sealed. -/
theorem Neat.sealIsolated (h : Sound L idle s B) (hn : Neat W L idle s B) (hcode : B.code b = []) :
    Neat W L idle { s with
      pending := s.pending.erase b, sealedBlocks := s.sealedBlocks ++ [b] } B := by
  have herase : Neat W L idle { s with pending := s.pending.erase b } B := by
    refine { hn with settled := fun c j hj hop hb hw => ?_ }
    refine hn.settled c j hj hop hb fun y e hwait => ?_
    refine hw y e (waits_erase.mpr ⟨?_, hwait⟩)
    rintro rfl
    obtain ⟨i, hi, _⟩ := h.phi_mem _ y e (h.waits_phi y e _ hwait)
    rw [hcode] at hi
    cases hi
  exact herase.endSeal

end Builder

end Compiler16.Ssa
