import Compiler16.Ssa.Lowering

/-!
# Runs of construction steps

A step of the construction is a function of the state, so a run that succeeds can
be read backwards: the lemmas below say for each way to build a step from others
what its success means for its parts, and for each basic step which state it
leaves.  Proofs about the construction take runs apart with them and do not unfold
the monad.

## Main results

* `bind_eq_ok`: a sequence succeeds when its parts do
* `changeBody_eq_ok`: a change of the body leaves the rest of the state alone
* `onBody_eq_changeBody`: a change in place is one, if it changes nothing when it fails
* `forM_invariant`: what every round of a loop keeps, the loop keeps
* `Ends.bind`, `Ends.forM`: how a sequence and a loop end, successfully or not
-/

namespace Compiler16.Ssa

open Compiler16.Flow

namespace Builder

variable {α β : Type} {s s' : Builder}

/-! ## Composition -/

theorem bind_eq_ok {x : Build α} {f : α → Build β} {s'' : Builder} {b : β} :
    (x >>= f) s = .ok b s'' ↔ ∃ a s', x s = .ok a s' ∧ f a s' = .ok b s'' := by
  change EStateM.bind x f s = _ ↔ _
  unfold EStateM.bind
  cases h : x s with
  | ok a s' =>
    constructor
    · exact fun hf => ⟨a, s', rfl, hf⟩
    · rintro ⟨_, _, ⟨rfl, rfl⟩, hf⟩
      exact hf
  | error e s' => simp

@[simp] theorem pure_eq_ok {a b : α} :
    (pure a : Build α) s = .ok b s' ↔ a = b ∧ s = s' := by
  change EStateM.Result.ok a s = _ ↔ _
  simp

@[simp] theorem get_eq_ok {t : Builder} :
    (get : Build Builder) s = .ok t s' ↔ s = t ∧ s = s' := by
  change EStateM.Result.ok s s = _ ↔ _
  simp

@[simp] theorem set_eq_ok {t : Builder} {u : PUnit} :
    (set t : Build PUnit) s = .ok u s' ↔ t = s' := by
  change EStateM.Result.ok _ t = _ ↔ _
  simp

@[simp] theorem modify_eq_ok {f : Builder → Builder} {u : PUnit} :
    (modify f : Build PUnit) s = .ok u s' ↔ f s = s' := by
  change EStateM.Result.ok _ (f s) = _ ↔ _
  simp

@[simp] theorem modifyGet_eq_ok {f : Builder → α × Builder} {a : α} :
    (modifyGet f : Build α) s = .ok a s' ↔ f s = (a, s') := by
  change EStateM.Result.ok (f s).1 (f s).2 = _ ↔ _
  rw [EStateM.Result.ok.injEq, Prod.ext_iff]

@[simp] theorem fail_eq_ok {cause : BuildError} {a : α} :
    (fail cause : Build α) s = .ok a s' ↔ False := by
  change EStateM.Result.error _ s = _ ↔ _
  simp

/-- An answer comes with a state. -/
theorem run'_eq_some {m : Build α} {a : α} : m.run' s = some a ↔ ∃ s', m s = .ok a s' := by
  change EStateM.run' (fun _ => m s) s = some a ↔ _
  cases m s with
  | ok b s' =>
    change some b = some a ↔ _
    simp
  | error e s' =>
    change none = some a ↔ _
    simp

theorem forM_nil (f : α → Build Unit) : [].forM f = pure () := rfl

theorem forM_cons (f : α → Build Unit) (a : α) (l : List α) :
    (a :: l).forM f = (f a >>= fun _ => l.forM f) := rfl

theorem forM_append_eq_ok {f : α → Build Unit} {l m : List α} : ∀ {s s'' : Builder},
    (l ++ m).forM f s = .ok () s'' ↔ ∃ s', l.forM f s = .ok () s' ∧ m.forM f s' = .ok () s'' := by
  induction l with
  | nil =>
    intro s s''
    simp [forM_nil]
  | cons a l ih =>
    intro s s''
    rw [List.cons_append, forM_cons, forM_cons, bind_eq_ok]
    simp only [ih, bind_eq_ok]
    constructor
    · rintro ⟨u, t, ha, s', hl, hm⟩
      exact ⟨s', ⟨u, t, ha, hl⟩, hm⟩
    · rintro ⟨s', ⟨u, t, ha, hl⟩, hm⟩
      exact ⟨u, t, ha, s', hl, hm⟩

/-- What every round of a loop keeps, the loop keeps.  The invariant sees the
elements that are still to come. -/
theorem forM_invariant {f : α → Build Unit} {I : List α → Builder → Prop}
    (step : ∀ a l s s', I (a :: l) s → f a s = .ok () s' → I l s') :
    ∀ l s s', I l s → l.forM f s = .ok () s' → I [] s' := by
  intro l
  induction l with
  | nil =>
    intro s s' hI hrun
    rw [forM_nil, pure_eq_ok] at hrun
    exact hrun.2 ▸ hI
  | cons a l ih =>
    intro s s' hI hrun
    rw [forM_cons, bind_eq_ok] at hrun
    obtain ⟨_, t, ha, hl⟩ := hrun
    exact ih t s' (step a l s t hI ha) hl

/-! ## How steps end -/

/-- The step ends with a result and in a state with `Q`, or in an error and a state with `E`. -/
def Ends (m : Build α) (s : Builder) (Q : α → Builder → Prop) (E : Error → Builder → Prop) :
    Prop :=
  match m s with
  | .ok a s' => Q a s'
  | .error e s' => E e s'

namespace Ends

variable {m : Build α} {Q Q' : α → Builder → Prop} {E E' : Error → Builder → Prop}

theorem of_ok {a : α} (h : m s = .ok a s') (hQ : Q a s') : Ends m s Q E := by
  unfold Ends
  rw [h]
  exact hQ

theorem of_error {e : Error} (h : m s = .error e s') (hE : E e s') : Ends m s Q E := by
  unfold Ends
  rw [h]
  exact hE

theorem ok (h : Ends m s Q E) {a : α} (hrun : m s = .ok a s') : Q a s' := by
  unfold Ends at h
  rwa [hrun] at h

theorem error (h : Ends m s Q E) {e : Error} (hrun : m s = .error e s') : E e s' := by
  unfold Ends at h
  rwa [hrun] at h

/-- A step that does not fail has a result. -/
theorem exists_ok (h : Ends m s Q fun _ _ => False) : ∃ a s', m s = .ok a s' ∧ Q a s' := by
  cases hrun : m s with
  | ok a s' => exact ⟨a, s', rfl, h.ok hrun⟩
  | error e s' => exact (h.error hrun).elim

theorem imp (h : Ends m s Q E) (hQ : ∀ a s', Q a s' → Q' a s')
    (hE : ∀ e s', E e s' → E' e s') : Ends m s Q' E' := by
  cases hrun : m s with
  | ok a s' => exact of_ok hrun (hQ a s' (h.ok hrun))
  | error e s' => exact of_error hrun (hE e s' (h.error hrun))

theorem bind {f : α → Build β} {R : β → Builder → Prop} (h : Ends m s Q E)
    (hf : ∀ a s', Q a s' → Ends (f a) s' R E) : Ends (m >>= f) s R E := by
  show (match EStateM.bind m f s with
    | .ok b s' => R b s'
    | .error e s' => E e s')
  unfold EStateM.bind
  cases hrun : m s with
  | ok a s' => exact hf a s' (h.ok hrun)
  | error e s' => exact h.error hrun

theorem pure {a : α} (hQ : Q a s) : Ends (Pure.pure a) s Q E := of_ok rfl hQ

theorem get_bind {f : Builder → Build α} (h : Ends (f s) s Q E) : Ends (get >>= f) s Q E :=
  Ends.bind (Q := fun a s' => a = s ∧ s' = s) (of_ok rfl ⟨rfl, rfl⟩) fun a s' ⟨ha, hs'⟩ => by
    subst ha hs'
    exact h

/-- A loop ends well if every round does.  The invariant sees the elements that are still to
come. -/
theorem forM {f : α → Build Unit} {I : List α → Builder → Prop}
    (step : ∀ a l s, I (a :: l) s → Ends (f a) s (fun _ s' => I l s') E) :
    ∀ l s, I l s → Ends (l.forM f) s (fun _ s' => I [] s') E := by
  intro l
  induction l with
  | nil => exact fun s hI => of_ok (pure_eq_ok.mpr ⟨rfl, rfl⟩) hI
  | cons a l ih =>
    intro s hI
    rw [forM_cons]
    exact (step a l s hI).bind fun _ t ht => ih t ht

end Ends

/-! ## Basic steps -/

theorem body?_of_opened {fn : OpenFunction} (h : s.opened = some fn) : s.body? = some fn.body := by
  rw [body?, h]
  rfl

theorem getBody_eq_ok {body : Body} :
    getBody s = .ok body s' ↔ (∃ fn, s.opened = some fn ∧ fn.body = body) ∧ s = s' := by
  unfold getBody
  simp only [bind_eq_ok, get_eq_ok]
  cases h : s.opened with
  | none =>
    constructor
    · rintro ⟨_, _, ⟨rfl, rfl⟩, hf⟩
      simp [h] at hf
    · rintro ⟨⟨_, hn, _⟩, _⟩
      cases hn
  | some fn =>
    constructor
    · rintro ⟨_, _, ⟨rfl, rfl⟩, hf⟩
      rw [h] at hf
      obtain ⟨hb, hs⟩ := pure_eq_ok.mp hf
      exact ⟨⟨fn, rfl, hb⟩, hs⟩
    · rintro ⟨⟨_, ⟨rfl⟩, rfl⟩, rfl⟩
      exact ⟨s, s, ⟨rfl, rfl⟩, by rw [h]; exact pure_eq_ok.mpr ⟨rfl, rfl⟩⟩

theorem changeBody_eq_ok {f : Body → Except Error (α × Body)} {a : α} :
    changeBody f s = .ok a s' ↔
      ∃ fn body, s.opened = some fn ∧ f fn.body = .ok (a, body) ∧
        { s with opened := some { fn with body } } = s' := by
  unfold changeBody
  cases h : s.opened with
  | none => simp
  | some fn =>
    cases hf : f fn.body with
    | error e => simp [hf]
    | ok r =>
      obtain ⟨b, body⟩ := r
      simp only [hf]
      constructor
      · intro hs
        cases hs
        exact ⟨fn, body, rfl, hf, rfl⟩
      · rintro ⟨_, _, ⟨rfl⟩, hb, rfl⟩
        cases hf.symm.trans hb
        rfl

theorem changeBody_eq_error {f : Body → Except Error (α × Body)} {fn : OpenFunction} {e : Error}
    (hfn : s.opened = some fn) (hf : f fn.body = .error e) : changeBody f s = .error e s := by
  simp only [changeBody, hfn, hf]

/-- What a change in place comes to, without what a failing one leaves behind. -/
def changed (x : EStateM Error Body α) (B : Body) : Except Error (α × Body) :=
  match x B with
  | .ok a B' => .ok (a, B')
  | .error e _ => .error e

theorem changed_eq_ok {x : EStateM Error Body α} {B B' : Body} {a : α} :
    changed x B = .ok (a, B') ↔ x B = .ok a B' := by
  unfold changed
  cases x B <;> simp

/-- It does not matter that a change is made in place, if a failing one changes nothing. -/
theorem onBody_eq_changeBody {x : EStateM Error Body α}
    (h : ∀ {B B' e}, x B = .error e B' → B' = B) : onBody x = changeBody (changed x) := by
  funext s
  unfold onBody changeBody changed
  cases hfn : s.opened with
  | none => rfl
  | some fn =>
    cases hx : x fn.body with
    | ok a B => simp only [hx]
    | error e B =>
      obtain rfl := h hx
      simp only [hx, ← hfn]

theorem addEdge_eq_changeBody (source target : Nat) :
    addEdge source target = changeBody (changed (Body.addEdge source target)) := by
  refine onBody_eq_changeBody fun {B B' e} h => ?_
  unfold Body.addEdge at h
  cases hg : Graph.addEdge source target B.graph with
  | ok _ g =>
    rw [hg] at h
    cases h
  | error e g =>
    obtain ⟨-, rfl⟩ := Graph.addEdge_eq_error_iff.mp hg
    rw [hg] at h
    cases h
    rfl

@[simp] theorem freshId_eq_ok {i : Nat} :
    freshId s = .ok i s' ↔ s.nextId = i ∧ { s with nextId := s.nextId + 1 } = s' := by
  unfold freshId
  rw [modifyGet_eq_ok, Prod.ext_iff]

@[simp] theorem writeVariable_eq_ok {symbol block : Nat} {v : Value} {u : Unit} :
    writeVariable symbol block v s = .ok u s' ↔
      { s with defs := s.defs.insert (symbol, block) v } = s' :=
  modify_eq_ok

@[simp] theorem setCurrent_eq_ok {block : Nat} {u : Unit} :
    setCurrent block s = .ok u s' ↔ { s with current := some block } = s' :=
  modify_eq_ok

theorem getCurrent_eq_ok {block : Nat} :
    getCurrent s = .ok block s' ↔ s.current = some block ∧ s = s' := by
  unfold getCurrent
  simp only [bind_eq_ok, get_eq_ok]
  cases h : s.current with
  | none =>
    constructor
    · rintro ⟨_, _, ⟨rfl, rfl⟩, hf⟩
      simp [h] at hf
    · rintro ⟨hn, _⟩
      cases hn
  | some b =>
    constructor
    · rintro ⟨_, _, ⟨rfl, rfl⟩, hf⟩
      rw [h] at hf
      obtain ⟨hb, hs⟩ := pure_eq_ok.mp hf
      exact ⟨congrArg some hb, hs⟩
    · rintro ⟨⟨rfl⟩, rfl⟩
      exact ⟨s, s, ⟨rfl, rfl⟩, by rw [h]; exact pure_eq_ok.mpr ⟨rfl, rfl⟩⟩

end Builder

end Compiler16.Ssa
