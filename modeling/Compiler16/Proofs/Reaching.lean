import Compiler16.Ssa.Value
import Compiler16.Ssa.Inst
import Mathlib.Data.List.Infix
import Mathlib.Data.List.Forall2

/-!
# Values that reach a block

A value stands for a variable at the end of a path if it is the value that was
written last on the path, or the value found before the path where nothing was
written, or a PHI of the variable in a block of the path after which nothing was
written.  The last clause does not look at the operands of the PHI: what a PHI
stands for is fixed when it is created, so the notion survives the completion and
the removal of PHIs.  That the operands agree with it is an invariant of the
construction.

A path may begin at any *root*: where control enters, and at every block that may
still get predecessors.  New edges only lead into roots, so a value that stands
for a variable on all paths to a block goes on to do so.

## Main definitions

* `Trail`: a path that begins at a root, last block first
* `Ledger`: what was created for which variable, and what was written where
* `Ledger.Reaches`, `Ledger.Arrives`, `Ledger.Enters`: a value stands for a
  variable at the end of a path, before its last block, and where that is entered
* `Ledger.AtEnd`, `Ledger.Before`, `Ledger.AtEntry`: the same on all paths to a block

## Main results

* `Ledger.Reaches.redirect`: a value that arrives where a PHI is stands for the
  variable wherever the PHI does
* `Ledger.before_of_merged`: the only value that a PHI merges arrives where it is
* `Ledger.AtEnd.of_newEdge`: what stands for a variable at the end of a block goes on to
  do so when an edge into a root is added
-/

namespace Compiler16.Ssa

/-! ## Paths -/

/-- A path that begins at a root, last block first. -/
inductive Trail (root : Nat → Prop) (preds : Nat → List Nat) : List Nat → Prop where
  | start {b : Nat} : root b → Trail root preds [b]
  | step {b q : Nat} {π : List Nat} :
    q ∈ preds b → Trail root preds (q :: π) → Trail root preds (b :: q :: π)

namespace Trail

variable {root : Nat → Prop} {preds : Nat → List Nat} {b q : Nat} {π σ : List Nat}

theorem ne_nil (h : Trail root preds π) : π ≠ [] := by
  cases h <;> simp

theorem tail (h : Trail root preds (b :: q :: π)) : Trail root preds (q :: π) := by
  cases h with
  | step _ h => exact h

theorem mem_preds (h : Trail root preds (b :: q :: π)) : q ∈ preds b := by
  cases h with
  | step hq _ => exact hq

theorem of_suffix (h : Trail root preds π) (hσ : σ <:+ π) (hne : σ ≠ []) :
    Trail root preds σ := by
  induction h with
  | @start b hb =>
    rcases List.suffix_cons_iff.mp hσ with rfl | hσ
    · exact .start hb
    · exact absurd (List.suffix_nil.mp hσ) hne
  | @step b q π hq h ih =>
    rcases List.suffix_cons_iff.mp hσ with rfl | hσ
    · exact .step hq h
    · exact ih hσ

/-- There is a path that visits its last block once. -/
theorem exists_first_visit (h : Trail root preds (b :: π)) :
    ∃ σ, Trail root preds (b :: σ) ∧ b ∉ σ := by
  induction hn : π.length using Nat.strong_induction_on generalizing π with | _ n ih =>
  by_cases hb : b ∈ π
  · obtain ⟨σ, τ, rfl⟩ := List.append_of_mem hb
    have hτ : b :: τ <:+ b :: (σ ++ b :: τ) :=
      (List.suffix_append σ _).trans (List.suffix_cons ..)
    refine ih τ.length ?_ (h.of_suffix hτ (by simp)) rfl
    simp only [List.length_append, List.length_cons] at hn
    omega
  · exact ⟨π, h, hb⟩

/-- A path that begins somewhere else begins with a step. -/
theorem exists_cons (h : Trail root preds (b :: π)) (hb : ¬ root b) :
    ∃ q σ, π = q :: σ ∧ q ∈ preds b ∧ Trail root preds (q :: σ) := by
  cases h with
  | start hb' => exact absurd hb' hb
  | step hq h => exact ⟨_, _, rfl, hq, h⟩

theorem mono {root' : Nat → Prop} {preds' : Nat → List Nat} (h : Trail root preds π)
    (hroot : ∀ b, root b → root' b) (hpreds : ∀ b q, q ∈ preds b → q ∈ preds' b) :
    Trail root' preds' π := by
  induction h with
  | start hb => exact .start (hroot _ hb)
  | step hq _ ih => exact .step (hpreds _ _ hq) ih

/-- A block that no edge leaves is at most the last one of a path. -/
theorem notMem_tail (h : Trail root preds (b :: π)) {c : Nat} (hc : ∀ d, c ∉ preds d) :
    c ∉ π := by
  generalize hρ : b :: π = ρ at h
  induction h generalizing b π with
  | start _ => cases hρ; simp
  | step hq _ ih =>
    cases hρ
    rw [List.mem_cons, not_or]
    exact ⟨fun hcq => hc _ (hcq ▸ hq), ih rfl⟩

/-- After an edge into a root was added, every path is one of before or ends with one
of before that begins at this root. -/
theorem of_newEdge {preds' : Nat → List Nat} {u p : Nat} (hu : root u)
    (hpreds : ∀ b q, q ∈ preds' b → q ∈ preds b ∨ b = u ∧ q = p)
    (h : Trail root preds' π) :
    Trail root preds π ∨ ∃ σ τ, π = σ ++ τ ∧ Trail root preds σ ∧ σ.getLast? = some u := by
  induction h with
  | start hb => exact Or.inl (.start hb)
  | @step b q π hq h ih =>
    rcases hpreds _ _ hq with hq | ⟨rfl, _⟩
    · rcases ih with h' | ⟨σ, τ, hσ, h', hlast⟩
      · exact Or.inl (.step hq h')
      · cases σ with
        | nil => exact absurd rfl h'.ne_nil
        | cons c σ =>
          cases hσ
          exact Or.inr ⟨b :: q :: σ, τ, rfl, .step hq h', by simpa using hlast⟩
    · exact Or.inr ⟨[b], q :: π, rfl, .start hu, rfl⟩

end Trail

/-! ## What is known of a construction -/

/-- What an operand of an emitted instruction stands for. -/
inductive Role where
  /-- It stays the value it was. -/
  | fixed (v : Value)
  /-- It is the value of the variable where control enters the block. -/
  | entry (symbol : Nat)
  /-- Nothing is said of it. -/
  | free

/-- An instruction as it was emitted: nothing of it changes but its operands. -/
structure Emitted where
  id : Nat
  op : Op
  targets : List Nat
  callee : Option String
  roles : List Role

/-- What a construction was told, and what it created for which variable. -/
structure Ledger where
  /-- The variable and the block of a PHI, also after its removal. -/
  phi : Nat → Option (Nat × Nat)
  /-- The value last written to a variable in a block. -/
  write : Nat → Nat → Option Value
  /-- The value that a variable was found to have before a root. -/
  start : Nat → Nat → Option Value
  /-- The blocks where a path may begin. -/
  root : Nat → Prop
  /-- The instructions emitted into a block, in order. -/
  emitted : Nat → List Emitted

namespace Ledger

variable (L : Ledger) (x : Nat) (a : Value)

/-- The value is a PHI of the variable in the block. -/
def Made (b : Nat) : Prop := ∃ p, a = .result p ∧ L.phi p = some (x, b)

/-- The value stands for the variable at the end of a path. -/
def Reaches : List Nat → Prop
  | [] => False
  | b :: π =>
    match L.write x b with
    | some c => a = c
    | none => L.Made x a b ∨ (π = [] ∧ L.start x b = some a) ∨ Reaches π

/-- The value stands for the variable on a path before its last block. -/
def Arrives : List Nat → Prop
  | [] => False
  | b :: π => (π = [] ∧ L.start x b = some a) ∨ L.Reaches x a π

/-- The value stands for the variable where control enters the last block of a
path. -/
def Enters : List Nat → Prop
  | [] => False
  | b :: π => L.Made x a b ∨ L.Arrives x a (b :: π)

variable (preds : Nat → List Nat) (b : Nat)

/-- All paths to a block are of a kind. -/
def Always (Q : List Nat → Prop) : Prop := ∀ π, Trail L.root preds (b :: π) → Q (b :: π)

/-- The value stands for the variable at the end of a block. -/
def AtEnd : Prop := L.Always preds b (L.Reaches x a)

/-- The value stands for the variable before a block. -/
def Before : Prop := L.Always preds b (L.Arrives x a)

/-- The value stands for the variable where control enters a block. -/
def AtEntry : Prop := L.Always preds b (L.Enters x a)

/-- The value is a PHI of no variable, not even a removed one. -/
def Plain : Prop := ∀ p, a = .result p → L.phi p = none

end Ledger

namespace Ledger

variable {L : Ledger} {x : Nat} {a v : Value} {b p P : Nat} {π : List Nat}
  {preds : Nat → List Nat}

theorem reaches_cons_of_write {c : Value} (h : L.write x b = some c) :
    L.Reaches x a (b :: π) ↔ a = c := by
  rw [Reaches, h]

theorem reaches_cons_of_no_write (h : L.write x b = none) :
    L.Reaches x a (b :: π) ↔ L.Enters x a (b :: π) := by
  rw [Reaches, h]
  rfl

theorem Enters.reaches (h : L.Enters x a (b :: π)) (hw : L.write x b = none) :
    L.Reaches x a (b :: π) :=
  (reaches_cons_of_no_write hw).mpr h

theorem Arrives.enters (h : L.Arrives x a (b :: π)) : L.Enters x a (b :: π) := Or.inr h

theorem AtEnd.atEntry (h : L.AtEnd x a preds b) (hw : L.write x b = none) :
    L.AtEntry x a preds b :=
  fun π ht => (reaches_cons_of_no_write hw).mp (h π ht)

theorem Made.not_plain (h : L.Made x a b) : ¬ L.Plain a := by
  obtain ⟨p, rfl, hp⟩ := h
  intro hplain
  simp [hplain p rfl] at hp

theorem Made.eq {y : Nat} (h : L.Made y (.result p) b) (hp : L.phi p = some (x, P)) :
    y = x ∧ b = P := by
  obtain ⟨q, hq, hb⟩ := h
  cases hq
  exact Prod.ext_iff.mp (Option.some.inj (hb.symm.trans hp))

/-! ## Ends of blocks -/

/-- In a block with one predecessor it has the value at the end of that. -/
theorem AtEnd.of_single {q : Nat} (h : L.AtEnd x v preds q)
    (hw : L.write x b = none) (hroot : ¬ L.root b) (hpreds : preds b = [q]) :
    L.AtEnd x v preds b := by
  intro π ht
  obtain ⟨r, σ, rfl, hr, ht'⟩ := ht.exists_cons hroot
  rw [hpreds, List.mem_singleton] at hr
  subst hr
  exact Enters.reaches (Or.inr (Or.inr (h σ ht'))) hw

/-- Where a PHI is, the PHI and what arrives there stand for the variable. -/
theorem atEnd_of_completed (hw : L.write x b = none)
    (hp : L.phi p = some (x, b)) (hv : v = .result p ∨ L.Before x v preds b) :
    L.AtEnd x v preds b := by
  intro π ht
  rcases hv with rfl | hv
  · exact Enters.reaches (Or.inl ⟨p, rfl, hp⟩) hw
  · exact Enters.reaches (Or.inr (hv π ht)) hw

/-! ## Redirection

A removed PHI gives way to the value that it merged.  For that no write and no value
before the function may be the PHI itself. -/

/-- Neither a written value of the variable nor one before the function. -/
def Unwritten (L : Ledger) (x : Nat) (a : Value) : Prop :=
  ∀ b, L.write x b ≠ some a ∧ L.start x b ≠ some a

section Redirect

variable {y : Nat} (hu : L.Unwritten y (.result p)) (hp : L.phi p = some (x, P))

include hu hp

/-- A value that arrives wherever a PHI is met stands for the variable at the end of
every path on which the PHI does. -/
theorem Reaches.redirect (harr : ∀ σ, P :: σ <:+ π → L.Arrives x v (P :: σ))
    (h : L.Reaches y (.result p) π) : L.Reaches y v π := by
  induction π with
  | nil => exact h.elim
  | cons b π ih =>
    cases hw : L.write y b with
    | some c =>
      rw [reaches_cons_of_write hw] at h
      exact absurd (h ▸ hw) (hu b).1
    | none =>
      rw [reaches_cons_of_no_write hw] at h ⊢
      rcases h with hmade | ⟨_, hstart⟩ | h
      · obtain ⟨rfl, rfl⟩ := hmade.eq hp
        exact (harr π (List.suffix_refl _)).enters
      · exact absurd hstart (hu b).2
      · exact Or.inr (Or.inr (ih (fun σ hσ => harr σ (hσ.trans (List.suffix_cons ..))) h))

theorem Arrives.redirect (harr : ∀ σ, P :: σ <:+ π → L.Arrives x v (P :: σ))
    (h : L.Arrives y (.result p) π) : L.Arrives y v π := by
  cases π with
  | nil => exact h
  | cons b π =>
    rcases h with ⟨_, hstart⟩ | h
    · exact absurd hstart (hu b).2
    · exact Or.inr (h.redirect hu hp fun σ hσ => harr σ (hσ.trans (List.suffix_cons ..)))

theorem Enters.redirect (harr : ∀ σ, P :: σ <:+ π → L.Arrives x v (P :: σ))
    (h : L.Enters y (.result p) π) : L.Enters y v π := by
  cases π with
  | nil => exact h
  | cons b π =>
    rcases h with hmade | h
    · obtain ⟨rfl, rfl⟩ := hmade.eq hp
      exact (harr π (List.suffix_refl _)).enters
    · exact (h.redirect hu hp harr).enters

variable (hv : L.Before x v preds P)

include hv

theorem AtEnd.redirect (h : L.AtEnd y (.result p) preds b) : L.AtEnd y v preds b :=
  fun π ht => (h π ht).redirect hu hp fun _ hσ => hv _ (ht.of_suffix hσ (by simp))

theorem Before.redirect (h : L.Before y (.result p) preds b) : L.Before y v preds b :=
  fun π ht => (h π ht).redirect hu hp fun _ hσ => hv _ (ht.of_suffix hσ (by simp))

theorem AtEntry.redirect (h : L.AtEntry y (.result p) preds b) : L.AtEntry y v preds b :=
  fun π ht => (h π ht).redirect hu hp fun _ hσ => hv _ (ht.of_suffix hσ (by simp))

end Redirect

/-- **The only value that a PHI merges arrives where the PHI is.**  At the end of
every predecessor stands the value or the PHI itself; on a path that comes by the
PHI once more, the visit before decides. -/
theorem before_of_merged (hu : L.Unwritten x (.result p)) (hp : L.phi p = some (x, P))
    (hroot : ¬ L.root P)
    (hops : ∀ q ∈ preds P, L.AtEnd x v preds q ∨ L.AtEnd x (.result p) preds q) :
    L.Before x v preds P := by
  suffices h : ∀ n π, π.length ≤ n → Trail L.root preds (P :: π) → L.Arrives x v (P :: π) from
    fun π ht => h π.length π le_rfl ht
  intro n
  induction n with
  | zero =>
    intro π hlen ht
    obtain ⟨q, σ, rfl, _⟩ := ht.exists_cons hroot
    simp at hlen
  | succ n ih =>
    intro π hlen ht
    obtain ⟨q, σ, rfl, hq, ht'⟩ := ht.exists_cons hroot
    right
    rcases hops q hq with h | h
    · exact h σ ht'
    · refine (h σ ht').redirect hu hp fun ρ hρ => ih ρ ?_ (ht'.of_suffix hρ (by simp))
      have := hρ.length_le
      simp only [List.length_cons] at this hlen
      omega

/-! ## Growth

What a value stands for depends on the ledger and the edges alone, so each kind of
step of a construction is followed through once, here. -/

/-- The second ledger knows more PHIs and more values before roots, and has fewer
roots. -/
structure Grows (L L' : Ledger) : Prop where
  phi : ∀ p xb, L.phi p = some xb → L'.phi p = some xb
  write : L'.write = L.write
  start : ∀ x b v, L.start x b = some v → L'.start x b = some v
  root : ∀ b, L'.root b → L.root b

namespace Grows

variable {L' L'' : Ledger}

theorem refl : Grows L L := ⟨fun _ _ h => h, rfl, fun _ _ _ h => h, fun _ h => h⟩

theorem trans (h : Grows L L') (h' : Grows L' L'') : Grows L L'' :=
  ⟨fun p xb hp => h'.phi p xb (h.phi p xb hp), h'.write.trans h.write,
    fun x b v hv => h'.start x b v (h.start x b v hv), fun b hb => h.root b (h'.root b hb)⟩

theorem made (h : Grows L L') (hm : L.Made x a b) : L'.Made x a b := by
  obtain ⟨p, rfl, hp⟩ := hm
  exact ⟨p, rfl, h.phi p _ hp⟩

theorem reaches (h : Grows L L') : ∀ {π}, L.Reaches x a π → L'.Reaches x a π := by
  intro π
  induction π with
  | nil => exact fun hr => hr
  | cons b π ih =>
    intro hr
    cases hw : L.write x b with
    | some c =>
      rw [reaches_cons_of_write hw] at hr
      exact (reaches_cons_of_write (h.write ▸ hw)).mpr hr
    | none =>
      rw [reaches_cons_of_no_write hw] at hr
      refine (reaches_cons_of_no_write (h.write ▸ hw)).mpr ?_
      rcases hr with hm | ⟨hπ, ha⟩ | hr
      · exact Or.inl (h.made hm)
      · exact Or.inr (Or.inl ⟨hπ, h.start x b a ha⟩)
      · exact Or.inr (Or.inr (ih hr))

theorem arrives (h : Grows L L') (hr : L.Arrives x a π) : L'.Arrives x a π := by
  cases π with
  | nil => exact hr
  | cons b π =>
    rcases hr with ⟨hπ, ha⟩ | hr
    · exact Or.inl ⟨hπ, h.start x b a ha⟩
    · exact Or.inr (h.reaches hr)

theorem enters (h : Grows L L') (hr : L.Enters x a π) : L'.Enters x a π := by
  cases π with
  | nil => exact hr
  | cons b π => exact hr.imp h.made h.arrives

theorem trail (h : Grows L L') (ht : Trail L'.root preds π) : Trail L.root preds π :=
  ht.mono h.root fun _ _ hq => hq

theorem atEnd (h : Grows L L') (ha : L.AtEnd x a preds b) : L'.AtEnd x a preds b :=
  fun π ht => h.reaches (ha π (h.trail ht))

theorem before (h : Grows L L') (ha : L.Before x a preds b) : L'.Before x a preds b :=
  fun π ht => h.arrives (ha π (h.trail ht))

theorem atEntry (h : Grows L L') (ha : L.AtEntry x a preds b) : L'.AtEntry x a preds b :=
  fun π ht => h.enters (ha π (h.trail ht))

end Grows

/-- What stands for a variable goes on to do so, where it matters: before a block, where
control enters it, and at its end if an edge leaves it. -/
structure Carries (L L' : Ledger) (preds preds' : Nat → List Nat) : Prop where
  atEnd : ∀ {x a q d}, q ∈ preds d → L.AtEnd x a preds q → L'.AtEnd x a preds' q
  before : ∀ {x a b}, L.Before x a preds b → L'.Before x a preds' b
  atEntry : ∀ {x a b}, L.AtEntry x a preds b → L'.AtEntry x a preds' b

theorem Grows.carries {L' : Ledger} (h : Grows L L') : Carries L L' preds preds :=
  ⟨fun _ => h.atEnd, h.before, h.atEntry⟩

/-- The ledger after the value before a root was found. -/
def found (L : Ledger) (x b : Nat) (v : Value) : Ledger :=
  { L with start := fun y c => if y = x ∧ c = b then some v else L.start y c }

theorem grows_found (h : L.start x b = none) : Grows L (L.found x b v) where
  phi _ _ hp := hp
  write := rfl
  start y c d hd := by
    refine (if_neg ?_).trans hd
    rintro ⟨rfl, rfl⟩
    simp [h] at hd
  root _ hb := hb

/-- The ledger in which no path begins at the block any more. -/
def close (L : Ledger) (b : Nat) : Ledger := { L with root := fun c => L.root c ∧ c ≠ b }

theorem grows_close : Grows L (L.close b) :=
  ⟨fun _ _ h => h, rfl, fun _ _ _ h => h, fun _ h => h.1⟩

/-! ### New edges -/

/-- Where a path begins at a root before which nothing was found, more can come before
it. -/
theorem Reaches.append {u : Nat} (hu : ∀ y, L.start y u = none) (τ : List Nat) :
    ∀ {σ}, σ.getLast? = some u → L.Reaches x a σ → L.Reaches x a (σ ++ τ) := by
  intro σ
  induction σ with
  | nil => exact fun _ h => h.elim
  | cons b σ ih =>
    intro hlast h
    cases hw : L.write x b with
    | some c =>
      rw [reaches_cons_of_write hw] at h
      exact (reaches_cons_of_write hw).mpr h
    | none =>
      rw [reaches_cons_of_no_write hw] at h
      refine (reaches_cons_of_no_write hw).mpr ?_
      rcases h with hm | ⟨rfl, hstart⟩ | h
      · exact Or.inl hm
      · obtain rfl : b = u := by simpa using hlast
        simp [hu x] at hstart
      · cases σ with
        | nil => exact h.elim
        | cons c σ => exact Or.inr (Or.inr (ih (by simpa using hlast) h))

theorem Arrives.append {u : Nat} (hu : ∀ y, L.start y u = none) (τ : List Nat) {σ : List Nat}
    (hlast : σ.getLast? = some u) (h : L.Arrives x a σ) : L.Arrives x a (σ ++ τ) := by
  cases σ with
  | nil => exact h.elim
  | cons b σ =>
    rcases h with ⟨rfl, hstart⟩ | h
    · obtain rfl : b = u := by simpa using hlast
      simp [hu x] at hstart
    · cases σ with
      | nil => exact h.elim
      | cons c σ => exact Or.inr (h.append hu τ (by simpa using hlast))

theorem Enters.append {u : Nat} (hu : ∀ y, L.start y u = none) (τ : List Nat) {σ : List Nat}
    (hlast : σ.getLast? = some u) (h : L.Enters x a σ) : L.Enters x a (σ ++ τ) := by
  cases σ with
  | nil => exact h.elim
  | cons b σ => exact h.imp (fun hm => hm) (Arrives.append hu τ hlast)

section NewEdge

variable {preds' : Nat → List Nat} {u q : Nat} (hroot : L.root u) (hstart : ∀ y, L.start y u = none)
  (hpreds : ∀ b c, c ∈ preds' b → c ∈ preds b ∨ b = u ∧ c = q)

include hroot hpreds

theorem Always.of_newEdge {Q : List Nat → Prop}
    (hQ : ∀ {σ}, σ.getLast? = some u → Q σ → ∀ τ, Q (σ ++ τ)) (h : L.Always preds b Q) :
    L.Always preds' b Q := by
  intro π ht
  rcases ht.of_newEdge hroot hpreds with ht' | ⟨σ, τ, hσ, ht', hlast⟩
  · exact h π ht'
  · cases σ with
    | nil => exact absurd rfl ht'.ne_nil
    | cons c σ =>
      cases hσ
      exact hQ hlast (h σ ht') τ

include hstart

theorem AtEnd.of_newEdge (h : L.AtEnd x a preds b) : L.AtEnd x a preds' b :=
  Always.of_newEdge hroot hpreds (fun hlast hr τ => hr.append hstart τ hlast) h

theorem Before.of_newEdge (h : L.Before x a preds b) : L.Before x a preds' b :=
  Always.of_newEdge hroot hpreds (fun hlast hr τ => hr.append hstart τ hlast) h

theorem AtEntry.of_newEdge (h : L.AtEntry x a preds b) : L.AtEntry x a preds' b :=
  Always.of_newEdge hroot hpreds (fun hlast hr τ => hr.append hstart τ hlast) h

theorem carries_of_newEdge : Carries L L preds preds' :=
  ⟨fun _ => AtEnd.of_newEdge hroot hstart hpreds, Before.of_newEdge hroot hstart hpreds,
    AtEntry.of_newEdge hroot hstart hpreds⟩

end NewEdge

/-! ### Writes -/

/-- The ledger after a write. -/
def wrote (L : Ledger) (x b : Nat) (v : Value) : Ledger :=
  { L with write := fun y c => if y = x ∧ c = b then some v else L.write y c }

section Write

variable {y c : Nat}

theorem reaches_wrote_of_notMem (hb : b ∉ π) :
    (L.wrote x b v).Reaches y a π ↔ L.Reaches y a π := by
  induction π with
  | nil => exact Iff.rfl
  | cons d π ih =>
    obtain ⟨hd, hπ⟩ := not_or.mp (List.mem_cons.not.mp hb)
    have hw : (L.wrote x b v).write y d = L.write y d := if_neg fun h => hd h.2.symm
    cases hwd : L.write y d with
    | some e => rw [reaches_cons_of_write (hw.trans hwd), reaches_cons_of_write hwd]
    | none =>
      rw [reaches_cons_of_no_write (hw.trans hwd), reaches_cons_of_no_write hwd]
      exact or_congr Iff.rfl (or_congr Iff.rfl (ih hπ))

theorem atEnd_wrote : (L.wrote x b v).AtEnd x v preds b :=
  fun _ _ => (reaches_cons_of_write (if_pos ⟨rfl, rfl⟩)).mpr rfl

variable (hb : ∀ d, b ∉ preds d)

include hb

theorem Before.wrote (h : L.Before y a preds c) : (L.wrote x b v).Before y a preds c := by
  intro π (ht : Trail L.root preds (c :: π))
  have hπ : b ∉ π := ht.notMem_tail hb
  exact (h π ht).imp (fun h => h) (reaches_wrote_of_notMem hπ).mpr

theorem AtEntry.wrote (h : L.AtEntry y a preds c) : (L.wrote x b v).AtEntry y a preds c := by
  intro π (ht : Trail L.root preds (c :: π))
  have hπ : b ∉ π := ht.notMem_tail hb
  exact (h π ht).imp (fun h => h) (Or.imp (fun h => h) (reaches_wrote_of_notMem hπ).mpr)

/-- A write to a variable in a block that no edge leaves concerns only the end of this
block, and only this variable. -/
theorem AtEnd.wrote (hne : ¬ (y = x ∧ c = b)) (h : L.AtEnd y a preds c) :
    (L.wrote x b v).AtEnd y a preds c := by
  intro π (ht : Trail L.root preds (c :: π))
  have hπ : b ∉ π := ht.notMem_tail hb
  have hr := h π ht
  have hw : (L.wrote x b v).write y c = L.write y c := if_neg hne
  cases hwc : L.write y c with
  | some e =>
    rw [reaches_cons_of_write hwc] at hr
    exact (reaches_cons_of_write (hw.trans hwc)).mpr hr
  | none =>
    rw [reaches_cons_of_no_write hwc] at hr
    refine (reaches_cons_of_no_write (hw.trans hwc)).mpr ?_
    exact hr.imp (fun h => h) (Or.imp (fun h => h) (reaches_wrote_of_notMem hπ).mpr)

theorem carries_wrote : Carries L (L.wrote x b v) preds preds :=
  ⟨fun hq h => h.wrote hb fun hne => hb _ (hne.2 ▸ hq), Before.wrote hb, AtEntry.wrote hb⟩

end Write

end Ledger

end Compiler16.Ssa
