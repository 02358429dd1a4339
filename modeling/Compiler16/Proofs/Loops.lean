import Mathlib.Logic.Function.Basic
import Mathlib.Order.Nat

/-!
# Loops of a graph

The blocks of a function are numbered in the order in which they come up in the
program, so an edge that leads back closes a loop: from the end `e` of the body to the
header `h`, and the body is what lies between.  Loops are *nested* if control enters the
body of a loop only from the header, and leaves it only for the header.

## Main definitions

* `Nested`: what is true of the graphs of programs
* `Outside`: a block that lies in the body of no loop

## Main results

* `Nested.forward`, `Nested.back`: an edge is added
-/

namespace Compiler16.Ssa

/-- A graph of so many blocks, in which every loop is followed by a block, and control
enters and leaves the body of a loop at its header. -/
structure Nested (size : Nat) (preds : Nat → List Nat) : Prop where
  lt_size : ∀ h, ∀ e ∈ preds h, h ≤ e → e + 1 < size
  enters : ∀ h, ∀ e ∈ preds h, ∀ c, h < c → c ≤ e → ∀ q ∈ preds c, h ≤ q ∧ q ≤ e
  leaves : ∀ h, ∀ e ∈ preds h, ∀ c, ∀ q ∈ preds c, h < q → q ≤ e → h ≤ c ∧ c ≤ e

/-- The block lies in the body of no loop. -/
def Outside (preds : Nat → List Nat) (b : Nat) : Prop := ∀ h, ∀ e ∈ preds h, ¬ (h < b ∧ b ≤ e)

variable {size b h e q t : Nat} {preds : Nat → List Nat}

theorem mem_update_append {c d : Nat} (hd : d ∈ Function.update preds t (preds t ++ [q]) c) :
    d ∈ preds c ∨ c = t ∧ d = q := by
  by_cases hc : c = t
  · subst hc
    rw [Function.update_self, List.mem_append, List.mem_singleton] at hd
    exact hd.imp_right fun hd => ⟨rfl, hd⟩
  · rw [Function.update_of_ne hc] at hd
    exact Or.inl hd

namespace Nested

theorem mono {size' : Nat} (hN : Nested size preds) (hle : size ≤ size') : Nested size' preds :=
  { hN with lt_size := fun h e he hle' => (hN.lt_size h e he hle').trans_le hle }

/-- The last block lies in no loop. -/
theorem outside_last (hN : Nested size preds) (hb : b + 1 = size) : Outside preds b := by
  rintro h e he ⟨hlt, hle⟩
  have := hN.lt_size h e he (hlt.le.trans hle)
  omega

/-- **An edge leads on to the last block**, from outside of all loops. -/
theorem forward (hN : Nested size preds) (ht : t + 1 = size) (hq : q < t) (hout : Outside preds q) :
    Nested size (Function.update preds t (preds t ++ [q])) where
  lt_size h e he hle := by
    rcases mem_update_append he with hold | ⟨rfl, rfl⟩
    · exact hN.lt_size h e hold hle
    · omega
  enters h e he c hlt hle d hd := by
    rcases mem_update_append he with hold | ⟨rfl, rfl⟩
    · rcases mem_update_append hd with hd | ⟨rfl, rfl⟩
      · exact hN.enters h e hold c hlt hle d hd
      · exact absurd ⟨hlt, hle⟩ (hN.outside_last ht h e hold)
    · omega
  leaves h e he c d hd hlt hle := by
    rcases mem_update_append he with hold | ⟨rfl, rfl⟩
    · rcases mem_update_append hd with hd | ⟨rfl, rfl⟩
      · exact hN.leaves h e hold c d hd hlt hle
      · exact absurd ⟨hlt, hle⟩ (hout h e hold)
    · omega

/-- **An edge leads back to a header**, and what lies between is entered and left at the
header. -/
theorem back (hN : Nested size preds) (hle : h ≤ e) (hlt : e + 1 < size) (hh : Outside preds h)
    (he : Outside preds e) (henters : ∀ c, h < c → c ≤ e → ∀ q ∈ preds c, h ≤ q ∧ q ≤ e)
    (hleaves : ∀ c, ∀ q ∈ preds c, h < q → q ≤ e → h ≤ c ∧ c ≤ e) :
    Nested size (Function.update preds h (preds h ++ [e])) where
  lt_size h' e' he' hle' := by
    rcases mem_update_append he' with hold | ⟨rfl, rfl⟩
    · exact hN.lt_size h' e' hold hle'
    · exact hlt
  enters h' e' he' c hc hc' q hq := by
    rcases mem_update_append he' with hold | ⟨rfl, rfl⟩
    · rcases mem_update_append hq with hq | ⟨rfl, rfl⟩
      · exact hN.enters h' e' hold c hc hc' q hq
      · exact absurd ⟨hc, hc'⟩ (hh h' e' hold)
    · rcases mem_update_append hq with hq | ⟨rfl, _⟩
      · exact henters c hc hc' q hq
      · exact absurd hc (lt_irrefl _)
  leaves h' e' he' c q hq hc hc' := by
    rcases mem_update_append he' with hold | ⟨rfl, rfl⟩
    · rcases mem_update_append hq with hq | ⟨rfl, rfl⟩
      · exact hN.leaves h' e' hold c q hq hc hc'
      · exact absurd ⟨hc, hc'⟩ (he h' e' hold)
    · rcases mem_update_append hq with hq | ⟨rfl, rfl⟩
      · exact hleaves c q hq hc hc'
      · exact ⟨le_rfl, hle⟩

end Nested

end Compiler16.Ssa
