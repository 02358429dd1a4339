/-!
# Random numbers

All that the machine relies on is that a number drawn with a bound does not
exceed it: a `Generator` is anything that keeps to that.  `Random` is the one
that the machine is run with, a linear congruential generator.
-/

namespace Compiler16.Machine

/-- A source of random numbers with states of type `G`. -/
class Generator (G : Type) where
  /-- A number for a bound, and the state after it. -/
  draw : G → UInt16 → UInt16 × G
  /-- A number does not exceed its bound. -/
  draw_le (g : G) (bound : UInt16) : (draw g bound).1 ≤ bound

/-- The state of the generator. -/
structure Random where
  /-- The last number of the sequence. -/
  state : UInt64
  deriving DecidableEq, Repr

namespace Random

/-- The generator of a seed. -/
def ofSeed (seed : UInt64) : Random := ⟨seed⟩

/-- The next state. -/
def next (g : Random) : Random :=
  ⟨g.state * 6364136223846793005 + 1442695040888963407⟩

/-- A number up to `bound`, taken from the upper bits of the next state. -/
def draw (g : Random) (bound : UInt16) : UInt16 × Random :=
  let g := g.next
  (UInt16.ofNat ((g.state >>> 32).toNat % (bound.toNat + 1)), g)

theorem draw_le (g : Random) (bound : UInt16) : (g.draw bound).1 ≤ bound := by
  have hb := bound.toNat_lt
  have hm : (g.next.state >>> 32).toNat % (bound.toNat + 1) < bound.toNat + 1 :=
    Nat.mod_lt _ (Nat.succ_pos _)
  rw [UInt16.le_iff_toNat_le]
  simp only [draw, UInt16.toNat_ofNat']
  rw [Nat.mod_eq_of_lt (by omega)]
  omega

instance : Generator Random where
  draw := draw
  draw_le := draw_le

end Random

end Compiler16.Machine
