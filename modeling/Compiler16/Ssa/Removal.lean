import Compiler16.Ssa.Builder

/-!
# Removal of trivial PHIs

A PHI that merges a single value is *trivial*: it becomes a copy of the value,
and all that used it uses the value instead.  The users that are PHIs may become
trivial in turn, so they are tried next.

Every removal leaves one PHI less, so the removals that set off each other are at
most as many as there are PHIs.  The last of them tries PHIs that stay, so
`removeFrom` recurs one step deeper than that.
-/

namespace Compiler16.Ssa

namespace Builder

/-- Records that a PHI was removed: in all definitions of variables the value takes its
place. -/
def retire (s : Builder) (phi : Nat) (v : Value) : Builder :=
  { s with
    defs := s.defs.mapValues fun w => if w = .result phi then v else w
    removed := s.removed ++ [phi] }

/-- Removes a PHI if it is trivial.  The result is the value that stands for the
PHI from now on, and the instructions that used it if it was removed. -/
def collapse (phi : Nat) : Build (Value × List Nat) := do
  let body ← getBody
  match body.inst? phi with
  | none => return (.result phi, [])
  | some i =>
    if !i.isPhi then return (i.operands.head?.getD i.result, [])
    else
      match i.mergedValue? with
      | none => return (i.result, [])
      | some v =>
        changeBody fun body => .ok ((), body.forwardPhi i v)
        modify (·.retire phi v)
        return (v, i.users.filter (· ≠ phi))

/-- Whether the instruction of the open function is a PHI. -/
def isPhi (s : Builder) (id : Nat) : Bool := s.body?.any (·.isPhi id)

/-- Removes a PHI if it is trivial, then tries the PHIs that used it, at most
`depth` attempts deep. -/
def removeFrom : Nat → Nat → Build Value
  | 0, phi => fail (.endlessRemoval phi)
  | depth + 1, phi => do
    let (v, users) ← collapse phi
    users.forM fun user => do
      if (← get).isPhi user then
        let _ ← removeFrom depth user
    return v

/-- Removes a PHI if it is trivial, and all PHIs that become trivial by that.  The
result is the value that stands for the PHI from now on. -/
def removeTrivialPhi (phi : Nat) : Build Value := do
  removeFrom ((← getBody).phis.length + 1) phi

end Builder

end Compiler16.Ssa
