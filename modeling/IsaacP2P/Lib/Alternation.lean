import Mathlib.Data.List.Basic

/-!
# Taking turns

A log of switches, newest first, holds `true` where something was switched on
and `false` where it was switched off. It `Alternates` if the two take turns,
beginning with on. What is switched twice the same way breaks the turns for
good.
-/

namespace Alternation

/-- The last switch was on. -/
def isOn (log : List Bool) : Bool := log.headD false

@[simp] theorem isOn_nil : isOn [] = false := rfl
@[simp] theorem isOn_cons (b : Bool) (log : List Bool) : isOn (b :: log) = b := rfl

/-- Every switch changes something. -/
def Alternates : List Bool → Prop
  | [] => True
  | b :: log => isOn log ≠ b ∧ Alternates log

instance Alternates.decidable : (log : List Bool) → Decidable (Alternates log)
  | [] => .isTrue trivial
  | b :: log =>
    have := Alternates.decidable log
    inferInstanceAs (Decidable (isOn log ≠ b ∧ Alternates log))

@[simp] theorem alternates_cons {b : Bool} {log : List Bool} :
    Alternates (b :: log) ↔ isOn log ≠ b ∧ Alternates log := Iff.rfl

end Alternation
