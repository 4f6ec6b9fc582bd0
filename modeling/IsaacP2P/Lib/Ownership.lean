import Mathlib.Logic.Function.Basic
import Mathlib.Logic.ExistsUnique

/-!
# Owning resources

Places hold resources; `held p` is what the place `p` holds, and `opened r` says
whether the resource `r` is open. `Holds` is the half of ownership that a program
needs in order not to use what it has closed: what is held is open, and held
once. `Owns` adds that nothing open is lost. A resource is obtained into an empty
place and released out of the place that holds it; a resource obtained into no
place is lost, which `Holds` survives and `Owns` does not.
-/

namespace Ownership

open Function (update)

variable {P R : Type*} {held : P → Option R} {opened : R → Bool} {p : P} {r : R}

structure Holds (held : P → Option R) (opened : R → Bool) : Prop where
  isOpen : ∀ {p r}, held p = some r → opened r = true
  inj : ∀ {p q r}, held p = some r → held q = some r → p = q

structure Owns (held : P → Option R) (opened : R → Bool) : Prop extends Holds held opened where
  owner : ∀ {r}, opened r = true → ∃ p, held p = some r

theorem Owns.existsUnique (h : Owns held opened) (hr : opened r = true) :
    ∃! p, held p = some r := by
  obtain ⟨p, hp⟩ := h.owner hr
  exact ⟨p, hp, fun q hq => h.inj hq hp⟩

theorem Holds.ne_of_closed (h : Holds held opened) (hr : opened r = false) (q : P) :
    held q ≠ some r := by
  intro hq
  rw [h.isOpen hq] at hr
  cases hr

theorem Owns.kept [DecidableEq P] (h : Owns held opened) {s : R} (hs : opened s = true)
    (hp : held p ≠ some s) (o : Option R) : ∃ q, update held p o q = some s := by
  obtain ⟨q, hq⟩ := h.owner hs
  have hqp : q ≠ p := by
    rintro rfl
    exact hp hq
  exact ⟨q, by rw [Function.update_of_ne hqp, hq]⟩

variable [DecidableEq R]

/-- What is lost disturbs nobody. -/
theorem Holds.lost (h : Holds held opened) : Holds held (update opened r true) where
  isOpen {p s} hp := by
    by_cases hs : s = r
    · rw [hs, Function.update_self]
    · rw [Function.update_of_ne hs]
      exact h.isOpen hp
  inj := h.inj

variable [DecidableEq P]

theorem Holds.obtain (h : Holds held opened) (hr : opened r = false) (p : P) :
    Holds (update held p (some r)) (update opened r true) where
  isOpen {q s} hq := by
    by_cases hs : s = r
    · rw [hs, Function.update_self]
    · rw [Function.update_of_ne hs]
      by_cases hqp : q = p
      · subst hqp
        rw [Function.update_self] at hq
        exact absurd (Option.some.inj hq).symm hs
      · rw [Function.update_of_ne hqp] at hq
        exact h.isOpen hq
  inj {q q' s} hq hq' := by
    have hother : ∀ {q}, q ≠ p → update held p (some r) q = some s → s ≠ r := by
      rintro q hqp hq rfl
      rw [Function.update_of_ne hqp] at hq
      exact h.ne_of_closed hr q hq
    by_cases hqp : q = p
    · by_cases hqp' : q' = p
      · rw [hqp, hqp']
      · subst hqp
        rw [Function.update_self] at hq
        exact absurd (Option.some.inj hq).symm (hother hqp' hq')
    · by_cases hqp' : q' = p
      · subst hqp'
        rw [Function.update_self] at hq'
        exact absurd (Option.some.inj hq').symm (hother hqp hq)
      · rw [Function.update_of_ne hqp] at hq
        rw [Function.update_of_ne hqp'] at hq'
        exact h.inj hq hq'

theorem Holds.release (h : Holds held opened) (hp : held p = some r) :
    Holds (update held p none) (update opened r false) := by
  have hkept : ∀ {q s}, update held p none q = some s → q ≠ p ∧ held q = some s := by
    intro q s hq
    by_cases hqp : q = p
    · subst hqp
      rw [Function.update_self] at hq
      cases hq
    · rw [Function.update_of_ne hqp] at hq
      exact ⟨hqp, hq⟩
  refine ⟨fun {q s} hq => ?_, fun {q q' s} hq hq' => h.inj (hkept hq).2 (hkept hq').2⟩
  obtain ⟨hqp, hq⟩ := hkept hq
  have hs : s ≠ r := by
    rintro rfl
    exact hqp (h.inj hq hp)
  rw [Function.update_of_ne hs]
  exact h.isOpen hq

theorem Owns.obtain (h : Owns held opened) (hr : opened r = false) (hp : held p = none) :
    Owns (update held p (some r)) (update opened r true) where
  toHolds := h.toHolds.obtain hr p
  owner {s} hs := by
    by_cases hsr : s = r
    · exact ⟨p, by rw [hsr, Function.update_self]⟩
    · rw [Function.update_of_ne hsr] at hs
      exact h.kept hs (by simp [hp]) _

theorem Owns.release (h : Owns held opened) (hp : held p = some r) :
    Owns (update held p none) (update opened r false) where
  toHolds := h.toHolds.release hp
  owner {s} hs := by
    by_cases hsr : s = r
    · rw [hsr, Function.update_self] at hs
      cases hs
    · rw [Function.update_of_ne hsr] at hs
      exact h.kept hs (fun heq => hsr (Option.some.inj (hp.symm.trans heq)).symm) _

end Ownership
