import Mathlib.Algebra.Group.Nat.Defs
import Mathlib.Order.MinMax

/-!
# Doubling up to a cap

`capped cap n d` doubles `d` up to `n` times and stops at `cap` as soon as that
is reached. The cap is tested after a doubling only, so `d` itself may exceed it
(`capped_zero`, `capped_succ`). `law d cap` is the sequence of delays one expects
of a back-off that starts over with `d`.
-/

namespace CappedDoubling

def capped (cap : Nat) : Nat → Nat → Nat
  | 0, d => d
  | n + 1, d => if cap ≤ d * 2 then cap else capped cap n (d * 2)

@[simp] theorem capped_zero (cap d : Nat) : capped cap 0 d = d := rfl

theorem le_mul_two_pow (d n : Nat) : d ≤ d * 2 ^ n :=
  Nat.le_mul_of_pos_right d (Nat.two_pow_pos n)

theorem mul_two_pow_succ (d n : Nat) : d * 2 ^ (n + 1) = d * 2 * 2 ^ n := by
  rw [Nat.pow_succ', Nat.mul_assoc]

/-- The closed form of the loop. -/
theorem capped_succ (cap n d : Nat) : capped cap (n + 1) d = min (d * 2 ^ (n + 1)) cap := by
  induction n generalizing d with
  | zero =>
    show (if cap ≤ d * 2 then cap else d * 2) = _
    rw [Nat.pow_one]
    split <;> omega
  | succ n ih =>
    have hle := le_mul_two_pow (d * 2) (n + 1)
    show (if cap ≤ d * 2 then cap else capped cap (n + 1) (d * 2)) = _
    rw [mul_two_pow_succ d (n + 1)]
    split
    · omega
    · exact ih (d * 2)

theorem capped_of_le {cap d : Nat} (hd : d ≤ cap) (n : Nat) :
    capped cap n d = min (d * 2 ^ n) cap := by
  cases n with
  | zero => rw [capped_zero, Nat.pow_zero, Nat.mul_one, Nat.min_eq_left hd]
  | succ n => exact capped_succ cap n d

/-- Two long sequences of doublings end the same: at the cap, or at zero. -/
theorem min_two_pow {cap d a b bits : Nat} (hcap : cap ≤ 2 ^ bits) (ha : bits ≤ a) (hb : bits ≤ b) :
    min (d * 2 ^ a) cap = min (d * 2 ^ b) cap := by
  rcases Nat.eq_zero_or_pos d with rfl | hd
  · rw [Nat.zero_mul, Nat.zero_mul]
  · have hlarge : ∀ n, bits ≤ n → cap ≤ d * 2 ^ n := fun n hn =>
      (hcap.trans (Nat.pow_le_pow_right (by omega) hn)).trans (Nat.le_mul_of_pos_left _ hd)
    rw [Nat.min_eq_right (hlarge a ha), Nat.min_eq_right (hlarge b hb)]

/-! ## The back-off law -/

/-- The delay after a loss, and after each failed attempt. -/
def law (d cap : Nat) : Nat → Nat
  | 0 => min d cap
  | k + 1 => min (d * 2 ^ k) cap

theorem law_le (d cap k : Nat) : law d cap k ≤ cap := by
  cases k <;> exact Nat.min_le_right _ _

theorem law_succ (d cap k : Nat) : law d cap k ≤ law d cap (k + 1) := by
  cases k with
  | zero => simp [law]
  | succ k =>
    have hle : d * 2 ^ k ≤ d * 2 ^ (k + 1) :=
      Nat.mul_le_mul_left d (Nat.pow_le_pow_right (by omega) (Nat.le_succ k))
    simp only [law]
    omega

theorem law_mono (d cap : Nat) {i j : Nat} (h : i ≤ j) : law d cap i ≤ law d cap j := by
  induction h with
  | refl => exact Nat.le_refl _
  | step _ ih => exact ih.trans (law_succ d cap _)

end CappedDoubling
