import Mathlib.Algebra.Group.Even
import Mathlib.Algebra.Group.Nat.Even
import Mathlib.Tactic.Ring
import QasmValues.Binary

/-! Rounding to the nearest integer.
A quotient is rounded to an integer at a distance of at most one half, and to the even one
where two are that near. This determines the integer, and `roundDiv` computes it. -/

namespace QasmValues

/-- The integer nearest to `n / d`, and the even one if the distance is one half. -/
structure IsNearest (n d k : Nat) : Prop where
  near : 2 * ((n : Int) - k * d).natAbs ≤ d
  even : 2 * ((n : Int) - k * d).natAbs = d → Even k

variable {n d c s q j k : Nat}

theorem IsNearest.le (hj : IsNearest n d j) (hk : IsNearest n d k) (positive : 0 < d) :
    k ≤ j := by
  by_contra above
  have apart : (j + 1) * d ≤ k * d := Nat.mul_le_mul_right d (by omega)
  rw [Nat.succ_mul] at apart
  have left := hj.near
  have right := hk.near
  rw [← Int.natCast_mul] at left right
  have next : k * d = (j + 1) * d := by
    rw [Nat.succ_mul]
    omega
  have step : k = j + 1 := Nat.eq_of_mul_eq_mul_right positive next
  have evenLeft : Even j := by
    apply hj.even
    rw [← Int.natCast_mul]
    rw [Nat.succ_mul] at next
    omega
  have evenRight : Even k := by
    apply hk.even
    rw [← Int.natCast_mul]
    rw [Nat.succ_mul] at next
    omega
  rw [step, Nat.even_add_one] at evenRight
  exact evenRight evenLeft

theorem IsNearest.unique (positive : 0 < d) (hj : IsNearest n d j) (hk : IsNearest n d k) :
    j = k :=
  Nat.le_antisymm (hk.le hj positive) (hj.le hk positive)

theorem isNearest_roundDiv (n : Nat) (positive : 0 < d) : IsNearest n d (roundDiv n d) := by
  have parts : n / d * d + n % d = n := Nat.div_add_mod' n d
  have below : n % d < d := Nat.mod_lt n positive
  unfold roundDiv
  split
  · rename_i down
    have distance : ((n : Int) - (n / d : Nat) * d).natAbs = n % d := by
      rw [← Int.natCast_mul]
      omega
    refine ⟨by omega, fun tie => ?_⟩
    rw [Nat.even_iff]
    omega
  · rename_i up
    have distance : ((n : Int) - (n / d + 1 : Nat) * d).natAbs = d - n % d := by
      rw [← Int.natCast_mul, Nat.succ_mul]
      omega
    refine ⟨by omega, fun tie => ?_⟩
    rw [Nat.even_add_one, Nat.even_iff]
    omega

theorem isNearest_iff (positive : 0 < d) : IsNearest n d k ↔ roundDiv n d = k := by
  constructor
  · exact (isNearest_roundDiv n positive).unique positive
  · rintro rfl
    exact isNearest_roundDiv n positive

theorem roundDiv_mul_right (positive : 0 < c) : roundDiv (n * c) (d * c) = roundDiv n d := by
  have less : 2 * (n % d * c) < d * c ↔ 2 * (n % d) < d := by
    rw [← Nat.mul_assoc, Nat.mul_lt_mul_right positive]
  have tie : 2 * (n % d * c) = d * c ↔ 2 * (n % d) = d := by
    rw [← Nat.mul_assoc, Nat.mul_left_inj (Nat.ne_of_gt positive)]
  simp only [roundDiv, Nat.mul_mod_mul_right, Nat.mul_div_mul_right n d positive, less, tie]

theorem le_roundDiv_of_mul_le (positive : 0 < d) (low : k * d ≤ n) : k ≤ roundDiv n d :=
  Nat.le_trans ((Nat.le_div_iff_mul_le positive).mpr low) (le_roundDiv n d)

theorem roundDiv_le_of_le_mul (positive : 0 < d) (high : n ≤ k * d) : roundDiv n d ≤ k := by
  obtain same | below := Nat.eq_or_lt_of_le high
  · rw [same, roundDiv_of_dvd positive (Nat.dvd_mul_left d k), Nat.mul_div_cancel k positive]
  · have quotient : n / d < k := (Nat.div_lt_iff_lt_mul positive).mpr below
    have step := roundDiv_le n d
    omega

/-! ### The middle between two integers -/

theorem roundDiv_eq_of_lt_middle (low : q * d ≤ n) (before : 2 * n < (2 * q + 1) * d) :
    roundDiv n d = q := by
  rw [Nat.add_mul, Nat.one_mul, Nat.mul_assoc] at before
  have positive : 0 < d := by omega
  have near : 2 * ((n : Int) - q * d).natAbs < d := by
    rw [← Int.natCast_mul]
    omega
  exact (isNearest_iff positive).mp ⟨Nat.le_of_lt near, fun tie => absurd tie (Nat.ne_of_lt near)⟩

theorem roundDiv_eq_of_middle_lt (after : (2 * q + 1) * d < 2 * n) (high : n ≤ (q + 1) * d) :
    roundDiv n d = q + 1 := by
  rw [Nat.add_mul, Nat.one_mul, Nat.mul_assoc] at after
  have bound := high
  rw [Nat.succ_mul q d] at bound
  have positive : 0 < d := by omega
  have near : 2 * ((n : Int) - (q + 1 : Nat) * d).natAbs < d := by
    rw [← Int.natCast_mul, Nat.succ_mul q d]
    omega
  exact (isNearest_iff positive).mp ⟨Nat.le_of_lt near, fun tie => absurd tie (Nat.ne_of_lt near)⟩

theorem roundDiv_middle (positive : 0 < d) (tie : 2 * n = (2 * q + 1) * d) :
    roundDiv n d = if Even q then q else q + 1 := by
  rw [Nat.add_mul, Nat.one_mul, Nat.mul_assoc] at tie
  rw [← isNearest_iff positive]
  split
  · rename_i even
    refine ⟨?_, fun _ => even⟩
    rw [← Int.natCast_mul]
    omega
  · rename_i odd
    refine ⟨?_, fun _ => Nat.even_add_one.mpr odd⟩
    rw [← Int.natCast_mul, Nat.succ_mul q d]
    omega

/-! ### Two roundings -/

def middle (n d : Nat) : Nat := (2 * (n / d) + 1) * d

/-- The number is off the middle by no more than one half of `s`, and on the side away
from the even one of its two neighbours. -/
structure Strays (s n d : Nat) : Prop where
  off : 2 * n ≠ middle n d
  close : (2 * (n : Int) - middle n d).natAbs ≤ s
  side : Even (n / d) ↔ middle n d < 2 * n

instance : Decidable (Strays s n d) :=
  decidable_of_iff (2 * n ≠ middle n d ∧ (2 * (n : Int) - middle n d).natAbs ≤ s ∧
    (Even (n / d) ↔ middle n d < 2 * n))
    ⟨fun ⟨off, close, side⟩ => ⟨off, close, side⟩, fun h => ⟨h.off, h.close, h.side⟩⟩

/-- Rounding first to multiples of `s` and then to multiples of a multiple of it gives what one
rounding gives, except for a number that the first rounding moves to the middle. -/
theorem roundDiv_roundDiv (positive : 0 < s) (room : 4 ∣ c) (several : 0 < c) :
    roundDiv (roundDiv n s) c = roundDiv n (c * s) ↔ ¬ Strays s n (c * s) := by
  have whole : 0 < c * s := Nat.mul_pos several positive
  obtain ⟨q, quotient⟩ : ∃ q, n / (c * s) = q := ⟨_, rfl⟩
  obtain ⟨v, quarter⟩ := room
  obtain ⟨m, half⟩ : ∃ m, (2 * q + 1) * (2 * v) = m := ⟨_, rfl⟩
  have even : Even m := ⟨(2 * q + 1) * v, by rw [← half]; ring⟩
  have between : middle n (c * s) = 2 * (m * s) := by
    rw [middle, quotient, quarter, ← half]
    ring
  have centre : 2 * m = (2 * q + 1) * c := by
    rw [quarter, ← half]
    ring
  have low : q * c * s ≤ n := by
    rw [← quotient, Nat.mul_assoc]
    exact Nat.div_mul_le_self n (c * s)
  have high : n ≤ (q + 1) * c * s := by
    rw [← quotient, Nat.mul_assoc, Nat.mul_comm]
    exact Nat.le_of_lt (Nat.lt_mul_div_succ n whole)
  have lower : q * c ≤ roundDiv n s := le_roundDiv_of_mul_le positive low
  have upper : roundDiv n s ≤ (q + 1) * c := roundDiv_le_of_le_mul positive high
  have arrives : roundDiv n s = m ↔ (2 * (n : Int) - 2 * (m * s : Nat)).natAbs ≤ s := by
    rw [← isNearest_iff positive]
    constructor
    · intro nearest
      have near := nearest.near
      rw [← Int.natCast_mul] at near
      omega
    · intro close
      refine ⟨?_, fun _ => even⟩
      rw [← Int.natCast_mul]
      omega
  have strays : Strays s n (c * s) ↔ 2 * n ≠ 2 * (m * s) ∧ roundDiv n s = m ∧
      (Even q ↔ 2 * (m * s) < 2 * n) := by
    have scaled : (2 * (m * s : Nat) : Int) = middle n (c * s) := by
      rw [between]
      rfl
    rw [arrives, scaled, ← between, ← quotient]
    exact ⟨fun h => ⟨h.off, h.close, h.side⟩, fun h => ⟨h.1, h.2.1, h.2.2⟩⟩
  have ties : roundDiv m c = if Even q then q else q + 1 := roundDiv_middle several centre
  obtain before | tie | after := Nat.lt_trichotomy n (m * s)
  · have once : roundDiv n (c * s) = q :=
      roundDiv_eq_of_lt_middle (by rwa [← Nat.mul_assoc])
        (by rw [← Nat.mul_assoc, ← centre, Nat.mul_assoc]; omega)
    by_cases moved : roundDiv n s = m
    · rw [strays, once, moved, ties]
      by_cases parity : Even q
      · simp [parity, Nat.le_of_lt before]
      · simp [parity, Nat.ne_of_lt before, Nat.le_of_lt before]
    · have below : roundDiv n s ≤ m := roundDiv_le_of_le_mul positive (Nat.le_of_lt before)
      rw [strays, once, roundDiv_eq_of_lt_middle lower (by omega)]
      simp [moved]
  · rw [strays, tie, roundDiv_of_dvd positive (Nat.dvd_mul_left s m),
      Nat.mul_div_cancel m positive, roundDiv_mul_right positive]
    simp
  · have once : roundDiv n (c * s) = q + 1 :=
      roundDiv_eq_of_middle_lt (by rw [← Nat.mul_assoc, ← centre, Nat.mul_assoc]; omega)
        (by rwa [← Nat.mul_assoc])
    by_cases moved : roundDiv n s = m
    · rw [strays, once, moved, ties]
      by_cases parity : Even q
      · simp [parity, after, Nat.ne_of_gt after]
      · simp [parity, after]
    · have above : m ≤ roundDiv n s := le_roundDiv_of_mul_le positive (Nat.le_of_lt after)
      rw [strays, once, roundDiv_eq_of_middle_lt (by omega) upper]
      simp [moved]

end QasmValues
