/-! Powers of two.
A power of two is the number of patterns of so many bits: ranges of integers,
parts of a turn and places of a binary number are all counted by it. -/

namespace QasmValues

def twoPow (n : Nat) : Nat := Nat.pow 2 n

theorem twoPow_eq_pow (n : Nat) : twoPow n = Nat.pow 2 n := rfl

@[simp] theorem twoPow_zero : twoPow 0 = 1 := rfl

theorem twoPow_succ (n : Nat) : twoPow (n + 1) = 2 * twoPow n :=
  Nat.mul_comm ..

theorem twoPow_add (m n : Nat) : twoPow (m + n) = twoPow m * twoPow n :=
  Nat.pow_add ..

theorem twoPow_pos (n : Nat) : 0 < twoPow n := Nat.two_pow_pos n

theorem twoPow_le_twoPow {m n : Nat} (h : m ≤ n) : twoPow m ≤ twoPow n :=
  Nat.pow_le_pow_right (by decide) h

end QasmValues
