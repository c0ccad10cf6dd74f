import QasmValues.Binary.Integral

/-! Numbers in words of a declared width.
A narrower number lives in a 64-bit word: a signed one sign-extended, an
unsigned one with its upper bits zero. Wrapping keeps the low bits of a number,
as many as its width. -/

namespace QasmValues

def widthMask (width : Nat) : UInt64 :=
  if 64 ≤ width then UInt64.ofNat (twoPow 64 - 1) else 1 <<< UInt64.ofNat width - 1

/-- The low bits of a word, the highest of them its sign. -/
def signExtend (word : UInt64) (width : Nat) : Int64 :=
  if 64 ≤ width then word.toInt64
  else (word <<< UInt64.ofNat (64 - width)).toInt64 >>> Int64.ofNat (64 - width)

def wrapInt (width : Nat) (n : Int) : Int64 := signExtend (UInt64.ofInt n) width

def wrapUInt (width : Nat) (n : Int) : UInt64 := UInt64.ofInt n &&& widthMask width

/-- The least width that holds a number in two's complement. -/
def signedWidth (n : Int) : Nat :=
  bitLength (if 0 ≤ n then n else -n - 1).toNat + 1

/-- The least width that holds an unsigned number, at least one bit. -/
def unsignedWidth (n : Nat) : Nat := max (bitLength n) 1

/-- The power by repeated squaring, for an exponent of at most `bits` bits; the
products wrap at the word. -/
def wordPow (base : Int64) : (bits : Nat) → (exponent : Nat) → Int64
  | 0, _ => 1
  | bits + 1, exponent =>
    let rest := wordPow (base * base) bits (exponent / 2)
    if exponent % 2 = 1 then base * rest else rest

/-- The word that a float becomes: truncated toward zero, clamped to the signed
range below zero and to the unsigned range above, and zero for NaN. -/
def wordOfFloat (x : Float) : Int :=
  match Binary.ofFloat? x with
  | some y => max (-twoPow 63) (min y.truncate (twoPow 64 - 1))
  | none => if x.isNaN then 0 else if x < 0 then -twoPow 63 else twoPow 64 - 1

theorem lt_twoPow_bitLength (n : Nat) : n < twoPow (bitLength n) := by
  unfold bitLength
  split
  · subst n
    exact twoPow_pos 0
  · exact Nat.lt_log2_self

theorem bitLength_le_iff (n width : Nat) : bitLength n ≤ width ↔ n < twoPow width := by
  constructor
  · exact fun h => Nat.lt_of_lt_of_le (lt_twoPow_bitLength n) (twoPow_le_twoPow h)
  · intro h
    unfold bitLength
    split
    · exact Nat.zero_le _
    · rename_i hn
      exact (Nat.log2_lt hn).mpr h

end QasmValues
