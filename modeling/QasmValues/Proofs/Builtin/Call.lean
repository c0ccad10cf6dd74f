import QasmValues.Builtin.Evaluation
import QasmValues.Complex.Polar
import QasmValues.Proofs.Scalar.Cast

/-! The type table of the built-in functions and their values agree.
The table is looked up before a function is evaluated, and evaluation looks at the
arguments again. `Takes` states the rows of the table at values: a function that
takes its arguments yields a value of the row's type, and the only fault left is a
remainder by zero. -/

namespace QasmValues

theorem Scalar.ofFloat_of_valid (x : Float) {w : Nat} (valid : (ScalarType.float w).Valid) :
    Scalar.ofFloat x w = .ok (.float (floatOfWidth w x) w) := by
  rw [Scalar.ofFloat, (ScalarType.validate_eq_ok_iff _).mpr valid]
  rfl

theorem ScalarType.valid_float_max {a b : Nat} (ha : (ScalarType.float a).Valid)
    (hb : (ScalarType.float b).Valid) : (ScalarType.float (max a b)).Valid := by
  simp only [ScalarType.Valid] at *
  omega

namespace Scalar

variable {a b : Nat}

def IsZero : Scalar → Prop
  | .int n _ => n = 0
  | .uint n _ => n = 0
  | .float x _ => (x == 0) = true
  | _ => False

theorem fits_int_mod {n d : Int64} (hn : Fits (.int n a)) (hd : Fits (.int d b)) :
    Fits (.int (n % d) (max a b)) := by
  obtain ⟨⟨low, high⟩, lower, upper⟩ := hn
  have high' := hd.1.2
  have wide : twoPow (a - 1) ≤ twoPow (max a b - 1) := twoPow_le_twoPow (by omega)
  have near : (n.toInt.tmod d.toInt).natAbs ≤ n.toInt.natAbs := by
    rw [Int.natAbs_tmod]
    exact Nat.mod_le _ _
  have positive : 0 ≤ n.toInt → 0 ≤ n.toInt.tmod d.toInt := Int.tmod_nonneg d.toInt
  have negative : n.toInt ≤ 0 → n.toInt.tmod d.toInt ≤ 0 := fun h => by
    have mirrored := Int.tmod_nonneg d.toInt (Int.neg_nonneg_of_nonpos h)
    rw [Int.neg_tmod] at mirrored
    omega
  refine ⟨⟨by omega, by omega⟩, ?_⟩
  rw [Int64.toInt_mod]
  omega

theorem fits_uint_mod {n d : UInt64} (hn : Fits (.uint n a)) (hd : Fits (.uint d b)) :
    Fits (.uint (n % d) (max a b)) := by
  obtain ⟨⟨low, high⟩, upper⟩ := hn
  have high' := hd.1.2
  have wide : twoPow a ≤ twoPow (max a b) := twoPow_le_twoPow (by omega)
  have less : n.toNat % d.toNat ≤ n.toNat := Nat.mod_le _ _
  refine ⟨⟨by omega, by omega⟩, ?_⟩
  rw [UInt64.toNat_mod]
  omega

end Scalar

namespace Builtin

variable {f : Builtin} {complex : Complex.Functions} {arguments : List Scalar} {t : ScalarType}

/-- The rows of the type table: the arguments that a function takes and the type of
its value. -/
inductive Takes : Builtin → List Scalar → ScalarType → Prop
  | real {f : Builtin} {g : Float → Float} (h : f.real? = some g) (x : Float) (w : Nat) :
    Takes f [.float x w] (.float w)
  | angle {f : Builtin} (h : f = .cos ∨ f = .sin ∨ f = .tan) (a : Angle) :
    Takes f [.angle a] (.float 64)
  | complex {f : Builtin} (h : f = .exp ∨ f = .sqrt) (z : Complex) (w : Nat) :
    Takes f [.complex z w] (.complex w)
  | modInt (n d : Int64) (a b : Nat) : Takes .mod [.int n a, .int d b] (.int (max a b))
  | modUInt (n d : UInt64) (a b : Nat) : Takes .mod [.uint n a, .uint d b] (.uint (max a b))
  | modFloat (x y : Float) (a b : Nat) : Takes .mod [.float x a, .float y b] (.float (max a b))
  | popcount (b : Bits) : Takes .popcount [.bit b] (.uint countWidth)
  | powInt (n : Int64) (e : UInt64) (w u : Nat) : Takes .pow [.int n w, .uint e u] (.int w)
  | powFloat (x y : Float) (a b : Nat) : Takes .pow [.float x a, .float y b] (.float (max a b))
  | powComplex (z z' : Complex) (a b : Nat) :
    Takes .pow [.complex z a, .complex z' b] (.complex (max a b))
  | rotateBits {f : Builtin} (h : f = .rotl ∨ f = .rotr) (b : Bits) {v : Scalar} {d : Int64}
    (hd : distance? v = some d) : Takes f [.bit b, v] (.bit b.width)
  | rotateUInt {f : Builtin} (h : f = .rotl ∨ f = .rotr) (n : UInt64) (w : Nat) {v : Scalar}
    {d : Int64} (hd : distance? v = some d) : Takes f [.uint n w, v] (.uint w)

def DividesByZero (f : Builtin) (arguments : List Scalar) : Prop :=
  f = .mod ∧ ∃ n d, arguments = [n, d] ∧ d.IsZero

/-- A fallible result is a value of this type, and its word fits. -/
def Yields (outcome : Except Fault Scalar) (t : ScalarType) : Prop :=
  ∃ r, outcome = .ok r ∧ r.type = t ∧ r.WordFits

theorem takes_of_overload_one {v : Scalar} (h : f.overload? [v.type] = some t) :
    Takes f [v] t := by
  have count := length_of_overload h
  cases f with
  | arccos | arcsin | arctan | ceiling | floor | log =>
    cases v <;> cases h
    exact .real rfl _ _
  | cos | sin | tan =>
    cases v <;> cases h
    · exact .real rfl _ _
    · exact .angle (by simp) _
  | exp | sqrt =>
    cases v <;> cases h
    · exact .real rfl _ _
    · exact .complex (by simp) _ _
  | popcount =>
    cases v <;> cases h
    exact .popcount _
  | mod | pow | rotl | rotr => cases count

theorem takes_of_overload_two {v v' : Scalar} (h : f.overload? [v.type, v'.type] = some t) :
    Takes f [v, v'] t := by
  have count := length_of_overload h
  cases f with
  | mod =>
    cases v <;> cases v' <;> cases h
    · exact .modInt _ _ _ _
    · exact .modUInt _ _ _ _
    · exact .modFloat _ _ _ _
  | pow =>
    cases v <;> cases v' <;> cases h
    · exact .powInt _ _ _ _
    · exact .powFloat _ _ _ _
    · exact .powComplex _ _ _ _
  | rotl | rotr =>
    cases v <;> cases v' <;> cases h
    · exact .rotateUInt (by simp) _ _ rfl
    · exact .rotateUInt (by simp) _ _ rfl
    · exact .rotateBits (by simp) _ rfl
    · exact .rotateBits (by simp) _ rfl
  | arccos | arcsin | arctan | ceiling | floor | log | cos | sin | tan | exp | sqrt | popcount =>
    cases count

theorem takes_of_overload (h : f.overload? (arguments.map Scalar.type) = some t) :
    Takes f arguments t := by
  have count := length_of_overload h
  rw [List.length_map] at count
  match arguments, count with
  | [], count => cases f <;> cases count
  | [v], _ => exact takes_of_overload_one h
  | [v, v'], _ => exact takes_of_overload_two h
  | _ :: _ :: _ :: _, count => cases f <;> cases count

theorem yields_ofFloat (x : Float) {w : Nat} (valid : (ScalarType.float w).Valid) :
    Yields (Scalar.ofFloat x w) (.float w) :=
  ⟨_, Scalar.ofFloat_of_valid x valid, rfl, trivial⟩

theorem evaluate_real {g : Float → Float} (h : f.real? = some g) (x : Float) (w : Nat) :
    f.evaluate complex [.float x w] (.float w) = Scalar.ofFloat (g x) w := by
  cases f <;> cases h <;> rfl

theorem evaluate_angle (h : f = .cos ∨ f = .sin ∨ f = .tan) (a : Angle) :
    ∃ y, f.evaluate complex [.angle a] (.float 64) = Scalar.ofFloat y 64 := by
  rcases h with rfl | rfl | rfl <;> exact ⟨_, rfl⟩

theorem evaluate_complex (h : f = .exp ∨ f = .sqrt) (z : Complex) (w : Nat) :
    ∃ r, f.evaluate complex [.complex z w] (.complex w) = .ok (.complex r w) := by
  rcases h with rfl | rfl <;> exact ⟨_, rfl⟩

theorem evaluate_rotateBits (h : f = .rotl ∨ f = .rotr) (b : Bits) {v : Scalar} {d : Int64}
    (hd : distance? v = some d) :
    ∃ r, f.evaluate complex [.bit b, v] (.bit b.width) = .ok (.bit r) ∧ r.length = b.length := by
  rcases h with rfl | rfl <;> cases v <;> cases hd
  · exact ⟨_, rfl, Bits.length_rotl b d⟩
  · exact ⟨_, rfl, Bits.length_rotl b _⟩
  · exact ⟨_, rfl, Bits.length_rotr b d⟩
  · exact ⟨_, rfl, Bits.length_rotr b _⟩

theorem evaluate_rotateUInt (h : f = .rotl ∨ f = .rotr) (n : UInt64) (w : Nat) {v : Scalar}
    {d : Int64} (hd : distance? v = some d) :
    ∃ r : Bits,
      f.evaluate complex [.uint n w, v] (.uint w) = .ok (.uint r.toWord w) ∧ r.length = w := by
  rcases h with rfl | rfl <;> cases v <;> cases hd <;> exact ⟨_, rfl, by simp⟩

/-- A function that takes its arguments has a value, unless it divides by zero. -/
theorem yields_of_takes (row : Takes f arguments t)
    (fits : ∀ a ∈ arguments, a.Fits ∨ ∃ b, a = .bit b) (divides : ¬DividesByZero f arguments) :
    Yields (f.evaluate complex arguments t) t := by
  have fitting : ∀ a ∈ arguments, (∀ b, a ≠ .bit b) → a.Fits :=
    fun a member other => (fits a member).resolve_right fun ⟨b, same⟩ => other b same
  cases row with
  | real h x w =>
    rw [evaluate_real h]
    exact yields_ofFloat _ (fitting (.float x w) (by simp) nofun).1
  | angle h a =>
    obtain ⟨y, value⟩ := evaluate_angle h a
    rw [value]
    exact yields_ofFloat y (by decide)
  | complex h z w =>
    obtain ⟨r, value⟩ := evaluate_complex h z w
    exact ⟨_, value, rfl, trivial⟩
  | modInt n d a b =>
    have nonzero : ¬d = 0 := fun zero => divides ⟨rfl, _, _, rfl, zero⟩
    have value : evaluate .mod complex [.int n a, .int d b] (.int (max a b)) =
        .ok (.int (n % d) (max a b)) := if_neg nonzero
    have dividend := fitting (.int n a) (by simp) nofun
    have divisor := fitting (.int d b) (by simp) nofun
    exact ⟨_, value, rfl, Scalar.fits_int_mod dividend divisor⟩
  | modUInt n d a b =>
    have nonzero : ¬d = 0 := fun zero => divides ⟨rfl, _, _, rfl, zero⟩
    have value : evaluate .mod complex [.uint n a, .uint d b] (.uint (max a b)) =
        .ok (.uint (n % d) (max a b)) := if_neg nonzero
    have dividend := fitting (.uint n a) (by simp) nofun
    have divisor := fitting (.uint d b) (by simp) nofun
    exact ⟨_, value, rfl, Scalar.fits_uint_mod dividend divisor⟩
  | modFloat x y a b =>
    have nonzero : ¬(y == 0) = true := fun zero => divides ⟨rfl, _, _, rfl, zero⟩
    have value : evaluate .mod complex [.float x a, .float y b] (.float (max a b)) =
        Scalar.ofFloat (floatRem x y) (max a b) := if_neg nonzero
    have first := fitting (.float x a) (by simp) nofun
    have second := fitting (.float y b) (by simp) nofun
    rw [value]
    exact yields_ofFloat _ (ScalarType.valid_float_max first.1 second.1)
  | popcount b =>
    exact ⟨_, rfl, rfl, by decide, UInt64.toNat_lt _⟩
  | powInt n e w u =>
    have room := (fitting (.int n w) (by simp) nofun).1
    exact ⟨_, rfl, rfl, room, wrapInt_range _ room.1 room.2⟩
  | powFloat x y a b =>
    have first := fitting (.float x a) (by simp) nofun
    have second := fitting (.float y b) (by simp) nofun
    exact yields_ofFloat _ (ScalarType.valid_float_max first.1 second.1)
  | powComplex z z' a b => exact ⟨_, rfl, rfl, trivial⟩
  | rotateBits h b hd =>
    obtain ⟨r, value, length⟩ := evaluate_rotateBits h b hd
    exact ⟨_, value, congrArg ScalarType.bit (Bits.width_congr length), trivial⟩
  | rotateUInt h n w hd =>
    obtain ⟨r, value, rfl⟩ := evaluate_rotateUInt h n w hd
    have room := (fitting (.uint n r.length) (by simp) nofun).1
    exact ⟨_, value, rfl, Scalar.fits_uint_toWord room⟩

theorem divisionByZero_of_takes (row : Takes f arguments t) (divides : DividesByZero f arguments) :
    f.evaluate complex arguments t = .error .divisionByZero := by
  obtain ⟨rfl, n, d, rfl, zero⟩ := divides
  cases row with
  | modInt n d a b => exact if_pos zero
  | modUInt n d a b => exact if_pos zero
  | modFloat x y a b => exact if_pos zero
  | rotateBits h => simp at h
  | rotateUInt h => simp at h

theorem rotated_of_takes {n : Nat} {b : Bits} (row : Takes f arguments (.bit n))
    (value : f.evaluate complex arguments (.bit n) = .ok (.bit b)) :
    ∃ c rest, arguments = .bit c :: rest ∧ b.length = c.length := by
  cases row with
  | rotateBits h c hd =>
    obtain ⟨r, rotated, length⟩ := evaluate_rotateBits h c hd
    cases rotated.symm.trans value
    exact ⟨c, _, rfl, length⟩

theorem takes_of_resultType (h : f.resultType (arguments.map Scalar.type) = .ok t) :
    Takes f arguments t ∧ f.call complex arguments = f.evaluate complex arguments t := by
  constructor
  · unfold resultType at h
    split at h
    · split at h
      · rename_i row
        cases h
        exact takes_of_overload row
      · cases h
    · cases h
  · rw [call, h]
    rfl

/-- A function called on values fails as the type table does, with the same fault.
Where the table has a result type the call gives a value of it, integers in the range
of their width and bits as many as were rotated; a remainder by zero is the only
exception. Besides the values that fit their type every bit string is allowed. -/
theorem call_agrees_resultType (f : Builtin) (complex : Complex.Functions)
    (arguments : List Scalar) (fits : ∀ a ∈ arguments, a.Fits ∨ ∃ b, a = .bit b) :
    (∀ fault, f.resultType (arguments.map Scalar.type) = .error fault →
      f.call complex arguments = .error fault) ∧
    (∀ t, f.resultType (arguments.map Scalar.type) = .ok t →
      (DividesByZero f arguments → f.call complex arguments = .error .divisionByZero) ∧
      (¬DividesByZero f arguments →
        ∃ r, f.call complex arguments = .ok r ∧ r.type = t ∧ r.WordFits ∧
          ∀ b, r = .bit b → ∃ c rest, arguments = .bit c :: rest ∧ b.length = c.length)) := by
  refine ⟨fun fault => call_of_resultType_error, fun t typed => ?_⟩
  obtain ⟨row, called⟩ := takes_of_resultType typed
  rw [called]
  refine ⟨divisionByZero_of_takes row, fun divides => ?_⟩
  obtain ⟨r, value, type, word⟩ := yields_of_takes row fits divides
  refine ⟨r, value, type, word, ?_⟩
  rintro b rfl
  subst type
  exact rotated_of_takes row value

theorem call_agrees_resultType_of_mod :
    (∀ a ∈ [Scalar.int (-9223372036854775808) 64, .int (-1) 8], a.Fits ∨ ∃ b, a = .bit b) ∧
      ∃ r, call .mod .polar [.int (-9223372036854775808) 64, .int (-1) 8] = .ok r ∧
        r.type = .int 64 ∧ r.WordFits := by
  have fits : ∀ a ∈ [Scalar.int (-9223372036854775808) 64, .int (-1) 8],
      a.Fits ∨ ∃ b, a = .bit b := by
    have each : ∀ a ∈ [Scalar.int (-9223372036854775808) 64, .int (-1) 8], a.Fits := by decide
    exact fun a member => .inl (each a member)
  have divides : ¬DividesByZero .mod [.int (-9223372036854775808) 64, .int (-1) 8] := by
    rintro ⟨-, n, d, h, zero⟩
    cases h
    exact absurd (show (-1 : Int64) = 0 from zero) (by decide)
  obtain ⟨r, value, type, word, -⟩ :=
    ((call_agrees_resultType .mod .polar _ fits).2 (.int 64) rfl).2 divides
  exact ⟨fits, r, value, type, word⟩

example : call .mod .polar [.float 1.0 64, .float (-0.0) 64] = .error .divisionByZero := rfl

end Builtin

end QasmValues
