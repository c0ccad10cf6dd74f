import QasmValues.Proofs.Scalar.Cast

/-! The table of legal casts and the conversions agree.
Which pairs of types are legal is decided apart from how a value is converted. A
cast fails with the fault of its target, then with that of the table, and a legal
cast succeeds: only a float that is NaN or infinite has no angle, and more bits than
a width can count have none. None of this asks that the word of a value fits. -/

namespace QasmValues

theorem isFinite_eq_false_iff (x : Float) :
    x.isFinite = false ↔ x.isNaN = true ∨ x.isInf = true := by
  unfold Float.isFinite Float.isNaN Float.isInf
  unfold Float.Model.isFinite Float.Model.isNaN Float.Model.isInf
  cases x.toModel.unpack with
  | notANumber => exact ⟨fun _ => .inl rfl, fun _ => rfl⟩
  | infinity => exact ⟨fun _ => .inr rfl, fun _ => rfl⟩
  | zero | finite => exact ⟨nofun, fun special => special.elim nofun nofun⟩

theorem ScalarType.validate_eq_error {t : ScalarType} {fault : Fault}
    (h : t.validate = .error fault) :
    ∃ family width, t.sized = some (family, width) ∧ fault = .invalidWidth family width := by
  unfold validate at h
  split at h
  · cases h
  · split at h
    · rename_i family width sized
      exact ⟨family, width, sized, (Except.error.inj h).symm⟩
    · cases h

namespace Angle

variable {radians : Float} {width : Nat}

theorem ofRadians_of_finite (valid : (ScalarType.angle width).validate = .ok ())
    (finite : radians.isFinite = true) : ∃ a, ofRadians radians width = .ok a := by
  rw [ofRadians, valid]
  simp [finite, bind, Except.bind, pure, Except.pure]

theorem ofRadians_of_not_finite (valid : (ScalarType.angle width).validate = .ok ())
    (other : radians.isFinite = false) :
    ofRadians radians width = .error (.nonFiniteAngle radians) := by
  rw [ofRadians, valid]
  simp [other, bind, Except.bind]

end Angle

namespace Scalar

variable {v : Scalar} {target : ScalarType} {fault : Fault}

/-- The value is the float `x`, which is not finite, and the target is an angle. -/
def NoAngle (v : Scalar) (target : ScalarType) (x : Float) : Prop :=
  ∃ w n, v = .float x w ∧ target = .angle n ∧ (x.isNaN = true ∨ x.isInf = true)

theorem cast_of_invalid (h : target.validate = .error fault) : v.cast target = .error fault := by
  rw [cast, h]
  rfl

theorem cast_of_illegal (valid : target.validate = .ok ())
    (h : v.type.checkCast target = .error fault) : v.cast target = .error fault := by
  rw [cast, valid, h]
  rfl

theorem cast_of_legal (valid : target.validate = .ok ())
    (legal : v.type.checkCast target = .ok ()) :
    v.cast target = if v.type = target then .ok v else v.convert target := by
  rw [cast, valid, legal]
  rfl

theorem convert_of_noAngle {x : Float} (valid : target.validate = .ok ())
    (h : NoAngle v target x) : v.convert target = .error (.nonFiniteAngle x) := by
  obtain ⟨w, n, rfl, rfl, special⟩ := h
  have fault := Angle.ofRadians_of_not_finite valid ((isFinite_eq_false_iff x).mpr special)
  rw [convert, ofRadians, fault]
  rfl

theorem convert_float_angle (x : Float) (w : Nat) {n : Nat}
    (valid : (ScalarType.angle n).validate = .ok ()) :
    (∃ r, convert (.float x w) (.angle n) = .ok r) ∨
      ∃ y, NoAngle (.float x w) (.angle n) y ∧
        convert (.float x w) (.angle n) = .error (.nonFiniteAngle y) := by
  cases finite : x.isFinite with
  | true =>
    obtain ⟨a, ha⟩ := Angle.ofRadians_of_finite valid finite
    refine .inl ⟨.angle a, ?_⟩
    rw [convert, ofRadians, ha]
    rfl
  | false =>
    have missing : NoAngle (.float x w) (.angle n) x :=
      ⟨w, n, rfl, rfl, (isFinite_eq_false_iff x).mp finite⟩
    exact .inr ⟨x, missing, convert_of_noAngle valid missing⟩

theorem convert_bit_angle {b : Bits} (valid : (ScalarType.angle b.width).validate = .ok ()) :
    (∃ r, convert (.bit b) (.angle b.width) = .ok r) ∨
      ¬(Scalar.bit b).Sized ∧
        convert (.bit b) (.angle b.width) = .error (.invalidWidth .angle maxWidth) := by
  rw [convert, Angle.ofBits]
  by_cases sized : b.length ≤ maxWidth
  · rw [if_pos sized, ← Bits.width_of_le sized, valid]
    exact .inl ⟨_, rfl⟩
  · rw [if_neg sized]
    exact .inr ⟨sized, rfl⟩

/-- Every pair of different types that the table accepts has a conversion. -/
theorem convert_of_legal (valid : target.validate = .ok ())
    (legal : v.type.checkCast target = .ok ()) (other : v.type ≠ target) :
    (∃ r, v.convert target = .ok r) ∨
      (∃ x, NoAngle v target x ∧ v.convert target = .error (.nonFiniteAngle x)) ∨
      ¬v.Sized ∧ v.convert target = .error (.invalidWidth .angle maxWidth) := by
  unfold ScalarType.checkCast at legal
  rw [if_neg other] at legal
  cases v with
  | bool b =>
    cases target with
    | int | uint | float | bit => exact .inl ⟨_, rfl⟩
    | bool | angle | complex | duration | stretch => cases legal
  | int n w =>
    cases target with
    | bool | int | uint | float | bit => exact .inl ⟨_, rfl⟩
    | angle | complex | duration | stretch => cases legal
  | uint n w =>
    cases target with
    | bool | int | uint | float | bit => exact .inl ⟨_, rfl⟩
    | angle | complex | duration | stretch => cases legal
  | float x w =>
    cases target with
    | bool | int | uint => exact .inl ⟨_, rfl⟩
    | angle n => exact (convert_float_angle x w valid).imp_right .inl
    | float | bit | complex | duration | stretch => cases legal
  | angle a =>
    cases target with
    | bool | bit => exact .inl ⟨_, rfl⟩
    | int | uint | float | angle | complex | duration | stretch => cases legal
  | bit b =>
    cases target with
    | bool | int | uint => exact .inl ⟨_, rfl⟩
    | angle n =>
      obtain rfl : n = b.width := by
        simp only [type, sameWidth] at legal
        split at legal
        · assumption
        · cases legal
      exact (convert_bit_angle valid).imp_right .inr
    | float | bit | complex | duration | stretch => cases legal
  | complex | duration | stretch => cases target <;> cases legal

/-- A cast follows the table, for any value and any target: an invalid target and
then an illegal pair are reported as they stand, a legal cast yields a value of
exactly the target's type, and the value itself where that is its type already. The only
fault left is that of a float without an angle, or of bits cast to an angle that are more
than a width can count, and the conversion never calls a pair illegal that the table
accepts. -/
theorem cast_agrees_checkCast (v : Scalar) (target : ScalarType) :
    (∀ fault, target.validate = .error fault → v.cast target = .error fault ∧
      ∃ family width, target.sized = some (family, width) ∧
        fault = .invalidWidth family width) ∧
    (∀ fault, target.validate = .ok () → v.type.checkCast target = .error fault →
      v.cast target = .error fault) ∧
    (target.validate = .ok () → v.type.checkCast target = .ok () →
      (∀ x, NoAngle v target x → v.cast target = .error (.nonFiniteAngle x)) ∧
      (v.Sized → (∀ x, ¬NoAngle v target x) → ∃ r, v.cast target = .ok r) ∧
      (∀ fault, v.cast target = .error fault →
        (∃ x, NoAngle v target x ∧ fault = .nonFiniteAngle x) ∨
          ¬v.Sized ∧ fault = .invalidWidth .angle maxWidth) ∧
      (v.type ≠ target → ∀ source goal, v.convert target ≠ .error (.illegalCast source goal))) ∧
    (∀ r, v.cast target = .ok r → r.type = target ∧ (v.type = target → r = v)) := by
  refine ⟨fun fault invalid => ⟨cast_of_invalid invalid, ScalarType.validate_eq_error invalid⟩,
    fun fault valid illegal => cast_of_illegal valid illegal,
    fun valid legal => ⟨?_, ?_, ?_, ?_⟩, ?_⟩
  · intro x missing
    have other : v.type ≠ target := by
      obtain ⟨w, n, rfl, rfl, -⟩ := missing
      exact nofun
    rw [cast_of_legal valid legal, if_neg other]
    exact convert_of_noAngle valid missing
  · intro sized every
    rw [cast_of_legal valid legal]
    split
    · exact ⟨v, rfl⟩
    · rename_i other
      rcases convert_of_legal valid legal other with converted | ⟨x, missing, -⟩ | ⟨long, -⟩
      · exact converted
      · exact absurd missing (every x)
      · exact absurd sized long
  · intro fault failed
    rw [cast_of_legal valid legal] at failed
    split at failed
    · cases failed
    · rename_i other
      rcases convert_of_legal valid legal other with
        ⟨r, converted⟩ | ⟨x, missing, converted⟩ | ⟨long, converted⟩
      · cases converted.symm.trans failed
      · cases converted.symm.trans failed
        exact .inl ⟨x, missing, rfl⟩
      · cases converted.symm.trans failed
        exact .inr ⟨long, rfl⟩
  · intro other source goal illegal
    rcases convert_of_legal valid legal other with
      ⟨r, converted⟩ | ⟨x, -, converted⟩ | ⟨-, converted⟩
    · cases converted.symm.trans illegal
    · cases converted.symm.trans illegal
    · cases converted.symm.trans illegal
  · intro r h
    refine ⟨(type_of_cast h).2, fun same => ?_⟩
    obtain ⟨-, -, value⟩ := cast_eq_ok_iff.mp h
    rwa [if_pos same] at value

end Scalar

end QasmValues
