import QasmValues.Fault

/-! Results that may be faults.
A chain of fallible steps succeeds when every step does, and fails with the
first fault. These laws hold for any type of fault. -/

namespace QasmValues

variable {ε α β : Type}

theorem bind_eq_ok_iff {x : Except ε α} {f : α → Except ε β} {b : β} :
    (x >>= f) = .ok b ↔ ∃ a, x = .ok a ∧ f a = .ok b := by
  cases x <;> simp [bind, Except.bind]

theorem bind_eq_error_iff {x : Except ε α} {f : α → Except ε β} {e : ε} :
    (x >>= f) = .error e ↔ x = .error e ∨ ∃ a, x = .ok a ∧ f a = .error e := by
  cases x <;> simp [bind, Except.bind]

theorem check_bind_eq_ok_iff {x : Except ε Unit} {f : Unit → Except ε β} {b : β} :
    (x >>= f) = .ok b ↔ x = .ok () ∧ f () = .ok b := by
  cases x <;> simp [bind, Except.bind]

theorem pure_eq_ok_iff {a b : α} : (pure a : Except ε α) = .ok b ↔ a = b := by
  simp [pure, Except.pure]

/-- A list of fallible steps succeeds when each of them does, where a step succeeds
on a condition and yields a known result. -/
theorem mapM_eq_ok_iff {f : α → Except ε β} {P : α → Prop} {g : α → β}
    (step : ∀ x y, f x = .ok y ↔ P x ∧ g x = y) {xs : List α} {ys : List β} :
    xs.mapM f = .ok ys ↔ (∀ x ∈ xs, P x) ∧ xs.map g = ys := by
  induction xs generalizing ys with
  | nil => simp [pure_eq_ok_iff]
  | cons x xs ih =>
    simp only [List.mapM_cons, bind_eq_ok_iff, pure_eq_ok_iff, step, ih, List.forall_mem_cons,
      List.map_cons]
    constructor
    · rintro ⟨_, ⟨hx, rfl⟩, _, ⟨hxs, rfl⟩, rfl⟩
      exact ⟨⟨hx, hxs⟩, rfl⟩
    · rintro ⟨⟨hx, hxs⟩, rfl⟩
      exact ⟨_, ⟨hx, rfl⟩, _, ⟨hxs, rfl⟩, rfl⟩

theorem mapM_map_of_inverse {f : α → Except ε β} {g : β → α} {ys : List β}
    (inverse : ∀ y ∈ ys, f (g y) = .ok y) : (ys.map g).mapM f = .ok ys := by
  induction ys with
  | nil => rfl
  | cons y ys ih =>
    obtain ⟨here, rest⟩ := List.forall_mem_cons.mp inverse
    rw [List.map_cons, List.mapM_cons, here, ih rest]
    rfl

theorem exists_of_mem_mapM {f : α → Except ε β} {xs : List α} {ys : List β}
    (h : xs.mapM f = .ok ys) : ∀ y ∈ ys, ∃ x ∈ xs, f x = .ok y := by
  induction xs generalizing ys with
  | nil =>
    cases pure_eq_ok_iff.mp h
    simp
  | cons x xs ih =>
    rw [List.mapM_cons, bind_eq_ok_iff] at h
    obtain ⟨y, hy, h⟩ := h
    obtain ⟨zs, hzs, h⟩ := bind_eq_ok_iff.mp h
    cases pure_eq_ok_iff.mp h
    intro z hz
    obtain rfl | hz := List.mem_cons.mp hz
    · exact ⟨x, List.mem_cons_self, hy⟩
    · obtain ⟨w, hw, hwz⟩ := ih hzs z hz
      exact ⟨w, List.mem_cons_of_mem x hw, hwz⟩

/-- A list of fallible steps fails with the fault of the first that fails. -/
theorem mapM_eq_error_iff {f : α → Except ε β} {xs : List α} {e : ε} :
    xs.mapM f = .error e ↔ ∃ before x after, xs = before ++ x :: after ∧
      (∀ y ∈ before, ∃ z, f y = .ok z) ∧ f x = .error e := by
  induction xs with
  | nil => simp [pure, Except.pure]
  | cons x xs ih =>
    rw [List.mapM_cons, bind_eq_error_iff]
    constructor
    · rintro (failed | ⟨y, here, failed⟩)
      · exact ⟨[], x, xs, rfl, nofun, failed⟩
      · obtain rest | ⟨ys, -, failed⟩ := bind_eq_error_iff.mp failed
        · obtain ⟨before, z, after, rfl, passed, failed⟩ := ih.mp rest
          exact ⟨x :: before, z, after, rfl, List.forall_mem_cons.mpr ⟨⟨y, here⟩, passed⟩, failed⟩
        · cases failed
    · rintro ⟨before, z, after, parts, passed, failed⟩
      cases before with
      | nil =>
        cases parts
        exact .inl failed
      | cons y before =>
        cases parts
        obtain ⟨⟨w, here⟩, passed⟩ := List.forall_mem_cons.mp passed
        have rest := ih.mpr ⟨before, z, after, rfl, passed, failed⟩
        exact .inr ⟨w, here, bind_eq_error_iff.mpr (.inl rest)⟩

theorem exists_of_mapM_eq_error {f : α → Except ε β} {xs : List α} {e : ε}
    (h : xs.mapM f = .error e) : ∃ x ∈ xs, f x = .error e := by
  obtain ⟨before, x, after, rfl, -, failed⟩ := mapM_eq_error_iff.mp h
  exact ⟨x, by simp, failed⟩

theorem ScalarType.validate_bind_eq_ok_iff {t : ScalarType} {f : Unit → Except Fault α} {a : α} :
    (t.validate >>= f) = .ok a ↔ t.Valid ∧ f () = .ok a := by
  rw [check_bind_eq_ok_iff, ScalarType.validate_eq_ok_iff]

end QasmValues
