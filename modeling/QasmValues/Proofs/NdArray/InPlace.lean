import QasmValues.Proofs.NdArray.View

/-! Writing through a view in place.
A write goes to the array itself, element by element, and a write that fails in the middle
would keep what came before. None does: what can fail is checked before the first element is
stored, and every place of a view lies in its array. So a view keeps showing the part that
its subscript reads, and a value that is assigned to it as a whole might have been stored by
one write for each of its elements. -/

namespace QasmValues

namespace View

variable {v w : View}

def store (v : View) (writes : List (Nat × Scalar)) : Except Fault Unit × View :=
  let (report, elements) := storeEach v.array.elements writes
  (report, { v with array := { v.array with elements } })

/-- A write carried out in place. -/
def carryOut (v : View) : Write → Except Fault Unit × View
  | .set index x =>
    if x.type = v.array.type.element then
      match resolveIndex index v.length with
      | .ok position => v.store [(v.selection.offsets.getD position 0, x)]
      | .error e => (.error e, v)
    else (.error (.shapeMismatch (.single v.array.type.element) (.single x.type)), v)
  | .assign value =>
    match v.elementsOf? value with
    | some elements => v.store (v.selection.offsets.zip elements)
    | none => (.error (.shapeMismatch v.type value.described), v)

def carryOutAll (v : View) : List Write → List (Except Fault Unit) × View
  | [] => ([], v)
  | write :: writes =>
    let (report, next) := v.carryOut write
    let (reports, last) := next.carryOutAll writes
    (report :: reports, last)

theorem carryOutAll_cons {write : Write} {writes : List Write} {report : Except Fault Unit}
    (step : v.carryOut write = (report, w)) :
    v.carryOutAll (write :: writes) =
      (report :: (w.carryOutAll writes).1, (w.carryOutAll writes).2) := by
  rw [carryOutAll, step]

theorem store_of_inside {writes : List (Nat × Scalar)}
    (inside : ∀ write ∈ writes, write.1 < v.array.elements.length) :
    v.store writes = (.ok (), v.write writes) := by
  rw [store, storeEach_of_inside inside]
  rfl

def Inside (v : View) : Prop :=
  ∀ offset ∈ v.selection.offsets, offset < v.array.elements.length

theorem WellFormed.inside (h : v.WellFormed) : v.Inside := by
  obtain ⟨subscript, selected⟩ := h.selected
  obtain ⟨axes, selects, same⟩ := Selection.ofSubscript_eq_ok_iff.mp selected
  rw [Inside, same]
  exact h.array.offsets_lt selects

/-- In place a write is carried out as a whole or not at all. -/
theorem Inside.carryOut_eq (h : v.Inside) (write : Write) :
    v.carryOut write = concluded v (v.perform write) := by
  cases write with
  | set index x =>
    unfold View.carryOut View.perform View.set
    dsimp only
    split
    · cases found : resolveIndex index v.length with
      | error e => rfl
      | ok position =>
        have place : v.selection.offsets.getD position 0 ∈ v.selection.offsets := by
          have bound : position < v.selection.offsets.length := resolveIndex_lt found
          rw [List.getD_eq_getElem _ _ bound]
          exact List.getElem_mem bound
        exact store_of_inside (List.forall_mem_singleton.mpr (h _ place))
    · rfl
  | assign value =>
    unfold View.carryOut View.perform View.assign
    dsimp only
    cases v.elementsOf? value with
    | none => rfl
    | some elements =>
      exact store_of_inside fun write member => h _ (List.of_mem_zip member).1

end View

/-- A part of an array overwritten in place. -/
def NdArray.store (a : NdArray) (subscript : List IndexSpec) (value : Indexed) :
    Except Fault Unit × NdArray :=
  match a.view subscript with
  | .error e => (.error e, a)
  | .ok v =>
    let (report, w) := v.carryOut (.assign value)
    (report, w.array)

theorem NdArray.WellFormed.store_eq {a : NdArray} (h : a.WellFormed)
    (subscript : List IndexSpec) (value : Indexed) :
    a.store subscript value = concluded a (a.assign subscript value) := by
  unfold store assign
  cases viewed : a.view subscript with
  | error e => rfl
  | ok v =>
    obtain ⟨s, selected, rfl⟩ := view_eq_ok_iff.mp viewed
    have inside : View.Inside ⟨a, s⟩ := View.WellFormed.inside ⟨h, subscript, selected⟩
    dsimp only [bind, Except.bind]
    rw [inside.carryOut_eq, View.perform]
    cases View.assign ⟨a, s⟩ value <;> rfl

namespace View

variable {v w : View}

/-! ### What writes do not change -/

/-- The view `w` is of the same places in an array of the same type and size. -/
structure SamePlaces (v w : View) : Prop where
  selection : w.selection = v.selection
  type : w.array.type = v.array.type
  count : w.array.elements.length = v.array.elements.length

theorem samePlaces_write (v : View) (writes : List (Nat × Scalar)) :
    v.SamePlaces (v.write writes) := ⟨rfl, rfl, length_overwrite _ _⟩

theorem samePlaces_perform {write : Write} (done : v.perform write = .ok w) :
    v.SamePlaces w := by
  cases write with
  | set index x =>
    obtain ⟨-, _, -, rfl⟩ := set_eq_ok_iff.mp done
    exact v.samePlaces_write _
  | assign value =>
    obtain ⟨_, -, rfl⟩ := assign_eq_ok_iff.mp done
    exact v.samePlaces_write _

theorem samePlaces_settle (v : View) (write : Write) :
    v.SamePlaces (settle v (v.perform write)) :=
  settle_of_forall ⟨rfl, rfl, rfl⟩ fun _ => samePlaces_perform

theorem samePlaces_after (v : View) (writes : List Write) : v.SamePlaces (v.after writes) := by
  induction writes generalizing v with
  | nil => exact ⟨rfl, rfl, rfl⟩
  | cons write writes ih =>
    have first := v.samePlaces_settle write
    have rest := ih (settle v (v.perform write))
    exact ⟨rest.selection.trans first.selection, rest.type.trans first.type,
      rest.count.trans first.count⟩

theorem SamePlaces.inside (same : v.SamePlaces w) (h : v.Inside) : w.Inside := by
  unfold Inside
  rw [same.selection, same.count]
  exact h

theorem SamePlaces.get {subscript : List IndexSpec} (same : v.SamePlaces w)
    (selected : Selection.ofSubscript v.array.type.shape subscript = .ok v.selection) :
    w.array.get subscript = .ok w.content := by
  rw [NdArray.get, same.type, selected, content, same.selection]
  rfl

theorem SamePlaces.length_offsets {subscript : List IndexSpec} (same : v.SamePlaces w)
    (selected : Selection.ofSubscript v.array.type.shape subscript = .ok v.selection) :
    w.selection.offsets.length = shapeSize w.selection.shape := by
  rw [same.selection]
  exact Selection.length_offsets selected

theorem Inside.carryOutAll_snd (h : v.Inside) (writes : List Write) :
    (v.carryOutAll writes).2 = v.after writes := by
  induction writes generalizing v with
  | nil => rfl
  | cons write writes ih =>
    have step : v.carryOut write = ((v.carryOut write).1, settle v (v.perform write)) := by
      rw [← concluded_snd, ← h.carryOut_eq]
    rw [carryOutAll_cons step]
    exact ih ((v.samePlaces_settle write).inside h)

/-! ### A value as single writes -/

def singles (values : List Scalar) (start : Nat) : List Write :=
  (values.zipIdx start).map fun entry => .set (.ofNat entry.2) entry.1

theorem singles_cons (x : Scalar) (values : List Scalar) (start : Nat) :
    singles (x :: values) start = .set (.ofNat start) x :: singles values (start + 1) := rfl

theorem Inside.carryOut_set (h : v.Inside) {x : Scalar} {k : Nat}
    (type : x.type = v.array.type.element) (short : v.length ≤ maxLength)
    (inside : k < v.selection.offsets.length) :
    v.carryOut (.set (.ofNat k) x) = (.ok (), v.write [(v.selection.offsets[k], x)]) := by
  have position : resolveIndex (.ofNat k) v.length = .ok k := resolveIndex_ofNat short inside
  have done : v.perform (.set (.ofNat k) x) = .ok (v.write [(v.selection.offsets[k], x)]) := by
    refine set_eq_ok_iff.mpr ⟨type, k, position, ?_⟩
    rw [List.getD_eq_getElem _ _ inside]
  rw [h.carryOut_eq, done]
  rfl

/-- Single writes store what is stored at once, place by place. -/
theorem Inside.carryOutAll_singles (h : v.Inside) {values : List Scalar} {start : Nat}
    (short : v.length ≤ maxLength) (types : ∀ x ∈ values, x.type = v.array.type.element)
    (count : start + values.length = v.selection.offsets.length) :
    v.carryOutAll (singles values start) =
      (List.replicate values.length (.ok ()),
        v.write ((v.selection.offsets.drop start).zip values)) := by
  induction values generalizing v start with
  | nil =>
    rw [List.zip_nil_right]
    rfl
  | cons x values ih =>
    obtain ⟨here, rest⟩ := List.forall_mem_cons.mp types
    rw [List.length_cons] at count
    have inside : start < v.selection.offsets.length := by omega
    let next := v.write [(v.selection.offsets[start], x)]
    have kept : next.Inside := (v.samePlaces_write _).inside h
    have step : v.carryOut (.set (.ofNat start) x) = (.ok (), next) :=
      h.carryOut_set here short inside
    have later : next.carryOutAll (singles values (start + 1)) =
        (List.replicate values.length (.ok ()),
          next.write ((v.selection.offsets.drop (start + 1)).zip values)) :=
      ih kept short rest (by change start + 1 + _ = v.selection.offsets.length; omega)
    rw [singles_cons, carryOutAll_cons step, later, List.drop_eq_getElem_cons inside]
    rfl

theorem Inside.exists_carryOut_assign (h : v.Inside) {value : Indexed}
    (count : v.selection.offsets.length = shapeSize v.selection.shape)
    (known : value.WellFormed) (same : value.type = v.type) :
    ∃ u, v.carryOut (.assign value) = (.ok (), u) ∧
      (v.length ≤ maxLength → v.carryOutAll (singles value.elements 0) =
        (List.replicate v.length (.ok ()), u)) := by
  have suits : value.Suits v.array.type.element v.selection.shape :=
    (Indexed.suits_iff known).mp same
  have taken := (NdArray.elementsOf?_eq_some_iff known).mpr ⟨suits, rfl⟩
  have done : v.perform (.assign value) = .ok _ := assign_eq_ok_iff.mpr ⟨_, taken, rfl⟩
  have length : value.elements.length = v.selection.offsets.length :=
    (suits.length_elements known).trans count.symm
  refine ⟨_, by rw [h.carryOut_eq, done]; rfl, fun short => ?_⟩
  rw [h.carryOutAll_singles short (suits.types_elements known) (by omega), length]
  rfl

end View

/-- A view can be taken of what can be read, with the same fault otherwise. Whatever is
written through it, it shows what its subscript reads in the array as it then is. A value of
its type and shape is stored as by single writes in order, which all succeed if its length is
one that an index can reach. A write of another type or at an index outside the view fails and
changes nothing. -/
theorem NdArray.view_writes_through (a : NdArray) (subscript : List IndexSpec)
    (h : a.WellFormed) :
    (a.view subscript).map View.content = a.get subscript ∧
    ∀ (v : View) (writes : List View.Write), a.view subscript = .ok v →
      let w := (v.carryOutAll writes).2
      let element := w.array.type.element
      w.array.get subscript = .ok w.content ∧
      (∀ write, w.carryOut write = concluded w (w.perform write)) ∧
      (∀ value : Indexed, value.WellFormed → value.type = w.type →
        ∃ u, w.carryOut (.assign value) = (.ok (), u) ∧
          (w.length ≤ maxLength → w.carryOutAll (View.singles value.elements 0) =
            (List.replicate w.length (.ok ()), u))) ∧
      (∀ (index : Int64) (x : Scalar), x.type ≠ element → w.carryOut (.set index x) =
        (.error (.shapeMismatch (.single element) (.single x.type)), w)) ∧
      ∀ (index : Int64) (x : Scalar), x.type = element →
        index.toInt < -w.length ∨ w.length ≤ index.toInt →
        w.carryOut (.set index x) = (.error (.indexOutOfRange index.toInt w.length), w) := by
  refine ⟨?_, fun v writes viewed => ?_⟩
  · unfold view get
    cases Selection.ofSubscript a.type.shape subscript <;> rfl
  · obtain ⟨s, selected, rfl⟩ := view_eq_ok_iff.mp viewed
    have before : View.Inside ⟨a, s⟩ := View.WellFormed.inside ⟨h, subscript, selected⟩
    have same := View.samePlaces_after ⟨a, s⟩ writes
    rw [← before.carryOutAll_snd] at same
    have after := same.inside before
    refine ⟨same.get selected, after.carryOut_eq,
      fun value => after.exists_carryOut_assign (same.length_offsets selected),
      fun index x other => ?_, fun index x type outside => ?_⟩
    · exact if_neg other
    · rw [View.carryOut, if_pos type, resolveIndex_of_outside outside]

theorem NdArray.view_writes_through_of_repeated :
    let a : NdArray := ⟨⟨.uint 4, [2, 3]⟩, [0, 1, 2, 3, 4, 5].map (.uint · 4)⟩
    let subscript : List IndexSpec := [.set [1, -1], .range none (some (-2)) none]
    let v : View := ⟨a, ⟨[5, 3, 5, 3], [2, 2]⟩⟩
    let writes : List View.Write :=
      [.set (-1) (.uint 10 4), .set 0 (.bool true), .set 4 (.uint 11 4)]
    let w := (v.carryOutAll writes).2
    let value : Indexed := .array ⟨⟨.uint 4, [2, 2]⟩, [6, 7, 8, 9].map (.uint · 4)⟩
    (a.WellFormed ∧ a.view subscript = .ok v) ∧
      w.array.elements = [0, 1, 2, 10, 4, 5].map (.uint · 4) ∧
      w.array.get subscript = .ok w.content ∧
      (∃ u, w.carryOut (.assign value) = (.ok (), u) ∧
        w.carryOutAll (View.singles value.elements 0) = (List.replicate 4 (.ok ()), u) ∧
        u.array.elements = [0, 1, 2, 9, 4, 8].map (.uint · 4)) ∧
      w.carryOut (.set 4 (.uint 11 4)) = (.error (.indexOutOfRange 4 4), w) ∧
      w.carryOut (.set 0 (.bool true)) =
        (.error (.shapeMismatch (.single (.uint 4)) (.single .bool)), w) := by
  intro a subscript v writes w value
  have wellFormed : a.WellFormed := ⟨by decide, by decide, rfl, by decide⟩
  have viewed : a.view subscript = .ok v := by decide
  have given : value.WellFormed := ⟨by decide, by decide, rfl, by decide⟩
  have left : w.array.elements = [0, 1, 2, 10, 4, 5].map (.uint · 4) := by decide
  obtain ⟨-, effect⟩ := view_writes_through a subscript wellFormed
  obtain ⟨shown, -, assigned, other, outside⟩ := effect v writes viewed
  obtain ⟨u, stored, apart⟩ := assigned value given (by decide)
  have result :
      (w.carryOut (.assign value)).2.array.elements = [0, 1, 2, 9, 4, 8].map (.uint · 4) := by
    decide
  rw [stored] at result
  exact ⟨⟨wellFormed, viewed⟩, left, shown, ⟨u, stored, apart (by decide), result⟩,
    outside 4 _ (by decide) (by decide), other 0 _ (by decide)⟩

end QasmValues
