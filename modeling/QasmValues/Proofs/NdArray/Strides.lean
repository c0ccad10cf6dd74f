import QasmValues.Proofs.NdArray.Selection
import QasmValues.TwoPow

/-! Selection with strides in words.
Offsets are sums of positions times strides, and a stride is the product of the extents inside
its dimension, all in words of 64 bits. They are the numbers of the selected elements modulo
`2 ^ 64`. A selected element stands before the end of its array, so that where the elements can
be numbered by words no sum has left the range, whatever the strides of empty dimensions do. -/

namespace QasmValues

variable {shape : List Nat} {subscript : List IndexSpec}

/-- What a position counts for in each dimension, from the innermost one outward. -/
def strides : (shape : List Nat) → List UInt64
  | [] => []
  | [_] => [1]
  | _ :: extent :: shape =>
    let inner := strides (extent :: shape)
    inner.headD 1 * UInt64.ofNat extent :: inner

theorem strides_cons (extent : Nat) (shape : List Nat) :
    strides (extent :: shape) = UInt64.ofNat (shapeSize shape) :: strides shape := by
  induction shape generalizing extent with
  | nil => rfl
  | cons next shape ih =>
    rw [strides, ih next, List.headD_cons, ← UInt64.ofNat_mul, shapeSize_cons, Nat.mul_comm]

/-- Where no dimension is empty and words can number the elements, no stride leaves its range. -/
theorem toNat_strides (filled : ∀ extent ∈ shape, 0 < extent)
    (room : shapeSize shape < twoPow 64) :
    (strides shape).map UInt64.toNat = shape.tails.tail.map shapeSize := by
  induction shape with
  | nil => rfl
  | cons extent shape ih =>
    obtain ⟨positive, rest⟩ := List.forall_mem_cons.mp filled
    have bound : shapeSize shape < twoPow 64 :=
      Nat.lt_of_le_of_lt (Nat.le_mul_of_pos_left _ positive) room
    rw [strides_cons, List.map_cons, UInt64.toNat_ofNat_of_lt' bound, ih rest bound]
    cases shape <;> rfl

namespace Selection

def ofExtent (extent : Nat) : Option IndexSpec → Except Fault (List Nat × List Nat)
  | none => .ok (List.range extent, [extent])
  | some spec => do
    let positions ← spec.resolve extent
    pure (positions, keptExtent spec positions)

/-- From each offset that was reached go to all positions of the next dimension. -/
def walk : (shape : List Nat) → (strides : List UInt64) → (subscript : List IndexSpec) →
    (offsets : List UInt64) → Except Fault (List UInt64 × List Nat)
  | extent :: shape, stride :: strides, subscript, offsets => do
    let (positions, kept) ← ofExtent extent subscript.head?
    let reached := offsets.flatMap fun base =>
      positions.map fun position => base + UInt64.ofNat position * stride
    let (offsets, inner) ← walk shape strides subscript.tail reached
    pure (offsets, kept ++ inner)
  | _, _, _, offsets => .ok (offsets, [])

def inWords (shape : List Nat) (subscript : List IndexSpec) :
    Except Fault (List UInt64 × List Nat) :=
  if shape.length < subscript.length then
    .error (.excessIndices shape.length subscript.length)
  else walk shape (strides shape) subscript [0]

def after (s : Selection) (offsets : List UInt64) : List UInt64 × List Nat :=
  (offsets.flatMap fun base => s.offsets.map fun offset => base + UInt64.ofNat offset, s.shape)

theorem after_within (s : Selection) (positions kept : List Nat) (stride : Nat)
    (offsets : List UInt64) :
    (s.within positions kept stride).after offsets =
      ((s.after (offsets.flatMap fun base => positions.map fun position =>
        base + UInt64.ofNat position * UInt64.ofNat stride)).1, kept ++ s.shape) := by
  simp [after, within, List.flatMap_assoc, List.map_flatMap, List.flatMap_map,
    Function.comp_def, UInt64.ofNat_add, UInt64.ofNat_mul, UInt64.add_assoc]

theorem resolve_cons (extent : Nat) :
    resolve (extent :: shape) subscript = (do
      let (positions, kept) ← ofExtent extent subscript.head?
      let inner ← resolve shape subscript.tail
      pure (inner.within positions kept (shapeSize shape))) := by
  cases subscript with
  | nil => rfl
  | cons spec subscript =>
    rw [resolve, List.head?_cons, List.tail_cons, ofExtent]
    cases spec.resolve extent <;> rfl

theorem walk_strides (offsets : List UInt64) :
    walk shape (strides shape) subscript offsets =
      (resolve shape subscript).map (·.after offsets) := by
  induction shape generalizing subscript offsets with
  | nil =>
    simp [walk, resolve, after, Except.map]
  | cons extent shape ih =>
    rw [strides_cons, walk, resolve_cons]
    cases ofExtent extent subscript.head? with
    | error e => rfl
    | ok taken =>
      simp only [bind, Except.bind, ih]
      cases resolve shape subscript.tail with
      | error e => rfl
      | ok inner =>
        simp only [Except.map, pure, Except.pure]
        rw [after_within]
        rfl

/-- Resolving a subscript in words gives the offsets in words, with the same shape and the
same faults. Where words can number all elements no offset has been reduced. -/
theorem resolves_in_words (shape : List Nat) (subscript : List IndexSpec) :
    inWords shape subscript =
      (ofSubscript shape subscript).map (fun s => (s.offsets.map UInt64.ofNat, s.shape)) ∧
    (shapeSize shape ≤ twoPow 64 → ∀ s, ofSubscript shape subscript = .ok s →
      (s.offsets.map UInt64.ofNat).map UInt64.toNat = s.offsets) := by
  refine ⟨?_, fun room s selected => ?_⟩
  · unfold inWords ofSubscript
    split
    · rfl
    · rw [walk_strides]
      congr 1
      funext s
      simp [after]
  · obtain ⟨axes, selects, rfl⟩ := ofSubscript_eq_ok_iff.mp selected
    rw [List.map_map]
    refine (List.map_congr_left fun offset member => ?_).trans (List.map_id _)
    have inside := offsets_lt selects offset member
    exact UInt64.toNat_ofNat_of_lt' (Nat.lt_of_lt_of_le inside room)

/-- The stride of an empty dimension may leave its range: nothing is selected by it. -/
example : strides [0, 2048, 2048, 2048, 2048, 2048, 2048] =
      [0, twoPow 55, twoPow 44, twoPow 33, twoPow 22, twoPow 11, 1].map UInt64.ofNat ∧
    inWords [0, 2048, 2048] [] = .ok ([], [0, 2048, 2048]) := by decide

end Selection

end QasmValues
