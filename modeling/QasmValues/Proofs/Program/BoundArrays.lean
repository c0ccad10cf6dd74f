import QasmValues.Proofs.NdArray.Obtained
import QasmValues.Proofs.Program.Ownership

/-! The arrays that a program binds.
An array is made by its declaration and changed by assignments, so that whatever a
program has run, the arrays that it binds are among those that can be obtained. What
it assigns to them must be obtained too, and may come from them. -/

namespace QasmValues

def Binding.Obtained : Binding → Prop
  | .array a => (Indexed.array a).Obtained
  | .scalar _ | .qubits _ | .bits _ | .qubitAlias _ | .bitAlias _ => True

namespace Program

variable {p q : Program} {op : Operation} {declared : Option Binding}

/-- What is assigned to an array can be obtained. -/
def Operation.Supplied : Operation → Prop
  | assignArray _ _ value => value.Obtained
  | enterScope | exitScope | declareQubits .. | declareBits .. | declareScalar ..
  | declareArray .. | aliasQubits .. | aliasBits .. | assignScalar .. | writeBits .. => True

def ArraysObtained (p : Program) : Prop := Scopes.All Binding.Obtained p.scopes.frames

theorem obtained_of_startArray {type : ArrayType} {elements : Option (List Scalar)} {a : NdArray}
    (start : p.startArray type elements = .ok a) : (Indexed.array a).Obtained := by
  cases elements with
  | none => exact .zeros start
  | some values =>
    obtain ⟨converted, -, made⟩ := bind_eq_ok_iff.mp start
    exact .ofElements made

theorem obtained_of_assign {a b : NdArray} {subscript : List IndexSpec} {value : Indexed}
    (before : (Indexed.array a).Obtained) (known : value.Obtained)
    (assigned : a.assign subscript value = .ok b) : (Indexed.array b).Obtained := by
  have after := Indexed.Obtained.assign before known subscript
  rw [assigned] at after
  exact after

theorem Step.arraysObtained (h : Step p op declared q) (supplied : op.Supplied)
    (known : p.ArraysObtained) : q.ArraysObtained := by
  cases h with
  | enterScope => exact known.enter
  | exitScope => exact known.exit
  | declareQubits _ _ bound => exact bound.all known trivial
  | declareBits _ _ _ bound => exact bound.all known trivial
  | declareScalar _ bound => exact bound.all known trivial
  | declareArray start bound => exact bound.all known (obtained_of_startArray start)
  | aliasQubits bound | aliasBits bound => exact bound.all known trivial
  | assignScalar _ bound | writeScalar _ bound => exact bound.all known trivial
  | writeRegister => exact known
  | assignArray assigned bound =>
    exact bound.all known (obtained_of_assign (bound.holds_old known) supplied assigned)

theorem ArraysObtained.after (known : p.ArraysObtained) (supplied : op.Supplied) :
    (op.after p).ArraysObtained :=
  op.after_of_step known fun _ step => step.arraysObtained supplied known

theorem ArraysObtained.run {ops : List Operation} (known : p.ArraysObtained)
    (supplied : ∀ op ∈ ops, op.Supplied) : (run p ops).ArraysObtained :=
  run_of_after known fun op member _ known => known.after (supplied op member)

theorem arraysObtained_initial (policy : Policy) : (initial policy).ArraysObtained :=
  List.forall_mem_singleton.mpr nofun

/-- An array that is obtained in any way has from one to seven dimensions, a valid element
type, and as many elements of that type as its shape says. So has every array that a program
binds, whatever it has run, if what it assigned to arrays was obtained, as for instance what
it reads from them. -/
theorem arrays_wellFormed :
    (∀ a, (Indexed.array a).Obtained → a.WellFormed) ∧
    ∀ policy ops, (∀ op ∈ ops, op.Supplied) →
      ∀ scope ∈ (run (initial policy) ops).scopes.frames, ∀ name a,
        (name, .array a) ∈ scope.symbols → (Indexed.array a).Obtained ∧ a.WellFormed := by
  refine ⟨fun a => Indexed.Obtained.wellFormed, fun policy ops supplied scope member name a => ?_⟩
  intro bound
  have known := (arraysObtained_initial policy).run supplied
  have obtained : (Indexed.array a).Obtained := known scope member (name, .array a) bound
  exact ⟨obtained, obtained.wellFormed⟩

theorem arrays_wellFormed_of_reversed :
    let numbers : NdArray := ⟨⟨.uint 4, [3]⟩, [1, 2, 3].map (.uint · 4)⟩
    let nothing : NdArray := ⟨⟨.uint 4, [0]⟩, []⟩
    let reversed : NdArray := ⟨⟨.uint 4, [3]⟩, [3, 2, 1].map (.uint · 4)⟩
    let filled : NdArray := ⟨⟨.uint 4, [1, 3]⟩, [3, 2, 1].map (.uint · 4)⟩
    let ops : List Operation :=
      [.declareArray "short" ⟨.uint 4, [1, 2]⟩ none, .declareArray "a" ⟨.uint 4, [1, 3]⟩ none,
        .assignArray "short" [.single 0] (.array reversed),
        .assignArray "a" [.single (-1)] (.array reversed)]
    let p := run (initial ⟨.round, .forbid⟩) ops
    (numbers.get [.set []] = .ok (.array nothing) ∧ nothing.append reversed = .ok reversed ∧
      (Indexed.array reversed).Obtained ∧ reversed.WellFormed) ∧
    ((∀ op ∈ ops, op.Supplied) ∧ ∃ scope ∈ p.scopes.frames,
      ("a", .array filled) ∈ scope.symbols ∧ filled.WellFormed) := by
  intro numbers nothing reversed filled ops p
  have made : NdArray.ofElements ⟨.uint 4, [3]⟩ numbers.elements = .ok numbers := by decide
  have none : numbers.get [.set []] = .ok (.array nothing) := by decide
  have all : numbers.get [.set [2, 1, 0]] = .ok (.array reversed) := by decide
  have joined : nothing.append reversed = .ok reversed := by decide
  have whole : (Indexed.array numbers).Obtained := .ofElements made
  have obtained : (Indexed.array reversed).Obtained :=
    .append (.get whole none) (.get whole all) joined
  have supplied : ∀ op ∈ ops, op.Supplied := by
    simpa only [ops, List.forall_mem_cons, Operation.Supplied, true_and] using
      ⟨obtained, obtained, nofun⟩
  have scopes : ∃ scope ∈ p.scopes.frames, ("a", .array filled) ∈ scope.symbols := by
    decide +kernel
  obtain ⟨scope, member, bound⟩ := scopes
  have known := arrays_wellFormed.2 _ ops supplied scope member "a" filled bound
  exact ⟨⟨none, joined, obtained, arrays_wellFormed.1 reversed obtained⟩, supplied, scope, member,
    bound, known.2⟩

end Program

end QasmValues
