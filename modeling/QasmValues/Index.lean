import QasmValues.Fault
import QasmValues.TwoPow

/-! Index expressions and the positions they denote.
An index is a signed 64-bit number, and a negative one counts from the end. A
range `start:step:stop` includes its stop; an omitted bound runs to the end of
the container in the direction of the step, and an omitted step is one. -/

namespace QasmValues

/-- Indices reach containers up to this length only. -/
def maxLength : Nat := twoPow 63 - 1

def InWord (n : Int) : Prop := -twoPow 63 ≤ n ∧ n < twoPow 63

instance (n : Int) : Decidable (InWord n) := inferInstanceAs (Decidable (_ ∧ _))

inductive IndexSpec where
  /-- One index, which drops the dimension that it indexes. -/
  | single (index : Int64)
  /-- A list of indices; their order is kept and they may repeat. -/
  | set (indices : List Int64)
  | range (start step stop : Option Int64)
  deriving DecidableEq, Repr, Inhabited

def fromStart (index : Int64) (length : Nat) : Int :=
  if 0 ≤ index.toInt then index.toInt else length + index.toInt

def resolveIndex (index : Int64) (length : Nat) : Except Fault Nat :=
  if length ≤ maxLength ∧ 0 ≤ fromStart index length ∧ fromStart index length < length then
    .ok (fromStart index length).toNat
  else .error (.indexOutOfRange index.toInt length)

/-- The terms `first`, `first + step`, … up to the bound in the direction of the
step, at most `count` of them. A step past the 64-bit range ends the walk. -/
def progression (step bound : Int) : Nat → Int → List Nat
  | 0, _ => []
  | count + 1, first =>
    if (0 < step ∧ bound < first) ∨ (step < 0 ∧ first < bound) then []
    else first.toNat ::
      if InWord (first + step) then progression step bound count (first + step) else []

namespace IndexSpec

def full : IndexSpec := .range none none none

def isSingle : IndexSpec → Bool
  | .single _ => true
  | _ => false

def rangeStart (start : Option Int64) (step : Int) (length : Nat) : Except Fault Nat :=
  match start with
  | some index => resolveIndex index length
  | none => .ok (if 0 < step then 0 else length - 1)

/-- The last position that a range may reach. A negative stop counts from the
end, and a stop outside the container is moved to its end. -/
def rangeBound (stop : Option Int64) (step : Int) (length : Nat) : Int :=
  let last : Int := length - 1
  match stop with
  | some stop =>
    if 0 < step then min (fromStart stop length) last else max (fromStart stop length) 0
  | none => if 0 < step then last else 0

def resolveRange (start step stop : Option Int64) (length : Nat) : Except Fault (List Nat) :=
  let stride : Int := (step.getD 1).toInt
  if stride = 0 then .error .zeroStep
  else if length = 0 ∧ start = none then .ok []
  else if maxLength < length then .error (.indexOutOfRange (start.getD 0).toInt length)
  else do
    let first ← rangeStart start stride length
    pure (progression stride (rangeBound stop stride length) length first)

def resolve (spec : IndexSpec) (length : Nat) : Except Fault (List Nat) :=
  match spec with
  | .single index => do pure [← resolveIndex index length]
  | .set indices => indices.mapM (resolveIndex · length)
  | .range start step stop => resolveRange start step stop length

def resolveNonEmpty (spec : IndexSpec) (length : Nat) : Except Fault (List Nat) := do
  let positions ← spec.resolve length
  if positions.isEmpty then .error .emptyIndexSet else pure positions

private def boundText : Option Int64 → String
  | some n => toString n.toInt
  | none => ""

def text : IndexSpec → String
  | .single index => toString index.toInt
  | .set indices => "\x7b" ++ ", ".intercalate (indices.map (toString ·.toInt)) ++ "\x7d"
  | .range start (some step) stop =>
    boundText start ++ ":" ++ toString step.toInt ++ ":" ++ boundText stop
  | .range start none stop => boundText start ++ ":" ++ boundText stop

end IndexSpec

theorem resolveIndex_eq_ok_iff {index : Int64} {length position : Nat} :
    resolveIndex index length = .ok position ↔
      length ≤ maxLength ∧ fromStart index length = position ∧ position < length := by
  unfold resolveIndex
  split
  · rename_i h
    rw [Except.ok.injEq]
    omega
  · rename_i h
    simp only [reduceCtorEq, false_iff]
    omega

theorem resolveIndex_lt {index : Int64} {length position : Nat}
    (h : resolveIndex index length = .ok position) : position < length :=
  (resolveIndex_eq_ok_iff.mp h).2.2

end QasmValues
