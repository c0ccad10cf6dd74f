import QasmValues.Policy

/-! A policy from environment variables.
Blanks around a value and the case of its ASCII letters do not matter. The
narrowing is read before the other choice, so its fault is the one reported. -/

namespace QasmValues

def isBlank (c : Char) : Bool :=
  let n := c.toNat
  (0x09 ≤ n ∧ n ≤ 0x0d) ∨ n = 0x20 ∨ n = 0x85 ∨ n = 0xa0 ∨ n = 0x1680 ∨
    (0x2000 ≤ n ∧ n ≤ 0x200a) ∨ n = 0x2028 ∨ n = 0x2029 ∨ n = 0x202f ∨ n = 0x205f ∨ n = 0x3000

def trimBlanks (s : String) : String :=
  String.ofList ((s.toList.dropWhile isBlank).reverse.dropWhile isBlank).reverse

def lowerAscii (s : String) : String := s.map Char.toLower

namespace Policy

def narrowingVariable : String := "ARVAK_ANGLE_NARROWING"

def selfConcatVariable : String := "ARVAK_ARRAY_CALL_SELF_CONCAT"

/-- One choice, from the value of its variable. -/
def readVariable {α : Type} (lookup : String → Option String) (key : String)
    (ofText? : String → Option α) (first second : String) : Except PolicyFault α :=
  match lookup key with
  | none => .error (.unset key)
  | some value =>
    let word := lowerAscii (trimBlanks value)
    match ofText? word with
    | some choice => .ok choice
    | none => .error (.unknown key word first second)

def ofEnvironment (lookup : String → Option String) : Except PolicyFault Policy := do
  let narrowing ← readVariable lookup narrowingVariable Narrowing.ofText?
    Narrowing.round.text Narrowing.truncate.text
  let selfConcat ← readVariable lookup selfConcatVariable SelfConcat.ofText?
    SelfConcat.permit.text SelfConcat.forbid.text
  pure ⟨narrowing, selfConcat⟩

end Policy

end QasmValues
