import QasmValues.Angle

/-! The choices that the language leaves to a program.
How angles are narrowed, and whether an array may be joined to itself in an
argument of a call. Neither has a default: each source of a policy gives both. -/

namespace QasmValues

/-- Whether an array may be joined to itself in an argument of a call. -/
inductive SelfConcat where
  | permit
  | forbid
  deriving DecidableEq, Repr

structure Policy where
  narrowing : Narrowing
  selfConcat : SelfConcat
  deriving DecidableEq, Repr

inductive PolicyFault where
  | malformed
  | unreadable
  | unset (key : String)
  | unknown (key value first second : String)
  deriving DecidableEq, Repr

def PolicyFault.message : PolicyFault → String
  | malformed => "Configuration error: Failed to parse config"
  | unreadable => "Configuration error: Failed to read"
  | unset key => s!"Configuration error: {key} is not set"
  | unknown key value first second =>
    s!"Configuration error: Invalid {key} '{value}', expected '{first}' or '{second}'"

namespace Narrowing

def text : Narrowing → String
  | .round => "round"
  | .truncate => "truncate"

def ofText? (s : String) : Option Narrowing :=
  if s = "round" then some .round else if s = "truncate" then some .truncate else none

theorem ofText?_text (n : Narrowing) : ofText? n.text = some n := by
  cases n <;> rfl

end Narrowing

namespace SelfConcat

def text : SelfConcat → String
  | .permit => "permit"
  | .forbid => "forbid"

def ofText? (s : String) : Option SelfConcat :=
  if s = "permit" then some .permit else if s = "forbid" then some .forbid else none

theorem ofText?_text (c : SelfConcat) : ofText? c.text = some c := by
  cases c <;> rfl

end SelfConcat

namespace Policy

def narrowingKey : String := "angle_narrowing"

def selfConcatKey : String := "array_call_self_concat"

def text (p : Policy) : String :=
  narrowingKey ++ "=" ++ p.narrowing.text ++ ", " ++ selfConcatKey ++ "=" ++ p.selfConcat.text

end Policy

end QasmValues
