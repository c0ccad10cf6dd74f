import QasmValues.Policy

/-! A policy from a document.
How a policy is read from a text is left to a reader of its format. -/

namespace QasmValues.Policy

def ofDocument (read : String → Option Policy) (text : String) : Except PolicyFault Policy :=
  match read text with
  | some policy => .ok policy
  | none => .error .malformed

/-- The policy in a file, of which `none` is the content if it cannot be read. -/
def ofFile (read : String → Option Policy) (content : Option String) :
    Except PolicyFault Policy :=
  match content with
  | some text => ofDocument read text
  | none => .error .unreadable

end QasmValues.Policy
