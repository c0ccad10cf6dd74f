import QasmValues.Policy
import QasmValues.Yaml.Mapping

/-! A policy from a YAML document.
The document is a mapping of exactly the two choices, each once and with one of
its words. A choice may also be written as a tag of an empty node. -/

namespace QasmValues.Yaml

open Policy

def Text.isNull (t : Text) : Bool :=
  t.plain && ["", "~", "null", "Null", "NULL"].contains t.content

def word? (t : Text) : Option String :=
  match t.tag with
  | some tag => if t.isNull then some tag else none
  | none => some t.content

def policyOfEntries? : List Entry → Option Policy
  | [(first, a), (second, b)] =>
    if first.content = narrowingKey ∧ second.content = selfConcatKey then read a b
    else if first.content = selfConcatKey ∧ second.content = narrowingKey then read b a
    else none
  | _ => none
where
  read (narrowing selfConcat : Text) : Option Policy := do
    pure ⟨← Narrowing.ofText? (← word? narrowing), ← SelfConcat.ofText? (← word? selfConcat)⟩

def policy? (text : String) : Option Policy := (entries? text).bind policyOfEntries?

end QasmValues.Yaml
