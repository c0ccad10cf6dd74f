/-! The tokens of a YAML document that is a mapping of texts.
Lists, aliases and mappings in a mapping have no tokens. -/

namespace QasmValues.Yaml

/-- A piece of a tag; octets may be escaped in a document, so they need not be
text. -/
abbrev Octets := List UInt8

inductive Token where
  | version
  | handle (name : String) (expansion : Octets)
  | documentStart
  | documentEnd
  /-- The keys of a block stand in one column from here on. -/
  | blockStart
  | blockEnd
  | braceStart
  | braceEnd
  | comma
  | key
  | value
  | anchor
  /-- A tag for the node that follows. Its handle is empty if it is given in full. -/
  | tag (handle : String) (suffix : Octets)
  | text (content : String) (plain : Bool)
  deriving DecidableEq, Repr

def Token.isDirective : Token → Bool
  | .version | .handle _ _ => true
  | _ => false

/-- The token cannot start a node, so that a node before it is empty. -/
def Token.endsNode : Token → Bool
  | .key | .value | .blockEnd | .comma | .braceEnd => true
  | _ => false

end QasmValues.Yaml
