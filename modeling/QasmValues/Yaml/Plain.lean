import QasmValues.Yaml.Gap

/-! Texts that are written as they are.
A plain text ends before a comment and before a colon that a blank follows. It
goes on over lines; outside of braces these are indented more than the keys. -/

namespace QasmValues.Yaml

def isBraceMark (c : Char) : Bool := ",[]\x7b\x7d".toList.contains c

def startsPlain (inBraces : Bool) (c next : Char) : Bool :=
  !(endsWord c || "-?:,[]\x7b\x7d#&*!|>'\"%@`".toList.contains c) ||
    (c = '-' && !isBlank next) || (!inBraces && (c = '?' || c = ':') && !endsWord next)

/-- The word of a plain text here and what follows it. In braces a colon must
not touch a mark. -/
def plainWord? (inBraces : Bool) : List Cell → Option (List Char × List Cell)
  | [] => some ([], [])
  | c :: rest =>
    let next := peek rest
    if endsWord c.char then some ([], c :: rest)
    else if inBraces && c.char = ':' && (isBraceMark next || next = '?') then none
    else if (c.char = ':' && endsWord next) || (inBraces && isBraceMark c.char) then
      some ([], c :: rest)
    else do
      let (word, rest) ← plainWord? inBraces rest
      pure (c.char :: word, rest)

structure Plain where
  content : List Char
  gap : Gap
  rest : List Cell

def plainFrom? (inBraces : Bool) (indent : Nat) : (fuel : Nat) → Gap → List Cell → Option Plain
  | 0, _, _ => none
  | fuel + 1, before, cells => do
    if atMarker cells || peek cells = '#' then pure ⟨[], before, cells⟩
    else
      let (word, rest) ← plainWord? inBraces cells
      if word = [] then pure ⟨[], before, cells⟩
      else
        let (gap, rest) := Gap.read rest
        let content := before.text ++ word
        if gap.tabBefore indent then failure
        else if gap = .empty || (!inBraces && columnAt rest < indent) then
          pure ⟨content, gap, rest⟩
        else
          let more ← plainFrom? inBraces indent fuel gap rest
          pure { more with content := content ++ more.content }

def plain? (inBraces : Bool) (indent : Nat) (cells : List Cell) : Option Plain :=
  plainFrom? inBraces indent cells.length .empty cells

end QasmValues.Yaml
