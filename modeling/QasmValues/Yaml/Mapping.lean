import QasmValues.Yaml.Layout

/-! Documents that are one mapping of texts.
The mapping is a block or stands in braces. Any other document is refused, and so
is a text that holds a second one. -/

namespace QasmValues.Yaml

structure Text where
  tag : Option String
  content : String
  plain : Bool
  deriving DecidableEq, Repr

namespace Text

def empty : Text := ⟨none, "", true⟩

def ownTag? : Octets → Option String
  | [] => none
  | mark :: name => if mark = 0x21 then String.fromUTF8? ⟨name.toArray⟩ else none

end Text

abbrev Entry := Text × Text

abbrev Handles := List (String × Octets)

/-- The handles of every document. The second is for the tags of the format, none
of which is a document's own. -/
def Handles.standard : Handles := [("!", "!".toUTF8.toList), ("!!", "tag:".toUTF8.toList)]

def Handles.ofDirectives? : List Token → Option Handles
  | [] => some .standard
  | .version :: rest => if rest.contains .version then none else ofDirectives? rest
  | .handle name expansion :: rest => do
    let again := rest.any fun t => match t with
      | .handle other _ => other = name
      | _ => false
    if again then failure else pure ((name, expansion) :: (← ofDirectives? rest))
  | _ => none

def Handles.tag? (handles : Handles) (handle : String) (suffix : Octets) : Option Octets :=
  if handle = "" then some suffix else do pure ((← handles.lookup handle) ++ suffix)

structure Properties where
  present : Bool
  tag : Option Octets

def properties? (handles : Handles) : List Token → Option (Properties × List Token)
  | .anchor :: .tag handle suffix :: rest
  | .tag handle suffix :: .anchor :: rest
  | .tag handle suffix :: rest => do
    pure (⟨true, some (← handles.tag? handle suffix)⟩, rest)
  | .anchor :: rest => some (⟨true, none⟩, rest)
  | rest => some (⟨false, none⟩, rest)

/-- Read a node. Where nothing but properties stands the text is empty. -/
def node? (handles : Handles) (tokens : List Token) : Option (Text × List Token) := do
  let (found, rest) ← properties? handles tokens
  match rest with
  | .text content plain :: rest =>
    pure (⟨found.tag.bind Text.ownTag?, content, plain⟩, rest)
  | rest =>
    if found.present then pure (⟨found.tag.bind Text.ownTag?, "", true⟩, rest) else failure

def nodeOrEmpty? (handles : Handles) : List Token → Option (Text × List Token)
  | [] => none
  | token :: rest =>
    if token.endsNode then some (.empty, token :: rest) else node? handles (token :: rest)

def entry? (handles : Handles) (tokens : List Token) : Option (Entry × List Token) := do
  let (key, rest) ← nodeOrEmpty? handles tokens
  match rest with
  | .value :: rest =>
    let (value, rest) ← nodeOrEmpty? handles rest
    pure ((key, value), rest)
  | rest => pure ((key, .empty), rest)

def blockEntries? (handles : Handles) :
    (fuel : Nat) → List Token → Option (List Entry × List Token)
  | _, .blockEnd :: rest => some ([], rest)
  | fuel + 1, .key :: rest => do
    let (entry, rest) ← entry? handles rest
    let (entries, rest) ← blockEntries? handles fuel rest
    pure (entry :: entries, rest)
  | _, _ => none

/-- Read the entries in braces and the closing brace; a comma may precede it. An
entry may be a key alone. -/
def braceEntries? (handles : Handles) :
    (fuel : Nat) → List Token → Option (List Entry × List Token)
  | _, .braceEnd :: rest => some ([], rest)
  | 0, _ => none
  | fuel + 1, tokens => do
    let (entry, rest) ← match tokens with
      | .key :: rest => entry? handles rest
      | tokens => do
        let (key, rest) ← node? handles tokens
        pure ((key, .empty), rest)
    match rest with
    | .braceEnd :: rest => pure ([entry], rest)
    | .comma :: rest =>
      let (entries, rest) ← braceEntries? handles fuel rest
      pure (entry :: entries, rest)
    | _ => failure

def mapping? (handles : Handles) (tokens : List Token) : Option (List Entry) := do
  let (_, rest) ← properties? handles tokens
  let (entries, rest) ← match rest with
    | .blockStart :: rest => blockEntries? handles rest.length rest
    | .braceStart :: rest => braceEntries? handles rest.length rest
    | _ => failure
  if rest.all (· = .documentEnd) then pure entries else failure

def entries? (text : String) : Option (List Entry) := do
  let tokens ← tokens? text
  let (directives, rest) := tokens.span Token.isDirective
  let handles ← Handles.ofDirectives? directives
  match rest with
  | .documentStart :: rest => mapping? handles rest
  | rest => if directives = [] then mapping? handles rest else failure

end QasmValues.Yaml
