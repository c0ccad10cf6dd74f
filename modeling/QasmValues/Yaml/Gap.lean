import QasmValues.Yaml.Cell

/-! What separates the words of a text, and what it adds to the text.
Blanks count as they are unless a line ends among them; then only the breaks
count, and a single one stands for a blank. -/

namespace QasmValues.Yaml

/-- The breaks between two lines of a text: one line feed becomes a blank, and
of several the first is dropped. The other breaks are kept. -/
def foldBreaks : List Char → List Char
  | ['\n'] => [' ']
  | '\n' :: more => more
  | breaks => breaks

structure Gap where
  cells : List Cell
  deriving DecidableEq, Repr

namespace Gap

def empty : Gap := ⟨[]⟩

def read (cells : List Cell) : Gap × List Cell :=
  (⟨cells.takeWhile (isSpace ·.char)⟩, cells.dropWhile (isSpace ·.char))

def breaks (g : Gap) : List Char := (charsOf g.cells).filter isBreak

def endsLine (g : Gap) : Bool := g.cells.any (isBreak ·.char)

def text (g : Gap) : List Char :=
  if g.endsLine then foldBreaks g.breaks else charsOf g.cells

def tabBefore (g : Gap) (column : Nat) : Bool :=
  (g.cells.dropWhile (isBlank ·.char)).any fun c => c.char = '\t' && c.column < column

end Gap

end QasmValues.Yaml
