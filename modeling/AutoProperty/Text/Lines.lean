import AutoProperty.Text.Span

/-! # Lines and columns

Lines end at a line feed, at a carriage return, or at the pair of both. A position counts lines and
the characters within a line from zero; `Lines` converts between positions and byte offsets.
-/

namespace AutoProperty

/-- A place in a text by line and by character within the line, both counted from zero. -/
structure Position where
  line : Nat
  character : Nat
deriving DecidableEq

/-- The place from `start` to `stop` in lines and characters. -/
structure PositionRange where
  start : Position
  stop : Position
deriving DecidableEq

def isLineBreak (c : Char) : Bool :=
  c == '\n' || c == '\r'

/-- The offsets at which the lines after the first begin; `offset` is where the text begins. -/
def laterLineStarts (offset : Nat) : List Char → List Nat
  | [] => []
  | '\r' :: '\n' :: rest => (offset + 2) :: laterLineStarts (offset + 2) rest
  | c :: rest =>
    if isLineBreak c then
      (offset + 1) :: laterLineStarts (offset + 1) rest
    else
      laterLineStarts (offset + c.utf8Size) rest

/-- A text with the offsets at which its lines begin. -/
structure Lines where
  text : List Char
  starts : List Nat

namespace Lines

/-- The lines of a text. -/
def ofText (text : String) : Lines :=
  ⟨text.toList, 0 :: laterLineStarts 0 text.toList⟩

def count (lines : Lines) : Nat :=
  lines.starts.length

def start? (lines : Lines) (line : Nat) : Option Nat :=
  lines.starts[line]?

/-- The line that an offset lies on: the last one that begins no later. -/
def lineAt (lines : Lines) (offset : Nat) : Nat :=
  lines.starts.countP (· ≤ offset) - 1

/-- The position of an offset. An offset past the end is taken as the end of the text, and one
inside a character as the start of its line. -/
def positionAt (lines : Lines) (offset : Nat) : Position :=
  let line := lines.lineAt offset
  let stop := min offset (byteLength lines.text)
  let start := min ((lines.start? line).getD 0) stop
  ⟨line, ((cutBytes? start stop lines.text).getD []).length⟩

def content (lines : Lines) (line : Nat) : List Char :=
  let start := (lines.start? line).getD 0
  let stop := (lines.start? (line + 1)).getD (byteLength lines.text)
  (cutBytes? start stop lines.text).getD []

/-- The offset of a position, if its line exists. A character past the end of the line stands for
the end of the line. -/
def offset? (lines : Lines) (position : Position) : Option Nat :=
  (lines.start? position.line).map fun start =>
    let content := (lines.content position.line).takeWhile (!isLineBreak ·)
    start + byteLength (content.take position.character)

def range (lines : Lines) (span : Span) : PositionRange :=
  ⟨lines.positionAt span.start, lines.positionAt span.stop⟩

end Lines

end AutoProperty
