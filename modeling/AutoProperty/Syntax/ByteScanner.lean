import AutoProperty.Syntax.Scanner
import AutoProperty.Text.Span

/-! # Scanning by bytes

The scanner as it goes over the bytes of a text. It keeps an offset, looks at single bytes from
there on, and cuts what it has passed out of the text. A cut with an end inside a character
fails, and the scan with it.
-/

namespace AutoProperty

def utf8 (cs : List Char) : List UInt8 :=
  cs.flatMap String.utf8EncodeChar

namespace ByteScanner

open Scanner

/-- The character of ASCII that a byte stands for. A byte of a longer character stands for one
that means nothing to the scanner. -/
def toChar (b : UInt8) : Char :=
  Char.ofNat b.toNat

def ahead (text : String) (offset : Nat) : List UInt8 :=
  (utf8 text.toList).drop offset

def cut? (text : String) (start stop : Nat) : Option String :=
  Span.slice? ⟨start, stop⟩ text

/-- The first byte stands for a character that satisfies `p`. -/
def starts (p : Char → Bool) (bytes : List UInt8) : Bool :=
  bytes.head?.any fun b => p (toChar b)

def opens (first second : Char) (bytes : List UInt8) : Bool :=
  starts (· == first) bytes && starts (· == second) bytes.tail

/-! ## How far a loop gets -/

/-- Passes bytes as long as they satisfy `p`. -/
def lengthWhile (p : Char → Bool) (bytes : List UInt8) : Nat :=
  (bytes.takeWhile fun b => p (toChar b)).length

def lineLength (bytes : List UInt8) : Nat :=
  lengthWhile (!isLineBreak ·) bytes

def lineBreakLength (bytes : List UInt8) : Nat :=
  if opens '\r' '\n' bytes then 2 else if starts isLineBreak bytes then 1 else 0

/-- Passes a block comment up to and with its end, or up to the end of the text. -/
def commentEndLength : List UInt8 → Nat
  | [] => 0
  | b :: rest => if opens '*' '/' (b :: rest) then 2 else 1 + commentEndLength rest

def fractionLength (bytes : List UInt8) : Nat :=
  if starts (· == '.') bytes && starts Char.isDigit bytes.tail then
    1 + lengthWhile isDigitPart bytes.tail else 0

def numberLength (bytes : List UInt8) : Nat :=
  let whole := lengthWhile isDigitPart bytes
  let fraction := fractionLength (bytes.drop whole)
  whole + fraction + lengthWhile isNumberSuffix (bytes.drop (whole + fraction))

/-- Passes a literal behind its opening quote. A backslash takes the next byte with it, which
may be the first one of a longer character, but nothing behind the end of the text. -/
def literalLength (close : Char) : List UInt8 → Nat
  | [] => 0
  | b :: rest =>
    if toChar b == '\\' then min 2 (rest.length + 1) + literalLength close rest.tail
    else if isLineBreak (toChar b) then 0
    else if toChar b == close then 1
    else 1 + literalLength close rest
termination_by bytes => bytes.length

/-! ## Trivia -/

def atLineStart? (text : String) (offset : Nat) : Option Bool := do
  let before ← cut? text 0 offset
  let line := (utf8 before.toList).reverse.takeWhile fun b => !isLineBreak (toChar b)
  return line.all fun b => isLineBlank (toChar b)

def piece? (text : String) (offset : Nat) (kind : String → TriviaKind) (length : Nat) :
    Option (Option (Trivia × Nat)) :=
  do
  let shown ← cut? text offset (offset + length)
  return some (⟨kind shown, shown⟩, offset + length)

def trivia? (text : String) (trailing : Bool) (offset : Nat) : Option (Option (Trivia × Nat)) :=
  let bytes := ahead text offset
  if starts isLineBlank bytes then
    piece? text offset (fun _ => .whitespace) (lengthWhile isLineBlank bytes)
  else if starts isLineBreak bytes then
    piece? text offset (fun _ => .endOfLine) (lineBreakLength bytes)
  else if opens '/' '/' bytes then
    piece? text offset (fun _ => .singleLineComment) (lineLength bytes)
  else if opens '/' '*' bytes then
    piece? text offset (fun _ => .multiLineComment) (2 + commentEndLength (bytes.drop 2))
  else if starts (· == '#') bytes && !trailing then do
    if ← atLineStart? text offset then
      let line := lineLength bytes
      let length := line + lineBreakLength (bytes.drop line)
      piece? text offset (fun shown => .directive (.classify shown)) length
    else
      return none
  else
    return none

/-- The run of trivia at an offset. It takes at most `rounds` pieces; a longer one fails. -/
def run? (text : String) (trailing : Bool) : Nat → Nat → Option (List Trivia × Nat)
  | 0, _ => none
  | rounds + 1, offset => do
    match ← trivia? text trailing offset with
    | none => return ([], offset)
    | some (piece, stop) =>
      if trailing && piece.kind == .endOfLine then
        return ([piece], stop)
      let (more, stop) ← run? text trailing rounds stop
      return (piece :: more, stop)

/-! ## Tokens -/

/-- The bytes of the character at an offset; one at the end of the text. -/
def width? (text : String) (offset : Nat) : Option Nat := do
  let others ← cut? text offset (byteLength text.toList)
  return others.toList.head?.elim 1 Char.utf8Size

/-- The kind and the length of punctuation. What is none is one character, never a part of one. -/
def punctuation? (text : String) (offset : Nat) (c : Char) (next? : Option Char) :
    Option (Kind × Nat) :=
  match next?.bind (pairKind? c) with
  | some kind => return (kind, 2)
  | none =>
    if singleKind c = .badToken then return (.badToken, ← width? text offset)
    else return (singleKind c, 1)

/-- The kind and the length of the token at an offset that is not the end of the text. -/
def tokenLength? (text : String) (offset : Nat) (b : UInt8) (rest : List UInt8) :
    Option (Kind × Nat) :=
  if isWordStart (toChar b) then do
    let length := lengthWhile isWordPart (b :: rest)
    let word ← cut? text offset (offset + length)
    return ((Kind.ofReservedWord? word).getD .identifierToken, length)
  else if (toChar b).isDigit then
    return (.numericLiteralToken, numberLength (b :: rest))
  else if toChar b == '"' then
    return (.stringLiteralToken, 1 + literalLength '"' rest)
  else if toChar b == '\'' then
    return (.characterLiteralToken, 1 + literalLength '\'' rest)
  else
    punctuation? text offset (toChar b) (rest.head?.map toChar)

def token? (text : String) (offset : Nat) : Option (Kind × String × Nat) :=
  match ahead text offset with
  | [] => return (.endOfFileToken, "", offset)
  | b :: rest => do
    let (kind, length) ← tokenLength? text offset b rest
    let shown ← cut? text offset (offset + length)
    return (kind, shown, offset + length)

/-- The tokens from an offset on. It takes at most `rounds` of them; more fail. -/
def scanFrom? (text : String) : Nat → Nat → Option (List Token)
  | 0, _ => none
  | rounds + 1, offset => do
    let (leading, start) ← run? text false (rounds + 1) offset
    let (kind, shown, stop) ← token? text start
    if kind = .endOfFileToken then
      return [⟨kind, shown, leading, []⟩]
    let (trailing, stop) ← run? text true (rounds + 1) stop
    let others ← scanFrom? text rounds stop
    return ⟨kind, shown, leading, trailing⟩ :: others

/-- The tokens of a text: no more rounds than there are bytes, and one for the end of the text. -/
def scan? (text : String) : Option (List Token) :=
  scanFrom? text (byteLength text.toList + 1) 0

end ByteScanner

end AutoProperty
