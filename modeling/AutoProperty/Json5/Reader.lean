import AutoProperty.Json5.Value
import AutoProperty.Text.Unicode.Blank
import AutoProperty.Text.Unicode.Digit
import AutoProperty.Text.Unicode.Letter
import AutoProperty.Text.Unicode.Mark

/-! # Reading a JSON5 text

JSON with comments, trailing commas, unquoted keys, single quotes and more forms of numbers. A
reader takes what it reads off the characters or fails; the text is refused if anything is left.
-/

namespace AutoProperty.Json5

/-! ## Characters -/

def isLineTerminator (c : Char) : Bool :=
  c == '\n' || c == '\r' || c == '\u2028' || c == '\u2029'

def isSpace (c : Char) : Bool :=
  isLineTerminator c || c == '\t' || c == '\x0b' || c == '\x0c' || c == '\ufeff' ||
    isSpaceSeparator c

def isHexDigit (c : Char) : Bool :=
  c.isDigit || ('a' ≤ c && c ≤ 'f') || ('A' ≤ c && c ≤ 'F')

/-- Letters that keys know beyond the character data of the library. -/
def laterLetterCodes : CodeRanges :=
  [(0x558, 0x558)]

def isKeyStart (c : Char) : Bool :=
  isLetter c || laterLetterCodes.contains c || c == '$' || c == '_'

def isKeyPart (c : Char) : Bool :=
  isKeyStart c || isNonspacingMark c || isDiacritic c || isDecimalDigit c || isConnector c ||
    c == '\u200c' || c == '\u200d'

def valueOf (base : Nat) (digits : List Char) : Nat :=
  digits.foldl (fun n c =>
    n * base + (if c.isDigit then c.toNat - 48 else c.toLower.toNat - 87)) 0

/-! ## Space between tokens -/

/-- What follows the end of a block comment; nothing if the comment does not end. -/
def afterComment? : List Char → Option (List Char)
  | [] => none
  | '*' :: '/' :: cs => some cs
  | _ :: cs => afterComment? cs

/-- A comment is not empty, so reading ends. -/
theorem length_afterComment? {cs rest : List Char} (h : afterComment? cs = some rest) :
    rest.length < cs.length := by
  fun_induction afterComment? cs with
  | case1 => cases h
  | case2 cs => cases h; simp +arith
  | case3 c cs _ ih =>
    have := ih h
    simp only [List.length_cons]
    omega

def skipSpace : List Char → List Char
  | [] => []
  | c :: cs =>
    if isSpace c then
      skipSpace cs
    else
      match c, cs with
      | '/', '/' :: body => skipSpace (body.dropWhile (!isLineTerminator ·))
      | '/', '*' :: body =>
        match _h : afterComment? body with
        | some rest => skipSpace rest
        | none => c :: cs
      | _, _ => c :: cs
termination_by cs => cs.length
decreasing_by
  · simp
  · have := (List.dropWhile_sublist (fun c => !isLineTerminator c) (l := body)).length_le
    simp only [List.length_cons]
    omega
  · have := length_afterComment? _h
    simp only [List.length_cons]
    omega

/-! ## Readers -/

abbrev Reader := StateT (List Char) Option

/-- Reads a character that satisfies `p`. -/
def satisfying (p : Char → Bool) : Reader Char := fun cs =>
  match cs with
  | c :: cs => if p c then some (c, cs) else none
  | [] => none

def char (c : Char) : Reader Unit := do
  let _ ← satisfying (· == c)

def word (text : String) : Reader Unit :=
  text.toList.forM char

/-- Reads as many characters that satisfy `p` as there are. -/
def many (p : Char → Bool) : Reader (List Char) := fun cs =>
  some (cs.takeWhile p, cs.dropWhile p)

/-- Reads at least one character that satisfies `p`. -/
def many1 (p : Char → Bool) : Reader (List Char) := do
  let first ← satisfying p
  return first :: (← many p)

def space : Reader Unit :=
  modify skipSpace

def optional {α : Type} (reader : Reader α) : Reader (Option α) :=
  (some <$> reader) <|> pure none

/-! ## Strings and keys -/

/-- A piece of a string: a character, or the code of a `\u` escape. -/
inductive Piece where
  | char (c : Char)
  | code (n : Nat)

/-- The character with a code point, unless it is a surrogate. -/
def charOfCode? (n : Nat) : Option Char :=
  if h : n.isValidChar then some (Char.ofNatAux n h) else none

/-- The code point that two halves of a surrogate pair stand for. The bits of the halves are put
together after the offset `0x10000` has been added to the second, so that bit 16 is always set. -/
def pairCode (high low : Nat) : Nat :=
  ((high - 0xD800) <<< 10) ||| ((low - 0xDC00) + 0x10000)

/-- The text of the pieces. Two codes may be a surrogate pair; half a pair has no text. -/
def textOf? : List Piece → Option (List Char)
  | [] => some []
  | .char c :: pieces => (textOf? pieces).map (c :: ·)
  | .code n :: pieces =>
    if 0xD800 ≤ n && n < 0xDC00 then
      match pieces with
      | .code m :: rest => do
        guard (0xDC00 ≤ m && m < 0xE000)
        let c ← charOfCode? (pairCode n m)
        return c :: (← textOf? rest)
      | _ => none
    else do
      let c ← charOfCode? n
      return c :: (← textOf? pieces)

def hexCode : Nat → Reader (List Char)
  | 0 => return []
  | n + 1 => do
    let c ← satisfying isHexDigit
    return c :: (← hexCode n)

def escaped : Char → Char
  | 'b' => '\x08'
  | 'f' => '\x0c'
  | 'n' => '\n'
  | 'r' => '\r'
  | 't' => '\t'
  | 'v' => '\x0b'
  | c => c

/-- Reads what follows a backslash in a string. A line break there adds nothing. -/
def escape : Reader (List Piece) := do
  let c ← satisfying fun _ => true
  if c == '\r' then
    let _ ← optional (char '\n')
    return []
  else if isLineTerminator c then
    return []
  else if c == 'x' then
    return [.code (valueOf 16 (← hexCode 2))]
  else if c == 'u' then
    return [.code (valueOf 16 (← hexCode 4))]
  else if c == '0' then
    return [.char '\x00']
  else if c.isDigit then
    failure
  else
    return [.char (escaped c)]

def stringPieces (quote : Char) : Nat → Reader (List Piece)
  | 0 => failure
  | steps + 1 => do
    let c ← satisfying (!isLineTerminator ·)
    if c == quote then
      return []
    else if c == '\\' then
      let piece ← escape
      return piece ++ (← stringPieces quote steps)
    else
      return .char c :: (← stringPieces quote steps)

def pieceText? (pieces : List Piece) : Option String :=
  (textOf? pieces).map String.ofList

def stringText : Reader (Option String) := do
  let quote ← satisfying fun c => c == '"' || c == '\''
  return pieceText? (← stringPieces quote (← get).length)

def keyPiece (p : Char → Bool) : Reader Piece :=
  (Piece.char <$> satisfying p) <|> do
    word "\\u"
    return .code (valueOf 16 (← hexCode 4))

def keyPieces : Nat → Reader (List Piece)
  | 0 => return []
  | steps + 1 => do
    match ← optional (keyPiece isKeyPart) with
    | some piece => return piece :: (← keyPieces steps)
    | none => return []

def keyName : Reader (Option String) := do
  let first ← keyPiece isKeyStart
  return pieceText? (first :: (← keyPieces (← get).length))

/-! ## Numbers -/

def sign : Reader Sign :=
  (char '+' *> pure .plus) <|> (char '-' *> pure .minus) <|> pure .none

/-- Reads the digits in front of a point: a zero stands alone. -/
def wholeDigits : Reader (List Char) :=
  (char '0' *> pure ['0']) <|> many1 Char.isDigit

def exponent : Reader Int := do
  let _ ← satisfying fun c => c == 'e' || c == 'E'
  let sign ← sign
  let value : Int := valueOf 10 (← many1 Char.isDigit)
  return if sign = .minus then -value else value

def decimalOf (whole fraction : List Char) (exponent? : Option Int) : Number :=
  .decimal (valueOf 10 (whole ++ fraction)) (exponent?.getD 0 - fraction.length)

def hexadecimal (sign : Sign) : Reader Number := do
  char '0'
  let _ ← satisfying fun c => c == 'x' || c == 'X'
  return .hexadecimal sign (valueOf 16 (← many1 isHexDigit))

def fractionOnly : Reader Number := do
  char '.'
  let fraction ← many1 Char.isDigit
  return decimalOf [] fraction (← optional exponent)

def wholeFirst (sign : Sign) : Reader Number := do
  let whole ← wholeDigits
  match ← optional (char '.') with
  | some _ =>
    let fraction ← many Char.isDigit
    return decimalOf whole fraction (← optional exponent)
  | none =>
    match ← optional exponent with
    | some e => return decimalOf whole [] (some e)
    | none => return .integer sign (valueOf 10 whole)

def number : Reader Number := do
  let sign ← sign
  hexadecimal sign <|> fractionOnly <|> wholeFirst sign <|>
    (word "Infinity" *> pure (.infinity sign)) <|> (word "NaN" *> pure (.notANumber sign))

/-! ## Values -/

def scalar : Reader Value :=
  (word "null" *> pure .null) <|> (word "true" *> pure (.boolean true)) <|>
    (word "false" *> pure (.boolean false)) <|> (Value.string <$> stringText) <|>
    (Value.number <$> number)

mutual

/-- Reads a value, with at most `steps` values and parts of values nested or in a row. -/
def value : Nat → Reader Value
  | 0 => failure
  | steps + 1 => do
    space
    match ← optional (satisfying fun c => c == '[' || c == '\x7b') with
    | some '[' => return .array (← items steps)
    | some _ =>
      let members ← members steps
      return .object (members.map (·.1)) (members.map (·.2))
    | none => scalar

def items : Nat → Reader (List Value)
  | 0 => failure
  | steps + 1 => do
    space
    match ← optional (char ']') with
    | some _ => return []
    | none =>
      let first ← value steps
      space
      match ← optional (char ',') with
      | some _ => return first :: (← items steps)
      | none => char ']' *> pure [first]

def members : Nat → Reader (List (Option String × Value))
  | 0 => failure
  | steps + 1 => do
    space
    match ← optional (char '\x7d') with
    | some _ => return []
    | none =>
      let key ← keyName <|> stringText
      space
      char ':'
      let first ← value steps
      space
      match ← optional (char ',') with
      | some _ => return (key, first) :: (← members steps)
      | none => char '\x7d' *> pure [(key, first)]

end

/-- The value of a text. Every step but one in two takes a character off it. -/
def parse? (text : String) : Option Value := do
  let cs := text.toList
  let (v, rest) ← value (2 * cs.length + 2) cs
  guard (skipSpace rest).isEmpty
  return v

end AutoProperty.Json5
