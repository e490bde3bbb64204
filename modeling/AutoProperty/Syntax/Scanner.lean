import AutoProperty.Syntax.Token
import AutoProperty.Text.Lines

/-! # Scanning

Cuts a text into tokens and trivia. Nothing is lost: every character goes into exactly one token or
piece of trivia. The text of a token never holds trivia, the trivia behind a token ends with the
first line break, and everything else lies in front of the next token. A number sign starts a
directive only where its line holds nothing but blanks before it.
-/

namespace AutoProperty

namespace Scanner

def isLineBlank (c : Char) : Bool :=
  c == ' ' || c == '\t'

/-- Whether the line still holds nothing but blanks once `text` is added to it. -/
def blankAfter (blank : Bool) (text : List Char) : Bool :=
  text.foldl (fun blank c => isLineBreak c || (blank && isLineBlank c)) blank

/-- Splits off the longest start of the text that satisfies `p`. -/
def splitWhile (p : Char → Bool) (cs : List Char) : List Char × List Char :=
  (cs.takeWhile p, cs.dropWhile p)

def splitLineBreak : List Char → List Char × List Char
  | '\r' :: '\n' :: rest => (['\r', '\n'], rest)
  | c :: rest => if isLineBreak c then ([c], rest) else ([], c :: rest)
  | [] => ([], [])

def splitCommentEnd : List Char → List Char × List Char
  | '*' :: '/' :: rest => (['*', '/'], rest)
  | c :: rest =>
    let (text, rest) := splitCommentEnd rest
    (c :: text, rest)
  | [] => ([], [])

def splitLine (cs : List Char) : List Char × List Char :=
  splitWhile (!isLineBreak ·) cs

/-- Splits off one piece of trivia. A directive is taken only if `directives` allows it. -/
def splitTrivia? (directives : Bool) : List Char → Option (TriviaKind × List Char × List Char)
  | '/' :: '/' :: rest =>
    let (text, rest) := splitLine rest
    some (.singleLineComment, '/' :: '/' :: text, rest)
  | '/' :: '*' :: rest =>
    let (text, rest) := splitCommentEnd rest
    some (.multiLineComment, '/' :: '*' :: text, rest)
  | c :: rest =>
    if isLineBlank c then
      let (text, rest) := splitWhile isLineBlank rest
      some (.whitespace, c :: text, rest)
    else if isLineBreak c then
      let (text, rest) := splitLineBreak (c :: rest)
      some (.endOfLine, text, rest)
    else if c == '#' && directives then
      let (line, rest) := splitLine rest
      let (lineBreak, rest) := splitLineBreak rest
      let text := c :: line ++ lineBreak
      some (.directive (.classify (String.ofList text)), text, rest)
    else
      none
  | [] => none

/-- The letters, digits and underscores of ASCII that identifiers are made of. -/
def isWordPart (c : Char) : Bool :=
  c.isAlphanum || c == '_'

def isWordStart (c : Char) : Bool :=
  c.isAlpha || c == '_'

def isDigitPart (c : Char) : Bool :=
  c.isDigit || c == '_'

/-- The letters that may follow a number to give its type. -/
def isNumberSuffix (c : Char) : Bool :=
  "fFdDmMlLuU".toList.contains c

def splitFraction : List Char → List Char × List Char
  | '.' :: d :: rest =>
    if d.isDigit then
      let (digits, rest) := splitWhile isDigitPart rest
      ('.' :: d :: digits, rest)
    else
      ([], '.' :: d :: rest)
  | cs => ([], cs)

/-- Digits and underscores, perhaps a fraction, and the letters of a type. -/
def splitNumber (cs : List Char) : List Char × List Char :=
  let (whole, rest) := splitWhile isDigitPart cs
  let (fraction, rest) := splitFraction rest
  let (suffix, rest) := splitWhile isNumberSuffix rest
  (whole ++ fraction ++ suffix, rest)

/-- The text of a literal behind its opening quote: up to and with the closing one, or up to the end
of the line. A backslash takes the next character with it, whatever that is. -/
def splitLiteral (close : Char) : List Char → List Char × List Char
  | [] => ([], [])
  | ['\\'] => (['\\'], [])
  | '\\' :: c :: rest =>
    let (text, rest) := splitLiteral close rest
    ('\\' :: c :: text, rest)
  | c :: rest =>
    if isLineBreak c then
      ([], c :: rest)
    else if c == close then
      ([c], rest)
    else
      let (text, rest) := splitLiteral close rest
      (c :: text, rest)

def pairKind? : Char → Char → Option Kind
  | '=', '>' => some .equalsGreaterThanToken
  | '=', '=' => some .equalsEqualsToken
  | '!', '=' => some .exclamationEqualsToken
  | '<', '=' => some .lessThanEqualsToken
  | '>', '=' => some .greaterThanEqualsToken
  | '+', '=' => some .plusEqualsToken
  | '-', '=' => some .minusEqualsToken
  | '+', '+' => some .plusPlusToken
  | '-', '-' => some .minusMinusToken
  | '&', '&' => some .ampersandAmpersandToken
  | '|', '|' => some .barBarToken
  | _, _ => none

/-- Punctuation of one character; any other character is a token that fits nowhere. -/
def singleKind : Char → Kind
  | '\x7b' => .openBraceToken
  | '\x7d' => .closeBraceToken
  | '(' => .openParenToken
  | ')' => .closeParenToken
  | '[' => .openBracketToken
  | ']' => .closeBracketToken
  | ';' => .semicolonToken
  | ',' => .commaToken
  | '.' => .dotToken
  | '?' => .questionToken
  | '=' => .equalsToken
  | '+' => .plusToken
  | '-' => .minusToken
  | '*' => .asteriskToken
  | '/' => .slashToken
  | '%' => .percentToken
  | '!' => .exclamationToken
  | '<' => .lessThanToken
  | '>' => .greaterThanToken
  | _ => .badToken

/-- Punctuation takes the longest form that fits. -/
def splitPunctuation (c : Char) : List Char → Kind × List Char × List Char
  | [] => (singleKind c, [c], [])
  | d :: rest =>
    match pairKind? c d with
    | some kind => (kind, [c, d], rest)
    | none => (singleKind c, [c], d :: rest)

/-- Splits off the token that starts with the character `c`. -/
def splitToken (c : Char) (rest : List Char) : Kind × List Char × List Char :=
  if isWordStart c then
    let (word, rest) := splitWhile isWordPart rest
    let text := c :: word
    ((Kind.ofReservedWord? (String.ofList text)).getD .identifierToken, text, rest)
  else if c.isDigit then
    let (text, rest) := splitNumber (c :: rest)
    (.numericLiteralToken, text, rest)
  else if c == '"' then
    let (text, rest) := splitLiteral '"' rest
    (.stringLiteralToken, c :: text, rest)
  else if c == '\'' then
    let (text, rest) := splitLiteral '\'' rest
    (.characterLiteralToken, c :: text, rest)
  else
    splitPunctuation c rest

/-! ## What a split leaves -/

theorem splitWhile_append (p : Char → Bool) (cs : List Char) :
    (splitWhile p cs).1 ++ (splitWhile p cs).2 = cs :=
  List.takeWhile_append_dropWhile

theorem splitLineBreak_append (cs : List Char) :
    (splitLineBreak cs).1 ++ (splitLineBreak cs).2 = cs := by
  fun_cases splitLineBreak cs <;> simp

theorem splitLineBreak_ne_nil {c : Char} (cs : List Char) (h : isLineBreak c = true) :
    (splitLineBreak (c :: cs)).1 ≠ [] := by
  unfold splitLineBreak
  split <;> simp_all

theorem splitCommentEnd_append (cs : List Char) :
    (splitCommentEnd cs).1 ++ (splitCommentEnd cs).2 = cs := by
  fun_induction splitCommentEnd cs <;> simp_all

theorem splitLine_append (cs : List Char) : (splitLine cs).1 ++ (splitLine cs).2 = cs :=
  splitWhile_append _ cs

theorem splitLiteral_append (close : Char) (cs : List Char) :
    (splitLiteral close cs).1 ++ (splitLiteral close cs).2 = cs := by
  fun_induction splitLiteral close cs <;> simp_all

theorem splitFraction_append (cs : List Char) :
    (splitFraction cs).1 ++ (splitFraction cs).2 = cs := by
  fun_cases splitFraction cs with
  | case1 d rest hd digits rest' hs =>
    have := splitWhile_append isDigitPart rest
    simp_all
  | _ => simp_all

theorem splitNumber_append (cs : List Char) :
    (splitNumber cs).1 ++ (splitNumber cs).2 = cs := by
  simp only [splitNumber, List.append_assoc]
  rw [splitWhile_append, splitFraction_append, splitWhile_append]

/-- A piece of trivia is some text, and what follows it is left. -/
theorem splitTrivia?_append {directives : Bool} {cs text rest : List Char} {kind : TriviaKind}
    (h : splitTrivia? directives cs = some (kind, text, rest)) : text ++ rest = cs ∧ text ≠ [] := by
  revert h
  fun_cases splitTrivia? directives cs with
  | case1 cs t r hs =>
    have := splitLine_append cs
    rintro ⟨⟩
    simp_all
  | case2 cs t r hs =>
    have := splitCommentEnd_append cs
    rintro ⟨⟩
    simp_all
  | case3 c cs _ _ hc t r hs =>
    have := splitWhile_append isLineBlank cs
    rintro ⟨⟩
    simp_all
  | case4 c cs _ _ _ hc t r hs =>
    have happend := splitLineBreak_append (c :: cs)
    have hne := splitLineBreak_ne_nil cs hc
    rintro ⟨⟩
    simp_all
  | case5 c cs _ _ _ _ hc line r hs lineBreak r' hs' all =>
    have hline := splitLine_append cs
    have hbreak := splitLineBreak_append r
    intro h
    simp only [Option.some.injEq, Prod.mk.injEq] at h
    obtain ⟨_, rfl, rfl⟩ := h
    simp_all [all]
  | case6 => simp
  | case7 => simp

/-- Scanning goes on behind a piece of trivia with less text. -/
theorem splitTrivia?_length {directives : Bool} {cs text rest : List Char} {kind : TriviaKind}
    (h : splitTrivia? directives cs = some (kind, text, rest)) : rest.length < cs.length := by
  obtain ⟨rfl, hne⟩ := splitTrivia?_append h
  have := List.length_pos_iff.mpr hne
  simp
  omega

theorem splitPunctuation_append (c : Char) (cs : List Char) :
    (splitPunctuation c cs).2.1 ++ (splitPunctuation c cs).2.2 = c :: cs := by
  fun_cases splitPunctuation c cs <;> simp

/-- A token is some text, starting with the character it was found by. -/
theorem splitToken_append (c : Char) (cs : List Char) :
    (splitToken c cs).2.1 ++ (splitToken c cs).2.2 = c :: cs := by
  unfold splitToken
  split
  · simpa using splitWhile_append isWordPart cs
  split
  · exact splitNumber_append (c :: cs)
  split
  · simpa using splitLiteral_append '"' cs
  split
  · simpa using splitLiteral_append '\'' cs
  · exact splitPunctuation_append c cs

/-- Every token takes at least one character. -/
theorem splitToken_ne_nil (c : Char) (cs : List Char) : (splitToken c cs).2.1 ≠ [] := by
  unfold splitToken
  split
  · simp
  split
  · rename_i h
    simp [splitNumber, splitWhile, isDigitPart, h]
  split
  · simp
  split
  · simp
  · fun_cases splitPunctuation c cs <;> simp

/-- Scanning goes on behind a token with less text. -/
theorem splitToken_length (c : Char) (cs : List Char) :
    (splitToken c cs).2.2.length < (c :: cs).length := by
  have hlength := congrArg List.length (splitToken_append c cs)
  have := List.length_pos_iff.mpr (splitToken_ne_nil c cs)
  simp only [List.length_append] at hlength
  omega

/-! ## Runs of trivia -/

/-- Which trivia a run may take. -/
inductive Run where
  /-- In front of a token; `blank` says whether the line holds only blanks so far. -/
  | leading (blank : Bool)
  /-- Behind a token: no directives, and nothing after a line break. -/
  | trailing
deriving DecidableEq

def Run.allowsDirective : Run → Bool
  | leading blank => blank
  | trailing => false

def Run.next? (run : Run) (kind : TriviaKind) (text : List Char) : Option Run :=
  match run with
  | leading blank => some (leading (blankAfter blank text))
  | trailing => if kind == .endOfLine then none else some trailing

def splitRun (run : Run) (cs : List Char) : List Trivia × List Char :=
  match h : splitTrivia? run.allowsDirective cs with
  | none => ([], cs)
  | some (kind, text, rest) =>
    let piece : Trivia := ⟨kind, String.ofList text⟩
    match run.next? kind text with
    | none => ([piece], rest)
    | some next =>
      have := splitTrivia?_length h
      let (more, rest) := splitRun next rest
      (piece :: more, rest)
termination_by cs.length

/-- A run of trivia splits the text without losing anything. -/
theorem splitRun_append (run : Run) (cs : List Char) :
    triviaText (splitRun run cs).1 ++ (splitRun run cs).2 = cs := by
  fun_induction splitRun run cs with
  | case1 => simp [triviaText]
  | case2 run cs kind text rest h piece _ =>
    simp [triviaText, piece, (splitTrivia?_append h).1]
  | case3 run cs kind text rest h piece next _ _ more rest' hsplit ih =>
    rw [hsplit] at ih
    have := (splitTrivia?_append h).1
    simp_all [triviaText, piece]

theorem splitRun_length (run : Run) (cs : List Char) :
    (splitRun run cs).2.length ≤ cs.length := by
  have := congrArg List.length (splitRun_append run cs)
  simp only [List.length_append] at this
  omega

end Scanner

/-! ## Whole texts -/

/-- A text in tokens: those with text of their own, then the one that stands for the end of the text
and holds the trivia in front of it. -/
structure ScannedText where
  tokens : List Token
  final : Token

def ScannedText.all (s : ScannedText) : List Token :=
  s.tokens ++ [s.final]

namespace Scanner

/-- Scans a text whose line holds nothing but blanks so far if `blank` says so. -/
def scanFrom (blank : Bool) (cs : List Char) : ScannedText :=
  match _h : splitRun (.leading blank) cs with
  | (leading, []) => ⟨[], ⟨.endOfFileToken, "", leading, []⟩⟩
  | (leading, c :: rest) =>
    let core := splitToken c rest
    let behind := splitRun .trailing core.2.2
    let token : Token := ⟨core.1, String.ofList core.2.1, leading, behind.1⟩
    let others := scanFrom (blankAfter blank token.fullText) behind.2
    ⟨token :: others.tokens, others.final⟩
termination_by cs.length
decreasing_by
  have hlead := splitRun_length (.leading blank) cs
  have hcore := splitToken_length c rest
  have hbehind := splitRun_length .trailing (splitToken c rest).2.2
  rw [_h] at hlead
  simp only at hlead
  omega

end Scanner

def scan (text : String) : ScannedText :=
  Scanner.scanFrom true text.toList

namespace Scanner

/-- Scanning loses nothing. -/
theorem tokensText_scanFrom (blank : Bool) (cs : List Char) :
    tokensText (scanFrom blank cs).all = cs := by
  fun_induction scanFrom blank cs with
  | case1 blank cs leading h =>
    have := splitRun_append (.leading blank) cs
    simp_all [ScannedText.all, tokensText, Token.fullText, triviaText]
  | case2 blank cs leading c rest h core behind token others ih =>
    have hlead := splitRun_append (.leading blank) cs
    have hcore := splitToken_append c rest
    have hbehind := splitRun_append .trailing core.2.2
    rw [h] at hlead
    simp only [ScannedText.all, tokensText, List.cons_append, List.flatMap_cons] at ih ⊢
    rw [ih, ← hlead, ← hcore]
    simp only [token, Token.fullText, String.toList_ofList, List.append_assoc]
    rw [hbehind]

end Scanner

/-- The tokens of a text spell the text. -/
theorem tokensText_scan (text : String) : tokensText (scan text).all = text.toList :=
  Scanner.tokensText_scanFrom true text.toList

end AutoProperty
