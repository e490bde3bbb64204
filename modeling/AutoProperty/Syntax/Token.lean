import AutoProperty.Syntax.Kind
import AutoProperty.Syntax.Trivia

/-! # Tokens

A token owns the trivia around it: what follows it up to and with the next line break, and what
comes before it since then.
-/

namespace AutoProperty

structure Token where
  kind : Kind
  text : String
  leading : List Trivia
  trailing : List Trivia
deriving DecidableEq

namespace Token

def bare (kind : Kind) (text : String) : Token :=
  ⟨kind, text, [], []⟩

def fixed (kind : Kind) : Token :=
  bare kind (kind.fixedText?.getD "")

/-- Stands for a token that the text lacks. -/
def missing (kind : Kind) : Token :=
  bare kind ""

/-- Only the end of the text has a token without text of its own. -/
def isMissing (t : Token) : Bool :=
  t.text.isEmpty && t.kind != .endOfFileToken

def fullText (t : Token) : List Char :=
  triviaText t.leading ++ t.text.toList ++ triviaText t.trailing

def leadingLength (t : Token) : Nat :=
  byteLength (triviaText t.leading)

def textLength (t : Token) : Nat :=
  byteLength t.text.toList

def fullLength (t : Token) : Nat :=
  byteLength t.fullText

/-- Puts trivia in front of what the token already has there. -/
def prepend (trivia : List Trivia) (t : Token) : Token :=
  { t with leading := trivia ++ t.leading }

end Token

def tokensText (tokens : List Token) : List Char :=
  tokens.flatMap Token.fullText

end AutoProperty
