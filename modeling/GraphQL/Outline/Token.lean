import GraphQL.Outline.Values
import GraphQL.Document.Cursor

/-! # Outlines of tokens and parse errors

Tokens and errors are told apart by the names of their kinds.
-/

namespace GraphQL

open Outline

def Token.kindText : Token → String
  | .name _ => "name"
  | .int _ => "int"
  | .float _ => "float"
  | .quoted _ => "string"
  | .block _ => "block"
  | .punctuator _ => "punctuator"
  | .endOfFile => "eof"

instance : Outlined (Located Token) where
  outline t := .array [outline t.item.kindText, outline t.item.text, outline t.span]

def LexError.kindText : LexError → String
  | .unknownCharacter _ => "UnknownCharacter"
  | .unexpectedCharacter _ => "UnexpectedCharacter"
  | .unterminatedString => "UnterminatedString"
  | .unterminatedBlockString => "UnterminatedBlockString"
  | .unknownCharacterInString _ => "UnknownCharacterInString"
  | .unknownEscapeSequence _ => "UnknownEscapeSequence"
  | .unexpectedEndOfFile => "UnexpectedEndOfFile"
  | .invalidNumber => "InvalidNumber"

def ParseError.kindText : ParseError → String
  | .unexpectedToken _ => "UnexpectedToken"
  | .unexpectedEndOfFile => "UnexpectedEndOfFile"
  | .invalidLiteral _ => "InvalidLiteral"
  | .lexical e => "Lexer." ++ e.kindText
  | .astray => "Astray"

/-- The members that describe a parse error. -/
def parseErrorMembers (e : Located ParseError) : List (String × Json) :=
  [member "error" e.item.kindText, member "message" e.item.message, member "span" e.span]

instance : Outlined (Located ParseError) := ⟨fun e => .object (parseErrorMembers e)⟩

end GraphQL
