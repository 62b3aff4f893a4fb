import GraphQL.Source.Position

/-! # Tokens

The tokens of an executable document. `Token.text` is the text a token has in the source; only
the end of the file, which has none, is written out.
-/

namespace GraphQL

inductive Punctuator where
  | bang
  | dollar
  | parenOpen
  | parenClose
  | bracketOpen
  | bracketClose
  | braceOpen
  | braceClose
  | ellipsis
  | colon
  | equals
  | at
  | pipe
deriving DecidableEq, Repr

def Punctuator.text : Punctuator → String
  | .bang => "!"
  | .dollar => "$"
  | .parenOpen => "("
  | .parenClose => ")"
  | .bracketOpen => "["
  | .bracketClose => "]"
  | .braceOpen => "\x7b"
  | .braceClose => "\x7d"
  | .ellipsis => "..."
  | .colon => ":"
  | .equals => "="
  | .at => "@"
  | .pipe => "|"

/-- A token. Numbers keep their digits; strings keep what stands between the quotes, as written. -/
inductive Token where
  | name (name : String)
  | int (digits : String)
  | float (digits : String)
  | quoted (raw : String)
  | block (raw : String)
  | punctuator (p : Punctuator)
  | endOfFile
deriving DecidableEq, Repr

def Token.text : Token → String
  | .name n => n
  | .int d => d
  | .float d => d
  | .quoted raw => "\"" ++ raw ++ "\""
  | .block raw => "\"\"\"" ++ raw ++ "\"\"\""
  | .punctuator p => p.text
  | .endOfFile => "End of file"

/-- What keeps a source from being a list of tokens. -/
inductive LexError where
  | unknownCharacter (c : Char)
  | unexpectedCharacter (c : Char)
  | unterminatedString
  | unterminatedBlockString
  | unknownCharacterInString (c : Char)
  | unknownEscapeSequence (escape : String)
  | unexpectedEndOfFile
  | invalidNumber
deriving DecidableEq, Repr

def LexError.message : LexError → String
  | .unknownCharacter c => "Unknown character \"" ++ c.toString ++ "\""
  | .unexpectedCharacter c => "Unexpected character \"" ++ c.toString ++ "\""
  | .unterminatedString => "Unterminated string literal"
  | .unterminatedBlockString => "Unterminated block string literal"
  | .unknownCharacterInString c =>
      "Unknown character \"" ++ c.toString ++ "\" in string literal"
  | .unknownEscapeSequence e => "Unknown escape sequence \"" ++ e ++ "\" in string"
  | .unexpectedEndOfFile => "Unexpected end of input"
  | .invalidNumber => "Invalid number literal"

end GraphQL
