import Fabula.Story.Error

/-! Why bytes are refused as a story file or a saved state. -/

namespace Fabula

/-- The deepest nesting of blocks or lists that is read. -/
def maxNesting : Nat := 256

inductive DecodeError where
  | unexpectedEnd
  | invalidVarint
  | outOfBounds
  | invalidText
  | badMagic
  | unsupportedVersion (version : UInt8)
  | unknownTag (what : String) (tag : UInt8)
  | digestMismatch
  | storyMismatch
  | badReference (id : Nat)
  | unknownElement (identity : String)
  | trailingBytes
  | nestingTooDeep
  | malformed (error : StoryError)
deriving DecidableEq

/-- Two hexadecimal digits. -/
def hexByte (b : UInt8) : String :=
  String.ofList [Nat.digitChar (b.toNat / 16), Nat.digitChar (b.toNat % 16)]

def DecodeError.message : DecodeError → String
  | unexpectedEnd => "unexpected end of input"
  | invalidVarint => "invalid varint encoding"
  | outOfBounds => "length out of bounds"
  | invalidText => "invalid UTF-8"
  | badMagic => "bad magic header"
  | unsupportedVersion version => "unsupported version " ++ toString version.toNat
  | unknownTag what tag => "unknown " ++ what ++ " tag 0x" ++ hexByte tag
  | digestMismatch => "module digest does not match its payload"
  | storyMismatch => "save state was written for a different module"
  | badReference id => "undefined value reference " ++ toString id
  | unknownElement identity => "unknown element `" ++ identity ++ "`"
  | trailingBytes => "trailing bytes after section"
  | nestingTooDeep => "nesting deeper than " ++ toString maxNesting ++ " levels"
  | malformed error => "malformed module: " ++ error.message

end Fabula
