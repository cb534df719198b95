import Fabula.Opcode

/-! What a session cannot do: something it needs is not there, or an operation does not fit. -/

namespace Fabula

inductive Fault where
  | unknownAction (identity : String)
  | unknownElement (identity : String)
  | archetypeReference (identity : String)
  | noCurrentPlayer
  | noCurrentRoom
  | unknownFunction (element name : String)
  | badOperand (opcode : Opcode)
  | badInvocation (action : String)
  | stackUnderflow (opcode : Opcode)
  | stackImbalance (expected actual : Nat)
deriving DecidableEq

def Fault.message : Fault → String
  | unknownAction identity => "unknown action `" ++ identity ++ "`"
  | unknownElement identity => "unknown element `" ++ identity ++ "`"
  | archetypeReference identity => "archetype `" ++ identity ++ "` has no context"
  | noCurrentPlayer => "no current player"
  | noCurrentRoom => "no current room"
  | unknownFunction element name => "no function `" ++ name ++ "` on `" ++ element ++ "`"
  | badOperand opcode => "bad operand for " ++ opcode.mnemonic
  | badInvocation action => "invocation does not fit action `" ++ action ++ "`"
  | stackUnderflow opcode => "value stack underflow in " ++ opcode.mnemonic
  | stackImbalance expected actual =>
    "value stack imbalance (depth " ++ toString expected ++ " at entry, " ++ toString actual ++
      " at exit)"

end Fabula
