import Fabula.Session.Fault

/-! Signals: how a block ends before its last operation. Some only leave a loop, a function or a
handler, some end the request, and failures abort it. -/

namespace Fabula

/-- The guard that stopped a request, with its limit. -/
inductive Runaway where
  | operations (limit : Nat)
  | depth (limit : Nat)
deriving DecidableEq

def Runaway.message : Runaway → String
  | operations limit => "request exceeded " ++ toString limit ++ " operations"
  | depth limit => "function calls nested deeper than " ++ toString limit

inductive Signal where
  | leaveLoop
  | nextRound
  | endHandler
  | finish
  | quit
  | giveBack
  | scriptError (message : String)
  | runtimeError (message : String)
  | runaway (kind : Runaway)
  | fatal (fault : Fault)
deriving DecidableEq

namespace Signal

/-- Whether the signal stops the whole request past every handler. -/
def isFatal : Signal → Bool
  | runaway _ | fatal _ => true
  | _ => false

/-- Whether a request that ends with the signal has failed. -/
def isFailure : Signal → Bool
  | scriptError _ | runtimeError _ | runaway _ | fatal _ => true
  | _ => false

def message : Signal → String
  | leaveLoop => "break"
  | nextRound => "continue"
  | endHandler => "end"
  | finish => "finish"
  | quit => "quit"
  | giveBack => "return"
  | scriptError m => "error: " ++ m
  | runtimeError m => "runtime error: " ++ m
  | runaway kind => "runaway request: " ++ kind.message
  | fatal fault => "fatal: " ++ fault.message

/-- The fault behind a fatal signal. -/
def fault? : Signal → Option Fault
  | fatal fault => some fault
  | _ => none

end Signal

end Fabula
