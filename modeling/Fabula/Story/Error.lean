/-! What can be wrong with a story while it is built or linked. -/

namespace Fabula

inductive StoryError where
  | badIdentity (identity : String)
  | reservedIdentity (identity : String)
  | duplicateIdentity (identity : String)
  | archetypeCleared (identity : String)
  | worldLineage
  | lineageKindMismatch (child parent : String)
  | circularLineage (identity : String)
  | parentAlreadySet (identity : String)
  | unknownElement (identity : String)
  | permissionMisconfigured (identity : String)
  | listConstant
deriving DecidableEq

def StoryError.message : StoryError → String
  | badIdentity id => "bad identity `" ++ id ++ "`"
  | reservedIdentity id => "`" ++ id ++ "` is a reserved identity"
  | duplicateIdentity id => "identity `" ++ id ++ "` is already in use"
  | archetypeCleared id => "archetype `" ++ id ++ "` cannot become concrete"
  | worldLineage => "the world cannot have lineage or be an archetype"
  | lineageKindMismatch child parent =>
    "`" ++ parent ++ "` is not the same kind of element as `" ++ child ++ "`"
  | circularLineage id => "lineage of `" ++ id ++ "` would be circular"
  | parentAlreadySet id => "`" ++ id ++ "` already has a parent"
  | unknownElement id => "unknown element `" ++ id ++ "`"
  | permissionMisconfigured id => "capability not supported on `" ++ id ++ "`"
  | listConstant => "list constants are not allowed in modules"

end Fabula
