import StyleModules.Text.Basic

/-!
Why a style sheet cannot be turned into a module.
-/

namespace StyleModules

/-- The reasons for which a pass over a sheet gives up. -/
inductive PassError where
  /-- A composition in a rule whose selector is not one local class. -/
  | complexComposition (selector : Text)
  /-- A composed class that neither this sheet nor an import block declares. -/
  | classNotFound (name : Text)
  /-- A value rule that neither defines nor imports. -/
  | invalidValue (params : Text)
  /-- A plugin's own words. -/
  | plugin (message : Text)
  deriving DecidableEq, Repr

/-- The words in which a reason is reported. -/
def PassError.message : PassError → Text
  | complexComposition selector =>
    "composition is only allowed when selector is single local class name, not \"".toList ++
      selector ++ "\"".toList
  | classNotFound name =>
    "referenced class name \"".toList ++ name ++ "\" in composes not found".toList
  | invalidValue params => "invalid @value definition \"".toList ++ params ++ "\"".toList
  | plugin message => message

end StyleModules
