import StyleModules.Disk.Basic
import StyleModules.Sheet.Statement
import StyleModules.Pass.Error

/-!
Why a module cannot be loaded.
-/

namespace StyleModules

/-- The reasons for which a module cannot be loaded. A faulty text is kept with its fault. -/
inductive LoadError where
  | couldNotLoad (path : Text) (cause : IoError)
  | notUtf8 (path : Text)
  | parse (path : Text) (input : Text) (cause : ParseError)
  | pass (path : Text) (cause : PassError)
  | noSuchModule (key : Text)
  deriving DecidableEq, Repr

/-- The words in which a reason is reported. -/
def LoadError.message : LoadError → Text
  | couldNotLoad path cause =>
    "could not load module at path ".toList ++ path ++ ": ".toList ++ cause.message
  | notUtf8 path => "module at path ".toList ++ path ++ " is not valid UTF-8".toList
  | parse path _ cause => "could not parse ".toList ++ path ++ ": ".toList ++ cause.message
  | pass path cause => "could not transform ".toList ++ path ++ ": ".toList ++ cause.message
  | noSuchModule key => "no module ".toList ++ key

end StyleModules
