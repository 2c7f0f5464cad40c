import StyleModules.Module.Error

/-!
Why a build fails.
-/

namespace StyleModules

/-- What was being done with files when it failed. -/
inductive FileAction where
  | creating (dir : Text)
  | copying (source target : Text)
  | writing (path : Text)
  deriving DecidableEq, Repr

/-- The words for what was being done. -/
def FileAction.words : FileAction → Text
  | creating dir => "creating output directory (".toList ++ dir ++ ")".toList
  | copying source target => "copying ".toList ++ source ++ " to ".toList ++ target
  | writing path => "writing ".toList ++ path

/-- The reasons for which a build fails. -/
inductive BuildError where
  | load (cause : LoadError)
  | io (action : FileAction) (cause : IoError)
  | walk (path : Text) (cause : IoError)
  deriving DecidableEq, Repr

namespace BuildError

/-- The words for a directory that could not be gone through. -/
def walkMessage (path : Text) (cause : IoError) : Text :=
  "IO error for operation on ".toList ++ path ++ ": ".toList ++ cause.message

/-- The words in which a reason is reported. -/
def message : BuildError → Text
  | load cause => cause.message
  | io action cause => "When ".toList ++ action.words ++ ": ".toList ++ cause.message
  | walk path cause => "When traversing ".toList ++ path ++ ": ".toList ++ walkMessage path cause

/-- The report of a reason: its words and those of what caused it, one after the other. -/
def report : BuildError → List Text
  | load (.parse path _ cause) => ["could not parse ".toList ++ path, cause.message]
  | load cause =>
    let source := match cause with
      | .couldNotLoad _ e => [e.message]
      | .pass _ e => [e.message]
      | _ => []
    cause.message :: cause.message :: source
  | io action cause => [message (io action cause), cause.message]
  | walk path cause => [message (walk path cause), walkMessage path cause, cause.message]

/-- The code of a kind of reason. -/
def code : BuildError → Text
  | load (.parse _ _ _) => "css_module_linker::parse".toList
  | load _ => "css_module_linker::load".toList
  | io _ _ => "css_module_linker::io".toList
  | walk _ _ => "css_module_linker::walk".toList

end BuildError

end StyleModules
