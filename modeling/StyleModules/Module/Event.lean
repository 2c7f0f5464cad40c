import StyleModules.Module.Link

/-!
What happens while modules are loaded and built, in order, and which of it is logged.
-/

namespace StyleModules

/-- One thing that happened. -/
inductive Event where
  /-- A build began. -/
  | started
  /-- The turn of a file came. -/
  | processing (path : Text)
  /-- A build ended well. -/
  | succeeded
  /-- A build failed, with the words of the failure. -/
  | failed (message : Text)
  /-- A build ended, either way. -/
  | ended
  /-- A load was stored for a key. -/
  | loading (key : Text)
  /-- A load was found for a key. -/
  | found (key : Text)
  /-- A module was loaded, with the number of its exports. -/
  | processed (relative : Text) (exports : Nat)
  /-- A failure was passed over. -/
  | passedOver (notice : Notice)
  /-- A file was copied to a path. -/
  | copied (path : Text)
  /-- A module was written. -/
  | wrote (css script : Text)
  /-- There was no configuration at a path. -/
  | noConfig (path : Text)
  /-- Something that a plugin reported. -/
  | reported (words : List Text)
  deriving DecidableEq, Repr

/-- How much a line of the log matters. -/
inductive Level where
  | debug
  | info
  | warn
  | error
  deriving DecidableEq, Repr

/-- The line of the log about a failure that was passed over. -/
def Notice.line : Notice → Text
  | moduleFailed failure path importer =>
    "Could not resolve \"".toList ++ path ++ "\" imported from ".toList ++ importer ++
      ": ".toList ++ failure.message
  | symbolMissing symbol path importer =>
    "\"".toList ++ path ++ "\" does not export ".toList ++ symbol ++
      " (imported from ".toList ++ importer ++ ")".toList

/-- The line of the log about an event, if it is logged. -/
def Event.line? : Event → Option (Level × Text)
  | started => some (.info, "Build started".toList)
  | processing path => some (.debug, "Processing ".toList ++ path)
  | succeeded => some (.info, "Build succeeded".toList)
  | failed message => some (.error, "Build failed: ".toList ++ message)
  | ended => none
  | loading key => some (.debug, "Loading module: ".toList ++ key)
  | found key => some (.debug, "Module cache hit: ".toList ++ key)
  | processed relative exports =>
    some (.debug, "Processed ".toList ++ relative ++ " (".toList ++ Text.ofNat exports ++
      " exports)".toList)
  | passedOver notice => some (.warn, notice.line)
  | copied path => some (.debug, "Copied ".toList ++ path)
  | wrote css script =>
    some (.info, "Wrote ".toList ++ css ++ " and ".toList ++ script)
  | noConfig path =>
    some (.debug, "No config at ".toList ++ path ++ ", using defaults".toList)
  | reported _ => none

end StyleModules
