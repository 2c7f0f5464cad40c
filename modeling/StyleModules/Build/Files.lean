import StyleModules.Build.Error
import StyleModules.Options.Basic

/-!
What a build does to files.
-/

namespace StyleModules.Build

/-- Changes of the files in a build. A change that fails leaves what it did before it failed. -/
abbrev FileStep := EStateM BuildError Disk

/-- A change in a build, its failure reported as one of the build. -/
def fileStep (failure : IoError → BuildError) (action : Disk.Action Unit) : FileStep Unit :=
  fun d =>
    match action d with
    | .ok () d => .ok () d
    | .error e d => .error (failure e) d

/-- The normal form of a path, read from the working directory. -/
def absolute (d : Disk) (path : Text) : Text :=
  if Path.isAbsolute path then Path.normalize path
  else Path.normalize (Path.join (Path.ofSegments true d.cwd) path)

/-- Make sure that a directory of the output is there. A file in its place is no failure yet. -/
def createDir (dir : Text) : FileStep Unit := fun d =>
  match Disk.ensureDir dir d with
  | .ok () d => .ok () d
  | .error .alreadyExists d => .ok () d
  | .error e d => .error (.io (.creating dir) e) d

/-- Make sure that the directory of a path is there. -/
def createParent (path : Text) : FileStep Unit :=
  match Path.parent? path with
  | some dir => createDir dir
  | none => return

/-- Copy a file into the output. -/
def copyFile (source target : Text) : FileStep Unit := do
  createParent target
  fileStep (.io (.copying source target)) (Disk.copy source target)

/-- Write a file of the output. -/
def writeFile (encoding : Encoding) (path contents : Text) : FileStep Unit := do
  createParent path
  fileStep (.io (.writing path)) (Disk.write path (encoding.encode contents))

/-- Whether a file is compiled. -/
def isTarget (relative extension : Text) : Bool :=
  (Output.stripExtension? relative extension).isSome

end StyleModules.Build
