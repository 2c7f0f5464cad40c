import StyleModules.Build.Files
import StyleModules.Module.Load

/-!
Building a directory of style sheets.

* `visit` goes through the input, names in order, each directory when its turn comes. A file with
  the extension is a target; any other is copied at once. The output is left out if it lies in the
  input.
* All targets are requested from one cache and then loaded in order, and each is written as soon as
  it is loaded. A target that fails stops no other; the first failure in order is that of the build.
* A build in which some load never finishes never finishes itself, but writes all targets that do
  not wait for it.
-/

namespace StyleModules

/-- What a build did: the style sheets it compiled, the files it copied, the number of modules
    loaded. -/
structure BuildOutput where
  compiled : List Text
  copied : List Text
  modules : Nat
  deriving DecidableEq, Repr

/-- How a build ends, if it does. -/
inductive BuildResult where
  | done (output : BuildOutput)
  | failed (error : BuildError)
  | stalled
  deriving DecidableEq, Repr

/-- A style sheet to compile: its path, and its path relative to the input. -/
structure Target where
  path : Text
  relative : Text
  deriving DecidableEq, Repr

namespace Build

/-- What is built and where to. The paths are absolute and in normal form. -/
structure Plan where
  input : Text
  output : Text
  options : Options

/-! ## 1. Going through the input -/

/-- What was found in the input so far. -/
structure Found where
  targets : List Target
  copied : List Text
  session : Session

/-- Steps through the input. A step that fails leaves what was done before it failed. -/
abbrev Visit := EStateM BuildError Found

/-- Change the files. -/
def onFiles (step : FileStep Unit) : Visit Unit := fun f =>
  match step f.session.disk with
  | .ok () disk => .ok () { f with session := { f.session with disk } }
  | .error e disk => .error e { f with session := { f.session with disk } }

/-- Add a style sheet to compile. -/
def addTarget (t : Target) : Visit Unit :=
  modify fun f => { f with targets := f.targets ++ [t] }

/-- Copy a file to its place in the output. -/
def copyOver (plan : Plan) (path relative : Text) : Visit Unit := do
  let target := Path.join plan.output relative
  onFiles (copyFile path target)
  modify fun f =>
    { f with copied := f.copied ++ [relative], session := f.session.note [.copied target] }

/-- Visit a file, `names` being its way from the input. -/
def visitFile (plan : Plan) (names : List Text) : Visit Unit :=
  let way := Text.join ['/'] names
  let path := if names = [] then plan.input else Path.join plan.input way
  let relative := Path.toPosix way
  if isTarget relative plan.options.extension then addTarget ⟨Path.normalize path, relative⟩
  else copyOver plan path relative

/-- Visit what stands at a place and all below it, `names` being the way from the input. -/
def visit (plan : Plan) : Nat → List Text → Visit Unit
  | 0, _ => return
  | bound + 1, names => do
    let place := Path.segments plan.input ++ names
    if place = Path.segments plan.output then return
    let disk := (← get).session.disk
    match disk.get? place with
    | none => return
    | some (.file _) => visitFile plan names
    | some .dir => (disk.names place).forM fun name => visit plan bound (names ++ [name])

/-- More names than the way to any place has, now and at any time of the visit: a copy may open
    new ways below the input, but none by a path that is too long. -/
def visitBound (d : Disk) : Nat :=
  max d.depth Disk.maxPath + 1

/-- Prepare the output and go through the input. -/
def findFiles (plan : Plan) : Visit Unit := do
  onFiles (createDir plan.output)
  let disk := (← get).session.disk
  match disk.locate plan.input with
  | .error e => throw (.walk plan.input e)
  | .ok _ => visit plan (visitBound disk) []

/-! ## 2. Compiling -/

/-- What is written for the style sheet of a target. -/
def cssText (options : Options) (m : LoadedModule) (relative : Text) : Text :=
  match options.cssFormat, options.sourceMaps with
  | some format, _ => format m.css relative
  | none, some _ => m.css
  | none, none => Output.banner m.css relative

/-- Where the script of a target goes, relative to the output. -/
def scriptPath (options : Options) (relative : Text) : Text :=
  match options.scriptPath with
  | some namer => namer relative
  | none => Output.scriptPath relative options.extension

/-- Write what was made of a target. -/
def writeOutputs (plan : Plan) (m : LoadedModule) (relative : Text) (s : Session) :
    Except BuildError Unit × Session :=
  let options := plan.options
  let css := Path.join plan.output relative
  let script := Path.join plan.output (scriptPath options relative)
  let step : FileStep Unit := do
    writeFile options.encoding css (cssText options m relative)
    writeFile options.encoding script (options.scriptFormat m.exports relative)
  match step s.disk with
  | .ok () disk => (.ok (), { s with disk }.note [.wrote css script])
  | .error e disk => (.error e, { s with disk })

/-- Request the targets, in order. -/
def requestTargets : List Target → Session → List (Target × Nat) × Session
  | [], s => ([], s)
  | t :: ts, s =>
    let (number, s) := (s.note [.processing t.path]).request (.ofPath t.path)
    let (rest, s) := requestTargets ts s
    ((t, number) :: rest, s)

/-- Load and write the targets, in order. The result of a target that never finishes is none. -/
def compile (plan : Plan) (ctx : Context) :
    List (Target × Nat) → Session → List (Option (Except BuildError Unit)) × Session
  | [], s => ([], s)
  | (t, number) :: rest, s =>
    let (loaded, s) := s.load ctx s.bound number
    let (result, s) := match loaded with
      | none => (none, s)
      | some (.error e) => (some (.error (.load e)), s)
      | some (.ok m) =>
        let (written, s) := writeOutputs plan m t.relative s
        (some written, s)
    let (results, s) := compile plan ctx rest s
    (result :: results, s)

/-- The result of a build from those of its targets: the first failure, unless one of them never
    finishes. -/
def conclude (output : BuildOutput) (results : List (Option (Except BuildError Unit))) :
    BuildResult :=
  match results.mapM id with
  | none => .stalled
  | some results =>
    match results.forM id with
    | .error e => .failed e
    | .ok () => .done output

/-- Build, without word of how it began and ended. -/
def buildFiles (plan : Plan) (s : Session) : BuildResult × Session :=
  match findFiles plan ⟨[], [], s⟩ with
  | .error e f => (.failed e, f.session)
  | .ok () f =>
    let ctx := Context.ofRoot plan.input plan.options
    let (requests, s) := requestTargets f.targets { f.session with cache := .empty }
    let (results, s) := compile plan ctx requests s
    (conclude ⟨f.targets.map Target.relative, f.copied, s.cache.started⟩ results, s)

end Build

/-- Build a directory into another, both read from the working directory. -/
def build (input output : Text) (options : Options) (s : Session) : BuildResult × Session :=
  let plan : Build.Plan := ⟨Build.absolute s.disk input, Build.absolute s.disk output, options⟩
  match Build.buildFiles plan (s.note [.started]) with
  | (.done output, s) => (.done output, s.note [.succeeded, .ended])
  | (.failed e, s) => (.failed e, s.note [.failed e.message, .ended])
  | (.stalled, s) => (.stalled, s)

end StyleModules
