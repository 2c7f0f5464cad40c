import StyleModules.CommandLine

/-!
The program on real files: what it may look at is read first, the command line runs on that, and
what it changed is written. Modules outside of the directories that were named are read when a run
has asked for them; then it runs again.
-/

namespace StyleModules.Main

/-- The path of a place. -/
def pathOf (place : Place) : String :=
  String.ofList (Path.ofSegments true place)

/-- What stands at a place, if it can be read. -/
def entryAt? (place : Place) : IO (Option Entry) := do
  try
    if ← (System.mkFilePath [pathOf place]).isDir then return some .dir
    else return some (.file (← IO.FS.readBinFile (pathOf place)).toList)
  catch _ => return none

/-- What stands at a place and below it. -/
partial def entriesBelow (place : Place) : IO (List (Place × Entry)) := do
  match ← entryAt? place with
  | none => return []
  | some (.file bytes) => return [(place, .file bytes)]
  | some .dir =>
    let names := (← (System.mkFilePath [pathOf place]).readDir).toList.map (·.fileName.toList)
    return (place, .dir) :: (← names.mapM fun name => entriesBelow (place ++ [name])).flatten

/-- What stands at the places on the way to a place. -/
def entriesAround (place : Place) : IO (List (Place × Entry)) := do
  let ways := (List.range place.length).drop 1 |>.map fun n => place.take n
  ways.filterMapM fun way => do return (← entryAt? way).map fun e => (way, e)

/-- Look at a path. -/
def look (d : Disk) (path : Text) : IO Disk := do
  let place := Path.segments (Build.absolute d path)
  let entries := (← entriesAround place) ++ (← entriesBelow place)
  return entries.foldl (fun d e => if (d.get? e.1).isSome then d else d.put e.1 e.2) d

/-- The paths that a command line names. -/
def namedPaths (args : List Text) : List Text :=
  match CommandLine.Arguments.ofList args with
  | .ok a => [a.input, a.output, a.configPath]
  | .error _ => []

/-- The modules that a run has asked for. -/
def askedFor (s : Session) : List Text :=
  s.journal.filterMap fun
    | .loading key => some key
    | _ => none

/-- Run until nothing more has to be looked at. Also returns the files as they were. -/
partial def settle (args : List Text) (looked : List Text) (d : Disk) :
    IO (Disk × CommandLine.Outcome × Session) := do
  let (outcome, s) := CommandLine.run args d
  match (askedFor s).filter fun path => !looked.contains path with
  | [] => return (d, outcome, s)
  | paths => settle args (looked ++ paths) (← paths.foldlM look d)

/-- Write what has changed. -/
def writeBack (old new : Disk) : IO Unit :=
  new.entries.forM fun (place, e) => do
    if old.get? place ≠ some e then
      match e with
      | .dir => IO.FS.createDirAll (pathOf place)
      | .file bytes => IO.FS.writeBinFile (pathOf place) ⟨bytes.toArray⟩

end StyleModules.Main

open StyleModules in
/-- Build what the command line asks for. -/
def main (args : List String) : IO UInt32 := do
  let args := args.map String.toList
  let cwd := Path.segments (← IO.currentDir).toString.toList
  let d ← (Main.namedPaths args).foldlM Main.look ⟨cwd, []⟩
  let (old, outcome, s) ← Main.settle args [] d
  Main.writeBack old s.disk
  IO.eprintln (String.ofList outcome.message)
  return outcome.exitCode.toUInt32
