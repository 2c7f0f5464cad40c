import StyleModules.Options.Basic
import StyleModules.Module.Cache
import StyleModules.Pass.ImportedNames
import StyleModules.Pass.LocalNames
import StyleModules.Pass.ScopedNames
import StyleModules.Pass.NamedValues
import StyleModules.Sheet.Parser
import StyleModules.SourceMap.Mappings

/-!
Loading modules.

A module goes through three stages.
* `prepare`: its text is read and gone over by all passes that look at this text alone.
* Its imports are all requested, in order, and then loaded, in order. A module is loaded once,
  whoever asks for it; a request for a module that is being loaded finds its load.
* `finish`: its sheet is linked to what was imported, and written.

A load that waits for itself, through whatever imports, never finishes. `Session.load` answers it
with `none`, like every load that waits for such a one; all other loads finish.
-/

namespace StyleModules

/-- What all modules of a build share: the directory of the input, in normal form, and the
    options. -/
structure Context where
  root : Text
  options : Options

/-- A module that was loaded. -/
structure LoadedModule where
  module : ModuleRef
  css : Text
  exports : Exports
  deriving DecidableEq, Repr

/-- A module or why there is none. -/
abbrev LoadResult := Except LoadError LoadedModule

namespace Context

/-- The context of a build from a directory. -/
def ofRoot (root : Text) (options : Options) : Context :=
  ⟨Path.normalize root, options⟩

/-- The path of a module relative to the input; a module outside of it keeps its key. -/
def relativePath (ctx : Context) (m : ModuleRef) : Text :=
  let key := Path.toPosix m.key
  let root := Text.trimEndBy (· == '/') ctx.root
  ((root.isPrefixOf? key).bind ("/".toList.isPrefixOf? ·)).getD key

/-- The name of a module in its source map. -/
def sourceName (ctx : Context) (m : ModuleRef) : Text :=
  let relative := ctx.relativePath m
  match ctx.options.sourceMaps.bind SourceMaps.baseDir with
  | some dir => Path.relativeTo relative (Path.normalize dir)
  | none => relative

/-- What passes know about a module. -/
def passContext (ctx : Context) (m : ModuleRef) : PassContext :=
  ⟨m, m.key, ctx.relativePath m⟩

/-! ## 1. One module by itself -/

/-- Run plugins one after the other. -/
def runPlugins (pass : PassContext) :
    List Plugin → Stylesheet → Except PassError Stylesheet × List Event
  | [], sheet => (.ok sheet, [])
  | plugin :: plugins, sheet =>
    match plugin pass sheet with
    | (.error e, events) => (.error e, events)
    | (.ok sheet, events) =>
      let (result, more) := runPlugins pass plugins sheet
      (result, events ++ more)

/-- The built-in passes that look at the text of a module alone. -/
def runPasses (ctx : Context) (m : ModuleRef) (sheet : Stylesheet) :
    Except PassError Stylesheet :=
  (NamedValues.run sheet).bind fun sheet =>
    let generate := fun name rule => ctx.options.scopedName name (ctx.relativePath m) rule m
    ScopedNames.run generate (ImportedNames.run (LocalNames.run sheet))

/-- The sheet of a module as it is read. -/
def readSheet (ctx : Context) (d : Disk) (m : ModuleRef) : Except LoadError Stylesheet :=
  match m.loadPath? with
  | none => .error (.noSuchModule m.key)
  | some path =>
    match d.read path with
    | .error e => .error (.couldNotLoad path e)
    | .ok bytes =>
      match ctx.options.encoding.decode? bytes with
      | none => .error (.notUtf8 path)
      | some input =>
        match Stylesheet.parse input with
        | .error e => .error (.parse m.key input e)
        | .ok sheet => .ok sheet

/-- A failure of a pass over a module, as a failure to load it. -/
def passFailed (m : ModuleRef) (result : Except PassError Stylesheet) :
    Except LoadError Stylesheet :=
  result.mapError (.pass m.key)

/-- The sheet of a module, ready to be linked. -/
def prepare (ctx : Context) (d : Disk) (m : ModuleRef) :
    Except LoadError Stylesheet × List Event :=
  match ctx.readSheet d m with
  | .error e => (.error e, [])
  | .ok sheet =>
    let (result, events) := runPlugins (ctx.passContext m) ctx.options.before sheet
    (passFailed m (result.bind (ctx.runPasses m)), events)

/-- The text of a sheet that goes to the output. -/
def write (ctx : Context) (m : ModuleRef) (sheet : Stylesheet) : Text :=
  match ctx.options.sourceMaps with
  | some _ => sheet.printWithMap (ctx.sourceName m)
  | none => sheet.print

/-- The module of a sheet, each import block given with what its module exports. -/
def finish (ctx : Context) (m : ModuleRef) (sheet : Stylesheet)
    (fetched : List (ImportBlock × Except LoadError Exports)) : LoadResult × List Event :=
  let (linked, notices) := Link.linkFetched ctx.options.tolerance m.key fetched sheet
  let events := notices.map Event.passedOver
  match linked with
  | .error e => (.error e, events)
  | .ok (sheet, exports) =>
    let (result, more) := runPlugins (ctx.passContext m) ctx.options.after sheet
    match passFailed m result with
    | .error e => (.error e, events ++ more)
    | .ok sheet =>
      (.ok ⟨m, ctx.write m sheet, exports⟩,
        events ++ more ++ [.processed (ctx.relativePath m) exports.size])

end Context

/-! ## 2. Requests -/

/-- The files, the loads, what has happened so far, and how many keys more than files can have there
    is room for. -/
structure Session where
  disk : Disk
  cache : Cache ModuleRef LoadResult
  journal : List Event
  room : Nat

/-- What became of a request for exports: they are there, or there is a load to wait for. -/
inductive Handle where
  | ready (exports : Except LoadError Exports)
  | slot (number : Nat)

namespace Session

/-- Files, and nothing done. -/
def ofDisk (d : Disk) : Session :=
  ⟨d, .empty, [], 0⟩

/-- Something happened. -/
def note (s : Session) (events : List Event) : Session :=
  { s with journal := s.journal ++ events }

/-- The load of a module. -/
def request (s : Session) (m : ModuleRef) : Nat × Session :=
  let event := if s.cache.knows m.key then Event.found m.key else .loading m.key
  let (number, cache) := s.cache.request m.key m
  (number, { s with cache }.note [event])

/-- Put a result into a slot. -/
def settle (s : Session) (number : Nat) (result : LoadResult) : Session :=
  { s with cache := s.cache.setSlot number (.finished result) }

/-- Request what an import path of a module refers to. -/
def requestImport (ctx : Context) (importer : ModuleRef) (s : Session) (path : Text) :
    Handle × Session :=
  match locate ctx.options.virtuals ctx.options.resolver path importer with
  | .exports symbols => (.ready (.ok symbols), s)
  | .missing name => (.ready (.error (.noSuchModule name)), s)
  | .module ref =>
    let (number, s) := s.request ref
    (.slot number, s)

/-- Request the imports of several blocks, in order. -/
def requestAll (ctx : Context) (importer : ModuleRef) :
    Session → List ImportBlock → List (ImportBlock × Handle) × Session
  | s, [] => ([], s)
  | s, block :: blocks =>
    let (handle, s) := s.requestImport ctx importer block.path
    let (rest, s) := requestAll ctx importer s blocks
    ((block, handle) :: rest, s)

/-- Wait for all requests, in order; none if one of them never finishes. -/
def awaitAll (load : Nat → Session → Option LoadResult × Session) :
    List (ImportBlock × Handle) → Session →
      Option (List (ImportBlock × Except LoadError Exports)) × Session
  | [], s => (some [], s)
  | (block, .ready exports) :: rest, s =>
    let (fetched, s) := awaitAll load rest s
    (fetched.map ((block, exports) :: ·), s)
  | (block, .slot number) :: rest, s =>
    let (loaded, s) := load number s
    let (fetched, s) := awaitAll load rest s
    (loaded.bind fun r => fetched.map ((block, r.map LoadedModule.exports) :: ·), s)

/-! ## 3. Loads -/

/-- The result of a load, run if nobody did before; none if it never finishes. At most `bound` loads
    wait for each other. -/
def load (ctx : Context) : Nat → Nat → Session → Option LoadResult × Session
  | 0, _, s => (none, s)
  | bound + 1, number, s =>
    match s.cache.slot? number with
    | some (.finished result) => (some result, s)
    | some (.waiting m) =>
      let s := { s with cache := s.cache.setSlot number .running }
      let (prepared, events) := ctx.prepare s.disk m
      let s := s.note events
      match prepared with
      | .error e => (some (.error e), s.settle number (.error e))
      | .ok sheet =>
        let (handles, s) := requestAll ctx m s (Link.importBlocks sheet)
        let (fetched, s) := awaitAll (load ctx bound) handles s
        match fetched with
        | none => (none, s)
        | some fetched =>
          let (result, events) := ctx.finish m sheet fetched
          (some result, (s.note events).settle number result)
    | _ => (none, s)

/-- A bound on the number of loads that can wait for each other. Every one of them has read a file,
    under a key of its own. Import paths that are read from the directory of their module give a
    file no more keys than a path has bytes; another resolver may know it by any number of keys, and
    then the room of the session has to be chosen for them. -/
def bound (s : Session) : Nat :=
  (s.disk.entries.length + 1) * Disk.maxPath + s.room

/-- Load a module. -/
def loadModule (ctx : Context) (s : Session) (m : ModuleRef) : Option LoadResult × Session :=
  let (number, s) := s.request m
  load ctx s.bound number s

end Session

end StyleModules
