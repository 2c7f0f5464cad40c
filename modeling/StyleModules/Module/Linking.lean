import StyleModules.Module.Link

/-!
Linking while it goes on.

`Link.linkFetched` says what becomes of a sheet. Here the same is done to a sheet at hand, step by
step, and others see it happen.

* The exports for all import blocks are requested, in order, before any answer is looked at.
* The blocks are bound, in order. A failure that is passed over is reported at once, one that is not
  ends it.
* Then the sheet is edited: without its import blocks, with its aliases replaced, and, when its
  exports have been read, without its export blocks.
-/

namespace StyleModules

/-- What others see of linking: a request for the exports at a path, or a report. -/
inductive LinkEvent where
  | requested (path : Text)
  | reported (notice : Notice)
  deriving DecidableEq, Repr

/-- Linking at one moment: the sheet as it is, and what others have seen so far. -/
structure Linking where
  sheet : Stylesheet
  events : List LinkEvent

namespace Linking

/-- Steps that may fail; what was done before stays done. -/
abbrev Action := EStateM LoadError Linking

/-- Linking with more that others have seen. -/
def after (w : Linking) (events : List LinkEvent) : Linking :=
  { w with events := w.events ++ events }

/-- Let others see something. -/
def tell (events : List LinkEvent) : Action Unit :=
  modify (·.after events)

/-- Edit the sheet. -/
def edit (f : Stylesheet → Stylesheet) : Action Unit :=
  modify fun w => { w with sheet := f w.sheet }

/-- Request the exports for blocks, in order. An answer may depend on the number of its request as
    well as on the path. -/
def requestAll (fetch : Nat → Text → Except LoadError Exports) :
    Nat → List ImportBlock → Action (List (ImportBlock × Except LoadError Exports))
  | _, [] => return []
  | number, block :: blocks => do
    tell [.requested block.path]
    return (block, fetch number block.path) :: (← requestAll fetch (number + 1) blocks)

/-- Bind the aliases of blocks, in order, each block given with the answer to its request. -/
def bindAll (tolerance : Tolerance) (importer : Text) :
    List (ImportBlock × Except LoadError Exports) → Table Text → Action (Table Text)
  | [], t => return t
  | (block, .error failure) :: rest, t =>
    if tolerance.modules then do
      tell [.reported (.moduleFailed failure block.path importer)]
      bindAll tolerance importer rest t
    else throw failure
  | (block, .ok exports) :: rest, t => do
    let bound := Link.bindBlock tolerance importer block.path exports block.bindings t
    tell (bound.2.map .reported)
    bindAll tolerance importer rest bound.1

/-- Edit the sheet by the table of its aliases, and return its exports. -/
def translate (t : Table Text) : Action Exports := do
  edit (·.retain fun n => !Interface.isImportBlock n)
  edit (·.replaceSymbols .all t.get?)
  let exports := Link.exportsOf (← get).sheet
  edit (·.retain fun n => !Interface.isExportBlock n)
  return exports

/-- Link the sheet at hand, and return its exports. -/
def link (tolerance : Tolerance) (importer : Text)
    (fetch : Nat → Text → Except LoadError Exports) : Action Exports := do
  let fetched ← requestAll fetch 0 (Link.importBlocks (← get).sheet)
  let t ← bindAll tolerance importer fetched .empty
  translate t

end Linking

end StyleModules
