import StyleModules.Proofs.ImportGraph

/-!
Loading by plain recursion: nothing is kept, and every import is processed from its text again.

* `Context.process` follows imports to a given depth and has no result if that was not enough. More
  depth changes no result (`process_of_le`), so there is at most one (`process_unique`).
* `LoadResult.outcome` is what an importer and the output can see of a result: text and exports, or
  the failure.
* References with the same key and the same path to read from have the same imports and the same
  outcome (`imports_same`, `process_same`).
-/

namespace StyleModules

/-- The text and the exports of a loaded module, or why there is none. -/
def LoadResult.outcome (result : LoadResult) : Except LoadError (Text × Exports) :=
  result.map fun loaded => (loaded.css, loaded.exports)

/-- An importer sees the exports, and these the outcome shows. -/
theorem LoadResult.exports_of_outcome {r r' : LoadResult} (h : outcome r = outcome r') :
    r.map LoadedModule.exports = r'.map LoadedModule.exports := by
  cases r with
  | error e =>
    cases r' with
    | error e' =>
      cases h
      rfl
    | ok l' => cases h
  | ok l =>
    cases r' with
    | error e' => cases h
    | ok l' =>
      have hpair : (l.css, l.exports) = (l'.css, l'.exports) := Except.ok.inj h
      exact congrArg Except.ok (Prod.mk.inj hpair).2

namespace Context

/-! ## 1. Plain recursion -/

/-- The exports that an import path leads to, modules being processed by the given function. -/
def fetch (ctx : Context) (process : ModuleRef → Option LoadResult) (importer : ModuleRef)
    (path : Text) : Option (Except LoadError Exports) :=
  match locate ctx.options.virtuals ctx.options.resolver path importer with
  | .exports symbols => some (.ok symbols)
  | .missing name => some (.error (.noSuchModule name))
  | .module ref => (process ref).map fun result => result.map LoadedModule.exports

/-- The exports for several import blocks. -/
def fetchAll (ctx : Context) (process : ModuleRef → Option LoadResult) (importer : ModuleRef) :
    List ImportBlock → Option (List (ImportBlock × Except LoadError Exports))
  | [] => some []
  | block :: blocks =>
    (ctx.fetch process importer block.path).bind fun exports =>
      (fetchAll ctx process importer blocks).map ((block, exports) :: ·)

/-- Process a module and, from their texts again, all modules that it imports, to a depth. -/
def process (ctx : Context) (d : Disk) : Nat → ModuleRef → Option LoadResult
  | 0, _ => none
  | depth + 1, m =>
    match (ctx.prepare d m).1 with
    | .error e => some (.error e)
    | .ok sheet =>
      (ctx.fetchAll (process ctx d depth) m (Link.importBlocks sheet)).map fun fetched =>
        (ctx.finish m sheet fetched).1

variable {ctx : Context} {d : Disk}

/-- A module whose preparation fails has no imports to follow. -/
theorem process_of_error {m : ModuleRef} {e : LoadError} (h : (ctx.prepare d m).1 = .error e)
    (depth : Nat) : ctx.process d (depth + 1) m = some (.error e) := by
  rw [process, h]

theorem process_of_ok {m : ModuleRef} {sheet : Stylesheet} (h : (ctx.prepare d m).1 = .ok sheet)
    (depth : Nat) : ctx.process d (depth + 1) m =
      (ctx.fetchAll (ctx.process d depth) m (Link.importBlocks sheet)).map fun fetched =>
        (ctx.finish m sheet fetched).1 := by
  rw [process, h]

/-! ## 2. Depth does not matter -/

/-- Where one function has every result of another, it fetches the same. -/
theorem fetch_mono {f g : ModuleRef → Option LoadResult}
    (hfg : ∀ m r, f m = some r → g m = some r) {importer : ModuleRef} {path : Text}
    {e : Except LoadError Exports} (h : ctx.fetch f importer path = some e) :
    ctx.fetch g importer path = some e := by
  unfold fetch at h ⊢
  split at h
  · exact h
  · exact h
  · obtain ⟨r, hr, he⟩ := Option.map_eq_some_iff.mp h
    rw [hfg _ r hr, Option.map_some, he]

theorem fetchAll_mono {f g : ModuleRef → Option LoadResult}
    (hfg : ∀ m r, f m = some r → g m = some r) {importer : ModuleRef} {blocks : List ImportBlock}
    {fetched : List (ImportBlock × Except LoadError Exports)}
    (h : ctx.fetchAll f importer blocks = some fetched) :
    ctx.fetchAll g importer blocks = some fetched := by
  induction blocks generalizing fetched with
  | nil => exact h
  | cons block blocks ih =>
    rw [fetchAll] at h ⊢
    obtain ⟨e, he, hrest⟩ := Option.bind_eq_some_iff.mp h
    obtain ⟨rest, hr, hcons⟩ := Option.map_eq_some_iff.mp hrest
    rw [fetch_mono hfg he, ih hr, Option.bind_some, Option.map_some, hcons]

/-- One more level of depth changes no result. -/
theorem process_succ {depth : Nat} {m : ModuleRef} {r : LoadResult}
    (h : ctx.process d depth m = some r) : ctx.process d (depth + 1) m = some r := by
  induction depth generalizing m r with
  | zero => cases h
  | succ depth ih =>
    cases hp : (ctx.prepare d m).1 with
    | error e => rw [process_of_error hp] at h ⊢; exact h
    | ok sheet =>
      rw [process_of_ok hp] at h ⊢
      obtain ⟨fetched, hf, hr⟩ := Option.map_eq_some_iff.mp h
      rw [fetchAll_mono (fun _ _ => ih) hf, Option.map_some, hr]

/-- More depth changes no result. -/
theorem process_of_le {depth more : Nat} (hle : depth ≤ more) {m : ModuleRef} {r : LoadResult}
    (h : ctx.process d depth m = some r) : ctx.process d more m = some r := by
  induction hle with
  | refl => exact h
  | step _ ih => exact process_succ ih

/-- A module has at most one result. -/
theorem process_unique {depth depth' : Nat} {m : ModuleRef} {r r' : LoadResult}
    (h : ctx.process d depth m = some r) (h' : ctx.process d depth' m = some r') : r = r' := by
  have hmax := process_of_le (Nat.le_max_left depth depth') h
  have hmax' := process_of_le (Nat.le_max_right depth depth') h'
  exact Option.some.inj (hmax.symm.trans hmax')

end Context

/-! ## 3. References to the same module -/

/-- Two references are known by the same key and read from the same path. -/
def ModuleRef.Same (a b : ModuleRef) : Prop :=
  a.key = b.key ∧ a.loadPath? = b.loadPath?

namespace Context

variable {ctx : Context} {d : Disk}

theorem locate_same (hctx : ctx.Standard) {a b : ModuleRef} (h : a.Same b) (path : Text) :
    locate ctx.options.virtuals ctx.options.resolver path a =
      locate ctx.options.virtuals ctx.options.resolver path b := by
  unfold locate
  rw [hctx.resolver]
  simp only [Resolver.relative, h.2]

theorem relativePath_same {a b : ModuleRef} (h : a.Same b) :
    ctx.relativePath a = ctx.relativePath b := by
  unfold relativePath
  rw [h.1]

theorem prepare_same (hctx : ctx.Standard) {a b : ModuleRef} (h : a.Same b) :
    ctx.prepare d a = ctx.prepare d b := by
  have hread : ctx.readSheet d a = ctx.readSheet d b := by
    unfold readSheet
    rw [h.1, h.2]
  have hpasses : ctx.runPasses a = ctx.runPasses b := by
    funext sheet
    unfold runPasses
    rw [hctx.scopedName, relativePath_same h]
    rfl
  unfold prepare passFailed
  rw [hread, hctx.before, hpasses, h.1]
  rfl

/-- Modules that are read alike ask for the same modules. -/
theorem imports_same (hctx : ctx.Standard) {a b : ModuleRef} (h : a.Same b) :
    ctx.imports d a = ctx.imports d b := by
  unfold imports imported?
  rw [prepare_same hctx h]
  simp only [locate_same hctx h]

theorem fetchAll_same (hctx : ctx.Standard) {a b : ModuleRef} (h : a.Same b)
    (f : ModuleRef → Option LoadResult) (blocks : List ImportBlock) :
    ctx.fetchAll f a blocks = ctx.fetchAll f b blocks := by
  induction blocks with
  | nil => rfl
  | cons block blocks ih =>
    have hone : ctx.fetch f a block.path = ctx.fetch f b block.path := by
      unfold fetch
      rw [locate_same hctx h]
    rw [fetchAll, fetchAll, hone, ih]

theorem write_same {a b : ModuleRef} (h : a.Same b) (sheet : Stylesheet) :
    ctx.write a sheet = ctx.write b sheet := by
  unfold write sourceName
  rw [relativePath_same h]

/-- Of the reference to a module, its outcome shows nothing but key and path. -/
theorem finish_same (hctx : ctx.Standard) {a b : ModuleRef} (h : a.Same b) (sheet : Stylesheet)
    (fetched : List (ImportBlock × Except LoadError Exports)) :
    LoadResult.outcome (ctx.finish a sheet fetched).1 =
      LoadResult.outcome (ctx.finish b sheet fetched).1 := by
  unfold finish
  rw [hctx.after, h.1]
  simp only
  split
  · rfl
  · next linked exports _ =>
    show LoadResult.outcome (Except.ok ⟨a, ctx.write a linked, _⟩) =
      LoadResult.outcome (Except.ok ⟨b, ctx.write b linked, _⟩)
    rw [write_same h]
    rfl

/-- Modules that are read alike have the same outcome. -/
theorem process_same (hctx : ctx.Standard) {a b : ModuleRef} (h : a.Same b) (depth : Nat) :
    (ctx.process d depth a).map LoadResult.outcome =
      (ctx.process d depth b).map LoadResult.outcome := by
  cases depth with
  | zero => rfl
  | succ depth =>
    have hprepare : (ctx.prepare d a).1 = (ctx.prepare d b).1 := by rw [prepare_same hctx h]
    cases hp : (ctx.prepare d b).1 with
    | error e => rw [process_of_error hp, process_of_error (hprepare.trans hp)]
    | ok sheet =>
      rw [process_of_ok hp, process_of_ok (hprepare.trans hp), fetchAll_same hctx h,
        Option.map_map, Option.map_map]
      congr 1
      funext fetched
      exact finish_same hctx h sheet fetched

end Context

end StyleModules
