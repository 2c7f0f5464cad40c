import StyleModules.Module.Load
import StyleModules.Proofs.ImportCycles
import StyleModules.Proofs.NormalPath

/-!
The graph of imports between modules, and how deep it can be.

* `Context.imports` are the modules that a module asks for when it is linked. A module that cannot
  be prepared asks for none, and virtual modules are not asked for.
* `Reaches` and `Needs` are its paths, with and without the empty one. In a graph without cycles no
  module needs one with its own key (`AcyclicFrom`).
* `Within n m`: no path from `m` has `n` imports. A path without cycles that is longer than the
  disk has files would have to read some file twice under one key, so without cycles every module
  is within `Session.bound` (`within_bound`).
-/

namespace StyleModules

/-- Imports are read from the directory of the importing module, local names get their default, and
    there are no plugins. -/
structure Context.Standard (ctx : Context) : Prop where
  resolver : ctx.options.resolver = .relative
  scopedName : ctx.options.scopedName = Options.default.scopedName
  before : ctx.options.before = []
  after : ctx.options.after = []

namespace Context

/-! ## 1. The graph -/

/-- The module that an import path leads to, unless it is a virtual one. -/
def imported? (ctx : Context) (importer : ModuleRef) (path : Text) : Option ModuleRef :=
  match locate ctx.options.virtuals ctx.options.resolver path importer with
  | .module ref => some ref
  | .exports _ => none
  | .missing _ => none

/-- The modules that a module asks for. -/
def imports (ctx : Context) (d : Disk) (m : ModuleRef) : List ModuleRef :=
  match (ctx.prepare d m).1 with
  | .error _ => []
  | .ok sheet => (Link.importBlocks sheet).filterMap fun b => ctx.imported? m b.path

/-- One module asks for another. -/
def Imports (ctx : Context) (d : Disk) (m other : ModuleRef) : Prop :=
  other ∈ ctx.imports d m

/-- There is a way of imports from one module to another, which may be empty. -/
def Reaches (ctx : Context) (d : Disk) : ModuleRef → ModuleRef → Prop :=
  Relation.ReflTransGen (ctx.Imports d)

/-- There is a way of imports from one module to another that is not empty. -/
def Needs (ctx : Context) (d : Disk) : ModuleRef → ModuleRef → Prop :=
  Relation.TransGen (ctx.Imports d)

/-- Nothing that a module reaches needs itself. -/
def AcyclicFrom (ctx : Context) (d : Disk) (m : ModuleRef) : Prop :=
  ∀ a, ctx.Reaches d m a → ∀ b, ctx.Needs d a b → b.key ≠ a.key

variable {ctx : Context} {d : Disk}

theorem AcyclicFrom.of_reaches {m a : ModuleRef} (h : ctx.AcyclicFrom d m)
    (hr : ctx.Reaches d m a) : ctx.AcyclicFrom d a :=
  fun b hb => h b (hr.trans hb)

/-- What a module reaches is in every set that holds the module and is closed under imports. -/
theorem Reaches.of_closed {V : ModuleRef → Prop}
    (hclosed : ∀ a, V a → ∀ b, ctx.Imports d a b → V b) {m a : ModuleRef}
    (h : ctx.Reaches d m a) (hm : V m) : V a := by
  induction h with
  | refl => exact hm
  | tail _ hi ih => exact hclosed _ ih _ hi

/-- A number that every import makes smaller shows that there are no cycles. -/
theorem not_needs_of_rank {V : ModuleRef → Prop} (rank : ModuleRef → Nat)
    (h : ∀ a, V a → ∀ b, ctx.Imports d a b → V b ∧ rank b < rank a) {m : ModuleRef} (hm : V m) :
    ¬ctx.Needs d m m := by
  have hall : ∀ b, ctx.Needs d m b → V b ∧ rank b < rank m := by
    intro b hb
    induction hb with
    | single hi => exact h _ hm _ hi
    | tail _ hi ih =>
      obtain ⟨hv, hlt⟩ := h _ ih.1 _ hi
      exact ⟨hv, Nat.lt_trans hlt ih.2⟩
  exact fun hn => Nat.lt_irrefl _ (hall m hn).2

/-- What a sheet's import block leads to is asked for. -/
theorem imports_of_block {m ref : ModuleRef} {sheet : Stylesheet} {block : ImportBlock}
    (hp : (ctx.prepare d m).1 = .ok sheet) (hb : block ∈ Link.importBlocks sheet)
    (hl : locate ctx.options.virtuals ctx.options.resolver block.path m = .module ref) :
    ctx.Imports d m ref := by
  unfold Imports imports
  rw [hp]
  refine List.mem_filterMap.mpr ⟨block, hb, ?_⟩
  rw [imported?, hl]

/-- A module that an import path leads to is a file with a normal path. -/
theorem isFile_of_locate (hresolver : ctx.options.resolver = .relative) {m ref : ModuleRef}
    {path : Text} (hl : locate ctx.options.virtuals ctx.options.resolver path m = .module ref) :
    ∃ path, ref = .file path ∧ Path.IsNormal path ∧ Path.normalize path = path := by
  rw [hresolver] at hl
  unfold locate at hl
  simp only at hl
  split at hl
  · cases hl
  · simp only [Resolver.relative, ModuleRef.ofPath, Located.module.injEq] at hl
    exact ⟨_, hl.symm, Path.isNormal_normalize _, Path.normalize_normalize _⟩

theorem isFile_of_imported? (hresolver : ctx.options.resolver = .relative) {m ref : ModuleRef}
    {path : Text} (h : ctx.imported? m path = some ref) :
    ∃ path, ref = .file path ∧ Path.IsNormal path ∧ Path.normalize path = path := by
  unfold imported? at h
  split at h
  · next hl =>
    cases h
    exact isFile_of_locate hresolver hl
  · cases h
  · cases h

theorem Imports.isFile (hresolver : ctx.options.resolver = .relative) {m other : ModuleRef}
    (h : ctx.Imports d m other) :
    ∃ path, other = .file path ∧ Path.IsNormal path ∧ Path.normalize path = path := by
  unfold Imports imports at h
  split at h
  · cases h
  · obtain ⟨block, _, hb⟩ := List.mem_filterMap.mp h
    exact isFile_of_imported? hresolver hb

/-- A file that was prepared can be read. -/
theorem readable_of_prepare {path : Text} {sheet : Stylesheet}
    (h : (ctx.prepare d (.file path)).1 = .ok sheet) : ∃ bytes, d.read path = .ok bytes := by
  cases hr : d.read path with
  | ok bytes => exact ⟨bytes, rfl⟩
  | error e =>
    have hsheet : ctx.readSheet d (.file path) = .error (.couldNotLoad path e) := by
      simp only [readSheet, ModuleRef.loadPath?, hr]
    unfold prepare at h
    rw [hsheet] at h
    cases h

/-- A file that asks for a module can be read. -/
theorem Imports.readable {path : Text} {other : ModuleRef}
    (h : ctx.Imports d (.file path) other) : ∃ bytes, d.read path = .ok bytes := by
  unfold Imports imports at h
  cases hp : (ctx.prepare d (.file path)).1 with
  | ok sheet => exact readable_of_prepare hp
  | error e =>
    rw [hp] at h
    cases h

/-- A sheet that was read by one reference is read by every other with the same path. -/
theorem readSheet_of_loadPath {a b : ModuleRef} {sheet : Stylesheet}
    (hpath : a.loadPath? = b.loadPath?) (h : ctx.readSheet d b = .ok sheet) :
    ctx.readSheet d a = .ok sheet := by
  unfold readSheet at h ⊢
  rw [hpath]
  cases hb : b.loadPath? with
  | none =>
    simp only [hb] at h
    cases h
  | some path =>
    simp only [hb] at h ⊢
    cases hread : d.read path with
    | error e =>
      simp only [hread] at h
      cases h
    | ok bytes =>
      simp only [hread] at h ⊢
      cases hdecode : ctx.options.encoding.decode? bytes with
      | none =>
        simp only [hdecode] at h
        cases h
      | some input =>
        simp only [hdecode] at h ⊢
        cases hparse : Stylesheet.parse input with
        | error e =>
          simp only [hparse] at h
          cases h
        | ok sheet' =>
          simp only [hparse] at h ⊢
          exact h

/-! ## 2. Depth -/

/-- Every way from a module has fewer imports than a number. -/
def Within (ctx : Context) (d : Disk) : Nat → ModuleRef → Prop
  | 0, _ => False
  | n + 1, m => ∀ other, ctx.Imports d m other → ctx.Within d n other

/-- A module that is not within a number has a way of so many imports. -/
theorem walks_of_not_within : ∀ {n : Nat} {m : ModuleRef}, ¬ctx.Within d n m →
    Walks (ctx.imports d) n m
  | 0, _, _ => trivial
  | n + 1, m, h => by
    unfold Within at h
    push Not at h
    obtain ⟨other, hi, hw⟩ := h
    exact ⟨other, hi, walks_of_not_within hw⟩

/-- All modules on a way of imports but its ends are files that can be read, with normal paths. -/
theorem inner_of_chain (hctx : ctx.Standard) {m : ModuleRef} {cs : List ModuleRef}
    (hc : (m :: cs).IsChain (ctx.Imports d)) :
    ∀ path ∈ cs.dropLast.map ModuleRef.key,
      Path.IsNormal path ∧ ∃ bytes, d.read path = .ok bytes := by
  induction cs generalizing m with
  | nil => simp
  | cons c cs ih =>
    obtain ⟨hi, hrest⟩ := List.isChain_cons_cons.mp hc
    cases cs with
    | nil => simp
    | cons c' cs =>
      obtain ⟨path, rfl, hn, _⟩ := hi.isFile hctx.resolver
      intro p hp
      rw [List.dropLast_cons_cons, List.map_cons] at hp
      rcases List.mem_cons.mp hp with rfl | hp
      · exact ⟨hn, (List.isChain_cons_cons.mp hrest).1.readable⟩
      · exact ih hrest p hp

/-- **Without cycles, no way of imports is as long as the bound on the loads that wait for each
    other.** -/
theorem within_bound (hctx : ctx.Standard) {s : Session} {m : ModuleRef}
    (ha : ctx.AcyclicFrom s.disk m) : ctx.Within s.disk s.bound m := by
  refine Classical.byContradiction fun hn => ?_
  obtain ⟨cs, hlen, hchain⟩ := (walks_of_not_within hn).exists_chain
  have hnodup : (cs.dropLast.map ModuleRef.key).Nodup := by
    have hall := (List.nodup_cons.mp (nodup_map_of_isChain ha hchain)).2
    exact hall.sublist (cs.dropLast_sublist.map _)
  have hle := Disk.length_le_of_readable hnodup (inner_of_chain hctx hchain)
  rw [List.length_map, List.length_dropLast, hlen, Session.bound, Nat.add_mul] at hle
  have : 1 < Disk.maxPath := by decide
  omega

end Context

end StyleModules
