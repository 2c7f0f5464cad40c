import StyleModules.Proofs.LinkedExports
import StyleModules.Proofs.MemoLoading

/-!
What a module exports for its classes.

`Session.exports_composed`: the exported value of a class, cut at its blanks, is the `composedList`
of the class. A name composed from the same sheet adds its list so far, a global name itself, and a
name from another module the whole list that this module exports for it.
-/

namespace StyleModules

/-! ## 1. Scoped names -/

/-- The default name of a name is a name, and nobody takes it for an alias. -/
theorem QualifiedName.isFree_generate {name : Text} (h : Selector.isName name) (path : Text) :
    Composed.isFree (generate name path) := by
  have hword : ∀ w ∈ pathWords path, ∀ c ∈ w, Text.isIdentChar c := by
    intro w hw c hc
    have hpiece := Text.of_mem_splitBy (List.mem_of_mem_filter hw) c hc
    simp only [Bool.not_eq_false'] at hpiece
    simp [Text.isIdentChar, hpiece]
  have hunderscores : ∀ c ∈ "__".toList, Text.isIdentChar c := List.all_eq_true.mp rfl
  have hchars : ∀ c ∈ generate name path, Text.isIdentChar c := by
    intro c hc
    rcases List.mem_cons.mp hc with rfl | hc
    · rfl
    · rcases List.mem_append.mp hc with hc | hc
      · rcases List.mem_append.mp hc with hc | hc
        · rcases Text.of_mem_join hc with hc | ⟨w, hw, hc⟩
          · rw [List.mem_singleton.mp hc]
            rfl
          · exact hword w hw c hc
        · exact hunderscores c hc
      · exact (Selector.isName_iff.mp h).2 c hc
  have hname : Selector.isName (generate name path) :=
    Selector.isName_iff.mpr ⟨List.cons_ne_nil _ _, hchars⟩
  rw [Composed.isFree, hname]
  rfl

/-! ## 2. Linking a prepared sheet -/

namespace Stylesheet.Prepared

variable {Q : Composed → Prop} {generate : Text → Text} {sheet full : Stylesheet}
  {s : ImportedNames} {exports : Table (List Text)} {value : Text → Text → Text}

/-- The table of aliases with their values. -/
def bindings (s : ImportedNames) (value : Text → Text → Text) : Table Text :=
  Table.insertAll .empty (s.imports.flatMap fun i => i.2.map fun b => (b.1, value i.1 b.2))

theorem get?_bindings_alias (hs : s.Sound Q) {path name a : Text}
    (ha : s.alias? path name = some a) : (bindings s value).get? a = some (value path name) := by
  obtain ⟨bs, hi, hb⟩ := hs.mem_imports_iff.mpr ha
  refine Table.get?_insertAll_of_mem ?_ ?_ _
  · exact List.mem_flatMap.mpr ⟨(path, bs), hi, List.mem_map.mpr ⟨(a, name), hb, rfl⟩⟩
  · intro v hv
    obtain ⟨⟨path', bs'⟩, hi', hv⟩ := List.mem_flatMap.mp hv
    obtain ⟨⟨a', name'⟩, hb', heq⟩ := List.mem_map.mp hv
    obtain ⟨rfl, rfl⟩ := Prod.mk.inj heq
    obtain ⟨rfl, rfl⟩ := hs.distinct (hs.mem_imports_iff.mp ⟨bs', hi', hb'⟩) ha
    rfl

theorem get?_bindings_free (hs : s.Sound Q) {name : Text} (h : Composed.isFree name) :
    (bindings s value).get? name = none := by
  refine Table.get?_insertAll_of_not_mem ?_ _
  rintro e he rfl
  obtain ⟨⟨path, bs⟩, hi, he⟩ := List.mem_flatMap.mp he
  obtain ⟨⟨a, symbol⟩, hb, rfl⟩ := List.mem_map.mp he
  have halias := hs.isName_alias (hs.mem_imports_iff.mp ⟨bs, hi, hb⟩)
  simp only [Composed.isFree, halias.2, Bool.not_true, Bool.and_false] at h
  cases h

/-- What stands for a word in the linked list of a class. -/
def linked (s : ImportedNames) (value : Text → Text → Text) (word : Text) : List Text :=
  Text.splitBy (· == ' ') (((bindings s value).get? word).getD word)

theorem linked_free (hs : s.Sound Q) {name : Text} (h : Composed.isFree name) :
    linked s value name = [name] := by
  rw [linked, get?_bindings_free hs h, Option.getD_none]
  refine Text.splitBy_of_forall fun c hc => ?_
  simp only [Composed.isFree, Bool.and_eq_true] at h
  have hident := (Selector.isName_iff.mp h.1).2 c hc
  rw [beq_eq_false_iff_ne]
  rintro rfl
  cases hident

/-- Linked, the list of a class has the lists of other modules in place of aliases. -/
theorem flatMap_linked (hQ : ∀ x, Q x → x.valid) (h : Prepared Q generate sheet full s exports)
    (hgen : ∀ n, Selector.isName n → Composed.isFree (generate n)) {c : Text}
    (hc : Selector.isName c) :
    (composedList generate (ScopedNames.wordMeaning s.bound)
        (sheet.compositions.reverse.map fun p => (p.1, s.word p.2)) c).flatMap (linked s value) =
      composedList generate
        (Composed.meaning fun path name => Text.splitBy (· == ' ') (value path name))
        sheet.compositions.reverse c := by
  refine flatMap_composedList (P := fun n => Selector.isName n) (fun n hn => ?_) ?_ hc
  · exact linked_free h.sound (hgen n hn)
  · rintro ⟨composer, x⟩ hp lists lists' hlists
    obtain ⟨hx, hcovers⟩ := h.covers _ (List.mem_reverse.mp hp)
    have hvalid := hQ x hx
    rw [h.sound.wordMeaning_word hvalid hcovers]
    cases x with
    | here name => exact hlists name (Composed.isName_of_isFree hvalid)
    | global name =>
      rw [Composed.meaning, List.flatMap_singleton, linked_free h.sound hvalid]
      rfl
    | imported path name =>
      obtain ⟨a, ha⟩ := Option.isSome_iff_exists.mp hcovers
      rw [Composed.meaning, List.flatMap_singleton, ImportedNames.word_of_alias ha, linked,
        get?_bindings_alias h.sound ha]
      rfl

/-- All that stands in the list of a class before linking are names. -/
theorem isName_of_mem_list (hQ : ∀ x, Q x → x.valid) (h : Prepared Q generate sheet full s exports)
    (hgen : ∀ n, Selector.isName n → Composed.isFree (generate n)) {c : Text}
    (hc : Selector.isName c) :
    ∀ w ∈ composedList generate (ScopedNames.wordMeaning s.bound)
        (sheet.compositions.reverse.map fun p => (p.1, s.word p.2)) c, Selector.isName w := by
  refine of_mem_composedList (P := fun n => Selector.isName n)
    (fun n hn => Composed.isName_of_isFree (hgen n hn)) ?_ hc
  intro e he lists hlists w hw
  obtain ⟨⟨composer, x⟩, hp, rfl⟩ := List.mem_map.mp he
  obtain ⟨hx, hcovers⟩ := h.covers _ (List.mem_reverse.mp hp)
  have hvalid := hQ x hx
  rw [h.sound.wordMeaning_word hvalid hcovers] at hw
  cases x with
  | here name => exact hlists name (Composed.isName_of_isFree hvalid) w hw
  | global name =>
    rw [List.mem_singleton.mp hw]
    exact Composed.isName_of_isFree hvalid
  | imported path name =>
    obtain ⟨a, ha⟩ := Option.isSome_iff_exists.mp hcovers
    rw [List.mem_singleton.mp hw, ImportedNames.word_of_alias ha]
    exact (h.sound.isName_alias ha).1

/-- **The exported value of a class, cut at its blanks, is its list.** -/
theorem exists_export (hQ : ∀ x, Q x → x.valid) (h : Prepared Q generate sheet full s exports)
    (hgen : ∀ n, Selector.isName n → Composed.isFree (generate n)) {c : Text}
    (hc : c ∈ sheet.localNames) (hname : Selector.isName c) :
    ∃ v, (Link.exportsOf (Link.replaceAliases (bindings s value) full)).get? c = some v ∧
      Text.splitBy (· == ' ') v = composedList generate
        (Composed.meaning fun path name => Text.splitBy (· == ' ') (value path name))
        sheet.compositions.reverse c := by
  have hlist := h.lists c hc hname
  have hentry := (Table.get?_eq_some_iff h.nodup).mp hlist
  have hne : exports.isEmpty = false :=
    List.isEmpty_eq_false_iff.mpr (List.ne_nil_of_mem hentry)
  obtain ⟨front, hlast⟩ := h.last hne
  have hkeys : ((exports.entries.map fun e => (e.1, Text.join " ".toList e.2)).map
      Prod.fst).Nodup := by
    rw [List.map_map]
    exact h.nodup
  have hget := Link.get?_exportsOf (t := bindings s value) hlast hkeys
    (List.mem_map.mpr ⟨_, hentry, rfl⟩)
  refine ⟨_, hget, ?_⟩
  rw [Symbol.replace_join (h.isName_of_mem_list hQ hgen hname)]
  refine (Text.splitBy_join rfl ?_).trans ?_
  · exact mt List.map_eq_nil_iff.mp (List.ne_nil_of_mem (generate_mem_composedList _ c))
  · rw [List.flatMap_map]
    exact h.flatMap_linked hQ hgen hname

end Stylesheet.Prepared

/-! ## 3. Processing a module -/

namespace Context

variable {ctx : Context} {d : Disk}

/-- What was fetched for import blocks is theirs, in order. -/
theorem of_fetchAll {f : ModuleRef → Option LoadResult} {importer : ModuleRef}
    {blocks : List ImportBlock} {fetched : List (ImportBlock × Except LoadError Exports)}
    (h : ctx.fetchAll f importer blocks = some fetched) :
    fetched.map Prod.fst = blocks ∧
      ∀ p ∈ fetched, ctx.fetch f importer p.1.path = some p.2 := by
  induction blocks generalizing fetched with
  | nil =>
    cases h
    exact ⟨rfl, by simp⟩
  | cons block blocks ih =>
    rw [fetchAll] at h
    obtain ⟨e, he, hrest⟩ := Option.bind_eq_some_iff.mp h
    obtain ⟨rest, hr, rfl⟩ := Option.map_eq_some_iff.mp hrest
    obtain ⟨hfst, hall⟩ := ih hr
    refine ⟨by rw [List.map_cons, hfst], fun p hp => ?_⟩
    rcases List.mem_cons.mp hp with rfl | hp
    · exact he
    · exact hall p hp

/-- The exports of a module that was linked. -/
theorem exports_of_finish (hctx : ctx.Standard) {m : ModuleRef} {sheet : Stylesheet}
    {fetched : List (ImportBlock × Except LoadError Exports)} {loaded : LoadedModule}
    (h : (ctx.finish m sheet fetched).1 = .ok loaded) :
    ∃ t, (Link.bindAll ctx.options.tolerance m.key fetched .empty).1 = .ok t ∧
      loaded.exports = Link.exportsOf (Link.replaceAliases t sheet) := by
  unfold finish Link.linkFetched at h
  generalize Link.bindAll ctx.options.tolerance m.key fetched .empty = bound at h ⊢
  obtain ⟨result, notices⟩ := bound
  cases result with
  | error e => cases h
  | ok t =>
    rw [hctx.after] at h
    cases h
    exact ⟨t, rfl, rfl⟩

/-- Without plugins, a module is prepared by the passes alone. -/
theorem prepare_of_read (hctx : ctx.Standard) {m : ModuleRef} {sheet : Stylesheet}
    (h : ctx.readSheet d m = .ok sheet) :
    (ctx.prepare d m).1 = passFailed m (ctx.runPasses m sheet) := by
  rw [prepare, h, hctx.before]
  rfl

/-! ## 4. What other modules export -/

/-- What the module that an import path leads to exports for a name. -/
def exported (ctx : Context) (d : Disk) (importer : ModuleRef) (path name : Text) : Option Text :=
  match locate ctx.options.virtuals ctx.options.resolver path importer with
  | .exports symbols => symbols.get? name
  | .missing _ => none
  | .module ref =>
    match (Session.loadModule ctx (.ofDisk d) ref).1 with
    | some (.ok loaded) => loaded.exports.get? name
    | _ => none

/-- What is exported is fetched: loading the other module by itself and processing it for the
    importer give the same exports. -/
theorem fetch_of_exported (hctx : ctx.Standard) {m : ModuleRef} {path name value : Text}
    (hacyclic : ∀ ref, locate ctx.options.virtuals ctx.options.resolver path m = .module ref →
      ∀ a, ctx.Reaches d ref a → ¬ctx.Needs d a a)
    (h : ctx.exported d m path name = some value) {depth : Nat} {e : Except LoadError Exports}
    (he : ctx.fetch (ctx.process d depth) m path = some e) :
    ∃ exports, e = .ok exports ∧ exports.get? name = some value := by
  unfold exported at h
  unfold fetch at he
  cases hl : locate ctx.options.virtuals ctx.options.resolver path m with
  | exports symbols =>
    simp only [hl] at h he
    cases he
    exact ⟨symbols, rfl, h⟩
  | missing _ =>
    simp only [hl] at h
    cases h
  | module ref =>
    simp only [hl] at h he
    have hfile : ref.loadPath?.isSome := by
      obtain ⟨p, rfl, _⟩ := isFile_of_locate hctx.resolver hl
      rfl
    obtain ⟨r, hr, depth', plain, hplain, hout⟩ :=
      Memo.loadModule_spec hctx (World.of_root hctx hfile (hacyclic ref hl)) .refl
    obtain ⟨result, hresult, rfl⟩ := Option.map_eq_some_iff.mp he
    obtain rfl := process_unique hplain hresult
    rw [hr] at h
    cases r with
    | error e => cases h
    | ok loaded => exact ⟨loaded.exports, (LoadResult.exports_of_outcome hout).symm, h⟩

end Context

/-! ## 5. What a module exports -/

namespace Stylesheet

/-- Whether a rule with a marked selector is an import or export block, or becomes an import block
    when its names are scoped. -/
def isBlock (generate : Text → Text) (marked : Text) : Bool :=
  Interface.isImport marked || Interface.isExport marked ||
    Interface.isImport (LocalMark.substitute generate marked)

/-- A sheet without value rules and without import and export blocks, whose compositions are lists
    of names, with a source behind them or not. -/
def isPlain (generate : Text → Text) (sheet : Stylesheet) : Bool :=
  sheet.nodes.all (fun n => (NamedValues.params? n).isNone) &&
    sheet.selectors.all (fun p => !isBlock generate (LocalNames.selector p.2 p.1)) &&
      sheet.composedNames.all Composed.valid

theorem mem_composedNames {sheet : Stylesheet} {d : Decl} (hd : d ∈ sheet.decls)
    (hprop : Interface.isComposition d.prop) {x : Composed} (hx : x ∈ Composed.ofText d.value) :
    x ∈ sheet.composedNames :=
  List.mem_flatMap.mpr ⟨d, List.mem_filter.mpr ⟨hd, hprop⟩, hx⟩

end Stylesheet

namespace Context

variable {ctx : Context} {d : Disk}

/-- The name that a local name of a module gets. -/
def scopedName (ctx : Context) (m : ModuleRef) (name : Text) : Text :=
  QualifiedName.generate name (ctx.relativePath m)

/-- A composed name as it should be: if it is from another module, this exports it. -/
def Asks (ctx : Context) (d : Disk) (m : ModuleRef) (x : Composed) : Prop :=
  x.valid ∧ ∀ path name, x = .imported path name → (ctx.exported d m path name).isSome

theorem runPasses_of_isPlain (hctx : ctx.Standard) {m : ModuleRef} {sheet full : Stylesheet}
    (hplain : sheet.isPlain (ctx.scopedName m))
    (hexported : ∀ path name, .imported path name ∈ sheet.composedNames →
      (ctx.exported d m path name).isSome)
    (h : ctx.runPasses m sheet = .ok full) :
    ∃ s exports, sheet.Prepared (ctx.Asks d m) (ctx.scopedName m) full s exports := by
  simp only [Stylesheet.isPlain, Stylesheet.isBlock, Bool.and_eq_true, List.all_eq_true,
    Option.isNone_iff_eq_none, Bool.not_eq_true', Bool.or_eq_false_iff] at hplain
  obtain ⟨⟨hvalues, hselectors⟩, hvalid⟩ := hplain
  rw [runPasses, NamedValues.run_of_forall hvalues] at h
  refine Stylesheet.prepared_spec (fun x hx => hx.1) ?_ ⟨?_, fun p hp => ?_⟩
    (fun p hp => (hselectors p hp).2) h
  · intro name rule
    rw [hctx.scopedName]
    rfl
  · intro decl hdecl hprop x hx
    have hmem := Stylesheet.mem_composedNames hdecl hprop hx
    refine ⟨hvalid x hmem, ?_⟩
    rintro path name rfl
    exact hexported path name hmem
  · exact Bool.or_eq_false_iff.mpr (hselectors p hp).1

/-- What is fetched for a prepared sheet has what it imports. -/
theorem exports_of_fetched (hctx : ctx.Standard) {m : ModuleRef} {sheet full : Stylesheet}
    (hacyclic : ∀ a, ctx.Reaches d m a → ¬ctx.Needs d a a)
    (hprepare : (ctx.prepare d m).1 = .ok full) {s : ImportedNames}
    {exports : Table (List Text)}
    (hprepared : sheet.Prepared (ctx.Asks d m) (ctx.scopedName m) full s exports) {depth : Nat}
    {fetched : List (ImportBlock × Except LoadError Exports)}
    (hfetched : ctx.fetchAll (ctx.process d depth) m (Link.importBlocks full) = some fetched) :
    (Link.bindAll ctx.options.tolerance m.key fetched .empty).1 =
      .ok (Stylesheet.Prepared.bindings s fun path name =>
        (ctx.exported d m path name).getD []) := by
  obtain ⟨hfst, hfetch⟩ := of_fetchAll hfetched
  have hblocks : Link.importBlocks full = s.imports.map fun i => ⟨i.1, i.2⟩ := by
    rw [Link.importBlocks_eq, hprepared.imports]
  have hall : ∀ f ∈ fetched, ∃ symbols, f.2 = .ok symbols ∧ ∀ b ∈ f.1.bindings,
      symbols.get? b.2 = some ((ctx.exported d m f.1.path b.2).getD []) := by
    intro f hf
    have hmem : f.1 ∈ Link.importBlocks full := hfst ▸ List.mem_map_of_mem hf
    have hone : ∀ name, ctx.Asks d m (.imported f.1.path name) → ∃ symbols, f.2 = .ok symbols ∧
        symbols.get? name = some ((ctx.exported d m f.1.path name).getD []) := by
      intro name hasks
      obtain ⟨value, hvalue⟩ := Option.isSome_iff_exists.mp (hasks.2 _ _ rfl)
      rw [hvalue]
      exact fetch_of_exported hctx
        (fun ref hl a ha => hacyclic a (.head (imports_of_block hprepare hmem hl) ha)) hvalue
        (hfetch f hf)
    obtain ⟨i, hi, hblock⟩ := List.mem_map.mp (hblocks ▸ hmem)
    rw [← hblock] at hone ⊢
    obtain ⟨name, hasks⟩ := hprepared.sound.used_of_mem_imports hi
    obtain ⟨symbols, hsymbols, _⟩ := hone name hasks
    refine ⟨symbols, hsymbols, fun b hb => ?_⟩
    have halias := hprepared.sound.mem_imports_iff.mp ⟨i.2, hi, hb⟩
    obtain ⟨symbols', hsymbols', hget⟩ := hone b.2 (hprepared.sound.asked halias)
    obtain rfl := Except.ok.inj (hsymbols.symm.trans hsymbols')
    exact hget
  have hpairs : ∀ g : ImportBlock → List (Text × Text),
      (fetched.flatMap fun f => g f.1) = s.imports.flatMap fun i => g ⟨i.1, i.2⟩ := by
    intro g
    rw [← List.flatMap_map Prod.fst g, hfst, hblocks, List.flatMap_map]
  rw [Link.bindAll_of_exported (fun path name => (ctx.exported d m path name).getD []) hall,
    Stylesheet.Prepared.bindings]
  exact congrArg (fun es => Except.ok (Table.insertAll .empty es)) (hpairs fun b =>
    b.bindings.map fun p => (p.1, (ctx.exported d m b.path p.2).getD []))

end Context

/-- **What a module exports for a class, cut at its blanks, is the scoped name of the class and
    then, for each name that its rules compose, in order: the whole list that the other module
    exports for the name, the name itself if it is global, or the list of the name so far if it is
    of the same module.** -/
theorem Session.exports_composed {ctx : Context} (hctx : ctx.Standard) (d : Disk) {m : ModuleRef}
    (hacyclic : ∀ a, ctx.Reaches d m a → ¬ctx.Needs d a a) {sheet : Stylesheet}
    (hread : ctx.readSheet d m = .ok sheet) (hplain : sheet.isPlain (ctx.scopedName m))
    (hexported : ∀ path name, .imported path name ∈ sheet.composedNames →
      (ctx.exported d m path name).isSome)
    {loaded : LoadedModule} (hload : (Session.loadModule ctx (.ofDisk d) m).1 = some (.ok loaded))
    {c : Text} (hc : c ∈ sheet.localNames) (hname : Selector.isName c) :
    ∃ value, loaded.exports.get? c = some value ∧
      Text.splitBy (· == ' ') value = composedList (ctx.scopedName m)
        (Composed.meaning fun path name =>
          Text.splitBy (· == ' ') ((ctx.exported d m path name).getD []))
        sheet.compositions.reverse c := by
  have hpath : m.loadPath?.isSome := by
    cases hp : m.loadPath? with
    | some path => rfl
    | none =>
      simp only [Context.readSheet, hp] at hread
      cases hread
  have hw := Context.World.of_root hctx hpath hacyclic
  obtain ⟨r, hr, depth, plain, hprocess, hout⟩ := Memo.loadModule_spec hctx hw .refl
  obtain rfl : r = .ok loaded := Option.some.inj (hr.symm.trans hload)
  have hexports := LoadResult.exports_of_outcome hout
  have hprepare := Context.prepare_of_read hctx hread
  cases depth with
  | zero => cases hprocess
  | succ depth =>
    cases hrun : ctx.runPasses m sheet with
    | error e =>
      rw [hrun] at hprepare
      rw [Context.process_of_error hprepare] at hprocess
      cases hprocess
      cases hexports
    | ok full =>
      rw [hrun] at hprepare
      rw [Context.process_of_ok hprepare] at hprocess
      obtain ⟨fetched, hfetched, hfinish⟩ := Option.map_eq_some_iff.mp hprocess
      cases plain with
      | error e => cases hexports
      | ok loaded' =>
        obtain ⟨t, hbind, hlinked⟩ := Context.exports_of_finish hctx hfinish
        obtain ⟨s, exports, hprepared⟩ := Context.runPasses_of_isPlain hctx hplain hexported hrun
        rw [Context.exports_of_fetched hctx hacyclic hprepare hprepared hfetched] at hbind
        obtain rfl := Except.ok.inj hbind
        have hsame : loaded.exports = loaded'.exports := Except.ok.inj hexports
        rw [hsame, hlinked]
        exact hprepared.exists_export (fun x hx => hx.1)
          (fun n hn => QualifiedName.isFree_generate hn _) hc hname

/-- The root directory with the default options. -/
def rootContext : Context :=
  .ofRoot "/".toList .default

/-- A page with compositions of every kind. One of them is from a module that composes in turn, and
    one adds to a class that the page has composed before. -/
def composingPage : Disk where
  cwd := []
  entries := [
    (["page".toList], .file (Text.utf8
      (".b\x7b\x7d.c\x7bcomposes:b\x7d.b\x7bcomposes:y from global\x7d" ++
        ".c\x7bcomposes:n from './nav';composes:x from global\x7d").toList)),
    (["nav".toList], .file (Text.utf8 ".n\x7bcomposes:a from './a'\x7d".toList)),
    (["a".toList], .file (Text.utf8 ".a\x7b\x7d".toList))]

/-- The modules of the page. -/
def composingModules : List ModuleRef :=
  ["/page", "/nav", "/a"].map fun path => .file path.toList

theorem Session.exports_composed_page :
    ∃ loaded value,
      (Session.loadModule rootContext (.ofDisk composingPage) (.file "/page".toList)).1 =
        some (.ok loaded) ∧
      loaded.exports.get? "c".toList = some value ∧
      Text.splitBy (· == ' ') value =
        ["_page__c", "_page__b", "_nav__n", "_a__a", "x"].map String.toList := by
  have hranked : ∀ a ∈ composingModules, ∀ b ∈ rootContext.imports composingPage a,
      b ∈ composingModules ∧ b.key.length < a.key.length := by decide +kernel
  have hacyclic : ∀ a, rootContext.Reaches composingPage (.file "/page".toList) a →
      ¬rootContext.Needs composingPage a a := by
    intro a ha
    refine Context.not_needs_of_rank _ hranked (ha.of_closed ?_ (by decide))
    exact fun a ha b hb => (hranked a ha b hb).1
  have hsheet : (rootContext.readSheet composingPage (.file "/page".toList)).map
      (fun sheet => (sheet.isPlain (rootContext.scopedName (.file "/page".toList)) &&
        sheet.localNames.contains "c".toList, sheet.composedNames, sheet.compositions)) =
      .ok (true,
        [.here "b".toList, .global "y".toList, .imported "./nav".toList "n".toList,
          .global "x".toList],
        [("c".toList, .here "b".toList), ("b".toList, .global "y".toList),
          ("c".toList, .imported "./nav".toList "n".toList),
          ("c".toList, .global "x".toList)]) := by decide +kernel
  have hload : (Session.loadModule rootContext (.ofDisk composingPage)
      (.file "/page".toList)).1 = some (.ok ⟨.file "/page".toList,
        "._page__b\x7b\x7d._page__c\x7b\x7d._page__b\x7b\x7d._page__c\x7b\x7d".toList,
        ⟨[("b".toList, "_page__b y".toList),
          ("c".toList, "_page__c _page__b _nav__n _a__a x".toList)]⟩⟩) := by
    decide +kernel
  have hnav : rootContext.exported composingPage (.file "/page".toList) "./nav".toList
      "n".toList = some "_nav__n _a__a".toList := by decide +kernel
  cases hread : rootContext.readSheet composingPage (.file "/page".toList) with
  | error e =>
    rw [hread] at hsheet
    cases hsheet
  | ok sheet =>
    rw [hread] at hsheet
    simp only [Except.map, Except.ok.injEq, Prod.mk.injEq, Bool.and_eq_true,
      List.contains_iff_mem] at hsheet
    obtain ⟨⟨hplain, hc⟩, hnames, hcompositions⟩ := hsheet
    have hexported : ∀ path name, .imported path name ∈ sheet.composedNames →
        (rootContext.exported composingPage (.file "/page".toList) path name).isSome := by
      intro path name hmem
      rw [hnames] at hmem
      obtain ⟨rfl, rfl⟩ : path = "./nav".toList ∧ name = "n".toList := by
        simpa using hmem
      rw [hnav]
      rfl
    obtain ⟨value, hvalue, hlist⟩ := Session.exports_composed ⟨rfl, rfl, rfl, rfl⟩ composingPage
      hacyclic hread hplain hexported hload hc (by decide)
    refine ⟨_, value, hload, hvalue, hlist.trans ?_⟩
    rw [hcompositions]
    decide +kernel

/-- A module whose last rule has the selector of a pseudo-element. Scoped, it is that of an import
    block, and the block binds an alias of the module. -/
def disguisedImport : Disk where
  cwd := []
  entries := [
    (["a.css".toList], .file (Text.utf8 (".a\x7bcomposes:b from './b.css'\x7d" ++
      "::local(import('./c'))\x7bi__imported_b_0:c\x7d").toList)),
    (["b.css".toList], .file (Text.utf8 ".b\x7b\x7d".toList)),
    (["c".toList], .file (Text.utf8 ".c\x7b\x7d".toList))]

/-- It is not enough that no selector is that of an import or export block as it is written. -/
theorem Session.exports_of_disguised_import :
    (rootContext.readSheet disguisedImport (.file "/a.css".toList)).map (fun sheet =>
        (sheet.selectors.any (fun p => Interface.isImport p.1 || Interface.isExport p.1),
          sheet.nodes.all (fun n => (NamedValues.params? n).isNone), sheet.compositions)) =
      .ok (false, true, [("a".toList, .imported "./b.css".toList "b".toList)]) ∧
    rootContext.exported disguisedImport (.file "/a.css".toList) "./b.css".toList "b".toList =
      some "_b__b".toList ∧
    (["/a.css", "/b.css", "/c"].map fun path =>
        rootContext.imports disguisedImport (.file path.toList)) =
      [[.file "/b.css".toList, .file "/c".toList], [], []] ∧
    (Session.loadModule rootContext (.ofDisk disguisedImport) (.file "/a.css".toList)).1 =
      some (.ok ⟨.file "/a.css".toList, "._a__a\x7b\x7d".toList,
        ⟨[("a".toList, "_a__a _c__c".toList)]⟩⟩) := by
  refine ⟨?_, ?_, ?_, ?_⟩ <;> decide +kernel

end StyleModules
