import StyleModules.Module.Link
import StyleModules.Sheet.Printer
import StyleModules.Proofs.TableLaws

/-!
What linking does, said without a table that is filled step by step.

* A binding of an import block sets its alias to a value, or it sets nothing
  (`Link.setting?`). The translation of an alias is what the last binding sets that sets something
  (`Link.translation?`).
* Each failure that is passed over is reported in the order of the declarations (`Link.reports`).
* `Link.linkFetched_last_binding`: a sheet that is linked is the sheet without its import blocks,
  translated, without its export blocks; these say what is exported.
-/

namespace StyleModules

namespace Link

/-! ## 1. Bindings and reports -/

/-- What a binding sets its alias to, given what became of the module that exports its symbol. -/
def setting? (tolerance : Tolerance) (answer : Except LoadError Exports) (symbol : Text) :
    Option Text :=
  match answer with
  | .error _ => none
  | .ok exports =>
    match exports.get? symbol with
    | some value => some value
    | none => if tolerance.symbols then none else some undefined

/-- The aliases that a block sets, each with its value, in the order of the declarations. -/
def blockSettings (tolerance : Tolerance) (f : ImportBlock × Except LoadError Exports) :
    List (Text × Text) :=
  f.1.bindings.filterMap fun b => (setting? tolerance f.2 b.2).map fun value => (b.1, value)

/-- The aliases that are set, each with its value, block by block. -/
def settings (tolerance : Tolerance) (fetched : List (ImportBlock × Except LoadError Exports)) :
    List (Text × Text) :=
  fetched.flatMap (blockSettings tolerance)

/-- The translation of an alias: the value of the last binding that sets one. -/
def translation? (tolerance : Tolerance)
    (fetched : List (ImportBlock × Except LoadError Exports)) (aliasName : Text) : Option Text :=
  Table.findEntry aliasName (settings tolerance fetched).reverse

/-- What is reported of a block: that its module failed, or each symbol that its module does not
    export, if such symbols are tolerated. -/
def blockReports (tolerance : Tolerance) (importer : Text)
    (f : ImportBlock × Except LoadError Exports) : List Notice :=
  match f.2 with
  | .error failure => [.moduleFailed failure f.1.path importer]
  | .ok exports =>
    if tolerance.symbols then
      (f.1.bindings.filter fun b => (exports.get? b.2).isNone).map fun b =>
        .symbolMissing b.2 f.1.path importer
    else []

/-- All that is reported, block by block. -/
def reports (tolerance : Tolerance) (importer : Text)
    (fetched : List (ImportBlock × Except LoadError Exports)) : List Notice :=
  fetched.flatMap (blockReports tolerance importer)

/-- What the export blocks of a sheet declare, in order. -/
def exported (sheet : Stylesheet) : List (Text × Text) :=
  (sheet.nodes.filter Interface.isExportBlock).flatMap fun n => Interface.pairs n.children

/-! ## 2. Filling the table -/

variable {tolerance : Tolerance} {importer : Text}

/-- A block enters its settings and reports what is missing. -/
theorem bindBlock_eq (block : ImportBlock) (exports : Exports) (t : Table Text) :
    bindBlock tolerance importer block.path exports block.bindings t =
      (t.insertAll (blockSettings tolerance (block, .ok exports)),
        blockReports tolerance importer (block, .ok exports)) := by
  obtain ⟨path, bindings⟩ := block
  simp only [blockSettings, blockReports, setting?]
  induction bindings generalizing t with
  | nil => cases tolerance.symbols <;> rfl
  | cons b bindings ih =>
    obtain ⟨aliasName, symbol⟩ := b
    rw [bindBlock]
    cases hvalue : exports.get? symbol with
    | some value => simp only [ih, hvalue, List.filterMap_cons, Option.map_some]; simp [hvalue]; rfl
    | none =>
      cases hsymbols : tolerance.symbols with
      | true => simp [hvalue, hsymbols, ih]
      | false => simp [hvalue, hsymbols, ih]; rfl

/-- Binding that does not fail enters all settings and makes all reports. -/
theorem bindAll_eq {fetched : List (ImportBlock × Except LoadError Exports)} {t table : Table Text}
    (h : (bindAll tolerance importer fetched t).1 = .ok table) :
    table = t.insertAll (settings tolerance fetched) ∧
      (bindAll tolerance importer fetched t).2 = reports tolerance importer fetched := by
  induction fetched generalizing t with
  | nil =>
    cases h
    exact ⟨rfl, rfl⟩
  | cons f fetched ih =>
    obtain ⟨block, answer⟩ := f
    cases answer with
    | error failure =>
      have hnothing : blockSettings tolerance (block, .error failure) = [] := by
        simp [blockSettings, setting?]
      rw [bindAll] at h ⊢
      split at h
      · next htolerated =>
        obtain ⟨htable, hreports⟩ := ih h
        rw [settings, List.flatMap_cons, hnothing, List.nil_append, if_pos htolerated]
        exact ⟨htable, congrArg (_ :: ·) hreports⟩
      · cases h
    | ok exports =>
      rw [bindAll] at h ⊢
      simp only [bindBlock_eq] at h ⊢
      obtain ⟨htable, hreports⟩ := ih h
      refine ⟨?_, congrArg (_ ++ ·) hreports⟩
      have happend : settings tolerance ((block, .ok exports) :: fetched) =
          blockSettings tolerance (block, .ok exports) ++ settings tolerance fetched := rfl
      rw [htable, happend, Table.insertAll, Table.insertAll, Table.insertAll, List.foldl_append]

/-- The table that binding fills translates each alias by its last binding. -/
theorem get?_bindAll {fetched : List (ImportBlock × Except LoadError Exports)} {table : Table Text}
    (h : (bindAll tolerance importer fetched .empty).1 = .ok table) (aliasName : Text) :
    table.get? aliasName = translation? tolerance fetched aliasName := by
  rw [(bindAll_eq h).1, Table.get?_insertAll, translation?]
  exact Option.or_none

/-! ## 3. The linked sheet -/

/-- Every import block of a sheet with the answer to its request, which may depend on the number of
    the request as well as on its path. -/
def fetchAll (fetch : Nat → Text → Except LoadError Exports) (sheet : Stylesheet) :
    List (ImportBlock × Except LoadError Exports) :=
  (importBlocks sheet).mapIdx fun i block => (block, fetch i block.path)

/-- A sheet without its import blocks, with aliases translated. -/
def translated (lookup : Text → Option Text) (sheet : Stylesheet) : Stylesheet :=
  (sheet.retain fun n => !Interface.isImportBlock n).replaceSymbols .all lookup

theorem exportsOf_eq (sheet : Stylesheet) : exportsOf sheet = .ofList (exported sheet) := by
  rw [exportsOf, exported]
  congr 1
  induction sheet.nodes with
  | nil => rfl
  | cons n ns ih =>
    rw [List.flatMap_cons, List.filter_cons, ih]
    split <;> rfl

/-- Linking succeeds if binding does. -/
theorem linkFetched_of_bindAll {fetched : List (ImportBlock × Except LoadError Exports)}
    {table : Table Text} (h : (bindAll tolerance importer fetched .empty).1 = .ok table)
    (sheet : Stylesheet) : linkFetched tolerance importer fetched sheet =
      (.ok ((replaceAliases table sheet).retain fun n => !Interface.isExportBlock n,
        exportsOf (replaceAliases table sheet)),
        (bindAll tolerance importer fetched .empty).2) := by
  have hdef : linkFetched tolerance importer fetched sheet =
      ((bindAll tolerance importer fetched .empty).1.map fun table =>
        ((replaceAliases table sheet).retain fun n => !Interface.isExportBlock n,
          exportsOf (replaceAliases table sheet)),
        (bindAll tolerance importer fetched .empty).2) := rfl
  rw [hdef, h]
  rfl

/-- What linking makes of a sheet if it does not fail. -/
theorem linkFetched_eq {fetched : List (ImportBlock × Except LoadError Exports)}
    {sheet linked : Stylesheet} {exports : Exports} {notices : List Notice}
    (h : linkFetched tolerance importer fetched sheet = (.ok (linked, exports), notices)) :
    linked = (translated (translation? tolerance fetched) sheet).retain
        (fun n => !Interface.isExportBlock n) ∧
      exports = exportsOf (translated (translation? tolerance fetched) sheet) ∧
      notices = reports tolerance importer fetched ∧
      ∃ table, (bindAll tolerance importer fetched .empty).1 = .ok table := by
  cases htable : (bindAll tolerance importer fetched .empty).1 with
  | error e =>
    have hfail : (linkFetched tolerance importer fetched sheet).1 =
        (bindAll tolerance importer fetched .empty).1.map _ := rfl
    rw [h, htable] at hfail
    cases hfail
  | ok table =>
    have hlookup : table.get? = translation? tolerance fetched :=
      funext fun a => get?_bindAll htable a
    rw [linkFetched_of_bindAll htable, (bindAll_eq htable).2, replaceAliases, hlookup] at h
    cases h
    exact ⟨rfl, rfl, rfl, table, rfl⟩

/-- **Linking goes by the last binding of each alias.** If a sheet is linked, then
    * the table of translations has for each alias the value of the last binding that sets one,
    * the sheet loses its import blocks, has its aliases translated, and loses its export blocks,
    * what is exported are the declarations of those export blocks, a name at its first place and
      with its last value,
    * each failed block and each missing symbol of a loaded block is reported once, in order. -/
theorem linkFetched_last_binding (tolerance : Tolerance) (importer : Text)
    (fetch : Nat → Text → Except LoadError Exports) (sheet : Stylesheet) {linked : Stylesheet}
    {exports : Exports} {notices : List Notice}
    (h : linkFetched tolerance importer (fetchAll fetch sheet) sheet =
      (.ok (linked, exports), notices)) :
    let fetched := fetchAll fetch sheet
    let rest := translated (translation? tolerance fetched) sheet
    (∃ table, (bindAll tolerance importer fetched .empty).1 = .ok table ∧
        ∀ aliasName, table.get? aliasName = translation? tolerance fetched aliasName) ∧
      linked = rest.retain (fun n => !Interface.isExportBlock n) ∧
      exports.keys = ((exported rest).map Prod.fst).eraseDups ∧
      (∀ name, exports.get? name = Table.findEntry name (exported rest).reverse) ∧
      notices = reports tolerance importer fetched := by
  obtain ⟨hlinked, hexports, hnotices, table, htable⟩ := linkFetched_eq h
  rw [exportsOf_eq] at hexports
  exact ⟨⟨table, htable, get?_bindAll htable⟩, hlinked, hexports ▸ Table.keys_ofList _,
    fun name => hexports ▸ Table.get?_ofList _ name, hnotices⟩

/-- An alias is bound by three blocks, the second of which fails, and exported twice. -/
def rebound : Stylesheet where
  nodes := [
    Interface.importBlock "a".toList
      [("i".toList, "x".toList), ("j".toList, "missing".toList)],
    Interface.importBlock "lost".toList [("i".toList, "x".toList)],
    Interface.importBlock "b".toList [("i".toList, "y".toList)],
    Interface.exportBlock [("c".toList, "i".toList), ("d".toList, "j i".toList)],
    .ofRule ".i".toList [.ofDecl "color".toList "i".toList],
    Interface.exportBlock [("c".toList, "j".toList)]]
  after := []
  semicolon := false
  input := []

/-- One module exports `x`, another `y`, and there is no third. -/
def reboundAnswer (_ : Nat) (path : Text) : Except LoadError Exports :=
  if path = "a".toList then .ok ⟨[("x".toList, "red".toList)]⟩
  else if path = "b".toList then .ok ⟨[("y".toList, "blue".toList)]⟩
  else .error (.noSuchModule path)

theorem linkFetched_last_binding_rebound :
    ∃ linked exports notices,
      linkFetched ⟨true, false⟩ "m".toList (fetchAll reboundAnswer rebound) rebound =
        (.ok (linked, exports), notices) ∧
      linked.print = "\n.blue \x7b\n  color: blue;\n\x7d".toList ∧
      exports.keys = ["c".toList, "d".toList] ∧
      exports.get? "c".toList = some "undefined".toList ∧
      exports.get? "d".toList = some "undefined blue".toList ∧
      notices = [.moduleFailed (.noSuchModule "lost".toList) "lost".toList "m".toList] := by
  obtain ⟨_, hlinked, hkeys, hvalues, hnotices⟩ :=
    linkFetched_last_binding ⟨true, false⟩ "m".toList reboundAnswer rebound rfl
  refine ⟨_, _, _, rfl, ?_, hkeys.trans ?_, (hvalues _).trans ?_, (hvalues _).trans ?_,
    hnotices.trans ?_⟩
  · exact (congrArg Stylesheet.print hlinked).trans (by decide +kernel)
  all_goals decide +kernel

end Link

end StyleModules
