import StyleModules.Module.Link
import StyleModules.Proofs.PreparedSheet
import StyleModules.Proofs.SymbolFusion

/-!
What a sheet exports when it has been linked.

* Names with blanks between them are replaced name by name (`Symbol.replace_join`).
* If every symbol that is imported is exported by its module, then every alias is bound to its value
  (`Link.bindAll_of_exported`).
* The export block at the end of a sheet says what is exported for its names, whatever stands in
  front of it (`Link.get?_exportsOf`).
-/

namespace StyleModules

/-! ## 1. Replacing names -/

namespace Symbol

variable {lookup : Text → Option Text}

theorem isToken_of_isName {w : Text} (hw : Selector.isName w) : isToken w = true := by
  obtain ⟨hne, hall⟩ := Selector.isName_iff.mp hw
  cases w with
  | nil => exact absurd rfl hne
  | cons c w =>
    have hstart := startsToken_of_isIdentChar (hall c List.mem_cons_self)
    have hrest := List.all_eq_true.mpr fun d hd => hall d (List.mem_cons_of_mem c hd)
    exact Bool.and_eq_true_iff.mpr ⟨hstart, hrest⟩

theorem replace_of_isName {w : Text} (hw : Selector.isName w) :
    replace lookup w = (lookup w).getD w :=
  replace_of_isToken (isToken_of_isName hw)

theorem replace_append_blank {w : Text} (hw : Selector.isName w) (t : Text) :
    replace lookup (w ++ ' ' :: t) = (lookup w).getD w ++ ' ' :: replace lookup t := by
  rw [replace_append_gap w rfl t, replace_of_isName hw]

/-- **Names with blanks between them are replaced one by one.** -/
theorem replace_join {ws : List Text} (h : ∀ w ∈ ws, Selector.isName w) :
    replace lookup (Text.join " ".toList ws) =
      Text.join " ".toList (ws.map fun w => (lookup w).getD w) := by
  induction ws with
  | nil => rfl
  | cons w ws ih =>
    have hw := h w List.mem_cons_self
    cases ws with
    | nil => simp [replace_of_isName hw]
    | cons v ws =>
      have hrest := ih fun u hu => h u (List.mem_cons_of_mem w hu)
      have hblank : ∀ a b : Text, a ++ " ".toList ++ b = a ++ ' ' :: b :=
        fun a b => List.append_assoc a _ b
      rw [Text.join_cons_cons, hblank, replace_append_blank hw, hrest]
      simp only [List.map_cons, Text.join_cons_cons]
      exact (hblank _ _).symm

end Symbol

/-! ## 2. Binding aliases -/

namespace Link

variable {tolerance : Tolerance} {importer : Text}

theorem importBlocks_eq (sheet : Stylesheet) : importBlocks sheet =
    (sheet.nodes.filterMap Interface.ofImport?).map fun b => ⟨b.1, b.2⟩ := by
  rw [importBlocks, List.map_filterMap]

theorem bindBlock_of_exported {path : Text} {exports : Exports} {bindings : List (Text × Text)}
    {value : Text → Text} (h : ∀ b ∈ bindings, exports.get? b.2 = some (value b.2))
    (t : Table Text) : (bindBlock tolerance importer path exports bindings t).1 =
      t.insertAll (bindings.map fun b => (b.1, value b.2)) := by
  induction bindings generalizing t with
  | nil => rfl
  | cons b bindings ih =>
    rw [bindBlock, h b List.mem_cons_self]
    exact ih (fun b' hb' => h b' (List.mem_cons_of_mem b hb')) _

/-- **Aliases are bound to the values of their symbols**, if all symbols are exported. -/
theorem bindAll_of_exported (value : Text → Text → Text)
    {fetched : List (ImportBlock × Except LoadError Exports)}
    (h : ∀ f ∈ fetched, ∃ exports, f.2 = .ok exports ∧
      ∀ b ∈ f.1.bindings, exports.get? b.2 = some (value f.1.path b.2)) (t : Table Text) :
    (bindAll tolerance importer fetched t).1 = .ok (t.insertAll
      (fetched.flatMap fun f => f.1.bindings.map fun b => (b.1, value f.1.path b.2))) := by
  induction fetched generalizing t with
  | nil => rfl
  | cons f fetched ih =>
    obtain ⟨block, result⟩ := f
    obtain ⟨exports, rfl, hblock⟩ := h _ List.mem_cons_self
    rw [bindAll]
    simp only [bindBlock_of_exported hblock]
    rw [ih fun f' hf' => h f' (List.mem_cons_of_mem _ hf'), List.flatMap_cons, Table.insertAll,
      Table.insertAll, Table.insertAll, List.foldl_append]

/-! ## 3. The export block -/

/-- What a node says is exported when aliases have been replaced. -/
def exportedPairs (t : Table Text) (n : Node) : List (Text × Text) :=
  let n := n.replaceSymbols .all t.get?
  if Interface.isExportBlock n then Interface.pairs n.children else []

theorem exportedPairs_bare (t : Table Text) (n : Node) :
    exportedPairs t n.bare = exportedPairs t n := by
  cases n with
  | rule s l b ns =>
    show exportedPairs t (.rule s { l with before := [] } b ns) = _
    unfold exportedPairs
    rw [Node.replaceSymbols, Node.replaceSymbols]
    split <;> rfl
  | _ => rfl

theorem replaceAllSymbols_eq_map (targets : Targets) (lookup : Text → Option Text)
    (ns : List Node) :
    replaceAllSymbols targets lookup ns = ns.map (·.replaceSymbols targets lookup) := by
  induction ns with
  | nil => rfl
  | cons n ns ih => rw [replaceAllSymbols, ih, List.map_cons]

/-- An export block stays one, and symbols are replaced in what it exports. -/
theorem replaceSymbols_exportBlock (lookup : Text → Option Text) (symbols : List (Text × Text)) :
    (Interface.exportBlock symbols).replaceSymbols .all lookup =
      Interface.exportBlock (symbols.map fun p => (p.1, Symbol.replace lookup p.2)) := by
  rw [Interface.exportBlock, Node.ofRule, Node.replaceSymbols, if_neg (by decide),
    replaceAllSymbols_eq_map, Interface.declarations, List.map_map]
  show Node.rule ":export".toList _ _ _ = Node.rule ":export".toList _ _ _
  rw [Interface.declarations, List.map_map]
  rfl

/-- The symbols of an export block are those it declares, with aliases replaced in their values. -/
theorem exportedPairs_exportBlock (t : Table Text) (symbols : List (Text × Text)) :
    exportedPairs t (Interface.exportBlock symbols) =
      symbols.map fun p => (p.1, Symbol.replace t.get? p.2) := by
  rw [exportedPairs, replaceSymbols_exportBlock]
  exact Interface.pairs_declarations _

theorem exportsOf_replaceAliases (t : Table Text) (sheet : Stylesheet) :
    exportsOf (replaceAliases t sheet) = .ofList
      ((sheet.nodes.filter fun n => !Interface.isImportBlock n).flatMap (exportedPairs t)) := by
  have hkeep : ∀ before (n : Node), (!Interface.isImportBlock (n.withBefore before)) =
      !Interface.isImportBlock n := by
    intro before n
    cases n <;> rfl
  have hretain : (sheet.retain fun n => !Interface.isImportBlock n).nodes.map Node.bare =
      (sheet.nodes.filter fun n => !Interface.isImportBlock n).map Node.bare :=
    Stylesheet.map_bare_retain hkeep sheet
  rw [← flatMap_of_map_bare (exportedPairs_bare t) hretain, exportsOf]
  show Table.ofList ((replaceAllSymbols .all t.get? (sheet.retain _).nodes).flatMap _) = _
  rw [replaceAllSymbols_eq_map, List.flatMap_map]
  rfl

/-- **An export block at the end of a sheet has the last word.** -/
theorem get?_exportsOf {t : Table Text} {sheet : Stylesheet} {front : List Node}
    {symbols : List (Text × Text)}
    (hlast : sheet.nodes.map Node.bare =
      (front ++ [Interface.exportBlock symbols]).map Node.bare)
    (hnodup : (symbols.map Prod.fst).Nodup) {name value : Text} (hmem : (name, value) ∈ symbols) :
    (exportsOf (replaceAliases t sheet)).get? name = some (Symbol.replace t.get? value) := by
  have hbare : ∀ n : Node, (!Interface.isImportBlock n.bare) = !Interface.isImportBlock n := by
    intro n
    cases n <;> rfl
  have hkept : (front ++ [Interface.exportBlock symbols]).filter
      (fun n => !Interface.isImportBlock n) =
      front.filter (fun n => !Interface.isImportBlock n) ++ [Interface.exportBlock symbols] := by
    rw [List.filter_append]
    rfl
  have hpair : (name, Symbol.replace t.get? value) ∈
      symbols.map fun p => (p.1, Symbol.replace t.get? p.2) := List.mem_map.mpr ⟨_, hmem, rfl⟩
  have hkeys : ((symbols.map fun p => (p.1, Symbol.replace t.get? p.2)).map Prod.fst).Nodup := by
    rw [List.map_map]
    exact hnodup
  rw [exportsOf_replaceAliases,
    flatMap_of_map_bare (exportedPairs_bare t) (filter_of_map_bare hbare hlast), hkept,
    List.flatMap_append, List.flatMap_singleton, exportedPairs_exportBlock]
  exact Table.get?_ofList_append hkeys hpair _

end Link

end StyleModules
