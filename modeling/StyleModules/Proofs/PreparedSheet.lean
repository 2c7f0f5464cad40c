import StyleModules.Pass.NamedValues
import StyleModules.Proofs.ImportAliases

/-!
A sheet that is ready to be linked.

Without value rules and without import and export blocks of its own, what the passes make of a sheet
is known (`Stylesheet.prepared_spec`): its import blocks bind the aliases of what is composed from
elsewhere, and its last node is an export block that gives the list of every local name, with the
words that stand for what is composed. `ScopedNames.ExportsLists` is this block by its declarations.
-/

namespace StyleModules

/-! ## 1. Import blocks -/

theorem Text.trimEndBy_concat {p : Char → Bool} {c : Char} (hc : p c = true) {t : Text}
    (ht : t.getLast?.any p = false) : trimEndBy p (t ++ [c]) = t := by
  have hlast : ∀ d ∈ t.getLast?, p d = false := by
    intro d hd
    rw [Option.mem_def.mp hd] at ht
    exact ht
  rw [trimEndBy_append_of_forall (by simpa using hc), trimEndBy_of_getLast? hlast]

namespace Interface

/-- The selector of an import block, cut as it is read. -/
theorem importBlock_selector (path : Text) :
    ":import(\"".toList ++ path ++ "\")".toList =
      ":import(".toList ++ ('"' :: path ++ ['"'] ++ ")".toList) := by
  have htext : ∀ p q : Text,
      (p ++ ['"']) ++ path ++ ('"' :: q) = p ++ ('"' :: path ++ ['"'] ++ q) :=
    fun p q => by simp
  exact htext ":import(".toList ")".toList

theorem importPath?_selector (path : Text) :
    importPath? (":import(\"".toList ++ path ++ "\")".toList) =
      some (Text.trimEndBy Text.isQuote (Text.trimStartBy Text.isQuote (path ++ ['"']))) := by
  have htrim : Text.trim ('"' :: path ++ ['"']) = '"' :: path ++ ['"'] := by
    rw [List.cons_append, Text.trim_cons rfl, Text.trimEnd_concat rfl]
  rw [importPath?, importBlock_selector, Text.isPrefixOf?_append, Option.bind_some,
    Text.isSuffixOf?_append, Option.map_some, htrim]
  rfl

theorem isImport_selector (path : Text) :
    isImport (":import(\"".toList ++ path ++ "\")".toList) = true := by
  rw [isImport, importPath?_selector]
  rfl

/-- A path that neither begins nor ends with a quotation mark is read from the import block that was
    written for it. -/
theorem importPath?_of_ends {path : Text} (hhead : path.head?.any Text.isQuote = false)
    (hlast : path.getLast?.any Text.isQuote = false) :
    importPath? (":import(\"".toList ++ path ++ "\")".toList) = some path := by
  rw [importPath?_selector]
  cases path with
  | nil => rfl
  | cons c path =>
    have hc : Text.isQuote c = false := hhead
    have hstart : Text.trimStartBy Text.isQuote (c :: path ++ ['"']) = c :: path ++ ['"'] := by
      rw [Text.trimStartBy, List.cons_append, List.dropWhile_cons, hc]
      rfl
    rw [hstart, Text.trimEndBy_concat rfl hlast]

theorem importPath?_of_plain {path : Text} (h : ∀ c ∈ path, Text.isQuote c = false) :
    importPath? (":import(\"".toList ++ path ++ "\")".toList) = some path := by
  refine importPath?_of_ends ?_ ?_
  · cases hhead : path.head? with
    | none => rfl
    | some c => exact h c (List.mem_of_head? hhead)
  · cases hlast : path.getLast? with
    | none => rfl
    | some c => exact h c (List.mem_of_getLast? hlast)

theorem importPath?_of_isImport {selector : Text} (h : isImport selector = false) :
    importPath? selector = none :=
  Option.isSome_eq_false_iff.mp h |> Option.isNone_iff_eq_none.mp

theorem pairs_declarations (ps : List (Text × Text)) : pairs (declarations ps) = ps := by
  unfold pairs declarations
  rw [List.filterMap_map]
  exact List.filterMap_some

end Interface

/-! ## 2. What does not depend on blanks -/

section Bare

variable {ns ms : List Node}

theorem eventsAll_eq_flatMap (ns : List Node) : eventsAll ns = ns.flatMap Node.events := by
  induction ns with
  | nil => rfl
  | cons n ns ih => rw [eventsAll, ih, List.flatMap_cons]

theorem enteredAll_eq_flatMap (ns : List Node) : enteredAll ns = ns.flatMap Node.entered := by
  induction ns with
  | nil => rfl
  | cons n ns ih => rw [enteredAll, ih, List.flatMap_cons]

theorem eventsAll_of_map_bare (h : ns.map Node.bare = ms.map Node.bare) :
    eventsAll ns = eventsAll ms := by
  rw [eventsAll_eq_flatMap, eventsAll_eq_flatMap]
  exact flatMap_of_map_bare (fun n => by cases n <;> rfl) h

theorem enteredAll_of_map_bare (h : ns.map Node.bare = ms.map Node.bare) :
    enteredAll ns = enteredAll ms := by
  rw [enteredAll_eq_flatMap, enteredAll_eq_flatMap]
  exact flatMap_of_map_bare (fun n => by cases n <;> rfl) h

theorem imports_of_map_bare (h : ns.map Node.bare = ms.map Node.bare) :
    ns.filterMap Interface.ofImport? = ms.filterMap Interface.ofImport? :=
  filterMap_of_map_bare (fun n => by cases n <;> rfl) h

end Bare

/-! ## 3. A sheet with aliases -/

namespace ImportedNames

/-- The import blocks for the aliases: paths, and aliases with the names that they stand for. -/
def imports (s : ImportedNames) : List (Text × List (Text × Text)) :=
  s.paths.entries.map fun e => (e.1, e.2.entries.map fun b => (b.2, b.1))

variable {Q : Composed → Prop} {s : ImportedNames}

/-- The import blocks bind exactly the aliases. -/
theorem Sound.mem_imports_iff (hs : Sound Q s) {path name a : Text} :
    (∃ bindings, (path, bindings) ∈ s.imports ∧ (a, name) ∈ bindings) ↔
      s.alias? path name = some a := by
  constructor
  · intro hbinds
    obtain ⟨bindings, hmem, ha⟩ := hbinds
    obtain ⟨⟨path', t⟩, ht, heq⟩ := List.mem_map.mp hmem
    obtain ⟨rfl, rfl⟩ := Prod.mk.inj heq
    obtain ⟨⟨name', a'⟩, hname, heq'⟩ := List.mem_map.mp ha
    obtain ⟨rfl, rfl⟩ := Prod.mk.inj heq'
    have hpath := (Table.get?_eq_some_iff hs.paths).mpr ht
    rw [alias?, hpath, Option.bind_some]
    exact (Table.get?_eq_some_iff (hs.names hpath)).mpr hname
  · intro h
    obtain ⟨t, hpath, hname⟩ := Option.bind_eq_some_iff.mp h
    refine ⟨_, List.mem_map_of_mem ((Table.get?_eq_some_iff hs.paths).mp hpath), ?_⟩
    exact List.mem_map_of_mem
      (f := fun b : Text × Text => (b.2, b.1)) ((Table.get?_eq_some_iff (hs.names hpath)).mp hname)

theorem Sound.used_of_mem_imports (hs : Sound Q s) {i : Text × List (Text × Text)}
    (hi : i ∈ s.imports) : ∃ name, Q (.imported i.1 name) := by
  obtain ⟨e, he, rfl⟩ := List.mem_map.mp hi
  exact hs.used ((Table.get?_eq_some_iff hs.paths).mpr he)

/-- The blocks of aliases compose nothing and declare nothing. -/
theorem events_blocks (s : ImportedNames) :
    eventsAll s.blocks = [] ∧ enteredAll s.blocks = [] := by
  have hblock : ∀ (path : Text) (bindings : List (Text × Text)),
      (Interface.importBlock path bindings).events = [] ∧
        (Interface.importBlock path bindings).entered = [] := by
    intro path bindings
    constructor
    · rw [Interface.importBlock, Node.ofRule, Node.events, Interface.isImport_selector]
      rfl
    · rw [Interface.importBlock, Node.ofRule, Node.entered, Interface.isImport_selector]
      rfl
  rw [eventsAll_eq_flatMap, enteredAll_eq_flatMap]
  constructor
  · refine List.flatMap_eq_nil_iff.mpr fun n hn => ?_
    obtain ⟨e, _, rfl⟩ := List.mem_map.mp hn
    exact (hblock _ _).1
  · refine List.flatMap_eq_nil_iff.mpr fun n hn => ?_
    obtain ⟨e, _, rfl⟩ := List.mem_map.mp hn
    exact (hblock _ _).2

/-- The blocks of aliases are read as they were meant. -/
theorem Sound.imports_blocks (hQ : ∀ x, Q x → x.valid) (hs : Sound Q s) :
    s.blocks.filterMap Interface.ofImport? = s.imports := by
  have hmap : s.blocks.map Interface.ofImport? = s.imports.map some := by
    unfold blocks imports
    rw [List.map_map, List.map_map]
    refine List.map_congr_left fun e he => ?_
    obtain ⟨name, hname⟩ := hs.used ((Table.get?_eq_some_iff hs.paths).mpr he)
    have hplain : ∀ c ∈ e.1, Text.isQuote c = false := by
      have hvalid := hQ _ hname
      simp only [Composed.valid, Bool.and_eq_true, List.all_eq_true, Bool.not_eq_true'] at hvalid
      exact fun c hc => (hvalid.2 c hc).1
    show (Interface.importPath? (":import(\"".toList ++ e.1 ++ "\")".toList)).map _ = _
    rw [Interface.importPath?_of_plain hplain, Option.map_some, Interface.pairs_declarations]
    rfl
  have hfilter : ∀ ns : List Node,
      ns.filterMap Interface.ofImport? = (ns.map Interface.ofImport?).filterMap id := by
    intro ns
    rw [List.filterMap_map]
    rfl
  rw [hfilter, hmap, List.filterMap_map]
  exact List.filterMap_some

end ImportedNames

/-- The selector of a rule. -/
def Node.selector? : Node → Option Text
  | .rule s _ _ _ => some s
  | _ => none

theorem Node.selector?_bare (n : Node) : n.bare.selector? = n.selector? := by
  cases n <;> rfl

namespace ImportedNames

/-- Aliases go into compositions only: selectors stay. -/
theorem map_selector?_nodes (s : ImportedNames) (ns : List Node) :
    (nodes s ns).1.map Node.selector? = ns.map Node.selector? := by
  induction ns generalizing s with
  | nil => rfl
  | cons n ns ih =>
    have hn : (node s n).1.selector? = n.selector? := by cases n <;> rfl
    show (node s n).1.selector? :: (nodes (node s n).2 ns).1.map Node.selector? = _
    rw [hn, ih]
    rfl

theorem map_selector?_markedAll (around : List Text) (ns : List Node) :
    (markedAll around ns).map Node.selector? =
      ns.map fun n => n.selector?.map (LocalNames.selector around) := by
  induction ns with
  | nil => rfl
  | cons n ns ih =>
    have hn : (n.marked around).selector? = n.selector?.map (LocalNames.selector around) := by
      cases n <;> rfl
    show (n.marked around).selector? :: (markedAll around ns).map Node.selector? = _
    rw [hn, ih]
    rfl

/-- The selectors at the top of a sheet with aliases are the marked ones of the sheet. -/
theorem exists_of_selector? {s : ImportedNames} {around : List Text} {ns : List Node} {n : Node}
    (hn : n ∈ (nodes s (markedAll around ns)).1) {sel : Text} (hsel : n.selector? = some sel) :
    ∃ p ∈ selectorsAll around ns, sel = LocalNames.selector p.2 p.1 := by
  have hmem := List.mem_map_of_mem (f := Node.selector?) hn
  rw [map_selector?_nodes, map_selector?_markedAll] at hmem
  obtain ⟨m, hm, heq⟩ := List.mem_map.mp hmem
  rw [hsel] at heq
  obtain ⟨sel', hsel', rfl⟩ := Option.map_eq_some_iff.mp heq
  refine ⟨(sel', around), ?_, rfl⟩
  clear hmem heq hn hsel
  induction ns with
  | nil => cases hm
  | cons k ns ih =>
    rcases List.mem_cons.mp hm with rfl | hm
    · refine List.mem_append_left _ ?_
      cases m with
      | rule sel'' l b ks =>
        obtain rfl := Option.some.inj hsel'
        exact List.mem_cons_self
      | _ => cases hsel'
    · exact List.mem_append_right _ (ih hm)

end ImportedNames

/-! ## 4. Scoping the sheet -/

namespace ScopedNames

/-- Whether a node that is no import block is none when it has been scoped. -/
def StaysPlain (generate : Text → Text) (n : Node) : Prop :=
  ∀ sel, n.selector? = some sel → Interface.isImport sel = true ∨
    Interface.isImport (LocalMark.substitute generate sel) = false

variable {generate : Text → Text} {imported : List Text} {ctx : Context}

theorem ofImport?_scopeNode (hctx : ctx.Generates generate imported) {rule : Text} {n n' : Node}
    (hn : StaysPlain generate n) {s s' : ScopedNames} (h : scopeNode ctx rule n s = .ok n' s') :
    Interface.ofImport? n' = Interface.ofImport? n := by
  cases n with
  | rule sel l b ns =>
    by_cases hblock : Interface.isImport sel || Interface.isExport sel
    · obtain ⟨rfl, -⟩ := of_scopeNode_block hblock h
      rfl
    · obtain ⟨s₁, ns', -, -, rfl⟩ := of_scopeNode_rule hblock h
      have hnot : Interface.isImport sel = false := by
        simp only [Bool.or_eq_true, not_or, Bool.not_eq_true] at hblock
        exact hblock.1
      have hnot' := (hn sel rfl).resolve_left (by rw [hnot]; exact Bool.false_ne_true)
      have hgen : (fun name => ctx.generate name (ctx.textOf (.rule sel l b ns))) = generate :=
        funext fun name => hctx.1 name _
      rw [hgen, Interface.ofImport?, Interface.ofImport?, Interface.importPath?_of_isImport hnot,
        Interface.importPath?_of_isImport hnot']
      rfl
  | atBlock head l b ns =>
    obtain ⟨head', s₁, ns', -, -, rfl⟩ := of_scopeNode_atBlock h
    rfl
  | atStatement head l =>
    obtain ⟨head', -, rfl⟩ := of_scopeNode_atStatement h
    rfl
  | decl d l =>
    obtain ⟨rfl, -⟩ := of_scopeNode_decl h
    rfl
  | comment t l =>
    cases h
    rfl

/-- Scoping keeps the import blocks of a sheet. -/
theorem ofImport?_scopeNodes (hctx : ctx.Generates generate imported) {rule : Text}
    {ns ns' : List Node} (hns : ∀ n ∈ ns, StaysPlain generate n) {s s' : ScopedNames}
    (h : scopeNodes ctx rule false ns s = .ok ns' s') :
    ns'.filterMap Interface.ofImport? = ns.filterMap Interface.ofImport? := by
  induction ns generalizing s ns' with
  | nil =>
    cases h
    rfl
  | cons n ns ih =>
    obtain ⟨n', s₁, rest, hn, hrest, rfl⟩ := of_scopeNodes_false h
    rw [List.filterMap_cons, List.filterMap_cons,
      ofImport?_scopeNode hctx (hns n List.mem_cons_self) hn,
      ih (fun m hm => hns m (List.mem_cons_of_mem n hm)) hrest]

theorem importedNames_eq (sheet : Stylesheet) : importedNames sheet =
    (sheet.nodes.filterMap Interface.ofImport?).flatMap fun b => b.2.map Prod.fst := by
  unfold importedNames
  generalize sheet.nodes = ns
  induction ns with
  | nil => rfl
  | cons n ns ih =>
    rw [List.flatMap_cons, List.filterMap_cons, ih]
    cases Interface.ofImport? n <;> rfl

/-- A sheet that was scoped: its nodes, and an export block if there is anything to export. -/
theorem run_ok {generate' : Text → Text → Text} {sheet full : Stylesheet}
    (h : run generate' sheet = .ok full) :
    ∃ nodes s, scopeNodes ⟨generate', sheet.input, importedNames sheet⟩ sheet.input false
        sheet.nodes ⟨.empty, []⟩ = .ok nodes s ∧
      full = if s.exports.isEmpty then { sheet with nodes }
        else { sheet with nodes }.append (exportBlock s.exports) := by
  unfold run runLogged at h
  cases hsheet : scopeSheet generate' sheet ⟨.empty, []⟩ with
  | error e s =>
    rw [hsheet] at h
    cases h
  | ok full' s =>
    rw [hsheet] at h
    cases h
    unfold scopeSheet at hsheet
    obtain ⟨nodes, s₁, hnodes, hsheet⟩ := bind_ok hsheet
    obtain ⟨s₂, s₃, hget, hsheet⟩ := bind_ok hsheet
    cases hget
    cases hsheet
    exact ⟨nodes, _, hnodes, rfl⟩

/-- What stands behind the nodes of a sheet for the lists of a table: nothing if there are none, else
    a rule `:export` with a declaration for each name, in order, whose value is the list of the name
    with spaces between its words. -/
def ExportsLists (lists : List (Text × List Text)) (behind : List Node) : Prop :=
  if lists = [] then behind = []
  else ∃ before, behind = [
    .rule ":export".toList ⟨before, " ".toList, "\n".toList, none⟩ true
      (lists.map fun e => .decl ⟨e.1, Text.join " ".toList e.2, none⟩
        ⟨"\n  ".toList, ": ".toList, [], none⟩)]

theorem ExportsLists.eq_nil_iff {lists : List (Text × List Text)} {behind : List Node}
    (h : ExportsLists lists behind) : behind = [] ↔ lists = [] := by
  unfold ExportsLists at h
  split at h
  · next hnone => exact iff_of_true h hnone
  · next hsome =>
    obtain ⟨before, rfl⟩ := h
    exact iff_of_false (List.cons_ne_nil _ _) hsome

/-- The names and values of the declarations. -/
theorem ExportsLists.pairs {lists : List (Text × List Text)} {behind : List Node}
    (h : ExportsLists lists behind) :
    (behind.flatMap fun n => Interface.pairs n.children) =
      lists.map fun e => (e.1, Text.join " ".toList e.2) := by
  unfold ExportsLists at h
  split at h
  · next hnone => rw [h, hnone]; rfl
  · obtain ⟨before, rfl⟩ := h
    rw [List.flatMap_singleton, Node.children, Interface.pairs, List.filterMap_map]
    exact congrFun List.filterMap_eq_map lists

/-- An export block among nodes declares a name, its value being a list. -/
def Declares (nodes : List Node) (name : Text) (list : List Text) : Prop :=
  ∃ n ∈ nodes, Interface.isExportBlock n = true ∧
    ⟨name, Text.join " ".toList list, none⟩ ∈ n.children.filterMap Node.decl?

theorem ExportsLists.declares {lists : List (Text × List Text)} {behind : List Node}
    (h : ExportsLists lists behind) {name : Text} {list : List Text} (he : (name, list) ∈ lists) :
    Declares behind name list := by
  unfold ExportsLists at h
  rw [if_neg (List.ne_nil_of_mem he)] at h
  obtain ⟨before, rfl⟩ := h
  exact ⟨_, List.mem_cons_self, rfl, List.mem_filterMap.mpr ⟨_, List.mem_map_of_mem he, rfl⟩⟩

/-- **Behind the nodes of a sheet that was scoped stand the lists of its names.** -/
theorem exists_exportsLists (sheet : Stylesheet) (exports : Table (List Text)) :
    ∃ behind, (if exports.isEmpty then sheet else sheet.append (exportBlock exports)) =
        { sheet with nodes := sheet.nodes ++ behind } ∧
      ExportsLists exports.entries behind := by
  unfold ExportsLists
  split
  · next hempty =>
    refine ⟨[], by rw [List.append_nil], ?_⟩
    rw [if_pos (List.isEmpty_iff.mp hempty)]
  · next hempty =>
    obtain ⟨before, happend⟩ := Stylesheet.append_eq (exportBlock exports) sheet
    refine ⟨_, happend, ?_⟩
    rw [if_neg fun hnil => hempty (List.isEmpty_iff.mpr hnil)]
    refine ⟨before, ?_⟩
    rw [exportBlock, Interface.exportBlock, Interface.declarations, List.map_map]
    rfl

end ScopedNames

/-- Without value rules a sheet has no named values. -/
theorem NamedValues.run_of_forall {sheet : Stylesheet}
    (h : ∀ n ∈ sheet.nodes, params? n = none) : run sheet = .ok sheet := by
  have hnone : sheet.nodes.filterMap params? = [] := List.filterMap_eq_nil_iff.mpr h
  have hretain : sheet.retain (fun n => (params? n).isNone) = sheet :=
    Stylesheet.retain_of_forall fun n hn => by rw [h n hn]; rfl
  rw [run, collect, hnone]
  show Except.ok (sheet.retain fun n => (params? n).isNone) = _
  rw [hretain]

/-! ## 5. What words add to a list -/

namespace ImportedNames

/-- The aliases that the import blocks bind. -/
def bound (s : ImportedNames) : List Text :=
  s.imports.flatMap fun b => b.2.map Prod.fst

section Words

variable {Q : Composed → Prop} {s : ImportedNames}

theorem Sound.mem_bound_iff (hs : Sound Q s) {a : Text} :
    a ∈ s.bound ↔ ∃ path name, s.alias? path name = some a := by
  constructor
  · intro h
    obtain ⟨⟨path, bindings⟩, hb, ha⟩ := List.mem_flatMap.mp h
    obtain ⟨⟨a', name⟩, hname, rfl⟩ := List.mem_map.mp ha
    exact ⟨path, name, hs.mem_imports_iff.mp ⟨bindings, hb, hname⟩⟩
  · intro halias
    obtain ⟨path, name, h⟩ := halias
    obtain ⟨bindings, hb, ha⟩ := hs.mem_imports_iff.mpr h
    exact List.mem_flatMap.mpr ⟨_, hb, List.mem_map_of_mem ha⟩

/-- An alias is a name, and nobody takes it for one that is free. -/
theorem Sound.isName_alias (hs : Sound Q s) {path name a : Text} (h : s.alias? path name = some a) :
    Selector.isName a ∧ "i__".toList.isPrefixOf a := by
  obtain ⟨number, _, rfl⟩ := hs.made h
  refine ⟨Selector.isName_iff.mpr ⟨(hs.isWord h).1, fun c hc => ?_⟩, ?_⟩
  · exact Interface.isIdentChar_of_isAliasChar
      (Interface.isAliasChar_of_mem_makeAlias (List.all_eq_true.mp rfl) c hc)
  · rw [Interface.makeAlias, List.append_assoc]
    exact List.isPrefixOf_iff_prefix.mpr (List.prefix_append _ _)

theorem Sound.not_mem_bound (hs : Sound Q s) {name : Text}
    (h : "i__".toList.isPrefixOf name = false) : s.bound.contains name = false := by
  rw [List.contains_eq_mem, decide_eq_false_iff_not, hs.mem_bound_iff]
  intro halias
  obtain ⟨path, name', ha⟩ := halias
  rw [(hs.isName_alias ha).2] at h
  cases h

theorem globalArgument?_globalName (name : Text) :
    ScopedNames.globalArgument? (globalName name) = some name := by
  have htext : globalName name = "global(".toList ++ (name ++ ")".toList) :=
    List.append_assoc _ _ _
  rw [ScopedNames.globalArgument?, htext, Text.isPrefixOf?_append, Option.bind_some,
    Text.isSuffixOf?_append]

theorem globalArgument?_of_isName {word : Text} (h : Selector.isName word) :
    ScopedNames.globalArgument? word = none := by
  unfold ScopedNames.globalArgument?
  cases hp : "global(".toList.isPrefixOf? word with
  | none => rfl
  | some rest =>
    have hmem : '(' ∈ word := by
      rw [← Text.append_of_isPrefixOf? hp]
      exact List.mem_append_left _ (by decide)
    have hident := (Selector.isName_iff.mp h).2 _ hmem
    cases hident

theorem wordMeaning_of_isName {word : Text} (h : Selector.isName word) (imported : List Text)
    (lists : Text → List Text) : ScopedNames.wordMeaning imported lists word =
      if imported.contains word then [word] else lists word := by
  rw [ScopedNames.wordMeaning, globalArgument?_of_isName h]

/-- The word of a composed name adds the list of the name if it is of the same sheet, and one word
    if not: the name itself, or its alias. -/
theorem Sound.wordMeaning_word (hs : Sound Q s) {x : Composed} (hx : x.valid) (hc : s.Covers x)
    (lists : Text → List Text) : ScopedNames.wordMeaning s.bound lists (s.word x) =
      Composed.meaning (fun path name => [s.word (.imported path name)]) lists x := by
  cases x with
  | here name =>
    simp only [Composed.valid, Composed.isFree, Bool.and_eq_true, Bool.not_eq_true'] at hx
    show ScopedNames.wordMeaning s.bound lists name = lists name
    rw [wordMeaning_of_isName hx.1, hs.not_mem_bound hx.2]
    rfl
  | global name =>
    show ScopedNames.wordMeaning s.bound lists (globalName name) = [name]
    rw [ScopedNames.wordMeaning, globalArgument?_globalName]
  | imported path name =>
    obtain ⟨a, ha⟩ := Option.isSome_iff_exists.mp hc
    have hmem : s.bound.contains a = true :=
      List.contains_iff_mem.mpr (hs.mem_bound_iff.mpr ⟨_, _, ha⟩)
    rw [Composed.meaning, word_of_alias ha, wordMeaning_of_isName (hs.isName_alias ha).1, hmem]
    rfl

/-- All words that stand for something are legible. -/
theorem Sound.legible_word (hQ : ∀ x, Q x → x.valid) (hs : Sound Q s) {x : Composed} (hx : Q x)
    (hc : s.Covers x) : ScopedNames.Legible s.bound (s.word x) := by
  have hvalid := hQ x hx
  cases x with
  | here name =>
    simp only [Composed.valid, Composed.isFree, Bool.and_eq_true] at hvalid
    exact .inr (.inr hvalid.1)
  | global name =>
    have hsome : (ScopedNames.globalArgument? (globalName name)).isSome := by
      rw [globalArgument?_globalName]
      rfl
    exact .inl hsome
  | imported path name =>
    obtain ⟨a, ha⟩ := Option.isSome_iff_exists.mp hc
    rw [word_of_alias ha]
    exact .inr (.inl (List.contains_iff_mem.mpr (hs.mem_bound_iff.mpr ⟨_, _, ha⟩)))

end Words

end ImportedNames

/-! ## 6. The prepared sheet -/

namespace Stylesheet

/-- What is known of a sheet with aliases. -/
structure Aliased (Q : Composed → Prop) (generate : Text → Text) (sheet aliased : Stylesheet)
    (s : ImportedNames) : Prop where
  sound : s.Sound Q
  stands : ImportedNames.Stands Q s sheet.compositions (eventsAll aliased.nodes)
  entered : enteredAll aliased.nodes = sheet.localNames
  imports : aliased.nodes.filterMap Interface.ofImport? = s.imports
  plain : ∀ n ∈ aliased.nodes, ScopedNames.StaysPlain generate n

theorem aliased_spec {Q : Composed → Prop} (hQ : ∀ x, Q x → x.valid) {generate : Text → Text}
    {sheet : Stylesheet} (hsheet : ImportedNames.Composable Q [] sheet.nodes)
    (hscoped : ∀ p ∈ sheet.selectors,
      Interface.isImport (LocalMark.substitute generate (LocalNames.selector p.2 p.1)) = false) :
    ∃ s, Aliased Q generate sheet (ImportedNames.run (LocalNames.run sheet)) s := by
  have hnodes := ImportedNames.nodes_spec hQ ImportedNames.sound_empty [] sheet.nodes hsheet
  have hselector : ∀ n ∈ (ImportedNames.nodes .empty (markedAll [] sheet.nodes)).1, ∀ sel,
      n.selector? = some sel → ∃ p ∈ sheet.selectors, sel = LocalNames.selector p.2 p.1 :=
    fun n hn sel hsel => ImportedNames.exists_of_selector? hn hsel
  have hbare : (ImportedNames.run (LocalNames.run sheet)).nodes.map Node.bare =
      ((ImportedNames.nodes .empty (markedAll [] sheet.nodes)).2.blocks ++
        (ImportedNames.nodes .empty (markedAll [] sheet.nodes)).1).map Node.bare :=
    map_bare_prependAll _ _
  generalize (ImportedNames.nodes .empty (markedAll [] sheet.nodes)).1 = ns
    at hnodes hselector hbare
  generalize (ImportedNames.nodes .empty (markedAll [] sheet.nodes)).2 = s at hnodes hbare
  obtain ⟨hevents, hentered⟩ := s.events_blocks
  refine ⟨s, hnodes.sound, ?_, ?_, ?_, ?_⟩
  · rw [eventsAll_of_map_bare hbare, eventsAll_eq_flatMap, List.flatMap_append,
      ← eventsAll_eq_flatMap, ← eventsAll_eq_flatMap, hevents]
    exact hnodes.stands s (.refl s)
  · rw [enteredAll_of_map_bare hbare, enteredAll_eq_flatMap, List.flatMap_append,
      ← enteredAll_eq_flatMap, ← enteredAll_eq_flatMap, hentered]
    exact hnodes.entered
  · have hnone : ns.filterMap Interface.ofImport? = [] := by
      refine List.filterMap_eq_nil_iff.mpr fun n hn => ?_
      cases n with
      | rule sel l b ms =>
        obtain ⟨p, hp, rfl⟩ := hselector _ hn sel rfl
        have hblock := hsheet.selectors p hp
        rw [Bool.or_eq_false_iff] at hblock
        rw [Interface.ofImport?, Interface.importPath?_of_isImport hblock.1]
        rfl
      | _ => rfl
    rw [imports_of_map_bare hbare, List.filterMap_append, hnodes.sound.imports_blocks hQ, hnone,
      List.append_nil]
  · intro n hn sel hsel
    obtain ⟨m, hm, heq⟩ := exists_of_map_bare hbare hn
    have hsel' : m.selector? = some sel := by
      rw [← hsel, ← m.selector?_bare, heq, n.selector?_bare]
    rcases List.mem_append.mp hm with hm | hm
    · obtain ⟨e, _, rfl⟩ := List.mem_map.mp hm
      obtain rfl := Option.some.inj hsel'
      exact .inl (Interface.isImport_selector e.1)
    · obtain ⟨p, hp, rfl⟩ := hselector m hm sel hsel'
      exact .inr (hscoped p hp)

/-- What is known of a sheet that is ready to be linked: the aliases of its import blocks, and the
    table of its export block, which stands at the end. -/
structure Prepared (Q : Composed → Prop) (generate : Text → Text) (sheet full : Stylesheet)
    (s : ImportedNames) (exports : Table (List Text)) : Prop where
  sound : s.Sound Q
  covers : ∀ p ∈ sheet.compositions, Q p.2 ∧ s.Covers p.2
  imports : full.nodes.filterMap Interface.ofImport? = s.imports
  nodup : exports.keys.Nodup
  lists : ∀ c ∈ sheet.localNames, Selector.isName c → exports.get? c =
    some (composedList generate (ScopedNames.wordMeaning s.bound)
      (sheet.compositions.reverse.map fun p => (p.1, s.word p.2)) c)
  last : exports.isEmpty = false → ∃ front,
    full.nodes.map Node.bare = (front ++ [ScopedNames.exportBlock exports]).map Node.bare

/-- **What the passes make of a sheet** in which no rule is an import or export block, with its
    names marked or scoped. -/
theorem prepared_spec {Q : Composed → Prop} (hQ : ∀ x, Q x → x.valid)
    {generate' : Text → Text → Text} {generate : Text → Text}
    (hgen : ∀ name rule, generate' name rule = generate name) {sheet full : Stylesheet}
    (hsheet : ImportedNames.Composable Q [] sheet.nodes)
    (hscoped : ∀ p ∈ sheet.selectors,
      Interface.isImport (LocalMark.substitute generate (LocalNames.selector p.2 p.1)) = false)
    (hrun : ScopedNames.run generate' (ImportedNames.run (LocalNames.run sheet)) = .ok full) :
    ∃ s exports, Prepared Q generate sheet full s exports := by
  obtain ⟨s, haliased⟩ := aliased_spec hQ hsheet hscoped
  obtain ⟨nodes, s', hnodes, hfull⟩ := ScopedNames.run_ok hrun
  have hbound : ScopedNames.importedNames (ImportedNames.run (LocalNames.run sheet)) = s.bound := by
    rw [ScopedNames.importedNames_eq, haliased.imports]
    rfl
  have hctx : ScopedNames.Context.Generates
      ⟨generate', (ImportedNames.run (LocalNames.run sheet)).input, s.bound⟩ generate s.bound :=
    ⟨hgen, rfl⟩
  rw [hbound] at hnodes
  have hlegible : ∀ e ∈ eventsAll (ImportedNames.run (LocalNames.run sheet)).nodes,
      ScopedNames.Legible s.bound e.2 := by
    intro e he
    rw [haliased.stands.1] at he
    obtain ⟨p, hp, rfl⟩ := List.mem_map.mp he
    obtain ⟨hx, hc⟩ := haliased.stands.2 p hp
    exact haliased.sound.legible_word hQ hx hc
  have hscopes := ScopedNames.scopeNodes_spec hctx ScopedNames.lists_empty _ false _ hlegible hnodes
  refine ⟨s, s'.exports, haliased.sound, haliased.stands.2, ?_, hscopes.lists.nodup, ?_, ?_⟩
  · have hkept := ScopedNames.ofImport?_scopeNodes hctx haliased.plain hnodes
    rw [haliased.imports] at hkept
    rw [hfull]
    split
    · exact hkept
    · rw [imports_of_map_bare (map_bare_append _ _), List.filterMap_append, hkept]
      exact List.append_nil _
  · intro c hc hname
    rw [← haliased.entered] at hc
    obtain ⟨list, hlist⟩ := Option.isSome_iff_exists.mp (hscopes.entered c hc)
    rw [hlist, hscopes.lists.lists c list hname hlist, List.append_nil, haliased.stands.1,
      List.map_reverse]
  · intro hne
    refine ⟨nodes, ?_⟩
    rw [hfull, hne, if_neg Bool.false_ne_true]
    exact map_bare_append _ _

end Stylesheet

end StyleModules
