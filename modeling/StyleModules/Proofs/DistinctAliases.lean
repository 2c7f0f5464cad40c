import StyleModules.Proofs.LosslessImports
import StyleModules.Proofs.PlacedNodes
import StyleModules.Proofs.ValueSubstitution

/-!
Aliases are never confused.

Two passes make aliases and bind them in import blocks: value rules for the names that they import,
and compositions for the classes that they use from elsewhere. Names are arbitrary, and an alias
keeps of a name only what aliases are made of.

* `Interface.declared` are the declarations in blocks, each with the selector of its block.
* `NamedValues.Numbered`: the value rules so far have declared the names that they import, in some
  order, with the numbers of the names for aliases. One more name keeps this
  (`Numbered.importName`), hence one more rule and all of them.
* `ImportedNames.Records.nodup_aliases`: the aliases of compositions are different, because uses
  with the same alias are the same use.
* `NamedValues.aliases_kept_apart` puts the two together.
-/

namespace StyleModules

/-! ## 1. Declarations in blocks -/

namespace Interface

/-- The selector of the import block for a path. -/
def importSelector (path : Text) : Text :=
  ":import(\"".toList ++ path ++ "\")".toList

/-- The declarations in blocks, property and value, each with the selector of its block. -/
def declared (blocks : List Node) : List (Text × Text × Text) :=
  blocks.flatMap fun n => n.selector?.elim [] fun selector =>
    (pairs n.children).map ((selector, ·))

theorem declared_append (blocks blocks' : List Node) :
    declared (blocks ++ blocks') = declared blocks ++ declared blocks' :=
  List.flatMap_append

/-- The declarations of import blocks, given as paths with bindings. -/
theorem declared_of_map_bare {blocks : List Node} {imports : List (Text × List (Text × Text))}
    (h : blocks.map Node.bare = (imports.map fun i => importBlock i.1 i.2).map Node.bare) :
    declared blocks = imports.flatMap fun i => i.2.map ((importSelector i.1, ·)) := by
  have hblock : ∀ i : Text × List (Text × Text), ((importBlock i.1 i.2).selector?.elim []
      fun selector => (pairs (importBlock i.1 i.2).children).map ((selector, ·))) =
        i.2.map ((importSelector i.1, ·)) := by
    intro i
    show (pairs (declarations i.2)).map ((importSelector i.1, ·)) = _
    rw [pairs_declarations]
  rw [declared, flatMap_of_map_bare (fun n => by cases n <;> rfl) h, List.flatMap_map]
  exact congrArg (imports.flatMap ·) (funext hblock)

/-- An alias is one token. -/
theorem parts_makeAlias {kind : Text} (hkind : ∀ c ∈ kind, isAliasChar c) (name : Text)
    (number : Nat) :
    Symbol.parts (makeAlias kind name number) = [.token (makeAlias kind name number)] := by
  have hchars : ∀ c ∈ makeAlias kind name number, Text.isIdentChar c := fun c hc =>
    isIdentChar_of_isAliasChar (isAliasChar_of_mem_makeAlias hkind c hc)
  have hname : Selector.isName (makeAlias kind name number) :=
    Selector.isName_iff.mpr ⟨by simp [makeAlias], hchars⟩
  exact Symbol.parts_of_isToken (Symbol.isToken_of_isName hname)

end Interface

/-! ## 2. What value rules import -/

namespace NamedValues

/-- The path that a source names: what stands in its quotation marks, or what the text defined for
    it says, quoted or not, or else the source. -/
def namedPath (definitions : Table Text) (source : Text) : Text :=
  ((Text.unquote? source).or ((definitions.get? source).map fun text =>
    (Text.unquote? text).getD text)).getD source

/-- The name in the other sheet: what stands in front of the first `as`, if there is one. -/
def remoteName (name : Text) : Text :=
  (Text.cutOn " as ".toList name).elim name fun cut => Text.trim cut.1

theorem path_eq_namedPath (v : NamedValues) (source : Text) :
    v.path source = namedPath v.definitions source := by
  unfold path namedPath
  cases Text.unquote? source with
  | some path => rfl
  | none => cases v.definitions.get? source <;> rfl

theorem remoteAndLocal_fst (name : Text) : (remoteAndLocal name).1 = remoteName name := by
  unfold remoteAndLocal remoteName
  cases Text.cutOn " as ".toList name <;> rfl

/-- The names that a value rule imports, each behind the path that it is imported from; `v` is what
    the rules above it say. -/
def ruleImports (v : NamedValues) (params : Text) : List (Text × Text) :=
  (FromClause.ofText? params).elim [] fun clause =>
    (importNames clause.names).map fun name =>
      (namedPath v.definitions clause.source, remoteName name)

/-- The names that value rules import, in order. -/
def importsFrom (v : NamedValues) : List Text → List (Text × Text)
  | [] => []
  | params :: rules =>
    v.ruleImports params ++ (v.add params).toOption.elim [] fun v => v.importsFrom rules

/-- The names that the value rules of a sheet import. -/
def importsOf (sheet : Stylesheet) : List (Text × Text) :=
  empty.importsFrom (sheet.nodes.filterMap params?)

/-- Imported names with the aliases that their numbers give them, each behind the selector of its
    path's import block. -/
def aliased (imports : List (Text × Text)) : List (Text × Text × Text) :=
  imports.zipIdx.map fun i =>
    (Interface.importSelector i.1.1, Interface.makeAlias "value".toList i.1.2 i.2, i.1.2)

/-- The bindings of paths, each behind the selector of the import block for its path. -/
def bound (imports : List (Text × List (Text × Text))) : List (Text × Text × Text) :=
  imports.flatMap fun i => i.2.map ((Interface.importSelector i.1, ·))

theorem aliased_concat (imports : List (Text × Text)) (path name : Text) :
    aliased (imports ++ [(path, name)]) = aliased imports ++ [(Interface.importSelector path,
      Interface.makeAlias "value".toList name imports.length, name)] := by
  simp [aliased, List.zipIdx_append]

/-- One more binding of a path, wherever its bindings stand. -/
theorem bound_upsertEntry (es : List (Text × List (Text × Text))) (path : Text)
    (b : Text × Text) :
    (bound (Table.upsertEntry path (fun bindings => bindings.getD [] ++ [b]) es)).Perm
      (bound es ++ [(Interface.importSelector path, b)]) := by
  induction es with
  | nil => exact .refl _
  | cons e es ih =>
    obtain ⟨key, bindings⟩ := e
    rw [Table.upsertEntry]
    split
    · next hkey =>
      subst hkey
      simp only [bound, List.flatMap_cons, Option.getD_some, List.map_append, List.map_singleton,
        List.append_assoc]
      exact List.perm_append_comm.append_left _
    · simp only [bound, List.flatMap_cons, List.append_assoc]
      exact ih.append_left _

/-- What holds of the value rules so far, which import some names. -/
structure Numbered (imports : List (Text × Text)) (v : NamedValues) : Prop where
  count : v.aliases = imports.length
  declares : (bound v.imports.entries).Perm (aliased imports)
  defines : imports ≠ [] → v.definitions.isEmpty = false

theorem numbered_empty : Numbered [] empty :=
  ⟨rfl, .refl _, fun h => absurd rfl h⟩

section Steps

variable {imports : List (Text × Text)} {v v' : NamedValues}

theorem isEmpty_insert (t : Table Text) (name value : Text) :
    (t.insert name value).isEmpty = false := by
  obtain ⟨es⟩ := t
  cases es with
  | nil => rfl
  | cons e es =>
    show (Table.upsertEntry name _ (e :: es)).isEmpty = false
    rw [Table.upsertEntry]
    split <;> rfl

/-- **One more name.** -/
theorem Numbered.importName (h : Numbered imports v) (path name : Text) :
    Numbered (imports ++ [(path, remoteName name)]) (importName path v name) where
  count := by
    rw [List.length_append, ← h.count]
    rfl
  declares := by
    rw [aliased_concat, ← h.count, ← remoteAndLocal_fst]
    exact (bound_upsertEntry v.imports.entries path _).trans (h.declares.append_right _)
  defines _ := isEmpty_insert _ _ _

theorem Numbered.importNames (h : Numbered imports v) (path : Text) (names : List Text) :
    Numbered (imports ++ names.map fun name => (path, remoteName name))
      (names.foldl (NamedValues.importName path) v) := by
  induction names generalizing imports v with
  | nil =>
    rw [List.map_nil, List.append_nil]
    exact h
  | cons name names ih =>
    have hrest := ih (h.importName path name)
    rw [List.append_assoc] at hrest
    exact hrest

/-- **One more rule.** -/
theorem Numbered.add (h : Numbered imports v) {params : Text} (hadd : v.add params = .ok v') :
    Numbered (imports ++ v.ruleImports params) v' := by
  unfold NamedValues.add at hadd
  unfold ruleImports
  split at hadd
  · next clause hclause =>
    cases hadd
    rw [hclause, path_eq_namedPath]
    exact h.importNames _ _
  · next hclause =>
    rw [hclause, Option.elim_none, List.append_nil]
    split at hadd
    · cases hadd
      exact ⟨h.count, h.declares, fun _ => isEmpty_insert _ _ _⟩
    · cases hadd

/-- **All rules.** -/
theorem Numbered.addAll (h : Numbered imports v) {rules : List Text}
    (hrules : rules.foldlM NamedValues.add v = .ok v') :
    Numbered (imports ++ v.importsFrom rules) v' := by
  induction rules generalizing imports v with
  | nil =>
    cases hrules
    rw [importsFrom, List.append_nil]
    exact h
  | cons params rules ih =>
    rw [List.foldlM_cons] at hrules
    cases hadd : v.add params with
    | error e =>
      rw [hadd] at hrules
      cases hrules
    | ok w =>
      rw [hadd] at hrules
      have hrest := ih (h.add hadd) hrules
      rw [importsFrom, hadd, ← List.append_assoc]
      exact hrest

end Steps

theorem numbered_of_collect {sheet : Stylesheet} {v : NamedValues}
    (h : collect sheet.nodes = .ok v) : Numbered (importsOf sheet) v :=
  numbered_empty.addAll h

theorem mem_aliased {imports : List (Text × Text)} {d : Text × Text × Text} :
    d ∈ aliased imports ↔ ∃ number path name, imports[number]? = some (path, name) ∧
      d = (Interface.importSelector path, Interface.makeAlias "value".toList name number, name) := by
  constructor
  · intro hd
    obtain ⟨⟨⟨path, name⟩, number⟩, hmem, rfl⟩ := List.mem_map.mp hd
    exact ⟨number, path, name, List.mk_mem_zipIdx_iff_getElem?.mp hmem, rfl⟩
  · intro ⟨number, path, name, hget, hd⟩
    exact List.mem_map.mpr ⟨((path, name), number), List.mk_mem_zipIdx_iff_getElem?.mpr hget,
      hd.symm⟩

/-- Numbers make the aliases different, whatever the names are. -/
theorem nodup_aliased (imports : List (Text × Text)) :
    ((aliased imports).map (·.2.1)).Nodup := by
  have hnumbers : (imports.zipIdx.map Prod.snd).Nodup := by
    rw [List.zipIdx_map_snd]
    exact List.nodup_range'
  rw [aliased, List.map_map]
  exact List.pairwise_map.mpr ((List.pairwise_map.mp hnumbers).imp fun hne heq =>
    hne (Interface.number_of_makeAlias heq))

/-! ## 3. The sheet when its value rules are carried out -/

/-- What stands behind the import blocks when the value rules of a sheet have been carried out. -/
def remainder (v : NamedValues) (sheet : Stylesheet) : List Node :=
  if v.definitions.isEmpty then (body sheet).nodes
  else Interface.exportBlock v.definitions.entries ::
    replaceAllSymbols .all v.definitions.get? (body sheet).nodes

theorem body_eq (sheet : Stylesheet) : body sheet = { sheet with nodes := (body sheet).nodes } := by
  unfold body Stylesheet.retain
  split <;> rfl

/-- **Import blocks go in front of the sheet, and declare what the value rules import.** -/
theorem exists_blocks {sheet prepared : Stylesheet} (hrun : run sheet = .ok prepared) :
    ∃ v blocks rest, collect sheet.nodes = .ok v ∧
      prepared = { sheet with nodes := blocks ++ rest } ∧
      rest.map Node.bare = (v.remainder sheet).map Node.bare ∧
      (Interface.declared blocks).Perm (aliased (importsOf sheet)) := by
  cases hcollect : collect sheet.nodes with
  | error e =>
    rw [run, hcollect] at hrun
    cases hrun
  | ok v =>
    have hnumbered := numbered_of_collect hcollect
    rw [run_of_collect hcollect] at hrun
    unfold remainder
    by_cases hempty : v.definitions.isEmpty = true
    · rw [if_pos hempty] at hrun
      cases hrun
      have himports : importsOf sheet = [] := by
        refine Classical.byContradiction fun hne => ?_
        rw [hnumbered.defines hne] at hempty
        cases hempty
      rw [himports]
      exact ⟨v, [], _, rfl, body_eq sheet, by rw [if_pos hempty], .refl _⟩
    · rw [if_neg hempty] at hrun
      cases hrun
      obtain ⟨blocks, rest, happly, hblocks, hrest, -⟩ := Stylesheet.exists_prependAll
        (v.imports.entries.map fun e => Interface.importBlock e.1 e.2)
        (((body sheet).replaceSymbols .all v.definitions.get?).prepend
          (Interface.exportBlock v.definitions.entries))
      refine ⟨v, blocks, rest, rfl, ?_, ?_, ?_⟩
      · rw [apply, happly, body_eq]
        rfl
      · rw [hrest, Stylesheet.map_bare_prepend, if_neg hempty]
        rfl
      · rw [Interface.declared_of_map_bare hblocks]
        exact hnumbered.declares

end NamedValues

/-! ## 4. Compositions -/

namespace ImportedNames

/-- A use with an alias, behind the selector of the import block for its path. -/
def declaration (use : Text × Text) (number : Nat) : Text × Text × Text :=
  (Interface.importSelector use.1, Interface.makeAlias "imported".toList use.2 number, use.2)

section Compositions

variable {us : List (Text × Text)} {s : ImportedNames}

/-- **The aliases of compositions are different**, since an alias stands for one use. -/
theorem Records.nodup_aliases (h : Records us s) :
    ((us.map Prod.fst).eraseDups.flatMap fun path =>
      (bindings s.aliasOf us path).map Prod.fst).Nodup := by
  have hpaths : (us.map Prod.fst).eraseDups.Nodup := h.paths ▸ h.sound.paths
  have halias : ∀ {path a}, a ∈ (bindings s.aliasOf us path).map Prod.fst →
      ∃ name, a = s.aliasOf path name ∧ (path, name) ∈ us := by
    intro path a ha
    obtain ⟨⟨a', name⟩, hb, rfl⟩ := List.mem_map.mp ha
    exact ⟨name, mem_bindings.mp hb⟩
  refine List.pairwise_flatMap.mpr ⟨fun path _ => (h.nodup_bindings path).1, ?_⟩
  refine hpaths.imp fun {path path'} hne a ha b hb heq => hne ?_
  obtain ⟨name, rfl, hmem⟩ := halias ha
  obtain ⟨name', rfl, hmem'⟩ := halias hb
  exact congrArg Prod.fst ((h.aliasOf_inj hmem hmem').mp heq)

theorem Records.exists_number (h : Records us s) {use : Text × Text} (huse : use ∈ us) :
    ∃ number, s.aliasOf use.1 use.2 = Interface.makeAlias "imported".toList use.2 number := by
  obtain ⟨number, -, hmade⟩ := h.sound.made (h.alias?_eq huse)
  exact ⟨number, hmade⟩

end Compositions

/-- **Import blocks go in front of the sheet, and declare what its compositions use.** -/
theorem exists_blocks (sheet : Stylesheet) :
    ∃ blocks rest, run sheet = { sheet with nodes := blocks ++ rest } ∧
      rest.map Node.bare = (nodes empty sheet.nodes).1.map Node.bare ∧
      ((Interface.declared blocks).map (·.2.1)).Nodup ∧
      (∀ d ∈ Interface.declared blocks, ∃ use ∈ nodesUses sheet.nodes, ∃ number,
        d = declaration use number) ∧
      ∀ use ∈ nodesUses sheet.nodes, ∃ number,
        declaration use number ∈ Interface.declared blocks := by
  have hrecords : Records (nodesUses sheet.nodes) (nodes empty sheet.nodes).2 :=
    (nodes_written records_empty sheet.nodes).records
  obtain ⟨blocks, rest, hrun, hblocks, hrest, -⟩ := Stylesheet.exists_prependAll
    (nodes empty sheet.nodes).2.blocks { sheet with nodes := (nodes empty sheet.nodes).1 }
  generalize (nodes empty sheet.nodes).2 = s at hrecords hblocks
  have hdeclared : Interface.declared blocks =
      ((nodesUses sheet.nodes).map Prod.fst).eraseDups.flatMap fun path =>
        (bindings s.aliasOf (nodesUses sheet.nodes) path).map
          ((Interface.importSelector path, ·)) := by
    have himports : s.blocks = ((((nodesUses sheet.nodes).map Prod.fst).eraseDups.map fun path =>
        (path, bindings s.aliasOf (nodesUses sheet.nodes) path)).map
          fun i => Interface.importBlock i.1 i.2) := by
      rw [hrecords.blocks_eq, List.map_map]
      rfl
    rw [himports] at hblocks
    rw [Interface.declared_of_map_bare hblocks, List.flatMap_map]
  refine ⟨blocks, rest, hrun, hrest, ?_, ?_, ?_⟩
  · rw [hdeclared, List.map_flatMap]
    simp only [List.map_map]
    exact hrecords.nodup_aliases
  · intro d hd
    rw [hdeclared] at hd
    obtain ⟨path, -, hd⟩ := List.mem_flatMap.mp hd
    obtain ⟨⟨a, name⟩, hb, rfl⟩ := List.mem_map.mp hd
    obtain ⟨rfl, huse⟩ := mem_bindings.mp hb
    obtain ⟨number, hnumber⟩ := hrecords.exists_number huse
    exact ⟨(path, name), huse, number, by rw [hnumber]; rfl⟩
  · intro use huse
    obtain ⟨number, hnumber⟩ := hrecords.exists_number huse
    refine ⟨number, ?_⟩
    rw [hdeclared, declaration, ← hnumber]
    exact List.mem_flatMap.mpr ⟨use.1, List.mem_eraseDups.mpr (List.mem_map_of_mem huse),
      List.mem_map_of_mem (mem_bindings.mpr ⟨rfl, huse⟩)⟩

end ImportedNames

/-! ## 5. Both passes -/

namespace NamedValues

/-- How the aliases are declared of what value rules import and of what compositions use: in the
    blocks that the one and the other pass puts in front of the sheet. -/
structure KeptApart (imports uses : List (Text × Text)) (valueBlocks useBlocks : List Node) :
    Prop where
  /-- All aliases are different, in whichever blocks they are declared. -/
  distinct : ((Interface.declared (valueBlocks ++ useBlocks)).map (·.2.1)).Nodup
  /-- Each alias is one token. -/
  token : ∀ d ∈ Interface.declared (valueBlocks ++ useBlocks),
    Symbol.parts d.2.1 = [.token d.2.1]
  /-- The declarations for value rules are those of the names that the rules import. -/
  imported : (Interface.declared valueBlocks).Perm (aliased imports)
  /-- There is one declaration of an imported name's alias. It stands in the block for the path
      that the rule names, and its value is the name in the other sheet. -/
  once : ∀ number path name, imports[number]? = some (path, name) →
    (Interface.declared valueBlocks).filter
        (·.2.1 = Interface.makeAlias "value".toList name number) =
      [(Interface.importSelector path, Interface.makeAlias "value".toList name number, name)]
  /-- The declarations for compositions are those of what they use. -/
  used : (∀ d ∈ Interface.declared useBlocks, ∃ use ∈ uses, ∃ number,
      d = ImportedNames.declaration use number) ∧
    ∀ use ∈ uses, ∃ number,
      ImportedNames.declaration use number ∈ Interface.declared useBlocks

/-- The two kinds of aliases begin differently. -/
theorem makeAlias_ne (name name' : Text) (number number' : Nat) :
    Interface.makeAlias "value".toList name number ≠
      Interface.makeAlias "imported".toList name' number' := by
  intro heq
  have hstart : aliasStart.isPrefixOf (Interface.makeAlias "imported".toList name' number') =
      false := rfl
  rw [← heq, isPrefixOf_makeAlias] at hstart
  cases hstart

theorem filter_eq_singleton {α β : Type} [DecidableEq β] {f : α → β} {l : List α}
    (h : (l.map f).Nodup) {x : α} (hx : x ∈ l) : l.filter (f · = f x) = [x] := by
  induction l with
  | nil => cases hx
  | cons y l ih =>
    obtain ⟨hy, hl⟩ := List.nodup_cons.mp h
    rcases List.mem_cons.mp hx with rfl | hx
    · have hrest : l.filter (f · = f x) = [] := by
        rw [List.filter_eq_nil_iff]
        intro z hz heq
        exact hy (of_decide_eq_true heq ▸ List.mem_map_of_mem hz)
      rw [List.filter_cons_of_pos (by simp), hrest]
    · have hne : f y ≠ f x := fun heq => hy (heq ▸ List.mem_map_of_mem hx)
      rw [List.filter_cons_of_neg (by simpa using hne), ih hl hx]

/-- **Aliases are never confused.** When the value rules of a sheet have been carried out, and later
    compositions get their aliases, whatever was done to the sheet in between, then the aliases of
    both are different tokens, and each alias of an imported value is declared once, for the path
    that its rule names and the name in the other sheet. -/
theorem aliases_kept_apart {sheet prepared : Stylesheet} (hrun : run sheet = .ok prepared)
    (later : Stylesheet) :
    ∃ v valueBlocks valueRest useBlocks useRest, collect sheet.nodes = .ok v ∧
      prepared = { sheet with nodes := valueBlocks ++ valueRest } ∧
      valueRest.map Node.bare = (v.remainder sheet).map Node.bare ∧
      ImportedNames.run later = { later with nodes := useBlocks ++ useRest } ∧
      useRest.map Node.bare = (ImportedNames.nodes .empty later.nodes).1.map Node.bare ∧
      KeptApart (importsOf sheet) (ImportedNames.nodesUses later.nodes) valueBlocks useBlocks := by
  obtain ⟨v, valueBlocks, valueRest, hcollect, hprepared, hvalueRest, himported⟩ :=
    exists_blocks hrun
  obtain ⟨useBlocks, useRest, hlater, huseRest, hdistinct, hmade, hused⟩ :=
    ImportedNames.exists_blocks later
  have hnodup : ((Interface.declared valueBlocks).map (·.2.1)).Nodup :=
    (himported.map _).nodup_iff.mpr (nodup_aliased _)
  have hvalue : ∀ d ∈ Interface.declared valueBlocks, ∃ name number,
      d.2.1 = Interface.makeAlias "value".toList name number := by
    intro d hd
    obtain ⟨number, path, name, -, rfl⟩ := mem_aliased.mp (himported.mem_iff.mp hd)
    exact ⟨name, number, rfl⟩
  have huse : ∀ d ∈ Interface.declared useBlocks, ∃ name number,
      d.2.1 = Interface.makeAlias "imported".toList name number := by
    intro d hd
    obtain ⟨use, -, number, rfl⟩ := hmade d hd
    exact ⟨use.2, number, rfl⟩
  refine ⟨v, valueBlocks, valueRest, useBlocks, useRest, hcollect, hprepared, hvalueRest, hlater,
    huseRest, ?_, ?_, himported, ?_, hmade, hused⟩
  · rw [Interface.declared_append, List.map_append, List.nodup_append]
    refine ⟨hnodup, hdistinct, fun a ha b hb heq => ?_⟩
    obtain ⟨d, hd, rfl⟩ := List.mem_map.mp ha
    obtain ⟨e, he, rfl⟩ := List.mem_map.mp hb
    obtain ⟨name, number, hd'⟩ := hvalue d hd
    obtain ⟨name', number', he'⟩ := huse e he
    exact makeAlias_ne name name' number number' (hd'.symm.trans (heq.trans he'))
  · intro d hd
    rw [Interface.declared_append] at hd
    rcases List.mem_append.mp hd with hd | hd
    · obtain ⟨name, number, hd'⟩ := hvalue d hd
      rw [hd', Interface.parts_makeAlias (List.all_eq_true.mp rfl)]
    · obtain ⟨name, number, hd'⟩ := huse d hd
      rw [hd', Interface.parts_makeAlias (List.all_eq_true.mp rfl)]
  · intro number path name hget
    exact filter_eq_singleton hnodup
      (himported.mem_iff.mpr (mem_aliased.mpr ⟨number, path, name, hget, rfl⟩))

/-- Names that differ only in what aliases do not keep, from a path that has a name itself; one of
    them is composed from elsewhere, too. -/
def aliasPage : Stylesheet where
  nodes := [
    .atStatement ⟨"value".toList, " ".toList, "p: \"./c.css\"".toList⟩ ⟨[], [], [], none⟩,
    .atStatement ⟨"value".toList, " ".toList, "a-b, a_b as q from p".toList⟩ ⟨[], [], [], none⟩,
    .atStatement ⟨"value".toList, " ".toList, "a_b_0 from \"./c.css\"".toList⟩ ⟨[], [], [], none⟩,
    .ofRule ".box".toList [.ofDecl "composes".toList "a_b from \"./d.css\"".toList]]
  after := []
  semicolon := false
  input := []

/-- What the value rules of the page say. -/
def aliasValues : NamedValues where
  definitions := ⟨[("p".toList, "\"./c.css\"".toList), ("a-b".toList, "i__value_a_b_0".toList),
    ("q".toList, "i__value_a_b_1".toList), ("a_b_0".toList, "i__value_a_b_0_2".toList)]⟩
  imports := ⟨[("./c.css".toList, [("i__value_a_b_0".toList, "a-b".toList),
    ("i__value_a_b_1".toList, "a_b".toList), ("i__value_a_b_0_2".toList, "a_b_0".toList)])]⟩
  aliases := 3

theorem aliases_kept_apart_page :
    ∃ prepared valueBlocks valueRest useBlocks useRest, run aliasPage = .ok prepared ∧
      prepared.nodes = valueBlocks ++ valueRest ∧
      (ImportedNames.run prepared).nodes = useBlocks ++ useRest ∧
      KeptApart [("./c.css".toList, "a-b".toList), ("./c.css".toList, "a_b".toList),
        ("./c.css".toList, "a_b_0".toList)] [("./d.css".toList, "a_b".toList)]
        valueBlocks useBlocks := by
  obtain ⟨_, hcollect, rfl⟩ := exists_ok_of_map
    (show (collect aliasPage.nodes).toOption.map id = some aliasValues by decide +kernel)
  have hrun : run aliasPage = .ok (aliasValues.apply (body aliasPage)) := run_of_collect hcollect
  obtain ⟨v, valueBlocks, valueRest, useBlocks, useRest, -, hprepared, -, hlater, -, happart⟩ :=
    aliases_kept_apart hrun (aliasValues.apply (body aliasPage))
  have himports : importsOf aliasPage = [("./c.css".toList, "a-b".toList),
      ("./c.css".toList, "a_b".toList), ("./c.css".toList, "a_b_0".toList)] := by
    decide +kernel
  have huses : ImportedNames.nodesUses (aliasValues.apply (body aliasPage)).nodes =
      [("./d.css".toList, "a_b".toList)] := by
    decide +kernel
  rw [himports, huses] at happart
  exact ⟨_, valueBlocks, valueRest, useBlocks, useRest, hrun,
    congrArg Stylesheet.nodes hprepared, congrArg Stylesheet.nodes hlater, happart⟩

end NamedValues

end StyleModules
