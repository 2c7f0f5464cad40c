import StyleModules.Proofs.PreparedSheet

/-!
What is composed from elsewhere, encoded without loss.

A declaration that composes names from a path uses each of them (`ImportedNames.uses`). An alias is
written for each, and import blocks bind the aliases.

* `ImportedNames.Records`: after some uses the paths are known, and the names of each path, in the
  order of their first uses. One more use keeps this (`Records.aliasFor`), and so does a tree.
* `ImportedNames.declWith` is the edit of a declaration when all aliases are known.
  `ImportedNames.nodes_written`: making aliases on the way is this edit with the aliases that there
  are in the end.
* `ImportedNames.run_lossless`: looked up in the import blocks, the aliases are what was composed.
-/

namespace StyleModules

/-! ## 1. What is used -/

namespace ImportedNames

/-- The path and the names that a declaration composes from elsewhere. -/
def request? (d : Decl) : Option (Text × List Text) :=
  if Interface.isComposition d.prop then
    (FromClause.ofText? d.value).bind fun clause =>
      (Text.unquote? clause.source).map fun path => (path, Text.words clause.names)
  else none

/-- The uses in a declaration: paths with names, in order. -/
def uses (d : Decl) : List (Text × Text) :=
  (request? d).elim [] fun r => r.2.map ((r.1, ·))

/-- The value of a composition with aliases, all of them being known. -/
def valueWith (aliasOf : Text → Text → Text) (value : Text) : Text :=
  match FromClause.ofText? value with
  | none => value
  | some clause =>
    let names := Text.words clause.names
    if clause.source = "global".toList then Text.join " ".toList (names.map globalName)
    else
      match Text.unquote? clause.source with
      | none => value
      | some path => Text.join " ".toList (names.map (aliasOf path))

/-- A declaration with aliases, if it is a composition, all of them being known. -/
def declWith (aliasOf : Text → Text → Text) (d : Decl) : Decl :=
  if Interface.isComposition d.prop then { d with value := valueWith aliasOf d.value } else d

section Requests

variable {d : Decl}

theorem of_request? {path : Text} {names : List Text} (h : request? d = some (path, names)) :
    Interface.isComposition d.prop ∧ ∃ clause, FromClause.ofText? d.value = some clause ∧
      clause.source ≠ "global".toList ∧ Text.unquote? clause.source = some path ∧
      Text.words clause.names = names := by
  unfold request? at h
  split at h
  · next hcomp =>
    obtain ⟨clause, hclause, hpath⟩ := Option.bind_eq_some_iff.mp h
    obtain ⟨path', hunquote, heq⟩ := Option.map_eq_some_iff.mp hpath
    obtain ⟨rfl, rfl⟩ := Prod.mk.inj heq
    refine ⟨hcomp, clause, hclause, fun hglobal => ?_, hunquote, rfl⟩
    rw [hglobal] at hunquote
    cases hunquote
  · cases h

/-- Whoever composes from elsewhere names something. -/
theorem ne_nil_of_request? {path : Text} {names : List Text}
    (h : request? d = some (path, names)) : names ≠ [] := by
  obtain ⟨_, clause, hclause, _, _, rfl⟩ := of_request? h
  obtain ⟨a, b, _, hsuitable, rfl, _⟩ := FromClause.ofText?_spec hclause
  rw [Text.words_trim]
  exact hsuitable.words_front

/-- A declaration that composes from elsewhere gets aliases. -/
theorem decl_of_request {path : Text} {names : List Text} (h : request? d = some (path, names))
    (s : ImportedNames) :
    s.decl d = ({ d with value := Text.join " ".toList (s.aliasesFor path names).1 },
      (s.aliasesFor path names).2) := by
  obtain ⟨hcomp, clause, hclause, hglobal, hunquote, rfl⟩ := of_request? h
  simp only [decl, value, if_pos hcomp, hclause, if_neg hglobal, hunquote]

theorem declWith_of_request {path : Text} {names : List Text}
    (h : request? d = some (path, names)) (aliasOf : Text → Text → Text) :
    declWith aliasOf d = { d with value := Text.join " ".toList (names.map (aliasOf path)) } := by
  obtain ⟨hcomp, clause, hclause, hglobal, hunquote, rfl⟩ := of_request? h
  simp only [declWith, valueWith, if_pos hcomp, hclause, if_neg hglobal, hunquote]

/-- To a declaration that composes nothing from elsewhere, aliases do not matter. -/
theorem decl_of_no_request (h : request? d = none) (s : ImportedNames)
    (aliasOf : Text → Text → Text) : s.decl d = (declWith aliasOf d, s) := by
  unfold decl declWith
  unfold request? at h
  split
  · next hcomp =>
    rw [if_pos hcomp] at h
    unfold value valueWith
    cases hclause : FromClause.ofText? d.value with
    | none => rfl
    | some clause =>
      rw [hclause, Option.bind_some, Option.map_eq_none_iff] at h
      simp only [h]
      split <;> rfl
  · rfl

end Requests

/-! ## 2. What is recorded -/

/-- The alias of a name at a path that is used. -/
def aliasOf (s : ImportedNames) (path name : Text) : Text :=
  (s.alias? path name).getD []

/-- The names that are used from a path. -/
def usedAt (us : List (Text × Text)) (path : Text) : List Text :=
  (us.filter (·.1 = path)).map Prod.snd

theorem mem_usedAt {us : List (Text × Text)} {path name : Text} :
    name ∈ usedAt us path ↔ (path, name) ∈ us := by
  simp [usedAt]

/-- The aliases after some uses: the paths, and the names of each, in the order of first uses. -/
structure Records (us : List (Text × Text)) (s : ImportedNames) : Prop where
  sound : Sound (fun _ => True) s
  paths : s.paths.keys = (us.map Prod.fst).eraseDups
  names : ∀ path, ((s.paths.get? path).getD .empty).keys = (usedAt us path).eraseDups

theorem eraseDups_concat (l : List Text) (a : Text) :
    (l ++ [a]).eraseDups = if a ∈ l then l.eraseDups else l.eraseDups ++ [a] := by
  rw [List.eraseDups_append]
  by_cases hmem : a ∈ l
  · simp [List.removeAll, hmem]
  · simp [List.removeAll, hmem, List.eraseDups_cons]

theorem records_empty : Records [] empty :=
  ⟨sound_empty, rfl, fun _ => rfl⟩

section Steps

variable {us : List (Text × Text)} {s : ImportedNames} {path name : Text}

/-- What is used has an alias, and nothing else has. -/
theorem Records.exists_alias_iff (h : Records us s) :
    (∃ a, s.alias? path name = some a) ↔ (path, name) ∈ us := by
  rw [← get?_getD_paths, ← Table.mem_keys_iff, h.names, List.mem_eraseDups, mem_usedAt]

theorem Records.alias?_eq (h : Records us s) (hmem : (path, name) ∈ us) :
    s.alias? path name = some (s.aliasOf path name) := by
  obtain ⟨a, ha⟩ := h.exists_alias_iff.mpr hmem
  rw [aliasOf, ha]
  rfl

theorem usedAt_concat (us : List (Text × Text)) (path name path' : Text) :
    usedAt (us ++ [(path, name)]) path' =
      if path = path' then usedAt us path' ++ [name] else usedAt us path' := by
  unfold usedAt
  rw [List.filter_append, List.map_append]
  split
  · next heq => simp [heq]
  · next hne => simp [hne]

/-- What was used may be used again. -/
theorem Records.again (h : Records us s) (hmem : (path, name) ∈ us) :
    Records (us ++ [(path, name)]) s where
  sound := h.sound
  paths := by
    rw [List.map_append, List.map_singleton, eraseDups_concat, if_pos (List.mem_map_of_mem hmem)]
    exact h.paths
  names path' := by
    rw [h.names, usedAt_concat]
    split
    · next heq => rw [eraseDups_concat, if_pos (mem_usedAt.mpr (heq ▸ hmem))]
    · rfl

/-- What was not used goes to the end, of its path at least. -/
theorem Records.store (h : Records us s) (hnew : (path, name) ∉ us) :
    Records (us ++ [(path, name)])
      (s.store path name (Interface.makeAlias "imported".toList name s.aliases)) where
  sound := h.sound.store trivial
  paths := by
    rw [List.map_append, List.map_singleton, eraseDups_concat, ImportedNames.store, Table.insert,
      Table.keys_upsert, h.paths]
    simp only [List.mem_eraseDups]
  names path' := by
    rw [ImportedNames.store, Table.get?_insert, usedAt_concat]
    by_cases hpath : path' = path
    · subst hpath
      rw [if_pos rfl, if_pos rfl, Option.getD_some, Table.insert, Table.keys_upsert, h.names,
        eraseDups_concat]
      simp only [List.mem_eraseDups]
    · rw [if_neg hpath, if_neg (Ne.symm hpath)]
      exact h.names path'

/-- **One more use.** -/
theorem Records.aliasFor (h : Records us s) (path name : Text) :
    Records (us ++ [(path, name)]) (s.aliasFor path name).2 := by
  unfold ImportedNames.aliasFor
  simp only [get?_getD_paths]
  split
  · next a ha => exact h.again (h.exists_alias_iff.mp ⟨a, ha⟩)
  · next hnone =>
    refine h.store fun hmem => ?_
    rw [h.alias?_eq hmem] at hnone
    cases hnone

theorem Records.aliasesFor (h : Records us s) (path : Text) (names : List Text) :
    Records (us ++ names.map ((path, ·))) (s.aliasesFor path names).2 := by
  induction names generalizing us s with
  | nil =>
    rw [List.map_nil, List.append_nil]
    exact h
  | cons name names ih =>
    have hrest := ih (h.aliasFor path name)
    rw [List.append_assoc] at hrest
    exact hrest

end Steps

/-! ## 3. What is written -/

/-- What becomes of a declaration or of a tree: its uses are recorded, no alias is given up, and it
    is edited by the aliases that there are then or later. -/
structure Written {α : Type} (us more : List (Text × Text)) (s : ImportedNames)
    (edit : (Text → Text → Text) → α) (written : α × ImportedNames) : Prop where
  records : Records (us ++ more) written.2
  grows : Grows s written.2
  edited : ∀ s', Grows written.2 s' → written.1 = edit s'.aliasOf

theorem decl_written {us : List (Text × Text)} {s : ImportedNames} (h : Records us s) (d : Decl) :
    Written us (uses d) s (declWith · d) (s.decl d) := by
  cases hrequest : request? d with
  | none =>
    rw [uses, hrequest]
    refine ⟨?_, ?_, fun s' _ => ?_⟩
    · rw [decl_of_no_request hrequest s s.aliasOf]
      exact (List.append_nil us).symm ▸ h
    · rw [decl_of_no_request hrequest s s.aliasOf]
      exact .refl s
    · rw [decl_of_no_request hrequest s s'.aliasOf]
  | some r =>
    obtain ⟨path, names⟩ := r
    have hall : ∀ name ∈ names, (fun _ => True) (Composed.imported path name) :=
      fun _ _ => trivial
    obtain ⟨_, hgrows, haliases⟩ := h.sound.aliasesFor hall
    rw [uses, hrequest, decl_of_request hrequest]
    refine ⟨h.aliasesFor path names, hgrows, fun s' hs' => ?_⟩
    have hnames : names.map (s'.aliasOf path) = (s.aliasesFor path names).1 := by
      have hget := congrArg (List.map (Option.getD · [])) (haliases s' hs')
      rw [List.map_map, List.map_map] at hget
      exact hget.trans (List.map_id _)
    rw [declWith_of_request hrequest, hnames]

/-- The uses in a tree. -/
def nodeUses (n : Node) : List (Text × Text) :=
  (n.preorder.filterMap Node.decl?).flatMap uses

/-- The uses in the nodes of a block. -/
def nodesUses (ns : List Node) : List (Text × Text) :=
  ((preorderAll ns).filterMap Node.decl?).flatMap uses

theorem nodesUses_cons (n : Node) (ns : List Node) :
    nodesUses (n :: ns) = nodeUses n ++ nodesUses ns := by
  rw [nodesUses, preorderAll, List.filterMap_append, List.flatMap_append]
  rfl

mutual

theorem node_written {us : List (Text × Text)} {s : ImportedNames} (h : Records us s) (n : Node) :
    Written us (nodeUses n) s (fun a => n.mapNodes (Node.editDecl (declWith a))) (node s n) := by
  match n with
  | .rule sel l b ns =>
    have hns := nodes_written h ns
    exact ⟨hns.records, hns.grows, fun s' hs' => congrArg (Node.rule sel l b) (hns.edited s' hs')⟩
  | .atBlock head l b ns =>
    have hns := nodes_written h ns
    exact ⟨hns.records, hns.grows,
      fun s' hs' => congrArg (Node.atBlock head l b) (hns.edited s' hs')⟩
  | .atStatement head l => exact ⟨(List.append_nil us).symm ▸ h, .refl s, fun _ _ => rfl⟩
  | .decl d l =>
    have hd := decl_written h d
    refine ⟨?_, hd.grows, fun s' hs' => congrArg (Node.decl · l) (hd.edited s' hs')⟩
    have huses : nodeUses (.decl d l) = uses d := List.append_nil _
    rw [huses]
    exact hd.records
  | .comment t l => exact ⟨(List.append_nil us).symm ▸ h, .refl s, fun _ _ => rfl⟩

/-- **Aliases made on the way are the aliases that there are in the end.** -/
theorem nodes_written {us : List (Text × Text)} {s : ImportedNames} (h : Records us s)
    (ns : List Node) :
    Written us (nodesUses ns) s (fun a => mapAllNodes (Node.editDecl (declWith a)) ns)
      (nodes s ns) := by
  match ns with
  | [] => exact ⟨(List.append_nil us).symm ▸ h, .refl s, fun _ _ => rfl⟩
  | n :: ns =>
    have hn := node_written h n
    have hns := nodes_written hn.records ns
    refine ⟨?_, hn.grows.trans hns.grows, fun s' hs' => ?_⟩
    · have hrecords := hns.records
      rw [List.append_assoc, ← nodesUses_cons] at hrecords
      exact hrecords
    · exact List.cons_eq_cons.mpr ⟨hn.edited s' (hns.grows.trans hs'), hns.edited s' hs'⟩

end

/-! ## 4. What is bound -/

/-- The bindings for what is used from a path: aliases and names. -/
def bindings (aliasOf : Text → Text → Text) (us : List (Text × Text)) (path : Text) :
    List (Text × Text) :=
  (usedAt us path).eraseDups.map fun name => (aliasOf path name, name)

/-- What a word stands for by import blocks: the path of the block that binds it, and the name. -/
def meaning? (blocks : List Node) (word : Text) : Option (Text × Text) :=
  (blocks.filterMap Interface.ofImport?).findSome? fun i =>
    (Table.findEntry word i.2).map ((i.1, ·))

section Blocks

variable {us : List (Text × Text)} {s : ImportedNames}

theorem mem_bindings {aliasOf : Text → Text → Text} {path name a : Text} :
    (a, name) ∈ bindings aliasOf us path ↔ a = aliasOf path name ∧ (path, name) ∈ us := by
  rw [bindings, List.mem_map, ← mem_usedAt, ← List.mem_eraseDups]
  constructor
  · intro ⟨name', hmem, heq⟩
    obtain ⟨rfl, rfl⟩ := Prod.mk.inj heq
    exact ⟨rfl, hmem⟩
  · intro ⟨ha, hmem⟩
    exact ⟨name, hmem, by rw [ha]⟩

/-- **The import blocks**: one for each path that is used, in the order of first uses. -/
theorem Records.blocks_eq (h : Records us s) :
    s.blocks = (us.map Prod.fst).eraseDups.map fun path =>
      Interface.importBlock path (bindings s.aliasOf us path) := by
  rw [blocks, Table.entries_eq_map h.sound.paths .empty, h.paths, List.map_map]
  refine List.map_congr_left fun path hpath => ?_
  have hnodup : ((s.paths.get? path).getD .empty).keys.Nodup := by
    cases ht : s.paths.get? path with
    | none => exact List.nodup_nil
    | some t => exact h.sound.names ht
  show Interface.importBlock path (((s.paths.get? path).getD .empty).entries.map _) = _
  rw [Table.entries_eq_map hnodup [], h.names, List.map_map]
  refine congrArg (Interface.importBlock path) (List.map_congr_left fun name _ => ?_)
  show ((((s.paths.get? path).getD .empty).get? name).getD [], name) = _
  rw [get?_getD_paths]
  rfl

/-- Two uses have one alias if they are the same use, and only then. -/
theorem Records.aliasOf_inj (h : Records us s) {use other : Text × Text} (huse : use ∈ us)
    (hother : other ∈ us) :
    s.aliasOf use.1 use.2 = s.aliasOf other.1 other.2 ↔ use = other := by
  constructor
  · intro heq
    have halias := h.alias?_eq huse
    rw [heq] at halias
    obtain ⟨hpath, hname⟩ := h.sound.distinct halias (h.alias?_eq hother)
    exact Prod.ext hpath hname
  · intro heq
    rw [heq]

theorem Records.nodup_bindings (h : Records us s) (path : Text) :
    ((bindings s.aliasOf us path).map Prod.fst).Nodup ∧
      ((bindings s.aliasOf us path).map Prod.snd).Nodup := by
  have hnames : (usedAt us path).eraseDups.Nodup := by
    rw [← h.names]
    cases ht : s.paths.get? path with
    | none => exact List.nodup_nil
    | some t => exact h.sound.names ht
  constructor
  · rw [bindings, List.map_map]
    refine List.pairwise_map.mpr (hnames.imp_of_mem fun hname hother hne heq => hne ?_)
    rw [List.mem_eraseDups, mem_usedAt] at hname hother
    exact (Prod.mk.inj ((h.aliasOf_inj hname hother).mp heq)).2
  · rw [bindings, List.map_map]
    exact (List.map_id _).symm ▸ hnames

/-- The path that is read from the import block for a path. -/
def pathRead (path : Text) : Text :=
  Text.trimEndBy Text.isQuote (Text.trimStartBy Text.isQuote (path ++ ['"']))

theorem imports_importBlocks (paths : List Text) (f : Text → List (Text × Text)) :
    (paths.map fun path => Interface.importBlock path (f path)).filterMap Interface.ofImport? =
      paths.map fun path => (pathRead path, f path) := by
  have hread : (Interface.ofImport? ∘ fun path => Interface.importBlock path (f path)) =
      some ∘ fun path => (pathRead path, f path) := by
    funext path
    show (Interface.importPath? (":import(\"".toList ++ path ++ "\")".toList)).map _ = _
    rw [Interface.importPath?_selector, Option.map_some, Interface.pairs_declarations]
    rfl
  rw [List.filterMap_map, hread, List.filterMap_eq_map]

/-- **An alias stands for its use.** -/
theorem Records.meaning? (h : Records us s) {path name : Text} (hmem : (path, name) ∈ us)
    {blocks : List Node} (hblocks : blocks.map Node.bare = s.blocks.map Node.bare) :
    meaning? blocks (s.aliasOf path name) = some (pathRead path, name) := by
  unfold ImportedNames.meaning?
  rw [imports_of_map_bare hblocks, h.blocks_eq, imports_importBlocks, List.findSome?_map]
  -- whichever block binds the alias, it is that of the path, and it binds it to the name
  have honly : ∀ path' name',
      Table.findEntry (s.aliasOf path name) (bindings s.aliasOf us path') = some name' →
        path' = path ∧ name' = name := by
    intro path' name' hfound
    obtain ⟨heq, hmem'⟩ := mem_bindings.mp (Table.mem_of_findEntry hfound)
    exact Prod.mk.inj ((h.aliasOf_inj hmem hmem').mp heq).symm
  have hpath : path ∈ (us.map Prod.fst).eraseDups :=
    List.mem_eraseDups.mpr (List.mem_map_of_mem hmem)
  have hkey : s.aliasOf path name ∈ (⟨bindings s.aliasOf us path⟩ : Table Text).keys :=
    List.mem_map_of_mem (f := Prod.fst) (mem_bindings.mpr ⟨rfl, hmem⟩)
  obtain ⟨name', hname'⟩ := Table.mem_keys_iff.mp hkey
  cases hfound : List.findSome? _ (us.map Prod.fst).eraseDups with
  | none =>
    have hnone := List.findSome?_eq_none_iff.mp hfound path hpath
    have hnone' := Option.map_eq_none_iff.mp hnone
    exact absurd (hname'.symm.trans hnone') (by simp)
  | some found =>
    obtain ⟨path', _, hpath'⟩ := List.exists_of_findSome?_eq_some hfound
    obtain ⟨name'', hname'', rfl⟩ := Option.map_eq_some_iff.mp hpath'
    obtain ⟨rfl, rfl⟩ := honly path' name'' hname''
    rfl

end Blocks

/-! ## 5. Sheets -/

/-- A sheet whose compositions from elsewhere are written with aliases: import blocks in front of
    it, and the rest. -/
structure Encoded (aliasOf : Text → Text → Text) (sheet : Stylesheet) (blocks rest : List Node) :
    Prop where
  /-- There is one block for each path that is used, in the order of first uses. It binds aliases to
      the names that are used from there. -/
  bound : blocks.map Node.bare =
    ((nodesUses sheet.nodes).map Prod.fst).eraseDups.map fun path =>
      (Interface.importBlock path (bindings aliasOf (nodesUses sheet.nodes) path)).bare
  /-- In a block, no alias and no name stands twice. -/
  distinct : ∀ path, ((bindings aliasOf (nodesUses sheet.nodes) path).map Prod.fst).Nodup ∧
    ((bindings aliasOf (nodesUses sheet.nodes) path).map Prod.snd).Nodup
  /-- Uses share an alias if path and name are the same, and only then. -/
  shared : ∀ use ∈ nodesUses sheet.nodes, ∀ other ∈ nodesUses sheet.nodes,
    aliasOf use.1 use.2 = aliasOf other.1 other.2 ↔ use = other
  /-- The rest is the sheet with other values of compositions, up to the blanks in front of it. -/
  kept : rest.map Node.bare = (sheet.mapDecls (declWith aliasOf)).nodes.map Node.bare
  tail : rest.tail = (sheet.mapDecls (declWith aliasOf)).nodes.tail
  /-- The words of a composition are the aliases of its uses. -/
  words : ∀ d ∈ sheet.decls, ∀ path names, request? d = some (path, names) →
    names ≠ [] ∧ Text.words (declWith aliasOf d).value = names.map (aliasOf path)
  /-- Looked up in the blocks, these words are what was composed. -/
  decoded : ∀ d ∈ sheet.decls, ∀ path names, request? d = some (path, names) →
    path.head?.any Text.isQuote = false → path.getLast?.any Text.isQuote = false →
    (Text.words (declWith aliasOf d).value).map (meaning? blocks) =
      names.map fun name => some (path, name)

section Sheets

variable {sheet : Stylesheet} {s : ImportedNames}

theorem mem_nodesUses {d : Decl} (hd : d ∈ sheet.decls) {path name : Text} {names : List Text}
    (h : request? d = some (path, names)) (hname : name ∈ names) :
    (path, name) ∈ nodesUses sheet.nodes := by
  refine List.mem_flatMap.mpr ⟨d, hd, ?_⟩
  rw [uses, h]
  exact List.mem_map_of_mem hname

/-- The words of a composition from elsewhere are the aliases of what it uses. -/
theorem Records.words_declWith (h : Records (nodesUses sheet.nodes) s) {d : Decl}
    (hd : d ∈ sheet.decls) {path : Text} {names : List Text}
    (hrequest : request? d = some (path, names)) :
    Text.words (declWith s.aliasOf d).value = names.map (s.aliasOf path) := by
  rw [declWith_of_request hrequest]
  refine Text.words_join fun w hw => ?_
  obtain ⟨name, hname, rfl⟩ := List.mem_map.mp hw
  exact h.sound.isWord (h.alias?_eq (mem_nodesUses hd hrequest hname))

theorem pathRead_of_ends {path : Text} (hhead : path.head?.any Text.isQuote = false)
    (hlast : path.getLast?.any Text.isQuote = false) : pathRead path = path := by
  have hpath := Interface.importPath?_of_ends hhead hlast
  rw [Interface.importPath?_selector] at hpath
  exact Option.some.inj hpath

end Sheets

/-- **Compositions from elsewhere are encoded without loss**, in every sheet. -/
theorem run_lossless (sheet : Stylesheet) :
    ∃ aliasOf blocks rest, run sheet = { sheet with nodes := blocks ++ rest } ∧
      Encoded aliasOf sheet blocks rest := by
  have hwritten := nodes_written records_empty sheet.nodes
  have hrecords : Records (nodesUses sheet.nodes) (nodes empty sheet.nodes).2 := hwritten.records
  have hnodes := hwritten.edited _ (.refl _)
  generalize hs : (nodes empty sheet.nodes).2 = s at hrecords hnodes
  obtain ⟨blocks, rest, hrun, hblocks, hrest, htail⟩ :=
    Stylesheet.exists_prependAll s.blocks (sheet.mapDecls (declWith s.aliasOf))
  refine ⟨s.aliasOf, blocks, rest, ?_, ?_⟩
  · show Stylesheet.prependAll (nodes empty sheet.nodes).2.blocks
      { sheet with nodes := (nodes empty sheet.nodes).1 } = _
    rw [hs, hnodes]
    exact hrun
  · refine ⟨?_, hrecords.nodup_bindings, fun use huse other hother =>
      hrecords.aliasOf_inj huse hother, hrest, htail, fun d hd path names hrequest =>
      ⟨ne_nil_of_request? hrequest, hrecords.words_declWith hd hrequest⟩,
      fun d hd path names hrequest hhead hlast => ?_⟩
    · rw [hblocks, hrecords.blocks_eq, List.map_map]
      rfl
    · rw [hrecords.words_declWith hd hrequest, List.map_map]
      refine List.map_congr_left fun name hname => ?_
      have hmeaning := hrecords.meaning? (mem_nodesUses hd hrequest hname) hblocks
      rw [pathRead_of_ends hhead hlast] at hmeaning
      exact hmeaning

/-- A page that composes one name from two paths, and from one of them twice. -/
def composingPage : Stylesheet where
  nodes := [
    .ofRule ".a".toList [.ofDecl "composes".toList "b c from \"x\"".toList],
    .ofRule ".d".toList [.ofDecl "compose-with".toList "c from 'y'".toList],
    .ofRule ".e".toList [.ofDecl "composes".toList "c from \"x\"".toList]]
  after := []
  semicolon := false
  input := []

theorem run_lossless_page :
    nodesUses composingPage.nodes = [("x".toList, "b".toList), ("x".toList, "c".toList),
      ("y".toList, "c".toList), ("x".toList, "c".toList)] ∧
    ∃ aliasOf blocks rest, run composingPage = { composingPage with nodes := blocks ++ rest } ∧
      blocks.length = 2 ∧ ∃ d ∈ composingPage.decls,
        (Text.words (declWith aliasOf d).value).map (meaning? blocks) =
          [some ("x".toList, "b".toList), some ("x".toList, "c".toList)] := by
  have huses : nodesUses composingPage.nodes = [("x".toList, "b".toList),
      ("x".toList, "c".toList), ("y".toList, "c".toList), ("x".toList, "c".toList)] := by
    decide +kernel
  have hrequest : request? ⟨"composes".toList, "b c from \"x\"".toList, none⟩ =
      some ("x".toList, ["b".toList, "c".toList]) := by
    decide +kernel
  obtain ⟨aliasOf, blocks, rest, hrun, hencoded⟩ := run_lossless composingPage
  refine ⟨huses, aliasOf, blocks, rest, hrun, ?_, _, .head _,
    hencoded.decoded _ (.head _) _ _ hrequest rfl rfl⟩
  have hlength := congrArg List.length hencoded.bound
  rw [huses, List.length_map, List.length_map] at hlength
  rw [hlength]
  decide

end ImportedNames

end StyleModules
