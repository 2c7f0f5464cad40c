import StyleModules.Pass.NamedValues
import StyleModules.Proofs.LastBinding
import StyleModules.Proofs.LinkedExports

/-!
Named values in a sheet that is linked.

The value rules of a sheet are carried out in two steps: first every name gives way to its text, in
which an imported name is an alias, and then linking translates the aliases. `NamedValues.meaning?`
is what a name stands for in the end.

* `Node.replaceSymbols_replaceSymbols`: two replacements throughout a tree are one, if they are one
  in each of its texts.
* `NamedValues.Made` is what holds of the definitions and aliases at every moment.
* `NamedValues.link_run`: the linked sheet is the sheet without its value rules, every name replaced
  by what it stands for in the end, and that is also what the sheet exports for the name.
-/

namespace StyleModules

/-- Whether a selector is that of an import block or of an export block. -/
def Interface.isInterface (selector : Text) : Bool :=
  isImport selector || isExport selector

/-- The text of a node in which symbols are replaced. -/
def Node.symbolText? : Node → Option Text
  | .rule s _ _ _ => some s
  | .atBlock h _ _ _ => some h.params
  | .atStatement h _ => some h.params
  | .decl d _ => some d.value
  | .comment _ _ => none

/-- Whether a node is no block by which sheets talk to each other. -/
def Node.Plain (n : Node) : Prop :=
  ∀ s ∈ n.selector?, Interface.isInterface s = false

instance (n : Node) : Decidable n.Plain :=
  inferInstanceAs (Decidable (∀ s ∈ n.selector?, Interface.isInterface s = false))

theorem Node.Plain.isImportBlock {n : Node} (h : n.Plain) : Interface.isImportBlock n = false := by
  cases n with
  | rule s l b ns =>
    have himport := (Bool.or_eq_false_iff.mp (h s rfl)).1
    rw [Interface.isImportBlock, Interface.ofImport?, Interface.importPath?_of_isImport himport]
    rfl
  | _ => rfl

theorem Node.Plain.isExportBlock {n : Node} (h : n.Plain) : Interface.isExportBlock n = false := by
  cases n with
  | rule s l b ns => exact (Bool.or_eq_false_iff.mp (h s rfl)).2
  | _ => rfl

/-! ## 1. Replacing throughout a tree -/

section Tree

variable {first second both lookup : Text → Option Text}

theorem Node.replaceSymbols_rule {s : Text} (h : Interface.isInterface s = false) (l : Layout)
    (b : Bool) (ns : List Node) : (Node.rule s l b ns).replaceSymbols .all lookup =
      .rule (Symbol.replace lookup s) l b (replaceAllSymbols .all lookup ns) := by
  obtain ⟨himport, hexport⟩ := Bool.or_eq_false_iff.mp h
  rw [Node.replaceSymbols, himport, hexport]
  rfl

/-- What a node must fulfil for two replacements to be one in it. -/
structure Node.Fuses (first second both : Text → Option Text) (n : Node) : Prop where
  text : ∀ t ∈ n.symbolText?,
    Symbol.replace second (Symbol.replace first t) = Symbol.replace both t
  plain : n.Plain
  staysPlain : (n.replaceSymbols .all first).Plain

theorem AtHead.replaceSymbols_replaceSymbols {h : AtHead}
    (hparams : Symbol.replace second (Symbol.replace first h.params) =
      Symbol.replace both h.params) :
    (h.replaceSymbols .all first).replaceSymbols .all second = h.replaceSymbols .all both := by
  unfold AtHead.replaceSymbols replaceIf
  dsimp only
  split
  · rw [hparams]
  · rfl

mutual

/-- Two replacements in a node are one. -/
theorem Node.replaceSymbols_replaceSymbols (n : Node)
    (h : ∀ m ∈ n.preorder, m.Fuses first second both) :
    (n.replaceSymbols .all first).replaceSymbols .all second = n.replaceSymbols .all both := by
  match n with
  | .rule s l b ns =>
    obtain ⟨hhere, hbelow⟩ := List.forall_mem_cons.mp h
    have hs := hhere.plain s rfl
    have hs' := hhere.staysPlain
    rw [Node.replaceSymbols_rule hs] at hs'
    rw [Node.replaceSymbols_rule hs, Node.replaceSymbols_rule hs,
      Node.replaceSymbols_rule (hs' _ rfl), hhere.text s rfl,
      replaceAllSymbols_replaceAllSymbols ns hbelow]
  | .atBlock head l b ns =>
    obtain ⟨hhere, hbelow⟩ := List.forall_mem_cons.mp h
    simp only [Node.replaceSymbols, AtHead.replaceSymbols_replaceSymbols (hhere.text _ rfl),
      replaceAllSymbols_replaceAllSymbols ns hbelow]
  | .atStatement head l =>
    have hhere := h _ List.mem_cons_self
    simp only [Node.replaceSymbols, AtHead.replaceSymbols_replaceSymbols (hhere.text _ rfl)]
  | .decl d l =>
    have hvalue := (h _ List.mem_cons_self).text d.value rfl
    simp only [Node.replaceSymbols, Targets.all, replaceIf, if_true, hvalue]
  | .comment t l => rfl

/-- Two replacements in a block are one. -/
theorem replaceAllSymbols_replaceAllSymbols (ns : List Node)
    (h : ∀ m ∈ preorderAll ns, m.Fuses first second both) :
    replaceAllSymbols .all second (replaceAllSymbols .all first ns) =
      replaceAllSymbols .all both ns := by
  match ns with
  | [] => rfl
  | n :: ns =>
    obtain ⟨hn, hns⟩ := List.forall_mem_append.mp h
    rw [replaceAllSymbols, replaceAllSymbols, replaceAllSymbols,
      n.replaceSymbols_replaceSymbols hn, replaceAllSymbols_replaceAllSymbols ns hns]

end

/-- A declaration with symbols replaced in its value. -/
def Decl.replaceSymbols (lookup : Text → Option Text) (d : Decl) : Decl :=
  { d with value := Symbol.replace lookup d.value }

mutual

theorem Node.decls_replaceSymbols (n : Node)
    (h : ∀ m ∈ n.preorder, m.Plain) :
    (n.replaceSymbols .all lookup).preorder.filterMap Node.decl? =
      (n.preorder.filterMap Node.decl?).map (Decl.replaceSymbols lookup) := by
  match n with
  | .rule s l b ns =>
    obtain ⟨hhere, hbelow⟩ := List.forall_mem_cons.mp h
    rw [Node.replaceSymbols_rule (hhere s rfl)]
    exact decls_replaceAllSymbols ns hbelow
  | .atBlock head l b ns => exact decls_replaceAllSymbols ns (List.forall_mem_cons.mp h).2
  | .atStatement head l => rfl
  | .decl d l => rfl
  | .comment t l => rfl

theorem decls_replaceAllSymbols (ns : List Node)
    (h : ∀ m ∈ preorderAll ns, m.Plain) :
    (preorderAll (replaceAllSymbols .all lookup ns)).filterMap Node.decl? =
      ((preorderAll ns).filterMap Node.decl?).map (Decl.replaceSymbols lookup) := by
  match ns with
  | [] => rfl
  | n :: ns =>
    obtain ⟨hn, hns⟩ := List.forall_mem_append.mp h
    rw [replaceAllSymbols, preorderAll, preorderAll, List.filterMap_append, List.filterMap_append,
      List.map_append, n.decls_replaceSymbols hn, decls_replaceAllSymbols ns hns]

end

theorem mem_preorderAll {n : Node} {ns : List Node} (h : n ∈ ns) : n ∈ preorderAll ns := by
  induction ns with
  | nil => cases h
  | cons m ns ih =>
    rw [preorderAll, List.mem_append]
    rcases List.mem_cons.mp h with rfl | hns
    · exact .inl (by cases n <;> exact List.mem_cons_self)
    · exact .inr (ih hns)

theorem Node.bare_replaceSymbols (n : Node) :
    (n.replaceSymbols .all lookup).bare = n.bare.replaceSymbols .all lookup := by
  cases n with
  | rule s l b ns =>
    show _ = (Node.rule s { l with before := [] } b ns).replaceSymbols .all lookup
    rw [Node.replaceSymbols, Node.replaceSymbols]
    split <;> rfl
  | _ => rfl

/-- Replacing sees no blanks in front of nodes. -/
theorem replaceAllSymbols_of_map_bare {ns ms : List Node}
    (h : ns.map Node.bare = ms.map Node.bare) :
    (replaceAllSymbols .all lookup ns).map Node.bare =
      (replaceAllSymbols .all lookup ms).map Node.bare := by
  have hmap : ∀ ks : List Node, (replaceAllSymbols .all lookup ks).map Node.bare =
      (ks.map Node.bare).map (·.replaceSymbols .all lookup) := by
    intro ks
    rw [Link.replaceAllSymbols_eq_map, List.map_map, List.map_map]
    exact List.map_congr_left fun n _ => n.bare_replaceSymbols
  rw [hmap, h, ← hmap]

theorem decls_of_map_bare {ns ms : List Node} (h : ns.map Node.bare = ms.map Node.bare) :
    (preorderAll ns).filterMap Node.decl? = (preorderAll ms).filterMap Node.decl? := by
  have hflat : ∀ ks : List Node, (preorderAll ks).filterMap Node.decl? =
      ks.flatMap fun n => n.preorder.filterMap Node.decl? := by
    intro ks
    induction ks with
    | nil => rfl
    | cons k ks ih => rw [preorderAll, List.filterMap_append, ih, List.flatMap_cons]
  rw [hflat, hflat]
  exact flatMap_of_map_bare (fun n => by cases n <;> rfl) h

end Tree

/-! ## 2. Definitions and aliases -/

namespace NamedValues

/-- The start of every alias of a value. -/
def aliasStart : Text :=
  "i__value_".toList

/-- What a name stands for in the end: its text with the aliases translated. -/
def meaning? (v : NamedValues) (translation? : Text → Option Text) (name : Text) : Option Text :=
  (v.definitions.get? name).map (Symbol.replace translation?)

/-- A sheet without its value rules. -/
def body (sheet : Stylesheet) : Stylesheet :=
  sheet.retain fun n => (params? n).isNone

/-- What holds of the definitions and the aliases at every moment. -/
structure Made (v : NamedValues) : Prop where
  definitions : v.definitions.keys.Nodup
  imports : v.imports.keys.Nodup
  aliases : ∀ path bindings, v.imports.get? path = some bindings →
    ∀ b ∈ bindings, aliasStart.isPrefixOf b.1 = true

theorem isPrefixOf_makeAlias (name : Text) (number : Nat) :
    aliasStart.isPrefixOf (Interface.makeAlias "value".toList name number) = true :=
  rfl

theorem made_empty : Made empty :=
  ⟨.nil, .nil, fun _ _ h => by cases h⟩

theorem Made.importName {v : NamedValues} (h : v.Made) (path name : Text) :
    (importName path v name).Made := by
  refine ⟨Table.nodup_keys_upsert h.definitions _ _, Table.nodup_keys_upsert h.imports _ _, ?_⟩
  intro other bindings hbindings b hb
  have hget : (v.imports.upsert path fun bound => bound.getD [] ++
      [(Interface.makeAlias "value".toList (remoteAndLocal name).1 v.aliases,
        (remoteAndLocal name).1)]).get? other = some bindings := hbindings
  rw [Table.get?_upsert] at hget
  split at hget
  · cases hget
    rcases List.mem_append.mp hb with hold | hnew
    · cases hpath : v.imports.get? path with
      | none =>
        rw [hpath] at hold
        cases hold
      | some bound =>
        rw [hpath] at hold
        exact h.aliases path bound hpath b hold
    · rw [List.mem_singleton.mp hnew]
      exact isPrefixOf_makeAlias _ _
  · exact h.aliases other bindings hget b hb

theorem Made.add {v v' : NamedValues} (h : v.Made) {params : Text} (hadd : v.add params = .ok v') :
    v'.Made := by
  unfold NamedValues.add at hadd
  split at hadd
  · next clause _ =>
    cases hadd
    generalize importNames clause.names = names, v.path clause.source = path
    induction names generalizing v with
    | nil => exact h
    | cons name names ih => exact ih (h.importName path name)
  · split at hadd
    · cases hadd
      exact ⟨Table.nodup_keys_upsert h.definitions _ _, h.imports, h.aliases⟩
    · cases hadd

/-- What the value rules of a sheet say is made step by step. -/
theorem made_of_collect {nodes : List Node} {v : NamedValues} (h : collect nodes = .ok v) :
    v.Made := by
  have hrun : ∀ (rules : List Text) (s : NamedValues), s.Made → rules.foldlM add s = .ok v →
      v.Made := by
    intro rules
    induction rules with
    | nil =>
      intro s hs hfold
      cases hfold
      exact hs
    | cons params rules ih =>
      intro s hs hfold
      rw [List.foldlM_cons] at hfold
      cases hadd : s.add params with
      | error e =>
        rw [hadd] at hfold
        cases hfold
      | ok s' =>
        rw [hadd] at hfold
        exact ih s' (hs.add hadd) hfold
  exact hrun _ empty made_empty h

/-! ## 3. The sheet that is linked -/

/-- The blocks that go in front of a sheet. -/
def blocks (v : NamedValues) : List Node :=
  (v.imports.entries.map fun e => Interface.importBlock e.1 e.2) ++
    [Interface.exportBlock v.definitions.entries]

theorem map_bare_apply (v : NamedValues) (sheet : Stylesheet) :
    (v.apply sheet).nodes.map Node.bare =
      (v.blocks ++ replaceAllSymbols .all v.definitions.get? sheet.nodes).map Node.bare := by
  rw [apply, Stylesheet.map_bare_prependAll, List.map_append, Stylesheet.map_bare_prepend, blocks,
    List.append_assoc, List.map_append]
  rfl

theorem ofImport?_importBlock (path : Text) (bindings : List (Text × Text)) :
    (Interface.ofImport? (Interface.importBlock path bindings)).map Prod.snd = some bindings := by
  rw [Interface.importBlock, Node.ofRule, Interface.ofImport?, Interface.importPath?_selector,
    Interface.pairs_declarations]
  rfl

theorem filter_blocks (v : NamedValues) : (v.blocks.filter fun n => !Interface.isImportBlock n) =
    [Interface.exportBlock v.definitions.entries] := by
  have himport : ∀ e : Text × List (Text × Text),
      Interface.isImportBlock (Interface.importBlock e.1 e.2) = true := by
    intro e
    have hsome := ofImport?_importBlock e.1 e.2
    rw [Interface.isImportBlock, ← Option.isSome_map (f := Prod.snd), hsome]
    rfl
  have hnone : (v.imports.entries.map fun e => Interface.importBlock e.1 e.2).filter
      (fun n => !Interface.isImportBlock n) = [] := by
    rw [List.filter_eq_nil_iff]
    intro n hn
    obtain ⟨e, _, rfl⟩ := List.mem_map.mp hn
    simp [himport e]
  rw [blocks, List.filter_append, hnone]
  rfl

/-- The bindings of a sheet that starts with the blocks, and else has no import blocks. -/
theorem Made.isPrefixOf_of_mem {v : NamedValues} (hv : v.Made) {sheet : Stylesheet}
    {ns : List Node} (hns : ∀ n ∈ ns, n.Plain)
    (hsheet : sheet.nodes.map Node.bare = (v.blocks ++ ns).map Node.bare) {block : ImportBlock}
    (hblock : block ∈ Link.importBlocks sheet) {b : Text × Text} (hb : b ∈ block.bindings) :
    aliasStart.isPrefixOf b.1 = true := by
  rw [Link.importBlocks_eq, imports_of_map_bare hsheet] at hblock
  obtain ⟨i, hi, rfl⟩ := List.mem_map.mp hblock
  obtain ⟨n, hn, hni⟩ := List.mem_filterMap.mp hi
  rcases List.mem_append.mp hn with hfront | hrest
  · rcases List.mem_append.mp hfront with himport | hexport
    · obtain ⟨e, he, rfl⟩ := List.mem_map.mp himport
      have hbindings := ofImport?_importBlock e.1 e.2
      rw [hni] at hbindings
      have hentry := (Table.get?_eq_some_iff hv.imports).mpr he
      exact hv.aliases e.1 e.2 hentry b (Option.some.inj hbindings ▸ hb)
    · rw [List.mem_singleton.mp hexport] at hni
      cases hni
  · have hplain := (hns n hrest).isImportBlock
    rw [Interface.isImportBlock, hni] at hplain
    cases hplain

end NamedValues

theorem Link.importBlocks_of_plain {sheet : Stylesheet} (h : ∀ n ∈ sheet.nodes, n.Plain) :
    importBlocks sheet = [] := by
  rw [importBlocks_eq, List.map_eq_nil_iff, List.filterMap_eq_nil_iff]
  exact fun n hn => Option.isNone_iff_eq_none.mp
    (Option.isSome_eq_false_iff.mp (h n hn).isImportBlock)

theorem Link.exists_of_translation? {tolerance : Tolerance}
    {fetch : Nat → Text → Except LoadError Exports} {sheet : Stylesheet} {w value : Text}
    (h : translation? tolerance (fetchAll fetch sheet) w = some value) :
    ∃ block ∈ importBlocks sheet, ∃ b ∈ block.bindings, b.1 = w := by
  have hmem := List.mem_reverse.mp (Table.mem_of_findEntry h)
  obtain ⟨f, hf, hset⟩ := List.mem_flatMap.mp hmem
  obtain ⟨b, hb, hvalue⟩ := List.mem_filterMap.mp hset
  obtain ⟨_, _, heq⟩ := Option.map_eq_some_iff.mp hvalue
  obtain ⟨i, hi, rfl⟩ := List.mem_mapIdx.mp hf
  exact ⟨_, List.getElem_mem hi, b, hb, congrArg Prod.fst heq⟩

namespace NamedValues

section Linked

variable {v : NamedValues} {sheet rest : Stylesheet} {translation? : Text → Option Text}

/-- What is required of a node for its names to be replaced by what they stand for in the end. -/
structure Fits (v : NamedValues) (translation? : Text → Option Text) (n : Node) : Prop where
  fresh : ∀ t ∈ n.symbolText?, ∀ w ∈ Symbol.tokens t, aliasStart.isPrefixOf w = false
  plain : n.Plain
  staysPlain : (n.replaceSymbols .all v.definitions.get?).Plain
  endsPlain : (n.replaceSymbols .all (v.meaning? translation?)).Plain

instance (n : Node) : Decidable (Fits v translation? n) :=
  decidable_of_iff ((∀ t ∈ n.symbolText?, ∀ w ∈ Symbol.tokens t, aliasStart.isPrefixOf w = false) ∧
      n.Plain ∧ (n.replaceSymbols .all v.definitions.get?).Plain ∧
      (n.replaceSymbols .all (v.meaning? translation?)).Plain)
    ⟨fun ⟨hfresh, hplain, hstays, hends⟩ => ⟨hfresh, hplain, hstays, hends⟩,
      fun ⟨hfresh, hplain, hstays, hends⟩ => ⟨hfresh, hplain, hstays, hends⟩⟩

theorem Fits.fuses {n : Node} (h : Fits v translation? n)
    (hnames : ∀ name ∈ v.definitions.keys, name.all Text.isIdentChar = true)
    (hstart : ∀ w value, translation? w = some value → aliasStart.isPrefixOf w = true) :
    n.Fuses v.definitions.get? translation? (v.meaning? translation?) where
  text t ht := by
    refine Symbol.replace_replace ?_ ?_
    · intro w hw
      obtain ⟨text, hget⟩ := Option.isSome_iff_exists.mp hw
      exact hnames w (List.mem_map_of_mem (Table.mem_of_findEntry hget))
    · intro w hw _
      cases hvalue : translation? w with
      | none => rfl
      | some value =>
        have hfresh := h.fresh t ht w hw
        rw [hstart w value hvalue] at hfresh
        cases hfresh
  plain := h.plain
  staysPlain := h.staysPlain

theorem translated_of_fits
    (hnames : ∀ name ∈ v.definitions.keys, name.all Text.isIdentChar = true)
    (hstart : ∀ w value, translation? w = some value → aliasStart.isPrefixOf w = true)
    (hrest : ∀ n ∈ rest.preorder, Fits v translation? n) :
    (Link.translated translation? (v.apply rest)).nodes.map Node.bare =
      (Interface.exportBlock (v.definitions.entries.map fun e =>
          (e.1, Symbol.replace translation? e.2)) ::
        replaceAllSymbols .all (v.meaning? translation?) rest.nodes).map Node.bare := by
  have hkeep : ∀ before (n : Node), (!Interface.isImportBlock (n.withBefore before)) =
      !Interface.isImportBlock n := by
    intro before n
    cases n <;> rfl
  have hall : (replaceAllSymbols .all v.definitions.get? rest.nodes).filter
      (fun n => !Interface.isImportBlock n) =
        replaceAllSymbols .all v.definitions.get? rest.nodes := by
    rw [List.filter_eq_self, Link.replaceAllSymbols_eq_map]
    intro m hm
    obtain ⟨n, hn, rfl⟩ := List.mem_map.mp hm
    rw [(hrest n (mem_preorderAll hn)).staysPlain.isImportBlock]
    rfl
  have hretain : ((v.apply rest).retain fun n => !Interface.isImportBlock n).nodes.map Node.bare =
      (Interface.exportBlock v.definitions.entries ::
        replaceAllSymbols .all v.definitions.get? rest.nodes).map Node.bare := by
    rw [Stylesheet.map_bare_retain hkeep, filter_of_map_bare (hkeep []) (map_bare_apply v rest),
      List.filter_append, filter_blocks, hall]
    rfl
  show (replaceAllSymbols .all translation? (Stylesheet.retain _ _).nodes).map Node.bare = _
  rw [replaceAllSymbols_of_map_bare hretain, replaceAllSymbols, Link.replaceSymbols_exportBlock,
    replaceAllSymbols_replaceAllSymbols rest.nodes fun n hn => (hrest n hn).fuses hnames hstart]

/-- A sheet without value definitions has no translations to make. -/
theorem translated_of_isEmpty (hempty : v.definitions.isEmpty = true)
    (hnone : ∀ w, translation? w = none) (hrest : ∀ n ∈ rest.preorder, Fits v translation? n) :
    (Link.translated translation? rest).nodes =
      replaceAllSymbols .all (v.meaning? translation?) rest.nodes := by
  have hmeaning : v.meaning? translation? = translation? := by
    funext name
    have hentries : v.definitions.entries = [] := List.isEmpty_iff.mp hempty
    rw [meaning?, Table.get?, hentries, hnone]
    rfl
  have hretain : rest.retain (fun n => !Interface.isImportBlock n) = rest := by
    refine Stylesheet.retain_of_forall fun n hn => ?_
    rw [(hrest n (mem_preorderAll hn)).plain.isImportBlock]
    rfl
  rw [Link.translated, hretain, hmeaning]
  rfl

/-- What becomes of a sheet that starts with its export blocks when they are taken out. -/
theorem retain_exported {done : Stylesheet} {front ns : List Node}
    (hfront : ∀ n ∈ front, Interface.isExportBlock n = true) (hns : ∀ n ∈ ns, n.Plain)
    (h : done.nodes.map Node.bare = (front ++ ns).map Node.bare) :
    (done.retain fun n => !Interface.isExportBlock n).nodes.map Node.bare = ns.map Node.bare ∧
      Link.exported done = front.flatMap fun n => Interface.pairs n.children := by
  have hbare : ∀ before (n : Node), Interface.isExportBlock (n.withBefore before) =
      Interface.isExportBlock n := by
    intro before n
    cases n <;> rfl
  have hbare' : ∀ before (n : Node), (!Interface.isExportBlock (n.withBefore before)) =
      !Interface.isExportBlock n :=
    fun before n => congrArg (!·) (hbare before n)
  constructor
  · have hdrop : front.filter (fun n => !Interface.isExportBlock n) = [] := by
      rw [List.filter_eq_nil_iff]
      intro n hn
      simp [hfront n hn]
    have hkeep : ns.filter (fun n => !Interface.isExportBlock n) = ns := by
      rw [List.filter_eq_self]
      intro n hn
      simp [(hns n hn).isExportBlock]
    rw [Stylesheet.map_bare_retain hbare', filter_of_map_bare (hbare' []) h, List.filter_append,
      hdrop, hkeep, List.nil_append]
  · have hkeep : front.filter Interface.isExportBlock = front := List.filter_eq_self.mpr hfront
    have hdrop : ns.filter Interface.isExportBlock = [] := by
      rw [List.filter_eq_nil_iff]
      intro n hn
      simp [(hns n hn).isExportBlock]
    have hfilter := filter_of_map_bare (hbare []) h
    rw [List.filter_append, hkeep, hdrop, List.append_nil] at hfilter
    exact flatMap_of_map_bare (fun n => by cases n <;> rfl) hfilter

end Linked

theorem run_of_collect {sheet : Stylesheet} {v : NamedValues} (h : collect sheet.nodes = .ok v) :
    run sheet = .ok (if v.definitions.isEmpty then body sheet else v.apply (body sheet)) := by
  rw [run, h]
  rfl

/-- The sheet when the aliases are translated: the symbols that it exports, if there are any, and
    then its rest with every name replaced by what it stands for. -/
theorem translated_run {tolerance : Tolerance} {fetch : Nat → Text → Except LoadError Exports}
    {sheet prepared : Stylesheet} {v : NamedValues} {translation? : Text → Option Text}
    (htranslation : Link.translation? tolerance (Link.fetchAll fetch prepared) = translation?)
    (hcollect : collect sheet.nodes = .ok v) (hrun : run sheet = .ok prepared)
    (hnames : ∀ name ∈ v.definitions.keys, name.all Text.isIdentChar = true)
    (hfits : ∀ n ∈ (body sheet).preorder, Fits v translation? n) :
    ∃ front : List Node, (∀ n ∈ front, Interface.isExportBlock n = true) ∧
      (front.flatMap fun n => Interface.pairs n.children) =
        v.definitions.entries.map (fun e => (e.1, Symbol.replace translation? e.2)) ∧
      (Link.translated translation? prepared).nodes.map Node.bare = (front ++
        replaceAllSymbols .all (v.meaning? translation?) (body sheet).nodes).map Node.bare := by
  have hbound : ∀ w value, translation? w = some value →
      ∃ block ∈ Link.importBlocks prepared, ∃ b ∈ block.bindings, b.1 = w := by
    intro w value hvalue
    rw [← htranslation] at hvalue
    exact Link.exists_of_translation? hvalue
  rw [run_of_collect hcollect] at hrun
  by_cases hempty : v.definitions.isEmpty = true
  · rw [if_pos hempty] at hrun
    cases hrun
    have hentries : v.definitions.entries = [] := List.isEmpty_iff.mp hempty
    have hnone : ∀ w, translation? w = none := by
      intro w
      cases hvalue : translation? w with
      | none => rfl
      | some value =>
        obtain ⟨block, hblock, _⟩ := hbound w value hvalue
        rw [Link.importBlocks_of_plain fun n hn => (hfits n (mem_preorderAll hn)).plain] at hblock
        cases hblock
    refine ⟨[], by simp, by rw [hentries]; rfl, ?_⟩
    exact congrArg _ (translated_of_isEmpty hempty hnone hfits)
  · rw [if_neg hempty] at hrun
    cases hrun
    have hstays : ∀ n ∈ replaceAllSymbols .all v.definitions.get? (body sheet).nodes, n.Plain := by
      rw [Link.replaceAllSymbols_eq_map]
      intro n hn
      obtain ⟨m, hm, rfl⟩ := List.mem_map.mp hn
      exact (hfits m (mem_preorderAll hm)).staysPlain
    have hstart : ∀ w value, translation? w = some value → aliasStart.isPrefixOf w = true := by
      intro w value hvalue
      obtain ⟨block, hblock, b, hb, rfl⟩ := hbound w value hvalue
      exact (made_of_collect hcollect).isPrefixOf_of_mem hstays (map_bare_apply v (body sheet))
        hblock hb
    refine ⟨[_], ?_, ?_, translated_of_fits hnames hstart hfits⟩
    · exact List.forall_mem_singleton.mpr rfl
    · exact (List.flatMap_singleton _ _).trans (Interface.pairs_declarations _)

/-- **Values are substituted directly.** Let a sheet define and import values under names that are
    plain words, and let no word in the rest of it look like an alias and no rule in the rest of it
    be an import block or an export block, neither as it was read nor after the replacement of the
    values or of the aliases in them. If the sheet is linked when its value rules have been carried
    out, then
    * the result is the rest of the sheet, with every name replaced by its text in which the aliases
      are translated,
    * the same text is exported for the name, and nothing else is exported. -/
theorem link_run (tolerance : Tolerance) (importer : Text)
    (fetch : Nat → Text → Except LoadError Exports) {sheet prepared linked : Stylesheet}
    {v : NamedValues} {exports : Exports} {notices : List Notice}
    (hcollect : collect sheet.nodes = .ok v) (hrun : run sheet = .ok prepared)
    (hlink : Link.linkFetched tolerance importer (Link.fetchAll fetch prepared) prepared =
      (.ok (linked, exports), notices))
    (hnames : ∀ name ∈ v.definitions.keys, name.all Text.isIdentChar = true)
    (hfits : ∀ n ∈ (body sheet).preorder,
      Fits v (Link.translation? tolerance (Link.fetchAll fetch prepared)) n) :
    let meaning? := v.meaning? (Link.translation? tolerance (Link.fetchAll fetch prepared))
    linked.nodes.map Node.bare =
        ((body sheet).replaceSymbols .all meaning?).nodes.map Node.bare ∧
      linked.decls = (body sheet).decls.map
        (fun d => { d with value := Symbol.replace meaning? d.value }) ∧
      exports.keys = v.definitions.keys ∧
      ∀ name, exports.get? name = meaning? name := by
  intro meaning?
  obtain ⟨hlinked, hexports, -, -⟩ := Link.linkFetched_eq hlink
  obtain ⟨front, hfront, hpairs, htranslated⟩ := translated_run rfl hcollect hrun hnames hfits
  have hends : ∀ n ∈ replaceAllSymbols .all meaning? (body sheet).nodes, n.Plain := by
    rw [Link.replaceAllSymbols_eq_map]
    intro n hn
    obtain ⟨m, hm, rfl⟩ := List.mem_map.mp hn
    exact (hfits m (mem_preorderAll hm)).endsPlain
  obtain ⟨hrest, hexported⟩ := retain_exported hfront hends htranslated
  rw [← hlinked] at hrest
  -- every name is defined once, so the export block is the table of exports
  have hnodup : ((v.definitions.entries.map fun e => (e.1, Symbol.replace
      (Link.translation? tolerance (Link.fetchAll fetch prepared)) e.2)).map Prod.fst).Nodup := by
    rw [List.map_map]
    exact (made_of_collect hcollect).definitions
  rw [Link.exportsOf_eq, hexported, hpairs, Table.ofList_of_nodup hnodup] at hexports
  refine ⟨hrest, (decls_of_map_bare hrest).trans ?_, ?_, fun name => ?_⟩
  · exact decls_replaceAllSymbols _ fun n hn => (hfits n hn).plain
  · rw [hexports, Table.keys, List.map_map]
    rfl
  · rw [hexports]
    exact Table.findEntry_map _ name _

/-- Values that are defined in terms of each other and of an imported one, and are used. -/
def valuePage : Stylesheet where
  nodes := [
    .atStatement ⟨"value".toList, " ".toList, "base: 4px".toList⟩ ⟨[], [], [], none⟩,
    .atStatement ⟨"value".toList, " ".toList, "tone, edge as side from \"./c.css\"".toList⟩
      ⟨[], [], [], none⟩,
    .atStatement ⟨"value".toList, " ".toList, "frame: base solid tone".toList⟩ ⟨[], [], [], none⟩,
    .ofRule ".box".toList
      [.ofDecl "border".toList "frame,$base".toList, .ofDecl "color".toList "side".toList]]
  after := []
  semicolon := false
  input := []

/-- What the value rules of the page say. -/
def pageValues : NamedValues where
  definitions := ⟨[("base".toList, "4px".toList), ("tone".toList, "i__value_tone_0".toList),
    ("side".toList, "i__value_edge_1".toList),
    ("frame".toList, "4px solid i__value_tone_0".toList)]⟩
  imports := ⟨[("./c.css".toList, [("i__value_tone_0".toList, "tone".toList),
    ("i__value_edge_1".toList, "edge".toList)])]⟩
  aliases := 2

/-- A module that exports one of the two symbols. -/
def valueAnswer (_ : Nat) (_ : Text) : Except LoadError Exports :=
  .ok ⟨[("tone".toList, "red".toList)]⟩

theorem link_run_page : ∃ prepared linked exports notices, run valuePage = .ok prepared ∧
    Link.linkFetched ⟨false, false⟩ "m".toList (Link.fetchAll valueAnswer prepared) prepared =
      (.ok (linked, exports), notices) ∧
    linked.decls.map Decl.value = ["4px solid red,$base".toList, "undefined".toList] ∧
    exports.keys = ["base".toList, "tone".toList, "side".toList, "frame".toList] ∧
    exports.get? "frame".toList = some "4px solid red".toList := by
  have hcollect : collect valuePage.nodes = .ok pageValues := by
    have hsome : (collect valuePage.nodes).toOption = some pageValues := by decide +kernel
    cases hresult : collect valuePage.nodes with
    | error e =>
      rw [hresult] at hsome
      cases hsome
    | ok v =>
      rw [hresult] at hsome
      exact congrArg _ (Option.some.inj hsome)
  have hbound : (Link.bindAll ⟨false, false⟩ "m".toList
      (Link.fetchAll valueAnswer (pageValues.apply (body valuePage))) .empty).1 =
        .ok ⟨[("i__value_tone_0".toList, "red".toList),
          ("i__value_edge_1".toList, "undefined".toList)]⟩ :=
    rfl
  have hrun := run_of_collect hcollect
  have hlink := Link.linkFetched_of_bindAll hbound (pageValues.apply (body valuePage))
  obtain ⟨-, hdecls, hkeys, hvalues⟩ :=
    link_run ⟨false, false⟩ "m".toList valueAnswer hcollect hrun hlink (by decide +kernel)
      (by decide +kernel)
  refine ⟨_, _, _, _, hrun, hlink, ?_, hkeys, (hvalues _).trans ?_⟩
  · rw [hdecls]
    decide +kernel
  · decide +kernel

end NamedValues

end StyleModules
