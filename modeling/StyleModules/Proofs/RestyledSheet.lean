import StyleModules.Proofs.PlacedNodes
import StyleModules.Proofs.UnmarkedSelector
import StyleModules.Proofs.ValueSubstitution

/-!
What the passes may change in a sheet that neither defines values nor composes classes.

* `Node.Restyled` is the frame: selectors that mention names, the names of animations and the values
  that use them or hold a mark. All else of a node stays, its place and its layout included.
* Marking keeps to it (`Node.restyled_marked`), and so does scoping what was marked, which never
  fails here (`ScopedNames.scopeNode_restyled`).
* The export block that scoping puts at the end is the only block that linking finds, and it is
  taken out without a trace (`Link.link_append_exports`).
* `Stylesheet.passes_restyle` puts these together: the whole way through the passes keeps to the
  frame, and a sheet in which the frame leaves nothing to change is printed as it was read.
-/

namespace StyleModules

/-! ## 1. The frame -/

/-- Whether a declaration uses animations. -/
def Decl.usesAnimation (d : Decl) : Bool :=
  Text.lower d.prop == "animation".toList || Text.lower d.prop == "animation-name".toList

/-- Whether the passes may change a selector. In the steps of an animation only marks that are
    there already are scoped. -/
def Selector.mayChange (inKeyframes : Bool) (s : Text) : Bool :=
  if inKeyframes then Text.contains ":local(".toList s else mentionsNames s

mutual

/-- What the passes may make of a node. -/
def Node.Restyled (inKeyframes : Bool) : Node → Node → Prop
  | .rule s l b ns, n' => ∃ s' ns', n' = .rule s' l b ns' ∧
    (s' = s ∨ Selector.mayChange inKeyframes s = true) ∧ RestyledAll inKeyframes ns ns'
  | .atBlock h l b ns, n' => ∃ params ns', n' = .atBlock { h with params } l b ns' ∧
    (params = h.params ∨ AtHead.isKeyframes h.name = true) ∧
      RestyledAll (inKeyframes || AtHead.isKeyframes h.name) ns ns'
  | .atStatement h l, n' => ∃ params, n' = .atStatement { h with params } l ∧
    (params = h.params ∨ AtHead.isKeyframes h.name = true)
  | .decl d l, n' => ∃ value, n' = .decl { d with value } l ∧
    (value = d.value ∨ d.usesAnimation = true ∨ Text.contains ":local(".toList d.value = true)
  | .comment t l, n' => n' = .comment t l

/-- What the passes may make of the nodes of a block: as many, in the same order. -/
def RestyledAll (inKeyframes : Bool) : List Node → List Node → Prop
  | [], ns' => ns' = []
  | n :: ns, ns' => ∃ m ms, ns' = m :: ms ∧ n.Restyled inKeyframes m ∧
    RestyledAll inKeyframes ns ms

end

/-- Whether the frame leaves nothing to change in a node itself. -/
def Node.isUnnamed : Node → Bool
  | .rule s _ _ _ => !Selector.mentionsNames s
  | .atBlock h _ _ _ => !AtHead.isKeyframes h.name
  | .atStatement h _ => !AtHead.isKeyframes h.name
  | .decl d _ => !d.usesAnimation && !Text.contains ":local(".toList d.value
  | .comment _ _ => true

mutual

/-- A node without anything to change stays the same. -/
theorem Node.Restyled.eq_of_isUnnamed (n : Node) {n' : Node} (h : n.Restyled false n')
    (hn : ∀ k ∈ n.preorder, k.isUnnamed = true) : n' = n := by
  match n with
  | .rule s l b ns =>
    obtain ⟨s', ns', rfl, hs, hns⟩ := h
    obtain ⟨hhere, hbelow⟩ := List.forall_mem_cons.mp hn
    rw [RestyledAll.eq_of_isUnnamed ns hns hbelow]
    rcases hs with rfl | hs
    · rfl
    · rw [Node.isUnnamed, show Selector.mentionsNames s = true from hs] at hhere
      cases hhere
  | .atBlock head l b ns =>
    obtain ⟨params, ns', rfl, hparams, hns⟩ := h
    obtain ⟨hhere, hbelow⟩ := List.forall_mem_cons.mp hn
    have hname : AtHead.isKeyframes head.name = false := by simpa [Node.isUnnamed] using hhere
    rw [hname] at hns hparams
    rw [RestyledAll.eq_of_isUnnamed ns hns hbelow]
    rcases hparams with rfl | hparams
    · rfl
    · cases hparams
  | .atStatement head l =>
    obtain ⟨params, rfl, hparams⟩ := h
    have hname : AtHead.isKeyframes head.name = false := by
      simpa [Node.isUnnamed] using hn _ List.mem_cons_self
    rw [hname] at hparams
    rcases hparams with rfl | hparams
    · rfl
    · cases hparams
  | .decl d l =>
    obtain ⟨value, rfl, hvalue⟩ := h
    have hhere := hn _ List.mem_cons_self
    simp only [Node.isUnnamed, Bool.and_eq_true, Bool.not_eq_true'] at hhere
    rw [hhere.1, hhere.2] at hvalue
    rcases hvalue with rfl | hvalue | hvalue
    · rfl
    · cases hvalue
    · cases hvalue
  | .comment t l => exact h

/-- A block without anything to change stays the same. -/
theorem RestyledAll.eq_of_isUnnamed (ns : List Node) {ns' : List Node}
    (h : RestyledAll false ns ns') (hns : ∀ k ∈ preorderAll ns, k.isUnnamed = true) : ns' = ns := by
  match ns with
  | [] => exact h
  | n :: ns =>
    obtain ⟨m, ms, rfl, hm, hms⟩ := h
    obtain ⟨hn, hrest⟩ := List.forall_mem_append.mp hns
    rw [Node.Restyled.eq_of_isUnnamed n hm hn, RestyledAll.eq_of_isUnnamed ns hms hrest]

end

/-! ## 2. Marking -/

theorem LocalNames.selector_eq_or (around : List Text) (s : Text) :
    selector around s = s ∨
      around.any AtHead.isKeyframes = false ∧ Selector.mentionsNames s = true := by
  rw [selector]
  split
  · exact .inl rfl
  · next hplain =>
    simp only [Bool.or_eq_true, not_or, Bool.not_eq_true] at hplain
    cases hs : Selector.mentionsNames s with
    | false => exact .inl (Selector.localize_of_not_mentions _ _ s hs)
    | true => exact .inr ⟨hplain.1.1, rfl⟩

theorem LocalNames.decl_eq (d : Decl) :
    ∃ value, decl d = { d with value } ∧ (value = d.value ∨ d.usesAnimation = true) := by
  rw [decl]
  split
  · next hprop => exact ⟨_, rfl, .inr (by simp [Decl.usesAnimation, hprop])⟩
  · split
    · next hprop => exact ⟨_, rfl, .inr (by simp [Decl.usesAnimation, hprop])⟩
    · exact ⟨d.value, rfl, .inl rfl⟩

theorem LocalNames.atHead_eq (h : AtHead) :
    ∃ params, atHead h = { h with params } ∧
      (params = h.params ∨ AtHead.isKeyframes h.name = true) := by
  rw [atHead]
  split
  · next hname => exact ⟨_, rfl, .inr hname⟩
  · exact ⟨h.params, rfl, .inl rfl⟩

theorem LocalNames.selector_restyled (around : List Text) (s : Text) :
    selector around s = s ∨ Selector.mayChange (around.any AtHead.isKeyframes) s = true := by
  rcases selector_eq_or around s with h | ⟨haround, hs⟩
  · exact .inl h
  · rw [haround]
    exact .inr hs

mutual

/-- Marking keeps to the frame. -/
theorem Node.restyled_marked (around : List Text) (n : Node) :
    n.Restyled (around.any AtHead.isKeyframes) (n.marked around) := by
  match n with
  | .rule s l b ns =>
    exact ⟨_, _, rfl, LocalNames.selector_restyled around s, restyledAll_markedAll around ns⟩
  | .atBlock h l b ns =>
    obtain ⟨params, hhead, hparams⟩ := LocalNames.atHead_eq h
    have hns := restyledAll_markedAll (around ++ [h.name]) ns
    rw [List.any_append, List.any_cons, List.any_nil, Bool.or_false] at hns
    refine ⟨params, markedAll (around ++ [h.name]) ns, ?_, hparams, hns⟩
    rw [← hhead]
    rfl
  | .atStatement h l =>
    obtain ⟨params, hhead, hparams⟩ := LocalNames.atHead_eq h
    refine ⟨params, ?_, hparams⟩
    rw [← hhead]
    rfl
  | .decl d l =>
    obtain ⟨value, hdecl, hvalue⟩ := LocalNames.decl_eq d
    refine ⟨value, ?_, hvalue.imp_right .inl⟩
    rw [← hdecl]
    rfl
  | .comment t l => rfl

theorem restyledAll_markedAll (around : List Text) (ns : List Node) :
    RestyledAll (around.any AtHead.isKeyframes) ns (markedAll around ns) := by
  match ns with
  | [] => rfl
  | n :: ns =>
    exact ⟨_, _, rfl, Node.restyled_marked around n, restyledAll_markedAll around ns⟩

end

/-! ## 3. Scoping what was marked -/

namespace ScopedNames

variable {ctx : Context} {s s₁ : ScopedNames}

theorem isCompositionNode_marked (around : List Text) (n : Node) :
    isCompositionNode (n.marked around) = isCompositionNode n := by
  cases n with
  | decl d l => exact congrArg Interface.isComposition (ImportedNames.prop_decl d)
  | _ => rfl

/-- Without compositions there is nothing to carry out. -/
theorem compositions_eq_nil {ns : List Node} (h : ∀ n ∈ ns, isCompositionNode n = false)
    (around : List Text) : compositions (markedAll around ns) = [] := by
  induction ns with
  | nil => rfl
  | cons n ns ih =>
    have hn := h n List.mem_cons_self
    have hrest := ih fun m hm => h m (List.mem_cons_of_mem n hm)
    rw [compositions] at hrest ⊢
    change ((n.marked around :: markedAll around ns).filter isCompositionNode).filterMap _ = []
    rw [List.filter_cons, isCompositionNode_marked, hn, if_neg Bool.false_ne_true, hrest]

theorem scopeKeyframes_ok (ctx : Context) (rule : Text) (h : AtHead) (s : ScopedNames) :
    ∃ params s', scopeKeyframes ctx rule h s = .ok { h with params } s' ∧
      (params = h.params ∨ AtHead.isKeyframes h.name = true) := by
  rw [scopeKeyframes]
  split
  · next hname =>
    cases scopeKeyframes.argument? (Text.trim h.params) with
    | none => exact ⟨h.params, s, rfl, .inl rfl⟩
    | some name => exact ⟨_, _, rfl, .inr hname⟩
  · exact ⟨h.params, s, rfl, .inl rfl⟩

/-- Marking and scoping a selector keep to the frame. -/
theorem substitute_selector (generate : Text → Text) (around : List Text) (sel : Text) :
    LocalMark.substitute generate (LocalNames.selector around sel) = sel ∨
      Selector.mayChange (around.any AtHead.isKeyframes) sel = true := by
  rcases LocalNames.selector_eq_or around sel with hsel | ⟨haround, hmention⟩
  · rw [hsel]
    cases hmark : Text.contains ":local(".toList sel with
    | false => exact .inl (LocalMark.substitute_of_unmarked hmark)
    | true =>
      refine .inr ?_
      rw [Selector.mayChange]
      split
      · exact hmark
      · exact LocalMark.mentionsNames_of_mark hmark
  · rw [haround]
    exact .inr hmention

/-- Marking and scoping a value keep to the frame. -/
theorem substitute_decl (generate : Text → Text) (d : Decl) :
    ∃ value, { LocalNames.decl d with
        value := LocalMark.substitute generate (LocalNames.decl d).value } = { d with value } ∧
      (value = d.value ∨ d.usesAnimation = true ∨
        Text.contains ":local(".toList d.value = true) := by
  obtain ⟨value, hdecl, hvalue⟩ := LocalNames.decl_eq d
  rw [hdecl]
  refine ⟨_, rfl, ?_⟩
  rcases hvalue with rfl | hvalue
  · cases hmark : Text.contains ":local(".toList d.value with
    | false => exact .inl (LocalMark.substitute_of_unmarked hmark)
    | true => exact .inr (.inr rfl)
  · exact .inr (.inl hvalue)

/-- Marking and scoping the name of an animation keep to the frame. -/
theorem scopeKeyframes_marked (rule : Text) (h : AtHead) (s : ScopedNames) :
    ∃ params s', scopeKeyframes ctx rule (LocalNames.atHead h) s = .ok { h with params } s' ∧
      (params = h.params ∨ AtHead.isKeyframes h.name = true) := by
  obtain ⟨params, hhead, hparams⟩ := LocalNames.atHead_eq h
  obtain ⟨params', s', hscope, hparams'⟩ := scopeKeyframes_ok ctx rule (LocalNames.atHead h) s
  rw [hhead] at hscope hparams' ⊢
  refine ⟨params', s', hscope, ?_⟩
  rcases hparams' with rfl | hname
  · exact hparams
  · exact .inr hname

section Parts

variable {rule : Text} {l : Layout} {b : Bool} {ns ns' : List Node} {s' : ScopedNames}

/-- A rule without compositions is scoped if its block is. -/
theorem scopeNode_rule {sel : Text}
    (hsel : (Interface.isImport sel || Interface.isExport sel) = false) (hns : compositions ns = [])
    (hscope : scopeNodes ctx (ctx.textOf (.rule sel l b ns)) true ns
      ((LocalMark.names sel).foldl (enter ctx (ctx.textOf (.rule sel l b ns))) s) = .ok ns' s') :
    scopeNode ctx rule (.rule sel l b ns) s =
      .ok (.rule (LocalMark.substitute (ctx.generate · (ctx.textOf (.rule sel l b ns))) sel) l b ns')
        s' := by
  have hcompose : ∀ t, compose ctx sel (compositions ns) t = .ok () t := by
    intro t
    rw [hns]
    rfl
  rw [scopeNode, hsel, if_neg Bool.false_ne_true, bind_of_ok (scopeText_eq ctx _ sel s),
    bind_of_ok (hcompose _), bind_of_ok hscope]
  rfl

theorem scopeNode_atBlock {h h' : AtHead}
    (hhead : scopeKeyframes ctx (ctx.textOf (.atBlock h l b ns)) h s = .ok h' s₁)
    (hscope : scopeNodes ctx (ctx.textOf (.atBlock h l b ns)) false ns s₁ = .ok ns' s') :
    scopeNode ctx rule (.atBlock h l b ns) s = .ok (.atBlock h' l b ns') s' := by
  rw [scopeNode, bind_of_ok hhead, bind_of_ok hscope]
  rfl

theorem scopeNode_atStatement {h h' : AtHead}
    (hhead : scopeKeyframes ctx (ctx.textOf (.atStatement h l)) h s = .ok h' s₁) :
    scopeNode ctx rule (.atStatement h l) s = .ok (.atStatement h' l) s₁ := by
  rw [scopeNode, bind_of_ok hhead]
  rfl

theorem scopeNode_decl (d : Decl) :
    scopeNode ctx rule (.decl d l) s =
      .ok (.decl { d with value := LocalMark.substitute (ctx.generate · rule) d.value } l)
        ((LocalMark.names d.value).foldl (enter ctx rule) s) := by
  rw [scopeNode, bind_of_ok (scopeText_eq ctx rule d.value s)]
  rfl

theorem scopeNodes_cons {n n' : Node} {inRule : Bool} (hn : isCompositionNode n = false)
    (hscope : scopeNode ctx rule n s = .ok n' s₁)
    (hscopes : scopeNodes ctx rule inRule ns s₁ = .ok ns' s') :
    scopeNodes ctx rule inRule (n :: ns) s = .ok (n' :: ns') s' := by
  rw [scopeNodes, hn, Bool.and_false, if_neg Bool.false_ne_true, bind_of_ok hscope,
    bind_of_ok hscopes]
  rfl

end Parts

mutual

/-- Scoping a marked node without compositions succeeds and keeps to the frame. -/
theorem scopeNode_restyled (ctx : Context) (rule : Text) (around : List Text) (n : Node)
    (s : ScopedNames) (hn : ∀ k ∈ n.preorder, isCompositionNode k = false) :
    ∃ n' s', scopeNode ctx rule (n.marked around) s = .ok n' s' ∧
      n.Restyled (around.any AtHead.isKeyframes) n' := by
  match n with
  | .rule sel l b ns =>
    change ∃ n' s', scopeNode ctx rule (.rule (LocalNames.selector around sel) l b
      (markedAll around ns)) s = .ok n' s' ∧ _
    cases hsel : Interface.isImport (LocalNames.selector around sel) ||
        Interface.isExport (LocalNames.selector around sel) with
    | true =>
      -- a block is not entered, and stays as it was marked
      refine ⟨_, s, ?_, Node.restyled_marked around (.rule sel l b ns)⟩
      rw [scopeNode, hsel, if_pos rfl]
      rfl
    | false =>
      have hbelow := (List.forall_mem_cons.mp hn).2
      have hnone := compositions_eq_nil (fun k hk => hbelow k (mem_preorderAll hk)) around
      obtain ⟨ns', s', hscope, hrestyled⟩ := scopeNodes_restyled ctx
        (ctx.textOf (.rule (LocalNames.selector around sel) l b (markedAll around ns))) true around
        ns _ hbelow
      exact ⟨_, s', scopeNode_rule hsel hnone hscope, _, ns', rfl, substitute_selector _ around sel,
        hrestyled⟩
  | .atBlock h l b ns =>
    obtain ⟨params, s₁, hhead, hparams⟩ := scopeKeyframes_marked _ h s
    obtain ⟨ns', s', hscope, hrestyled⟩ := scopeNodes_restyled ctx _ false (around ++ [h.name]) ns
      s₁ (List.forall_mem_cons.mp hn).2
    rw [List.any_append, List.any_cons, List.any_nil, Bool.or_false] at hrestyled
    exact ⟨_, s', scopeNode_atBlock hhead hscope, params, ns', rfl, hparams, hrestyled⟩
  | .atStatement h l =>
    obtain ⟨params, s', hhead, hparams⟩ := scopeKeyframes_marked _ h s
    exact ⟨_, s', scopeNode_atStatement hhead, params, rfl, hparams⟩
  | .decl d l =>
    obtain ⟨value, hdecl, hvalue⟩ := substitute_decl (fun name => ctx.generate name rule) d
    have hscope : scopeNode ctx rule (.decl (LocalNames.decl d) l) s = _ := scopeNode_decl _
    rw [hdecl] at hscope
    exact ⟨_, _, hscope, value, rfl, hvalue⟩
  | .comment t l => exact ⟨_, s, rfl, rfl⟩

theorem scopeNodes_restyled (ctx : Context) (rule : Text) (inRule : Bool) (around : List Text)
    (ns : List Node) (s : ScopedNames)
    (hns : ∀ k ∈ preorderAll ns, isCompositionNode k = false) :
    ∃ ns' s', scopeNodes ctx rule inRule (markedAll around ns) s = .ok ns' s' ∧
      RestyledAll (around.any AtHead.isKeyframes) ns ns' := by
  match ns with
  | [] => exact ⟨[], s, rfl, rfl⟩
  | n :: ns =>
    obtain ⟨hn, hrest⟩ := List.forall_mem_append.mp hns
    obtain ⟨n', s₁, hscope, hrestyled⟩ := scopeNode_restyled ctx rule around n s hn
    obtain ⟨ns', s₂, hscopes, hrestyleds⟩ := scopeNodes_restyled ctx rule inRule around ns s₁ hrest
    have hhere : isCompositionNode (n.marked around) = false := by
      rw [isCompositionNode_marked, hns n (mem_preorderAll List.mem_cons_self)]
    exact ⟨n' :: ns', s₂, scopeNodes_cons hhere hscope hscopes, n', ns', rfl, hrestyled, hrestyleds⟩

end

/-- The selector of a node that is no block, scoped. -/
theorem selector?_scopeNode {rule : Text} {n n' : Node} (h : scopeNode ctx rule n s = .ok n' s₁)
    (hn : n.Plain) :
    n'.selector? = n.selector?.map (LocalMark.substitute (ctx.generate · (ctx.textOf n))) := by
  cases n with
  | rule sel l b ns =>
    have hsel := hn sel rfl
    rw [Interface.isInterface] at hsel
    obtain ⟨s₂, ns', -, -, rfl⟩ := of_scopeNode_rule (by rw [hsel]; exact Bool.false_ne_true) h
    rfl
  | atBlock head l b ns =>
    obtain ⟨head', s₂, ns', -, -, rfl⟩ := of_scopeNode_atBlock h
    rfl
  | atStatement head l =>
    obtain ⟨head', -, rfl⟩ := of_scopeNode_atStatement h
    rfl
  | decl d l =>
    obtain ⟨rfl, -⟩ := of_scopeNode_decl h
    rfl
  | comment t l =>
    cases h
    rfl

/-- Nodes that are no blocks, and whose scoped selectors are none, are scoped to nodes that are
    none. -/
theorem plain_of_scopeNodes {rule : Text} {ns ns' : List Node} {s' : ScopedNames}
    (h : scopeNodes ctx rule false ns s = .ok ns' s')
    (hns : ∀ n ∈ ns, ∀ sel ∈ n.selector?, Interface.isInterface sel = false ∧
      Interface.isInterface (LocalMark.substitute (ctx.generate · (ctx.textOf n)) sel) = false) :
    ∀ n' ∈ ns', n'.Plain := by
  induction ns generalizing s ns' with
  | nil =>
    cases h
    intro n' hn'
    cases hn'
  | cons n ns ih =>
    obtain ⟨n', s₁, rest, hn, hrest, rfl⟩ := of_scopeNodes_false h
    have hhere := hns n List.mem_cons_self
    refine List.forall_mem_cons.mpr ⟨?_, ih hrest fun m hm => hns m (List.mem_cons_of_mem n hm)⟩
    intro sel' hsel'
    rw [selector?_scopeNode hn fun sel hsel => (hhere sel hsel).1] at hsel'
    obtain ⟨sel, hsel, rfl⟩ := Option.map_eq_some_iff.mp hsel'
    exact (hhere sel hsel).2

/-- A sheet is scoped if its nodes are. -/
theorem run_of_scopeNodes {generate : Text → Text → Text} {sheet : Stylesheet} {nodes : List Node}
    {s : ScopedNames}
    (h : scopeNodes ⟨generate, sheet.input, importedNames sheet⟩ sheet.input false sheet.nodes
      ⟨.empty, []⟩ = .ok nodes s) :
    run generate sheet = .ok (if s.exports.isEmpty then { sheet with nodes }
      else { sheet with nodes }.append (exportBlock s.exports)) := by
  have hsheet : scopeSheet generate sheet ⟨.empty, []⟩ =
      .ok (if s.exports.isEmpty then { sheet with nodes }
        else { sheet with nodes }.append (exportBlock s.exports)) s := by
    rw [scopeSheet, bind_of_ok h]
    rfl
  rw [run, runLogged, hsheet]

end ScopedNames

/-! ## 4. The other passes -/

namespace ImportedNames

mutual

/-- A node without compositions has nothing to import. -/
theorem node_marked (s : ImportedNames) (around : List Text) (n : Node)
    (hn : ∀ k ∈ n.preorder, ScopedNames.isCompositionNode k = false) :
    node s (n.marked around) = (n.marked around, s) := by
  match n with
  | .rule sel l b ns =>
    change node s (.rule (LocalNames.selector around sel) l b (markedAll around ns)) = _
    rw [node, nodes_markedAll s around ns (List.forall_mem_cons.mp hn).2]
    rfl
  | .atBlock h l b ns =>
    change node s (.atBlock (LocalNames.atHead h) l b (markedAll (around ++ [h.name]) ns)) = _
    rw [node, nodes_markedAll s (around ++ [h.name]) ns (List.forall_mem_cons.mp hn).2]
    rfl
  | .atStatement h l => rfl
  | .decl d l =>
    have hprop : Interface.isComposition (LocalNames.decl d).prop = false := by
      rw [prop_decl]
      exact hn _ List.mem_cons_self
    change node s (.decl (LocalNames.decl d) l) = _
    rw [node, decl, hprop, if_neg Bool.false_ne_true]
    rfl
  | .comment t l => rfl

theorem nodes_markedAll (s : ImportedNames) (around : List Text) (ns : List Node)
    (hns : ∀ k ∈ preorderAll ns, ScopedNames.isCompositionNode k = false) :
    nodes s (markedAll around ns) = (markedAll around ns, s) := by
  match ns with
  | [] => rfl
  | n :: ns =>
    obtain ⟨hn, hrest⟩ := List.forall_mem_append.mp hns
    change nodes s (n.marked around :: markedAll around ns) = _
    rw [nodes, node_marked s around n hn]
    dsimp only
    rw [nodes_markedAll s around ns hrest]
    rfl

end

/-- The sheet that is scoped if nothing is composed. -/
theorem run_localNames {sheet : Stylesheet}
    (h : ∀ k ∈ sheet.preorder, ScopedNames.isCompositionNode k = false) :
    run (LocalNames.run sheet) = { sheet with nodes := markedAll [] sheet.nodes } := by
  have hnodes : nodes empty (LocalNames.run sheet).nodes = (markedAll [] sheet.nodes, empty) :=
    nodes_markedAll empty [] sheet.nodes h
  rw [run, hnodes]
  rfl

end ImportedNames

theorem Symbol.replace_none (t : Text) : Symbol.replace (fun _ => none) t = t := by
  have hwrite : Part.write (fun _ => none) = Part.text := by
    funext p
    cases p <;> rfl
  rw [Symbol.replace, hwrite, flatMap_text_parts]

theorem replaceIf_none (targeted : Bool) (t : Text) : replaceIf targeted (fun _ => none) t = t := by
  cases targeted with
  | false => rfl
  | true => exact Symbol.replace_none t

mutual

/-- Without replacements nothing is replaced. -/
theorem Node.replaceSymbols_none (n : Node) : n.replaceSymbols .all (fun _ => none) = n := by
  match n with
  | .rule s l b ns =>
    rw [Node.replaceSymbols, replaceAllSymbols_none ns, replaceIf_none]
    split <;> rfl
  | .atBlock h l b ns =>
    rw [Node.replaceSymbols, replaceAllSymbols_none ns, AtHead.replaceSymbols, replaceIf_none]
  | .atStatement h l => rw [Node.replaceSymbols, AtHead.replaceSymbols, replaceIf_none]
  | .decl d l => rw [Node.replaceSymbols, replaceIf_none]
  | .comment t l => rfl

theorem replaceAllSymbols_none (ns : List Node) :
    replaceAllSymbols .all (fun _ => none) ns = ns := by
  match ns with
  | [] => rfl
  | n :: ns => rw [replaceAllSymbols, Node.replaceSymbols_none n, replaceAllSymbols_none ns]

end

/-- A node at the end that is not kept leaves no trace. -/
theorem Stylesheet.retain_append {keep : Node → Bool} {sheet : Stylesheet} {node : Node}
    (hsheet : ∀ n ∈ sheet.nodes, keep n = true)
    (hnode : ∀ before, keep (node.withBefore before) = false) :
    (sheet.append node).retain keep = sheet := by
  obtain ⟨before, happend⟩ := append_eq node sheet
  obtain ⟨nodes, after, semicolon, input⟩ := sheet
  rw [happend, retain]
  cases nodes with
  | nil =>
    simp only [List.nil_append, retainFrom, Node.withBefore_before, hnode, Bool.false_eq_true,
      if_false]
  | cons first rest =>
    have hrest : rest.filter keep = rest :=
      List.filter_eq_self.mpr fun n hn => hsheet n (List.mem_cons_of_mem first hn)
    have hlast : [node.withBefore before].filter keep = [] :=
      List.filter_eq_nil_iff.mpr fun n hn => by simp [List.mem_singleton.mp hn, hnode]
    simp only [List.cons_append, retainFrom, Node.withBefore_before,
      hsheet first List.mem_cons_self, if_true, List.filter_append, hrest, hlast, List.append_nil]

namespace Link

variable (tolerance : Tolerance) (importer : Text) (fetch : Text → Except LoadError Exports)

/-- Linking a sheet without import blocks only takes its export blocks out. -/
theorem link_of_no_imports {sheet : Stylesheet}
    (h : ∀ n ∈ sheet.nodes, Interface.isImportBlock n = false) :
    link tolerance importer fetch sheet =
      (.ok (sheet.retain fun n => !Interface.isExportBlock n, exportsOf sheet), []) := by
  have hblocks : importBlocks sheet = [] := by
    rw [importBlocks_eq, List.map_eq_nil_iff, List.filterMap_eq_nil_iff]
    intro n hn
    exact Option.isNone_iff_eq_none.mp (Option.isSome_eq_false_iff.mp (h n hn))
  have haliases : replaceAliases .empty sheet = sheet := by
    have hretain : sheet.retain (fun n => !Interface.isImportBlock n) = sheet := by
      refine Stylesheet.retain_of_forall fun n hn => ?_
      rw [h n hn]
      rfl
    rw [replaceAliases, hretain]
    exact congrArg (fun nodes => { sheet with nodes }) (replaceAllSymbols_none sheet.nodes)
  have hbind : (bindAll tolerance importer [] .empty).1 = .ok .empty := rfl
  rw [link, hblocks, List.map_nil, linkFetched_of_bindAll hbind, haliases]
  rfl

/-- An export block at the end of a sheet without blocks is taken out without a trace. -/
theorem link_append_exports (sheet : Stylesheet) (h : ∀ n ∈ sheet.nodes, n.Plain)
    (exports : Table (List Text)) :
    ∃ symbols, link tolerance importer fetch
        (if exports.isEmpty then sheet else sheet.append (ScopedNames.exportBlock exports)) =
      (.ok (sheet, symbols), []) := by
  have hkeep : ∀ n ∈ sheet.nodes, (!Interface.isExportBlock n) = true := by
    intro n hn
    rw [(h n hn).isExportBlock]
    rfl
  split
  · rw [link_of_no_imports _ _ _ fun n hn => (h n hn).isImportBlock,
      Stylesheet.retain_of_forall hkeep]
    exact ⟨_, rfl⟩
  · rw [link_of_no_imports, Stylesheet.retain_append hkeep fun before => rfl]
    · exact ⟨_, rfl⟩
    · intro n hn
      obtain ⟨before, happend⟩ := Stylesheet.append_eq (ScopedNames.exportBlock exports) sheet
      rw [happend] at hn
      rcases List.mem_append.mp hn with hn | hn
      · exact (h n hn).isImportBlock
      · rw [List.mem_singleton.mp hn]
        rfl

end Link

/-! ## 5. The whole way -/

/-- Whether a rule at the top of a sheet is no block, and is turned into none by marking its
    selector and by scoping that. -/
def Node.StaysPlain (generate : Text → Text → Text) (n : Node) : Prop :=
  ∀ sel ∈ n.selector?, Interface.isInterface sel = false ∧
    Interface.isInterface (Selector.markLocal sel) = false ∧
    Interface.isInterface
      (LocalMark.substitute (generate · n.extent) (Selector.markLocal sel)) = false

instance (generate : Text → Text → Text) (n : Node) : Decidable (n.StaysPlain generate) :=
  inferInstanceAs (Decidable (∀ sel ∈ n.selector?, _ ∧ _ ∧ _))

theorem markedAll_eq_map (around : List Text) (ns : List Node) :
    markedAll around ns = ns.map (Node.marked around) := by
  induction ns with
  | nil => rfl
  | cons n ns ih => exact congrArg (n.marked around :: ·) ih

theorem Node.selector?_marked (around : List Text) (n : Node) :
    (n.marked around).selector? = n.selector?.map (LocalNames.selector around) := by
  cases n <;> rfl

theorem Node.span_marked (around : List Text) (n : Node) : (n.marked around).span = n.span := by
  cases n <;> rfl

/-- In a sheet that was read the generator sees a rule as it stands in the text. -/
theorem ScopedNames.textOf_marked {ctx : Context} {n : Node} (h : n.StandsIn ctx.input)
    (around : List Text) : ctx.textOf (n.marked around) = n.extent := by
  obtain ⟨u, w, hinput, hspan⟩ := h
  rw [Context.textOf, Node.span_marked, hspan, Option.bind_some, hinput, Text.slice?_append,
    Option.getD_some]

/-- Nodes that stay plain do so when they are marked and scoped. -/
theorem Node.StaysPlain.marked {generate : Text → Text → Text} {n : Node}
    (h : n.StaysPlain generate) {ctx : ScopedNames.Context} (hctx : ctx.generate = generate)
    (hn : n.StandsIn ctx.input) :
    ∀ sel ∈ (n.marked []).selector?, Interface.isInterface sel = false ∧
      Interface.isInterface
        (LocalMark.substitute (ctx.generate · (ctx.textOf (n.marked []))) sel) = false := by
  intro sel hsel
  rw [Node.selector?_marked] at hsel
  obtain ⟨sel₀, hsel₀, rfl⟩ := Option.map_eq_some_iff.mp hsel
  obtain ⟨hplain, hmarked, hscoped⟩ := h sel₀ hsel₀
  have hlocal : LocalNames.selector [] sel₀ = Selector.markLocal sel₀ := by
    rw [Interface.isInterface] at hplain
    rw [LocalNames.selector, List.any_nil, Bool.false_or, hplain, if_neg Bool.false_ne_true]
  rw [hlocal, ScopedNames.textOf_marked hn, hctx]
  exact ⟨hmarked, hscoped⟩

/-- **A sheet without value rules and compositions goes through all passes, and they change nothing
    but what the frame allows.** If there is nothing that the frame allows to change, the sheet is
    printed as it was read. -/
theorem Stylesheet.passes_restyle {t : Text} {sheet : Stylesheet} (generate : Text → Text → Text)
    (tolerance : Tolerance) (importer : Text) (fetch : Text → Except LoadError Exports)
    (hread : Stylesheet.parse t = .ok sheet)
    (hvalues : ∀ n ∈ sheet.nodes, NamedValues.params? n = none)
    (hcompositions : ∀ d ∈ sheet.decls, Interface.isComposition d.prop = false)
    (hblocks : ∀ n ∈ sheet.nodes, n.StaysPlain generate) :
    ∃ valued full out exports, NamedValues.run sheet = .ok valued ∧
      ScopedNames.run generate (ImportedNames.run (LocalNames.run valued)) = .ok full ∧
      Link.link tolerance importer fetch full = (.ok (out, exports), []) ∧
      RestyledAll false sheet.nodes out.nodes ∧ out.after = sheet.after ∧
      out.semicolon = sheet.semicolon ∧ out.input = sheet.input ∧
      ((∀ n ∈ sheet.preorder, n.isUnnamed = true) → out.print = t) := by
  obtain ⟨-, hprint, hinput⟩ := Stylesheet.placed_of_parse hread
  have hnone : ∀ k ∈ sheet.preorder, ScopedNames.isCompositionNode k = false := by
    intro k hk
    rw [ScopedNames.isCompositionNode]
    cases hd : k.decl? with
    | none => rfl
    | some d => exact hcompositions d (List.mem_filterMap.mpr ⟨k, hk, hd⟩)
  have himported := ImportedNames.run_localNames hnone
  obtain ⟨nodes, s, hscope, hrestyled⟩ := ScopedNames.scopeNodes_restyled
    ⟨generate, sheet.input, ScopedNames.importedNames { sheet with nodes := markedAll [] sheet.nodes }⟩
    sheet.input false [] sheet.nodes ⟨.empty, []⟩ hnone
  have hplain : ∀ n ∈ nodes, n.Plain := by
    refine ScopedNames.plain_of_scopeNodes hscope ?_
    intro n hn
    rw [markedAll_eq_map] at hn
    obtain ⟨n₀, hn₀, rfl⟩ := List.mem_map.mp hn
    have hstands := Stylesheet.standsIn_of_parse hread n₀ (mem_preorderAll hn₀)
    rw [← hinput] at hstands
    exact (hblocks n₀ hn₀).marked rfl hstands
  obtain ⟨exports, hlink⟩ :=
    Link.link_append_exports tolerance importer fetch { sheet with nodes } hplain s.exports
  refine ⟨sheet, _, { sheet with nodes }, exports, NamedValues.run_of_forall hvalues, ?_, hlink,
    hrestyled, rfl, rfl, rfl, ?_⟩
  · rw [himported]
    exact ScopedNames.run_of_scopeNodes hscope
  · intro hunnamed
    have hsame : nodes = sheet.nodes :=
      RestyledAll.eq_of_isUnnamed sheet.nodes hrestyled hunnamed
    rw [hsame]
    exact hprint

/-- A sheet with names in selectors, animations and values. -/
def namedPage : Text :=
  ("@media x \x7b .b ,c\x7bd : e !Important;/*f*/\x7d ;\x7d\n" ++
    "@keyframes g\x7b from\x7bh:i\x7d\x7d\n.j\x7banimation : g 1s\x7d ").toList

/-- A sheet in which there is nothing to change. -/
def barePage : Text :=
  "@media x \x7b b ,c\x7bd : e !Important;/*f*/\x7d ;\x7d\n".toList

theorem Stylesheet.passes_restyle_pages :
    let generate : Text → Text → Text := fun name _ => '_' :: name
    let fetch : Text → Except LoadError Exports := fun path => .error (.noSuchModule path)
    (∃ sheet valued full out exports, Stylesheet.parse namedPage = .ok sheet ∧
      (∃ n ∈ sheet.preorder, n.isUnnamed = false) ∧ NamedValues.run sheet = .ok valued ∧
      ScopedNames.run generate (ImportedNames.run (LocalNames.run valued)) = .ok full ∧
      Link.link ⟨false, false⟩ [] fetch full = (.ok (out, exports), []) ∧
      RestyledAll false sheet.nodes out.nodes) ∧
    ∃ sheet valued full out exports, Stylesheet.parse barePage = .ok sheet ∧
      NamedValues.run sheet = .ok valued ∧
      ScopedNames.run generate (ImportedNames.run (LocalNames.run valued)) = .ok full ∧
      Link.link ⟨false, false⟩ [] fetch full = (.ok (out, exports), []) ∧
      out.print = barePage := by
  intro generate fetch
  constructor
  · obtain ⟨sheet, hread, hsheet⟩ := exists_ok_of_map
      (show ((Stylesheet.parse namedPage).toOption.map fun sheet =>
          decide ((∀ n ∈ sheet.nodes, NamedValues.params? n = none) ∧
            (∀ d ∈ sheet.decls, Interface.isComposition d.prop = false) ∧
            (∀ n ∈ sheet.nodes, n.StaysPlain generate) ∧
            ∃ n ∈ sheet.preorder, n.isUnnamed = false)) = some true by decide +kernel)
    obtain ⟨hvalues, hcompositions, hblocks, hnamed⟩ := of_decide_eq_true hsheet
    obtain ⟨valued, full, out, exports, hvalued, hfull, hout, hrestyled, -⟩ :=
      Stylesheet.passes_restyle generate ⟨false, false⟩ [] fetch hread hvalues hcompositions hblocks
    exact ⟨sheet, valued, full, out, exports, hread, hnamed, hvalued, hfull, hout, hrestyled⟩
  · obtain ⟨sheet, hread, hsheet⟩ := exists_ok_of_map
      (show ((Stylesheet.parse barePage).toOption.map fun sheet =>
          decide ((∀ n ∈ sheet.nodes, NamedValues.params? n = none) ∧
            (∀ d ∈ sheet.decls, Interface.isComposition d.prop = false) ∧
            (∀ n ∈ sheet.nodes, n.StaysPlain generate) ∧
            ∀ n ∈ sheet.preorder, n.isUnnamed = true)) = some true by decide +kernel)
    obtain ⟨hvalues, hcompositions, hblocks, hunnamed⟩ := of_decide_eq_true hsheet
    obtain ⟨valued, full, out, exports, hvalued, hfull, hout, -, -, -, -, hprint⟩ :=
      Stylesheet.passes_restyle generate ⟨false, false⟩ [] fetch hread hvalues hcompositions hblocks
    exact ⟨sheet, valued, full, out, exports, hread, hvalued, hfull, hout, hprint hunnamed⟩

example :
    ((Stylesheet.parse namedPage).toOption.bind fun sheet =>
      (ScopedNames.run (fun name _ => '_' :: name)
        (ImportedNames.run (LocalNames.run sheet))).toOption.bind fun full =>
          (Link.link ⟨false, false⟩ [] (fun path => .error (.noSuchModule path)) full).1.toOption.map
            (·.1.print)) =
      some ("@media x \x7b ._b ,c\x7bd : e !Important;/*f*/\x7d ;\x7d\n" ++
        "@keyframes _g\x7b from\x7bh:i\x7d\x7d\n._j\x7banimation : _g 1s\x7d ").toList := by
  decide +kernel

end StyleModules
