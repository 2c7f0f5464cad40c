import Mathlib.Data.List.Forall2
import StyleModules.QualifiedName
import StyleModules.Sheet.Parser
import StyleModules.Proofs.PreparedSheet

/-!
What the passes between the value rules and linking make of import and export blocks.

* Scoping does not enter a block (`ScopedNames.forall₂_scopeNodes`).
* The other two passes keep the selector of a block, its declarations in order and their
  properties, but they look at every declaration of a sheet, wherever it stands: the names of
  animations are marked in a block too, and compositions from elsewhere get aliases
  (`Interface.Passed`).
* `Stylesheet.blocks_passed`: what becomes of each block at the top of a sheet. A block whose
  declarations are all inert stays as it is; `Stylesheet.animation_not_kept` is a block that does
  not.
-/

namespace StyleModules

/-! ## 1. Blocks and their declarations -/

namespace Interface

/-- The selector and the declarations of an import or export block. -/
def block? : Node → Option (Text × List (Text × Text))
  | .rule s _ _ ns => if isImport s || isExport s then some (s, pairs ns) else none
  | _ => none

/-- Whether a declaration is one that no pass looks at: it uses no animations and composes nothing
    from elsewhere. -/
def isInert (p : Text × Text) : Bool :=
  Text.lower p.1 != "animation".toList && Text.lower p.1 != "animation-name".toList &&
    !(isComposition p.1 && (FromClause.ofText? p.2).isSome)

/-- A declaration with its animations marked. -/
def mark (p : Text × Text) : Text × Text :=
  if Text.lower p.1 = "animation".toList then (p.1, Animation.mark true p.2)
  else if Text.lower p.1 = "animation-name".toList then (p.1, Animation.mark false p.2)
  else p

/-- A declaration with aliases for what it composes from elsewhere, whatever aliases there were
    already. -/
def Aliased (p p' : Text × Text) : Prop :=
  ∃ s : ImportedNames, p' = if isComposition p.1 then (p.1, (s.value p.2).1) else p

/-- What the passes make of a declaration in a block. -/
def Passed (p p' : Text × Text) : Prop :=
  Aliased (mark p) p'

theorem block?_bare (n : Node) : block? n.bare = block? n := by
  cases n <;> rfl

theorem block?_eq_some {n : Node} {s : Text} {ps : List (Text × Text)}
    (h : block? n = some (s, ps)) :
    ∃ l b ns, n = .rule s l b ns ∧ (isImport s || isExport s) = true ∧ ps = pairs ns := by
  cases n with
  | rule s' l b ns =>
    rw [block?] at h
    by_cases hblock : (isImport s' || isExport s') = true
    · rw [if_pos hblock] at h
      cases h
      exact ⟨l, b, ns, rfl, hblock, rfl⟩
    · rw [if_neg hblock] at h
      cases h
  | _ => cases h

/-- An inert declaration passes as it is. -/
theorem Passed.eq_of_isInert {p p' : Text × Text} (h : Passed p p') (hp : isInert p = true) :
    p' = p := by
  obtain ⟨prop, value⟩ := p
  simp only [isInert, Bool.and_eq_true, bne_iff_ne, Bool.not_eq_true', Bool.and_eq_false_iff] at hp
  obtain ⟨⟨hshort, hlist⟩, hcomp⟩ := hp
  have hmark : mark (prop, value) = (prop, value) := by
    rw [mark, if_neg hshort, if_neg hlist]
  obtain ⟨s, rfl⟩ := h
  rw [hmark]
  rcases hcomp with hnot | hnone
  · rw [if_neg (by rw [hnot]; exact Bool.false_ne_true)]
  · have hnone' : FromClause.ofText? value = none := by simpa using hnone
    have hsame : (s.value value).1 = value := by rw [ImportedNames.value, hnone']
    rw [hsame]
    split <;> rfl

theorem eq_of_forall₂_passed {ps ps' : List (Text × Text)} (h : List.Forall₂ Passed ps ps')
    (hps : ps.all isInert = true) : ps' = ps := by
  induction h with
  | nil => rfl
  | cons hp _ ih =>
    rw [List.all_cons, Bool.and_eq_true] at hps
    rw [hp.eq_of_isInert hps.1, ih hps.2]

end Interface

/-! ## 2. Marking -/

/-- Marking the local names of a block marks the animations of its declarations. -/
theorem pairs_markedAll (around : List Text) (ns : List Node) :
    Interface.pairs (markedAll around ns) = (Interface.pairs ns).map Interface.mark := by
  have hdecl : ∀ n : Node, (n.marked around).decl? = n.decl?.map LocalNames.decl := by
    intro n
    cases n <;> rfl
  have hpair : ∀ d : Decl,
      ((LocalNames.decl d).prop, (LocalNames.decl d).value) = Interface.mark (d.prop, d.value) := by
    intro d
    simp only [LocalNames.decl, Interface.mark]
    split
    · rfl
    · split <;> rfl
  induction ns with
  | nil => rfl
  | cons n ns ih =>
    show Interface.pairs (n.marked around :: markedAll around ns) = _
    simp only [Interface.pairs, List.filterMap_cons, hdecl] at ih ⊢
    cases n.decl? with
    | none => exact ih
    | some d => exact List.cons_eq_cons.mpr ⟨hpair d, ih⟩

/-- Marking keeps a block, but for the animations that its declarations use. -/
theorem block?_marked {n : Node} {s : Text} {ps : List (Text × Text)}
    (h : Interface.block? n = some (s, ps)) :
    Interface.block? (n.marked []) = some (s, ps.map Interface.mark) := by
  obtain ⟨l, b, ns, rfl, hblock, rfl⟩ := Interface.block?_eq_some h
  have hselector : LocalNames.selector [] s = s := by
    rw [LocalNames.selector, List.any_nil, Bool.false_or, if_pos hblock]
  show Interface.block? (.rule (LocalNames.selector [] s) l b (markedAll [] ns)) = _
  rw [hselector, Interface.block?, if_pos hblock, pairs_markedAll]

/-! ## 3. Aliases -/

namespace ImportedNames

theorem forall₂_pairs_nodes (s : ImportedNames) (ns : List Node) :
    List.Forall₂ Interface.Aliased (Interface.pairs ns) (Interface.pairs (nodes s ns).1) := by
  induction ns generalizing s with
  | nil => exact .nil
  | cons n ns ih =>
    show List.Forall₂ _ _ (Interface.pairs ((node s n).1 :: (nodes (node s n).2 ns).1))
    have hrest := ih (node s n).2
    simp only [Interface.pairs, List.filterMap_cons] at hrest ⊢
    cases n with
    | decl d l =>
      refine .cons ⟨s, ?_⟩ hrest
      show ((s.decl d).1.prop, (s.decl d).1.value) = _
      unfold ImportedNames.decl
      split <;> rfl
    | _ => exact hrest

/-- Aliases for compositions keep a block, but for the compositions among its declarations. -/
theorem block?_node (s : ImportedNames) {n : Node} {sel : Text} {ps : List (Text × Text)}
    (h : Interface.block? n = some (sel, ps)) :
    ∃ ps', Interface.block? (node s n).1 = some (sel, ps') ∧
      List.Forall₂ Interface.Aliased ps ps' := by
  obtain ⟨l, b, ns, rfl, hblock, rfl⟩ := Interface.block?_eq_some h
  refine ⟨Interface.pairs (nodes s ns).1, ?_, forall₂_pairs_nodes s ns⟩
  show Interface.block? (.rule sel l b (nodes s ns).1) = _
  rw [Interface.block?, if_pos hblock]

end ImportedNames

/-- A node that is a block becomes one with the same selector, and its declarations pass. -/
def BlockPassed (n n' : Node) : Prop :=
  ∀ selector ps, Interface.block? n = some (selector, ps) →
    ∃ ps', Interface.block? n' = some (selector, ps') ∧ List.Forall₂ Interface.Passed ps ps'

theorem ImportedNames.forall₂_nodes_markedAll (s : ImportedNames) (ns : List Node) :
    List.Forall₂ BlockPassed ns (nodes s (markedAll [] ns)).1 := by
  induction ns generalizing s with
  | nil => exact .nil
  | cons n ns ih =>
    refine .cons (fun selector ps h => ?_) (ih (node s (n.marked [])).2)
    obtain ⟨ps', hblock, hps⟩ := block?_node s (block?_marked h)
    rw [List.forall₂_map_left_iff] at hps
    exact ⟨ps', hblock, hps⟩

/-! ## 4. Scoping -/

namespace ScopedNames

/-- Scoping does not enter blocks. -/
theorem forall₂_scopeNodes {ctx : Context} {rule : Text} {ns ns' : List Node} {s s' : ScopedNames}
    (h : scopeNodes ctx rule false ns s = .ok ns' s') :
    List.Forall₂ (fun n n' => ∀ b, Interface.block? n = some b → Interface.block? n' = some b)
      ns ns' := by
  induction ns generalizing s ns' with
  | nil =>
    cases h
    exact .nil
  | cons n ns ih =>
    rw [scopeNodes, Bool.false_and, if_neg Bool.false_ne_true] at h
    obtain ⟨n', s₁, hn, h⟩ := bind_ok h
    obtain ⟨ns'', s₂, hrest, h⟩ := bind_ok h
    cases h
    refine .cons (fun b hb => ?_) (ih hrest)
    obtain ⟨l, c, ks, rfl, hblock, _⟩ := Interface.block?_eq_some hb
    rw [scopeNode, if_pos hblock] at hn
    cases hn
    exact hb

end ScopedNames

/-! ## 5. The blocks of a sheet -/

/-- What holds from one list to a second and from there to a third. -/
theorem forall₂_comp {R S T : Node → Node → Prop} (h : ∀ a b c, R a b → S b c → T a c)
    {as bs cs : List Node} (hab : List.Forall₂ R as bs) (hbc : List.Forall₂ S bs cs) :
    List.Forall₂ T as cs := by
  induction hab generalizing cs with
  | nil =>
    cases hbc
    exact .nil
  | cons hr _ ih =>
    cases hbc with
    | cons hs hrest => exact .cons (h _ _ _ hr hs) (ih hrest)

/-- Whether blocks have passed does not depend on the blanks in front of what became of them. -/
theorem forall₂_blockPassed_of_map_bare {ns ms ms' : List Node}
    (h : List.Forall₂ BlockPassed ns ms) (hbare : ms.map Node.bare = ms'.map Node.bare) :
    List.Forall₂ BlockPassed ns ms' := by
  have hblocks : ms.map Interface.block? = ms'.map Interface.block? :=
    map_of_map_bare Interface.block?_bare hbare
  have hview : List.Forall₂ (fun n block => ∀ selector ps,
      Interface.block? n = some (selector, ps) → ∃ ps', block = some (selector, ps') ∧
        List.Forall₂ Interface.Passed ps ps') ns (ms.map Interface.block?) :=
    List.forall₂_map_right_iff.mpr h
  rw [hblocks, List.forall₂_map_right_iff] at hview
  exact hview

/-- The sheet that is scoped has the import blocks for aliases in front, and blocks that passed. -/
theorem exists_aliased (sheet : Stylesheet) : ∃ front rest,
    (ImportedNames.run (LocalNames.run sheet)).nodes = front ++ rest ∧
      List.Forall₂ BlockPassed sheet.nodes rest := by
  have hall := ImportedNames.forall₂_nodes_markedAll .empty sheet.nodes
  have hbare := Stylesheet.map_bare_prependAll
    (ImportedNames.nodes .empty (markedAll [] sheet.nodes)).2.blocks
    { sheet with nodes := (ImportedNames.nodes .empty (markedAll [] sheet.nodes)).1 }
  rw [List.map_append] at hbare
  obtain ⟨front, rest, hnodes, _, hrest⟩ := List.map_eq_append_iff.mp hbare
  exact ⟨front, rest, hnodes, forall₂_blockPassed_of_map_bare hall hrest.symm⟩

/-- **What the passes make of the blocks of a sheet**, whatever the names of their declarations.
    Every import or export block is still there, in its place behind the blocks put in front, with
    its selector; of its declarations those that use animations are marked and those that compose
    from elsewhere have aliases. If it has none of these, it has the same declarations. -/
theorem Stylesheet.blocks_passed (generate : Text → Text → Text) {sheet out : Stylesheet}
    (h : ScopedNames.run generate (ImportedNames.run (LocalNames.run sheet)) = .ok out) :
    ∃ front kept back, out.nodes = front ++ kept ++ back ∧
      List.Forall₂ (fun n n' => ∀ selector ps, Interface.block? n = some (selector, ps) →
        ∃ ps', Interface.block? n' = some (selector, ps') ∧
          List.Forall₂ Interface.Passed ps ps' ∧ (ps.all Interface.isInert = true → ps' = ps))
        sheet.nodes kept := by
  obtain ⟨nodes, s, hscope, hout⟩ := ScopedNames.run_ok h
  obtain ⟨front, rest, hnodes, hpassed⟩ := exists_aliased sheet
  have hkept := List.forall₂_drop front.length (ScopedNames.forall₂_scopeNodes hscope)
  rw [hnodes, List.drop_left] at hkept
  obtain ⟨back, hback⟩ : ∃ back, out.nodes = nodes ++ back := by
    rw [hout]
    split
    · exact ⟨[], (List.append_nil _).symm⟩
    · exact ⟨_, rfl⟩
  refine ⟨nodes.take front.length, nodes.drop front.length, back, ?_, ?_⟩
  · rw [List.take_append_drop, hback]
  · refine forall₂_comp (fun n m n' hm hn' selector ps hblock => ?_) hpassed hkept
    obtain ⟨ps', hblock', hps⟩ := hm selector ps hblock
    exact ⟨ps', hn' _ hblock', hps, fun hinert => Interface.eq_of_forall₂_passed hps hinert⟩

/-- A sheet that imports a class, composes it, and exports a symbol with the name of a property. -/
def interfacePage : Stylesheet where
  nodes := [
    Interface.importBlock "./base.css".toList [("i".toList, "base".toList)],
    .ofRule ".page".toList [
      .ofDecl "composes".toList "i".toList, .ofDecl "animation".toList "fade 1s".toList],
    Interface.exportBlock [
      ("animation".toList, "fade 2s".toList), ("composes".toList, "i".toList)]]
  after := []
  semicolon := false
  input := []

theorem Stylesheet.blocks_passed_page :
    ∃ out, ScopedNames.run (fun name _ => QualifiedName.generate name "page.css".toList)
        (ImportedNames.run (LocalNames.run interfacePage)) = .ok out ∧
      ∃ front kept back, out.nodes = front ++ kept ++ back ∧
        List.Forall₂ (fun n n' => ∀ selector ps, Interface.block? n = some (selector, ps) →
          ∃ ps', Interface.block? n' = some (selector, ps') ∧
            List.Forall₂ Interface.Passed ps ps' ∧ (ps.all Interface.isInert = true → ps' = ps))
          interfacePage.nodes kept := by
  have hok : (ScopedNames.run (fun name _ => QualifiedName.generate name "page.css".toList)
      (ImportedNames.run (LocalNames.run interfacePage))).isOk = true := by decide +kernel
  cases hrun : ScopedNames.run (fun name _ => QualifiedName.generate name "page.css".toList)
      (ImportedNames.run (LocalNames.run interfacePage)) with
  | ok out => exact ⟨out, rfl, Stylesheet.blocks_passed _ hrun⟩
  | error e =>
    rw [hrun] at hok
    cases hok

/-- An export block is not always kept: a symbol that is named like the property for animations is
    exported with a mark around its value. -/
theorem Stylesheet.animation_not_kept :
    let generate := fun name (_ : Text) => QualifiedName.generate name "foo.css".toList
    let before := (Stylesheet.parse ":export\x7banimation:fade\x7d".toList).toOption
    let after := before.bind fun sheet =>
      (ScopedNames.run generate (ImportedNames.run (LocalNames.run sheet))).toOption
    before.map (·.nodes.filterMap Interface.block?) =
        some [(":export".toList, [("animation".toList, "fade".toList)])] ∧
      after.map (·.nodes.filterMap Interface.block?) =
        some [(":export".toList, [("animation".toList, ":local(fade)".toList)])] :=
  ⟨by decide +kernel, by decide +kernel⟩

end StyleModules
