import Mathlib.Data.List.Forall2
import StyleModules.Proofs.RestyledSheet
import StyleModules.Proofs.ScopingSteps

/-!
Compositions that scoping leaves behind.

Compositions are carried out and taken out in one place only: the block of a rule. One that stands
at the top of a sheet or directly in an at-rule, be this in a rule or not, is kept like any other
declaration.

* `placedCompositions` lists the compositions of a node, each with the `Standing` where it stands.
* `ScopedNames.compositions_left`: the compositions that scoping leaves are, one for one, those that
  do not stand directly in a rule. `ScopedNames.composition_left_in_media` is a sheet with one.
-/

namespace StyleModules

/-! ## 1. Where compositions stand -/

/-- Where a declaration stands: directly in a rule, anywhere in an import or export block, or
    neither, which is at the top or directly in an at-rule. -/
inductive Standing where
  | rule
  | block
  | free
  deriving DecidableEq, Repr

/-- Where the declarations of a rule stand, given where the rule does. -/
def Standing.inRule (place : Standing) (selector : Text) : Standing :=
  if place = .block || Interface.isImport selector || Interface.isExport selector then .block
  else .rule

/-- Where the declarations of an at-rule stand, given where the at-rule does. -/
def Standing.inAtRule (place : Standing) : Standing :=
  if place = .block then .block else .free

mutual

/-- The properties of the compositions in a node, each with where it stands. -/
def Node.placedCompositions (place : Standing) : Node → List (Standing × Text)
  | .rule s _ _ ns => placedCompositionsAll (place.inRule s) ns
  | .atBlock _ _ _ ns => placedCompositionsAll place.inAtRule ns
  | .atStatement _ _ => []
  | .decl d _ => if Interface.isComposition d.prop then [(place, d.prop)] else []
  | .comment _ _ => []

/-- The properties of the compositions in a block, each with where it stands. -/
def placedCompositionsAll (place : Standing) : List Node → List (Standing × Text)
  | [] => []
  | n :: ns => n.placedCompositions place ++ placedCompositionsAll place ns

end

/-- The compositions of a sheet with where they stand. -/
def Stylesheet.placedCompositions (sheet : Stylesheet) : List (Standing × Text) :=
  placedCompositionsAll .free sheet.nodes

/-- The compositions that do not stand directly in a rule. -/
def outsideRules (ps : List (Standing × Text)) : List (Standing × Text) :=
  ps.filter fun p => p.1 ≠ .rule

theorem placedCompositionsAll_append (place : Standing) (ns ms : List Node) :
    placedCompositionsAll place (ns ++ ms) =
      placedCompositionsAll place ns ++ placedCompositionsAll place ms := by
  induction ns with
  | nil => rfl
  | cons n ns ih =>
    rw [List.cons_append, placedCompositionsAll, placedCompositionsAll, ih, List.append_assoc]

theorem Standing.inRule_of_block (place : Standing) {selector : Text}
    (h : Interface.isImport selector || Interface.isExport selector) :
    place.inRule selector = .block := by
  unfold inRule
  rw [Bool.or_assoc, h, Bool.or_true, if_pos rfl]

theorem Standing.inRule_of_not_block {place : Standing} (hplace : place ≠ .block) {selector : Text}
    (h : ¬(Interface.isImport selector || Interface.isExport selector)) :
    place.inRule selector = .rule := by
  unfold inRule
  rw [Bool.or_assoc, if_neg]
  rw [Bool.or_eq_true, decide_eq_true_iff]
  exact not_or.mpr ⟨hplace, h⟩

mutual

/-- What stands in a block stands there at any depth. -/
theorem Node.fst_of_mem_block (n : Node) {p : Standing × Text}
    (hp : p ∈ n.placedCompositions .block) : p.1 = .block := by
  match n with
  | .rule s l b ns => exact fst_of_mem_blockAll ns hp
  | .atBlock h l b ns => exact fst_of_mem_blockAll ns hp
  | .atStatement h l => cases hp
  | .decl d l =>
    rw [Node.placedCompositions] at hp
    split at hp
    · rw [List.mem_singleton.mp hp]
    · cases hp
  | .comment t l => cases hp

theorem fst_of_mem_blockAll (ns : List Node) {p : Standing × Text}
    (hp : p ∈ placedCompositionsAll .block ns) : p.1 = .block := by
  match ns with
  | [] => cases hp
  | n :: ns =>
    rcases List.mem_append.mp hp with hp | hp
    · exact n.fst_of_mem_block hp
    · exact fst_of_mem_blockAll ns hp

end

namespace ScopedNames

/-! ## 2. What scoping leaves -/

/-- The place of a node in the sheet that was scoped: as before, or in a rule that has become a block
    because of what the generator made of its selector. -/
def Moves (place place' : Standing) : Prop :=
  place' = place ∨ place' = .block

theorem moves_inRule (place : Standing) (selector : Text) : Moves .rule (place.inRule selector) := by
  unfold Standing.inRule
  split
  · exact .inr rfl
  · exact .inl rfl

theorem moves_inAtRule (place : Standing) : Moves .free place.inAtRule := by
  unfold Standing.inAtRule
  split
  · exact .inr rfl
  · exact .inl rfl

/-- A composition that is left: the same property, in its place. -/
structure Left (p q : Standing × Text) : Prop where
  place : Moves p.1 q.1
  prop : q.2 = p.2

/-- The compositions that are left of some: one for one those that are not directly in a rule. -/
def Leaves (before after : List (Standing × Text)) : Prop :=
  List.Forall₂ Left (outsideRules before) after

theorem Leaves.append {before after before' after' : List (Standing × Text)}
    (h : Leaves before after) (h' : Leaves before' after') :
    Leaves (before ++ before') (after ++ after') := by
  unfold Leaves outsideRules
  rw [List.filter_append]
  exact List.rel_append h h'

theorem Leaves.exists_of_mem {before after : List (Standing × Text)} (h : Leaves before after)
    {p : Standing × Text} (hp : p ∈ after) : ∃ q ∈ outsideRules before, Moves q.1 p.1 := by
  unfold Leaves at h
  generalize outsideRules before = outside at h ⊢
  induction h with
  | nil => cases hp
  | cons hleft _ ih =>
    rcases List.mem_cons.mp hp with rfl | hp
    · exact ⟨_, List.mem_cons_self, hleft.place⟩
    · obtain ⟨q, hq, hmove⟩ := ih hp
      exact ⟨q, List.mem_cons_of_mem _ hq, hmove⟩

/-- Nothing happens to what stands in a block. -/
theorem leaves_block (ns : List Node) :
    Leaves (placedCompositionsAll .block ns) (placedCompositionsAll .block ns) := by
  have hall : outsideRules (placedCompositionsAll .block ns) = placedCompositionsAll .block ns := by
    refine List.filter_eq_self.mpr fun p hp => ?_
    rw [fst_of_mem_blockAll ns hp]
    rfl
  unfold Leaves
  rw [hall]
  exact List.forall₂_same.mpr fun p _ => ⟨.inl rfl, rfl⟩

/-- A composition directly in a rule is not left. -/
theorem Leaves.skip {n : Node} (hn : isCompositionNode n) {before after : List (Standing × Text)}
    (h : Leaves before after) : Leaves (n.placedCompositions .rule ++ before) after := by
  cases n with
  | decl d l =>
    have hd : Interface.isComposition d.prop = true := hn
    rw [Node.placedCompositions, if_pos hd]
    exact h
  | _ => cases hn

theorem leaves_decl {place place' : Standing} (hmove : Moves place place') {d : Decl} {l : Layout}
    (h : (decide (place = .rule) && isCompositionNode (.decl d l)) = false) (value : Text) :
    Leaves ((Node.decl d l).placedCompositions place)
      ((Node.decl { d with value } l).placedCompositions place') := by
  unfold Node.placedCompositions
  by_cases hd : Interface.isComposition d.prop
  · have hplace : place ≠ .rule := by
      intro hrule
      have hcomposition : isCompositionNode (.decl d l) = true := hd
      simp [hrule, hcomposition] at h
    rw [if_pos hd, if_pos hd]
    unfold Leaves outsideRules
    rw [List.filter_cons_of_pos (by simpa using hplace)]
    exact .cons ⟨hmove, rfl⟩ .nil
  · rw [if_neg hd, if_neg hd]
    exact List.Forall₂.nil

variable {ctx : Context}

mutual

/-- What scoping leaves in a node outside of blocks. -/
theorem scopeNode_leaves {s s₁ : ScopedNames} (rule : Text) {place place' : Standing}
    (hplace : place ≠ .block) (hmove : Moves place place') (n : Node) {n' : Node}
    (hn : (decide (place = .rule) && isCompositionNode n) = false)
    (h : scopeNode ctx rule n s = .ok n' s₁) :
    Leaves (n.placedCompositions place) (n'.placedCompositions place') := by
  match n with
  | .rule sel l b ns =>
    by_cases hblock : Interface.isImport sel || Interface.isExport sel
    · obtain ⟨rfl, -⟩ := of_scopeNode_block hblock h
      unfold Node.placedCompositions
      rw [place.inRule_of_block hblock, place'.inRule_of_block hblock]
      exact leaves_block ns
    · -- the selector is written anew, so what was a rule may be a block now
      obtain ⟨s', ns', -, hns, rfl⟩ := of_scopeNode_rule hblock h
      unfold Node.placedCompositions
      rw [Standing.inRule_of_not_block hplace hblock]
      exact scopeNodes_leaves _ Standing.noConfusion (moves_inRule place' _) ns hns
  | .atBlock head l b ns =>
    obtain ⟨head', s', ns', -, hns, rfl⟩ := of_scopeNode_atBlock h
    have hfree : place.inAtRule = .free := if_neg hplace
    unfold Node.placedCompositions
    rw [hfree]
    exact scopeNodes_leaves _ Standing.noConfusion (moves_inAtRule place') ns hns
  | .atStatement head l =>
    obtain ⟨head', -, rfl⟩ := of_scopeNode_atStatement h
    exact List.Forall₂.nil
  | .decl d l =>
    obtain ⟨rfl, -⟩ := of_scopeNode_decl h
    exact leaves_decl hmove hn _
  | .comment t l =>
    cases h
    exact List.Forall₂.nil

/-- **What scoping leaves in a block of nodes.** -/
theorem scopeNodes_leaves {s s₁ : ScopedNames} (rule : Text) {place place' : Standing}
    (hplace : place ≠ .block) (hmove : Moves place place') (ns : List Node) {ns' : List Node}
    (h : scopeNodes ctx rule (decide (place = .rule)) ns s = .ok ns' s₁) :
    Leaves (placedCompositionsAll place ns) (placedCompositionsAll place' ns') := by
  match ns with
  | [] =>
    cases h
    exact List.Forall₂.nil
  | n :: ns =>
    rcases of_scopeNodes_cons h with ⟨hskip, hns⟩ | ⟨hskip, n', s', rest, hn, hns, rfl⟩
    · obtain ⟨hrule, hcomposition⟩ := Bool.and_eq_true_iff.mp hskip
      obtain rfl := of_decide_eq_true hrule
      exact (scopeNodes_leaves rule hplace hmove ns hns).skip hcomposition
    · exact (scopeNode_leaves rule hplace hmove n hskip hn).append
        (scopeNodes_leaves rule hplace hmove ns hns)

end

/-! ## 3. Sheets -/

/-- The compositions of a sheet that was scoped: what is left of those it had, and what the export
    block says of classes that bear the name of a composition. -/
theorem placedCompositions_of_run {generate : Text → Text → Text} {sheet full : Stylesheet}
    (h : run generate sheet = .ok full) :
    ∃ left exported, full.placedCompositions = left ++ exported ∧
      Leaves sheet.placedCompositions left ∧ ∀ p ∈ exported, p.1 = .block := by
  obtain ⟨nodes, s, hnodes, hfull⟩ := run_ok h
  have hleft : Leaves sheet.placedCompositions (placedCompositionsAll .free nodes) :=
    scopeNodes_leaves _ Standing.noConfusion (.inl rfl) sheet.nodes hnodes
  by_cases hempty : s.exports.isEmpty
  · rw [if_pos hempty] at hfull
    subst hfull
    exact ⟨_, [], (List.append_nil _).symm, hleft, fun p hp => by cases hp⟩
  · obtain ⟨before, happend⟩ := Stylesheet.append_eq (exportBlock s.exports) { sheet with nodes }
    rw [if_neg hempty, happend] at hfull
    subst hfull
    refine ⟨_, _, placedCompositionsAll_append .free nodes _, hleft, fun p hp => ?_⟩
    rcases List.mem_append.mp hp with hp | hp
    · exact fst_of_mem_blockAll _ hp
    · cases hp

/-- **Compositions that are left**: of the compositions of a sheet, scoping takes out those that
    stand directly in a rule and leaves all others, in order and in their places. So none is left
    outside of import and export blocks if there was none at the top or directly in an at-rule. -/
theorem compositions_left {generate : Text → Text → Text} {sheet full : Stylesheet}
    (h : run generate sheet = .ok full) :
    (∃ left exported, full.placedCompositions = left ++ exported ∧
      List.Forall₂ Left (outsideRules sheet.placedCompositions) left ∧
      ∀ p ∈ exported, p.1 = .block) ∧
    ((∀ p ∈ sheet.placedCompositions, p.1 ≠ .free) →
      ∀ p ∈ full.placedCompositions, p.1 = .block) := by
  obtain ⟨left, exported, hfull, hleft, hexported⟩ := placedCompositions_of_run h
  refine ⟨⟨left, exported, hfull, hleft, hexported⟩, fun hnone p hp => ?_⟩
  rw [hfull] at hp
  rcases List.mem_append.mp hp with hp | hp
  · obtain ⟨q, hq, hmove⟩ := hleft.exists_of_mem hp
    obtain ⟨hq, hrule⟩ := List.mem_filter.mp hq
    rcases hmove with heq | hblock
    · have hfree := hnone q hq
      have hother : q.1 ≠ .rule := of_decide_eq_true hrule
      rw [heq]
      cases hplace : q.1 with
      | rule => exact absurd hplace hother
      | block => rfl
      | free => exact absurd hplace hfree
    · exact hblock
  · exact hexported p hp

/-- A sheet with compositions in a rule, in a rule in an at-rule and in an import block. -/
def composedPage : Stylesheet where
  nodes := [
    Interface.importBlock "base.css".toList [("composes".toList, "wide".toList)],
    .ofRule ":local(.a)".toList [.ofDecl "color".toList "red".toList],
    .atBlock ⟨"media".toList, " ".toList, "print".toList⟩ ⟨[], [], [], none⟩ false [
      .ofRule ":local(.b)".toList [
        .ofDecl "composes".toList "a".toList,
        .ofDecl "compose-with".toList "composes global(c)".toList]]]
  after := []
  semicolon := false
  input := []

theorem compositions_left_page :
    ∃ full, run (fun name _ => '_' :: name) composedPage = .ok full ∧
      composedPage.placedCompositions = [(.block, "composes".toList), (.rule, "composes".toList),
        (.rule, "compose-with".toList)] ∧
      ∀ p ∈ full.placedCompositions, p.1 = .block := by
  have hplaced : composedPage.placedCompositions = [(.block, "composes".toList),
      (.rule, "composes".toList), (.rule, "compose-with".toList)] := by decide +kernel
  have hok : (run (fun name _ => '_' :: name) composedPage).isOk = true := by decide +kernel
  cases hrun : run (fun name _ => '_' :: name) composedPage with
  | error e =>
    rw [hrun] at hok
    cases hok
  | ok full =>
    refine ⟨full, rfl, hplaced, (compositions_left hrun).2 ?_⟩
    rw [hplaced]
    decide

/-- A composition directly in an at-rule stays, although this is in the rule of one local class. -/
theorem composition_left_in_media :
    ((Stylesheet.parse ".b\x7b@media print\x7bcomposes:\x7d\x7d".toList).toOption.bind fun sheet =>
      (run (fun name _ => '_' :: name) (LocalNames.run sheet)).toOption.map fun full =>
        (full.print, full.placedCompositions)) =
    some ("._b\x7b@media print\x7bcomposes:\x7d\x7d\n:export \x7b\n  b: _b;\n\x7d".toList,
      [(.free, "composes".toList)]) := by
  decide +kernel

end ScopedNames

end StyleModules
