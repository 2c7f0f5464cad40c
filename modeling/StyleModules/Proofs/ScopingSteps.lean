import StyleModules.Proofs.ScopedLists

/-!
What scoping does to a sheet, step by step.

* A `Step` enters a local name or composes a word into a class. `Node.steps` are the steps that
  scoping a node takes, in the order of the tree, and `Run` is a sequence of steps that were taken.
* `scopeNodes_run`: scoping a block takes the steps of the block. What every step keeps, scoping a
  sheet keeps.
-/

namespace StyleModules

namespace ScopedNames

variable {ctx : Context} {s s₁ s₂ : ScopedNames}

/-! ## 1. Steps -/

/-- A step of scoping: a local name that stands in a rule is entered, or a word is composed into a
    class. -/
inductive Step where
  | enter (name rule : Text)
  | compose (composer word : Text)
  deriving DecidableEq, Repr

/-- A step that was taken. -/
inductive Takes (ctx : Context) (s : ScopedNames) : Step → ScopedNames → Prop where
  | enter (name rule : Text) : Takes ctx s (.enter name rule) (enter ctx rule s name)
  | compose {composer word : Text} {list : List Text} (h : composed ctx word s = .ok list s) :
      Takes ctx s (.compose composer word) (extend s composer list)

/-- Steps that were taken one after the other. -/
inductive Run (ctx : Context) : ScopedNames → List Step → ScopedNames → Prop where
  | nil (s : ScopedNames) : Run ctx s [] s
  | cons {s s₁ s₂ : ScopedNames} {step : Step} {steps : List Step} (h : Takes ctx s step s₁)
      (hrest : Run ctx s₁ steps s₂) : Run ctx s (step :: steps) s₂

theorem Run.append {steps more : List Step} (h : Run ctx s steps s₁) (h' : Run ctx s₁ more s₂) :
    Run ctx s (steps ++ more) s₂ := by
  induction h with
  | nil s => exact h'
  | cons hstep _ ih => exact .cons hstep (ih h')

/-- The steps in which names that stand in a rule are entered. -/
def enterSteps (rule : Text) (names : List Text) : List Step :=
  names.map (.enter · rule)

theorem run_enterSteps (ctx : Context) (rule : Text) (names : List Text) (s : ScopedNames) :
    Run ctx s (enterSteps rule names) (names.foldl (enter ctx rule) s) := by
  induction names generalizing s with
  | nil => exact .nil s
  | cons n names ih => exact .cons (.enter n rule) (ih _)

/-- The steps in which words are composed into classes. -/
def composeSteps (events : List (Text × Text)) : List Step :=
  events.map fun p => .compose p.1 p.2

end ScopedNames

open ScopedNames in
mutual

/-- The steps that scoping a node takes which stands in a rule with the given text. -/
def Node.steps (ctx : Context) (rule : Text) : Node → List Step
  | .rule s l b ns =>
    if Interface.isImport s || Interface.isExport s then []
    else
      enterSteps (ctx.textOf (.rule s l b ns)) (LocalMark.names s) ++
        composeSteps (ruleEvents s ns) ++ stepsAll ctx (ctx.textOf (.rule s l b ns)) true ns
  | .atBlock h l b ns =>
    enterSteps (ctx.textOf (.atBlock h l b ns)) (keyframesNames h) ++
      stepsAll ctx (ctx.textOf (.atBlock h l b ns)) false ns
  | .atStatement h l => enterSteps (ctx.textOf (.atStatement h l)) (keyframesNames h)
  | .decl d _ => enterSteps rule (LocalMark.names d.value)
  | .comment _ _ => []

/-- The steps that scoping the nodes of a block takes. -/
def stepsAll (ctx : Context) (rule : Text) (inRule : Bool) : List Node → List Step
  | [] => []
  | n :: ns =>
    (if inRule && isCompositionNode n then [] else n.steps ctx rule) ++
      stepsAll ctx rule inRule ns

end

namespace ScopedNames

variable {ctx : Context} {s s₁ : ScopedNames}

/-! ## 2. Scoping takes steps -/

theorem composeNames_run {composer : Text} {words : List Text}
    (h : composeNames ctx composer words s = .ok () s₁) :
    Run ctx s (composeSteps (words.map ((composer, ·)))) s₁ := by
  induction words generalizing s with
  | nil =>
    cases h
    exact .nil _
  | cons w ws ih =>
    obtain ⟨list, s', hcomposed, hrest⟩ := bind_ok h
    obtain ⟨rfl, -⟩ := of_composed hcomposed
    obtain ⟨_, s'', hmodify, hrest⟩ := bind_ok hrest
    cases hmodify
    exact .cons (.compose hcomposed) (ih hrest)

theorem compose_run {selector : Text} {ds : List Decl}
    (h : compose ctx selector ds s = .ok () s₁) :
    Run ctx s (composeSteps (match composer? selector with
      | some c => ds.flatMap fun d => (Text.words d.value).map ((c, ·))
      | none => [])) s₁ := by
  induction ds generalizing s with
  | nil =>
    cases h
    cases composer? selector <;> exact .nil _
  | cons d ds ih =>
    unfold compose at h
    cases hc : composer? selector with
    | none =>
      simp only [hc] at h
      cases h
    | some c =>
      simp only [hc] at h
      obtain ⟨_, s', hnames, h⟩ := bind_ok h
      have hrest := ih h
      simp only [hc, List.flatMap_cons, composeSteps, List.map_append] at hrest ⊢
      exact (composeNames_run hnames).append hrest

mutual

/-- Scoping a node takes its steps. -/
theorem scopeNode_run {s s₁ : ScopedNames} (rule : Text) (n : Node) {n' : Node}
    (h : scopeNode ctx rule n s = .ok n' s₁) : Run ctx s (n.steps ctx rule) s₁ := by
  match n with
  | .rule sel l b ns =>
    unfold Node.steps
    by_cases hblock : Interface.isImport sel || Interface.isExport sel
    · obtain ⟨-, rfl⟩ := of_scopeNode_block hblock h
      rw [if_pos hblock]
      exact .nil s₁
    · obtain ⟨s', ns', hcompose, hns, -⟩ := of_scopeNode_rule hblock h
      rw [if_neg hblock]
      exact ((run_enterSteps ctx _ _ s).append (compose_run hcompose)).append
        (scopeNodes_run _ true ns hns)
  | .atBlock head l b ns =>
    obtain ⟨head', s', ns', hhead, hns, -⟩ := of_scopeNode_atBlock h
    obtain rfl := of_scopeKeyframes hhead
    exact (run_enterSteps ctx _ _ s).append (scopeNodes_run _ false ns hns)
  | .atStatement head l =>
    obtain ⟨head', hhead, -⟩ := of_scopeNode_atStatement h
    obtain rfl := of_scopeKeyframes hhead
    exact run_enterSteps ctx _ _ s
  | .decl d l =>
    obtain ⟨-, rfl⟩ := of_scopeNode_decl h
    exact run_enterSteps ctx _ _ s
  | .comment t l =>
    cases h
    exact .nil s

/-- **Scoping a block takes its steps**, in the order of the tree. -/
theorem scopeNodes_run {s s₁ : ScopedNames} (rule : Text) (inRule : Bool) (ns : List Node)
    {ns' : List Node} (h : scopeNodes ctx rule inRule ns s = .ok ns' s₁) :
    Run ctx s (stepsAll ctx rule inRule ns) s₁ := by
  match ns with
  | [] =>
    cases h
    exact .nil s
  | n :: ns =>
    unfold stepsAll
    rcases of_scopeNodes_cons h with ⟨hskip, hns⟩ | ⟨hskip, n', s', rest, hn, hns, -⟩
    · rw [if_pos hskip]
      exact scopeNodes_run rule inRule ns hns
    · rw [hskip, if_neg Bool.false_ne_true]
      exact (scopeNode_run rule n hn).append (scopeNodes_run rule inRule ns hns)

end

end ScopedNames

end StyleModules
