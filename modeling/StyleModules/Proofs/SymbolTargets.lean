import StyleModules.Sheet.Splice
import StyleModules.Proofs.SymbolScan

/-!
What replacing symbols in a style sheet changes, and what not.

A node is its frame, one text and the nodes of its block. Places in a sheet are named by paths, and
two sheets are compared place by place, so that a statement about them does not follow the walk that
makes one from the other.

* `Confined`: two sheets have nodes in the same places, with the same frames. The texts are the same
  in import blocks and wherever none is targeted; the others are related. Whether a text is targeted
  is read off the first sheet.
* `Replaced` is the same node by node, and `Replaced.at?` follows it along a path.
* `spliceSymbols_confined`: splicing a sheet never fails, whatever the lookup does, and the sheets
  before and after are confined so. Without a state, this is `replaceSymbols`.
-/

namespace StyleModules

/-! ## 1. Frames, texts and places -/

namespace Node

/-- The text of a node in which symbols may stand: the selector of a rule, what follows the name of an
    at-rule, the value of a declaration; of a comment, all of it. -/
def slot : Node → Text
  | rule s _ _ _ => s
  | atBlock h _ _ _ => h.params
  | atStatement h _ => h.params
  | decl d _ => d.value
  | comment t _ => t

/-- All else of a node, without the nodes of its block. -/
def frame : Node → Node
  | rule _ l b _ => rule [] l b []
  | atBlock h l b _ => atBlock { h with params := [] } l b []
  | atStatement h l => atStatement { h with params := [] } l
  | decl d l => decl { d with value := [] } l
  | comment _ l => comment [] l

/-- Whether the text of a node is targeted. -/
def isTarget (targets : Targets) : Node → Bool
  | rule s _ _ _ => targets.selectors && !Interface.isExport s
  | atBlock h _ _ _ => targets.params && !AtHead.isKeyframes h.name && !AtHead.isValue h.name
  | atStatement h _ => targets.params && !AtHead.isKeyframes h.name && !AtHead.isValue h.name
  | decl _ _ => targets.values
  | comment _ _ => false

/-- Whether a node is an import block. -/
def isImportBlock : Node → Bool
  | rule s _ _ _ => Interface.isImport s
  | _ => false

/-- The node in a place below another. -/
def at? (n : Node) : List Nat → Option Node
  | [] => some n
  | i :: path => n.children[i]?.bind fun k => k.at? path

end Node

/-- The node in a place of a sheet. -/
def Stylesheet.at? (sheet : Stylesheet) : List Nat → Option Node
  | [] => none
  | i :: path => sheet.nodes[i]?.bind fun k => k.at? path

/-- Whether a place is in an import block, or is one. `at?` tells the node in each place. -/
def InImport (at? : List Nat → Option Node) (path : List Nat) : Prop :=
  ∃ front k, front <+: path ∧ at? front = some k ∧ k.isImportBlock = true

/-- What becomes of a node: its frame stays, and so does its text if it is not targeted or is
    `kept` for another reason; else the texts are related. -/
structure Retold (targets : Targets) (R : Text → Text → Prop) (kept : Prop) (n m : Node) : Prop where
  frame : m.frame = n.frame
  same : kept ∨ n.isTarget targets = false → m.slot = n.slot
  related : ¬kept → n.isTarget targets = true → R n.slot m.slot

/-- **Nothing is changed but what is targeted.** Two sheets have nodes in the same places, and these
    differ in targeted texts only, and nowhere in import blocks. -/
structure Confined (targets : Targets) (R : Text → Text → Prop) (before after : Stylesheet) :
    Prop where
  rest : after = { before with nodes := after.nodes }
  nodes : ∀ path, Option.Rel (Retold targets R (InImport before.at? path)) (before.at? path)
    (after.at? path)

/-! ## 2. Along a path -/

section Path

variable {targets : Targets} {R : Text → Text → Prop}

/-- A node before and after: an import block is left alone, and else its block goes on so. -/
inductive Replaced (targets : Targets) (R : Text → Text → Prop) : Node → Node → Prop
  | block {n : Node} (h : n.isImportBlock = true) : Replaced targets R n n
  | node {n m : Node} (h : n.isImportBlock = false) (hown : Retold targets R False n m)
      (hnodes : ∀ i : Nat, Option.Rel (Replaced targets R) n.children[i]? m.children[i]?) :
      Replaced targets R n m

/-- What counts below the first step of a path, if there is no import block in front of it. -/
theorem inImport_cons {f g : List Nat → Option Node} {i : Nat} (hcons : ∀ path, f (i :: path) = g path)
    (hnil : ∀ k, f [] = some k → k.isImportBlock = false) {path : List Nat} :
    InImport f (i :: path) ↔ InImport g path := by
  constructor
  · rintro ⟨front, k, hfront, hk, himport⟩
    cases front with
    | nil => rw [hnil k hk] at himport; cases himport
    | cons j front =>
      obtain ⟨rfl, htail⟩ := List.cons_prefix_cons.mp hfront
      exact ⟨front, k, htail, (hcons front).symm.trans hk, himport⟩
  · rintro ⟨front, k, hfront, hk, himport⟩
    exact ⟨i :: front, k, List.cons_prefix_cons.mpr ⟨rfl, hfront⟩, (hcons front).trans hk, himport⟩

/-- In an import block, every node is kept. -/
theorem rel_of_inImport {f : List Nat → Option Node} {path : List Nat} (h : InImport f path) :
    Option.Rel (Retold targets R (InImport f path)) (f path) (f path) := by
  cases f path with
  | none => exact .none
  | some k => exact .some ⟨rfl, fun _ => rfl, fun hnot => absurd h hnot⟩

/-- One step of a path. -/
theorem rel_cons {ns ms : List Node} {i : Nat} (hnodes : Option.Rel (Replaced targets R) ns[i]? ms[i]?)
    {path : List Nat} (hpath : ∀ {n m : Node}, Replaced targets R n m →
      Option.Rel (Retold targets R (InImport n.at? path)) (n.at? path) (m.at? path))
    {f : List Nat → Option Node} (hcons : ∀ path, f (i :: path) = ns[i]?.bind fun k => k.at? path)
    (hnil : ∀ k, f [] = some k → k.isImportBlock = false) :
    Option.Rel (Retold targets R (InImport f (i :: path))) (ns[i]?.bind fun k => k.at? path)
      (ms[i]?.bind fun k => k.at? path) := by
  generalize ns[i]? = n at hnodes hcons
  generalize ms[i]? = m at hnodes
  cases hnodes with
  | none => exact .none
  | some h =>
    rw [inImport_cons hcons hnil]
    exact hpath h

/-- What is replaced node by node is so in every place. -/
theorem Replaced.at? {n m : Node} (h : Replaced targets R n m) (path : List Nat) :
    Option.Rel (Retold targets R (InImport n.at? path)) (n.at? path) (m.at? path) := by
  -- on the path and not on the tree: one step of it leads from a node to one of its block
  induction path generalizing n m with
  | nil =>
    cases h with
    | block himport => exact rel_of_inImport ⟨[], n, List.nil_prefix, rfl, himport⟩
    | node himport hown _ =>
      have hnot : ¬InImport n.at? [] := by
        rintro ⟨front, k, hfront, hk, hblock⟩
        rw [List.prefix_nil.mp hfront] at hk
        cases hk
        rw [himport] at hblock
        cases hblock
      rw [eq_false hnot]
      exact .some hown
  | cons i path ih =>
    cases h with
    | block himport => exact rel_of_inImport ⟨[], n, List.nil_prefix, rfl, himport⟩
    | node himport hown hnodes =>
      have hnil : ∀ k, n.at? [] = some k → k.isImportBlock = false := by
        rintro k ⟨⟩
        exact himport
      exact rel_cons (hnodes i) ih (fun _ => rfl) hnil

end Path

/-! ## 3. The walk -/

section Walk

variable {σ : Type} {targets : Targets} {lookup : Text → StateM σ (Option Text)}

/-- What a text may become when it is spliced: a lookup with a state need not answer alike always. -/
def Image (lookup : Text → StateM σ (Option Text)) (t u : Text) : Prop :=
  ∃ s s', Symbol.splice lookup t s = some (u, s')

theorem spliceIf_total (targeted : Bool) (t : Text) (s : σ) :
    ∃ u s', spliceIf lookup targeted t s = some (u, s') ∧
      (targeted = false → u = t) ∧ (targeted = true → Image lookup t u) := by
  cases targeted with
  | false => exact ⟨t, s, rfl, fun _ => rfl, nofun⟩
  | true =>
    have hsplice := @Symbol.splice_eq σ lookup t s
    exact ⟨_, _, hsplice, nofun, fun _ => ⟨s, _, hsplice⟩⟩

theorem AtHead.spliceSymbols_total (h : AtHead) (s : σ) :
    ∃ params s', h.spliceSymbols targets lookup s = some ({ h with params := params }, s') ∧
      ((targets.params && !isKeyframes h.name && !isValue h.name) = false → params = h.params) ∧
      ((targets.params && !isKeyframes h.name && !isValue h.name) = true →
        Image lookup h.params params) := by
  obtain ⟨params, s', hparams, hsame, himage⟩ := @spliceIf_total σ lookup
    (targets.params && !isKeyframes h.name && !isValue h.name) h.params s
  refine ⟨params, s', ?_, hsame, himage⟩
  simp only [AtHead.spliceSymbols, hparams, Option.bind_eq_bind, Option.bind_some]
  rfl

theorem rel_nil : ∀ i : Nat, Option.Rel (Replaced targets (Image lookup))
    ([] : List Node)[i]? ([] : List Node)[i]? :=
  fun _ => .none

mutual

/-- Splicing never fails, and replaces node by node. -/
theorem Node.spliceSymbols_replaced (n : Node) (s : σ) :
    ∃ m s', n.spliceSymbols targets lookup s = some (m, s') ∧
      Replaced targets (Image lookup) n m := by
  match n with
  | .rule selector l b ns =>
    rw [Node.spliceSymbols]
    by_cases himport : Interface.isImport selector = true
    · exact ⟨_, s, if_pos himport, .block himport⟩
    · obtain ⟨u, s₁, hslot, hsame, himage⟩ := @spliceIf_total σ lookup
        (targets.selectors && !Interface.isExport selector) selector s
      obtain ⟨ms, s₂, hnodes, hms⟩ := spliceAllSymbols_replaced ns s₁
      refine ⟨.rule u l b ms, s₂, ?_, .node (Bool.eq_false_iff.mpr himport)
        ⟨rfl, fun h => hsame (h.resolve_left id), fun _ => himage⟩ hms⟩
      simp only [if_neg himport, hslot, hnodes, Option.bind_eq_bind, Option.bind_some]
      rfl
  | .atBlock h l b ns =>
    obtain ⟨params, s₁, hhead, hsame, himage⟩ := h.spliceSymbols_total s
    obtain ⟨ms, s₂, hnodes, hms⟩ := spliceAllSymbols_replaced ns s₁
    refine ⟨.atBlock { h with params := params } l b ms, s₂, ?_, .node rfl
      ⟨rfl, fun h => hsame (h.resolve_left id), fun _ => himage⟩ hms⟩
    simp only [Node.spliceSymbols, hhead, hnodes, Option.bind_eq_bind, Option.bind_some]
    rfl
  | .atStatement h l =>
    obtain ⟨params, s₁, hhead, hsame, himage⟩ := h.spliceSymbols_total s
    refine ⟨.atStatement { h with params := params } l, s₁, ?_, .node rfl
      ⟨rfl, fun h => hsame (h.resolve_left id), fun _ => himage⟩ rel_nil⟩
    simp only [Node.spliceSymbols, hhead, Option.bind_eq_bind, Option.bind_some]
    rfl
  | .decl d l =>
    obtain ⟨value, s₁, hslot, hsame, himage⟩ :=
      @spliceIf_total σ lookup targets.values d.value s
    refine ⟨.decl { d with value := value } l, s₁, ?_, .node rfl
      ⟨rfl, fun h => hsame (h.resolve_left id), fun _ => himage⟩ rel_nil⟩
    simp only [Node.spliceSymbols, hslot, Option.bind_eq_bind, Option.bind_some]
    rfl
  | .comment t l => exact ⟨_, s, rfl, .node rfl ⟨rfl, fun _ => rfl, fun _ => nofun⟩ rel_nil⟩

theorem spliceAllSymbols_replaced (ns : List Node) (s : σ) :
    ∃ ms s', spliceAllSymbols targets lookup ns s = some (ms, s') ∧
      ∀ i : Nat, Option.Rel (Replaced targets (Image lookup)) ns[i]? ms[i]? := by
  match ns with
  | [] => exact ⟨[], s, rfl, rel_nil⟩
  | n :: ns =>
    obtain ⟨m, s₁, hnode, hm⟩ := n.spliceSymbols_replaced s
    obtain ⟨ms, s₂, hnodes, hms⟩ := spliceAllSymbols_replaced ns s₁
    refine ⟨m :: ms, s₂, ?_, fun i => ?_⟩
    · simp only [spliceAllSymbols, hnode, hnodes, Option.bind_eq_bind, Option.bind_some]
      rfl
    · cases i with
      | zero => exact .some hm
      | succ i => exact hms i

end

end Walk

/-! ## 4. A lookup without a state -/

section Pure

variable {σ : Type} {targets : Targets} {lookup : Text → Option Text}

theorem spliceIf_pure (targeted : Bool) (t : Text) (s : σ) :
    spliceIf (fun w => pure (lookup w)) targeted t s = some (replaceIf targeted lookup t, s) := by
  cases targeted with
  | false => rfl
  | true => exact Symbol.splice_pure lookup t s

theorem AtHead.spliceSymbols_pure (h : AtHead) (s : σ) :
    h.spliceSymbols targets (fun w => pure (lookup w)) s =
      some (h.replaceSymbols targets lookup, s) := by
  rw [AtHead.spliceSymbols]
  simp only [spliceIf_pure, Option.bind_eq_bind, Option.bind_some]
  rfl

mutual

theorem Node.spliceSymbols_pure (n : Node) (s : σ) :
    n.spliceSymbols targets (fun w => pure (lookup w)) s =
      some (n.replaceSymbols targets lookup, s) := by
  match n with
  | .rule selector l b ns =>
    rw [Node.spliceSymbols, Node.replaceSymbols]
    split
    · rfl
    · simp only [spliceIf_pure, spliceAllSymbols_pure ns s, Option.bind_eq_bind, Option.bind_some]
      rfl
  | .atBlock h l b ns =>
    simp only [Node.spliceSymbols, h.spliceSymbols_pure s, spliceAllSymbols_pure ns s,
      Option.bind_eq_bind, Option.bind_some]
    rfl
  | .atStatement h l =>
    simp only [Node.spliceSymbols, h.spliceSymbols_pure s, Option.bind_eq_bind, Option.bind_some]
    rfl
  | .decl d l =>
    simp only [Node.spliceSymbols, spliceIf_pure, Option.bind_eq_bind, Option.bind_some]
    rfl
  | .comment t l => rfl

theorem spliceAllSymbols_pure (ns : List Node) (s : σ) :
    spliceAllSymbols targets (fun w => pure (lookup w)) ns s =
      some (replaceAllSymbols targets lookup ns, s) := by
  match ns with
  | [] => rfl
  | n :: ns =>
    simp only [spliceAllSymbols, n.spliceSymbols_pure s, spliceAllSymbols_pure ns s,
      Option.bind_eq_bind, Option.bind_some]
    rfl

end

theorem Stylesheet.spliceSymbols_pure (sheet : Stylesheet) (s : σ) :
    sheet.spliceSymbols targets (fun w => pure (lookup w)) s =
      some (sheet.replaceSymbols targets lookup, s) := by
  rw [Stylesheet.spliceSymbols, spliceAllSymbols_pure]
  rfl

end Pure

/-! ## 5. Sheets -/

section Sheet

variable {targets : Targets} {R R' : Text → Text → Prop} {sheet after : Stylesheet}

theorem Retold.mono (hR : ∀ t u, R t u → R' t u) {kept : Prop} {n m : Node}
    (h : Retold targets R kept n m) : Retold targets R' kept n m :=
  ⟨h.frame, h.same, fun hnot htarget => hR _ _ (h.related hnot htarget)⟩

theorem Confined.mono (hR : ∀ t u, R t u → R' t u) (h : Confined targets R sheet after) :
    Confined targets R' sheet after := by
  refine ⟨h.rest, fun path => ?_⟩
  have hpath := h.nodes path
  generalize sheet.at? path = n at hpath ⊢
  generalize after.at? path = m at hpath ⊢
  cases hpath with
  | none => exact .none
  | some hown => exact .some (hown.mono hR)

/-- A sheet is confined if its top block is replaced node by node. -/
theorem confined_of_replaced {ms : List Node}
    (h : ∀ i : Nat, Option.Rel (Replaced targets R) sheet.nodes[i]? ms[i]?) :
    Confined targets R sheet { sheet with nodes := ms } := by
  refine ⟨rfl, fun path => ?_⟩
  cases path with
  | nil => exact .none
  | cons i path => exact rel_cons (h i) (fun hnode => hnode.at? path) (fun _ => rfl) nofun

theorem exists_spliceSymbols {σ : Type} (lookup : Text → StateM σ (Option Text)) (s : σ) :
    ∃ after s', sheet.spliceSymbols targets lookup s = some (after, s') ∧
      Confined targets (Image lookup) sheet after := by
  obtain ⟨ms, s', hsplice, hms⟩ := @spliceAllSymbols_replaced σ targets lookup sheet.nodes s
  refine ⟨{ sheet with nodes := ms }, s', ?_, confined_of_replaced hms⟩
  rw [Stylesheet.spliceSymbols, hsplice]
  rfl

end Sheet

/-- **Splicing a sheet changes nothing but what is targeted.** Whatever the lookup does, there is a
    result: the nodes stand where they stood and keep their frames, and the targeted texts outside
    of import blocks are images of what they were. Without a state these images are what replacing
    the symbols of a text gives, and the sheet is that of `replaceSymbols`. -/
theorem spliceSymbols_confined (targets : Targets) (sheet : Stylesheet) :
    (∀ (σ : Type) (lookup : Text → StateM σ (Option Text)) (s : σ),
      ∃ after s', sheet.spliceSymbols targets lookup s = some (after, s') ∧
        Confined targets (Image lookup) sheet after) ∧
    ∀ lookup : Text → Option Text,
      Confined targets (fun t u => u = Symbol.replace lookup t) sheet
        (sheet.replaceSymbols targets lookup) ∧
      ∀ (σ : Type) (s : σ), sheet.spliceSymbols targets (fun w => pure (lookup w)) s =
        some (sheet.replaceSymbols targets lookup, s) := by
  refine ⟨fun σ lookup s => exists_spliceSymbols lookup s,
    fun lookup => ⟨?_, fun σ s => sheet.spliceSymbols_pure s⟩⟩
  obtain ⟨after, s', hsplice, hconfined⟩ :=
    @exists_spliceSymbols targets sheet Unit (fun w => pure (lookup w)) ()
  rw [sheet.spliceSymbols_pure] at hsplice
  cases hsplice
  refine hconfined.mono ?_
  rintro t u ⟨s, s', himage⟩
  rw [Symbol.splice_pure] at himage
  cases himage
  rfl

end StyleModules
