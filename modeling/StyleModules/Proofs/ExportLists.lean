import StyleModules.Proofs.PreparedSheet
import StyleModules.Proofs.ScopingSteps

/-!
The lists that scoping exports.

* `entriesOf` are the local names that steps enter, each with the rule it stands in.
* `ListOf` says what a list is made of: first what the generator makes of its name in the rule that
  has it first, then other generated names, aliases and global names.
* `Introduced`: a class is entered before words are composed into it. So it is in a sheet whose
  selectors are without backslashes (`introduced_stepsAll`).
* `Built` is what holds of the table after every step, and `ScopedNames.export_lists` what follows
  for the declarations of the export block.
-/

namespace StyleModules

namespace ScopedNames

/-! ## 1. What steps say of the table -/

/-- The name that a step enters, with its rule. -/
def Step.entry? : Step → Option (Text × Text)
  | .enter name rule => some (name, rule)
  | .compose _ _ => none

/-- The names that steps enter, each with its rule. -/
def entriesOf (steps : List Step) : List (Text × Text) :=
  steps.filterMap Step.entry?

/-- Where a word of a list may come from: the generator, an import block or a word `global(name)`. -/
def Originates (ctx : Context) (steps : List Step) (word : Text) : Prop :=
  (∃ entry ∈ entriesOf steps, word = ctx.generate entry.1 entry.2) ∨ word ∈ ctx.imported ∨
    ∃ composer composed, Step.compose composer composed ∈ steps ∧
      globalArgument? composed = some word

/-- The list of a name: what the generator made of it in the first rule that has it, and more. -/
def ListOf (ctx : Context) (steps : List Step) (name : Text) (list : List Text) : Prop :=
  ∃ rule rest, Table.findEntry name (entriesOf steps) = some rule ∧
    list = ctx.generate name rule :: rest ∧ ∀ word ∈ rest, Originates ctx steps word

theorem entriesOf_append (steps more : List Step) :
    entriesOf (steps ++ more) = entriesOf steps ++ entriesOf more :=
  List.filterMap_append

variable {ctx : Context} {steps : List Step} {name word : Text} {list : List Text}

theorem Originates.append (h : Originates ctx steps word) (more : List Step) :
    Originates ctx (steps ++ more) word := by
  rcases h with ⟨entry, hentry, hword⟩ | himported | ⟨composer, composed, hstep, hword⟩
  · refine .inl ⟨entry, ?_, hword⟩
    rw [entriesOf_append]
    exact List.mem_append_left _ hentry
  · exact .inr (.inl himported)
  · exact .inr (.inr ⟨composer, composed, List.mem_append_left _ hstep, hword⟩)

theorem ListOf.append (h : ListOf ctx steps name list) (more : List Step) :
    ListOf ctx (steps ++ more) name list := by
  obtain ⟨rule, rest, hrule, hlist, hrest⟩ := h
  refine ⟨rule, rest, ?_, hlist, fun word hword => (hrest word hword).append more⟩
  rw [entriesOf_append, Table.findEntry_append, hrule]
  rfl

/-- A list stays one if words are added at its end. -/
theorem ListOf.add (h : ListOf ctx steps name list) {words : List Text}
    (hwords : ∀ word ∈ words, Originates ctx steps word) :
    ListOf ctx steps name (list ++ words) := by
  obtain ⟨rule, rest, hrule, rfl, hrest⟩ := h
  refine ⟨rule, rest ++ words, hrule, List.cons_append, fun word hword => ?_⟩
  rcases List.mem_append.mp hword with hword | hword
  · exact hrest word hword
  · exact hwords word hword

theorem ListOf.originates (h : ListOf ctx steps name list) (hword : word ∈ list) :
    Originates ctx steps word := by
  obtain ⟨rule, rest, hrule, rfl, hrest⟩ := h
  rcases List.mem_cons.mp hword with rfl | hword
  · exact .inl ⟨(name, rule), Table.mem_of_findEntry hrule, rfl⟩
  · exact hrest word hword

/-! ## 2. Classes are entered before they compose -/

/-- Whether every class that composes words has been entered before, or is known from the start. -/
def Introduced (known : List Text) : List Step → Prop
  | [] => True
  | .enter name _ :: steps => Introduced (known ++ [name]) steps
  | .compose composer _ :: steps => composer ∈ known ∧ Introduced known steps

theorem Introduced.mono {known known' : List Text} (h : Introduced known steps)
    (hsub : known ⊆ known') : Introduced known' steps := by
  induction steps generalizing known known' with
  | nil => trivial
  | cons step steps ih =>
    cases step with
    | enter name rule => exact ih h (List.append_subset.mpr
        ⟨fun _ hn => List.mem_append_left _ (hsub hn), List.subset_append_right _ _⟩)
    | compose composer word => exact ⟨hsub h.1, ih h.2 hsub⟩

theorem Introduced.append {known : List Text} {more : List Step} (h : Introduced known steps)
    (hmore : Introduced known more) : Introduced known (steps ++ more) := by
  induction steps generalizing known with
  | nil => exact hmore
  | cons step steps ih =>
    cases step with
    | enter name rule => exact ih h (hmore.mono (List.subset_append_left _ _))
    | compose composer word => exact ⟨h.1, ih h.2 hmore⟩

/-- Names that are entered are known from then on. -/
theorem introduced_enterSteps {known names : List Text} (rule : Text)
    (h : Introduced (known ++ names) steps) :
    Introduced known (enterSteps rule names ++ steps) := by
  induction names generalizing known with
  | nil => rwa [List.append_nil] at h
  | cons n names ih =>
    refine ih ?_
    rwa [List.append_assoc]

theorem introduced_composeSteps {known : List Text} {events : List (Text × Text)}
    (h : ∀ p ∈ events, p.1 ∈ known) : Introduced known (composeSteps events) := by
  induction events with
  | nil => trivial
  | cons p events ih =>
    exact ⟨h p List.mem_cons_self, ih fun q hq => h q (List.mem_cons_of_mem _ hq)⟩

theorem isName_of_composer {selector c : Text} (h : composer? selector = some c)
    (hselector : '\\' ∉ selector) : Selector.isName c := by
  obtain ⟨hmarked, hident⟩ := of_composer h
  have hc : '\\' ∉ c := by
    intro hmem
    apply hselector
    rw [hmarked]
    exact List.mem_append_right _ (List.mem_cons_of_mem _ (List.mem_append_left _ hmem))
  exact Selector.isName_of_isIdentifier hident hc

/-- A class whose selector has no backslash is among the names of its selector. -/
theorem fst_mem_names_of_ruleEvents {selector : Text} (hselector : '\\' ∉ selector)
    {ns : List Node} {p : Text × Text} (hp : p ∈ ruleEvents selector ns) :
    p.1 ∈ LocalMark.names selector := by
  unfold ruleEvents at hp
  cases hc : composer? selector with
  | none =>
    rw [hc] at hp
    cases hp
  | some c =>
    rw [hc] at hp
    obtain ⟨d, -, hp⟩ := List.mem_flatMap.mp hp
    obtain ⟨word, -, rfl⟩ := List.mem_map.mp hp
    exact mem_names_of_composer hc (isName_of_composer hc hselector)

mutual

theorem introduced_steps (rule : Text) (n : Node) {around : List Text}
    (h : ∀ p ∈ n.selectors around, '\\' ∉ p.1) : Introduced [] (n.steps ctx rule) := by
  match n with
  | .rule sel l b ns =>
    unfold Node.steps
    split
    · trivial
    · -- the class that composes is a name of the selector, and these are entered first
      rw [List.append_assoc]
      refine introduced_enterSteps _ (Introduced.append (introduced_composeSteps fun p hp => ?_) ?_)
      · exact fst_mem_names_of_ruleEvents (h (sel, around) List.mem_cons_self) hp
      · have hbelow := introduced_stepsAll (ctx.textOf (.rule sel l b ns)) true ns
          fun p hp => h p (List.mem_cons_of_mem _ hp)
        exact hbelow.mono (List.nil_subset _)
  | .atBlock head l b ns =>
    refine introduced_enterSteps _ ?_
    exact (introduced_stepsAll _ false ns h).mono (List.nil_subset _)
  | .atStatement head l =>
    rw [Node.steps, ← List.append_nil (enterSteps _ _)]
    exact introduced_enterSteps _ trivial
  | .decl d l =>
    rw [Node.steps, ← List.append_nil (enterSteps _ _)]
    exact introduced_enterSteps _ trivial
  | .comment t l => trivial

/-- In a block whose selectors have no backslashes, classes are entered before they compose. -/
theorem introduced_stepsAll (rule : Text) (inRule : Bool) (ns : List Node) {around : List Text}
    (h : ∀ p ∈ selectorsAll around ns, '\\' ∉ p.1) : Introduced [] (stepsAll ctx rule inRule ns) := by
  match ns with
  | [] => trivial
  | n :: ns =>
    have hrest := introduced_stepsAll rule inRule ns fun p hp => h p (List.mem_append_right _ hp)
    unfold stepsAll
    split
    · exact hrest
    · exact (introduced_steps rule n fun p hp => h p (List.mem_append_left _ hp)).append hrest

end

/-! ## 3. The table -/

/-- What holds of the table after steps: it has their names in order, each with its list. -/
structure Built (ctx : Context) (steps : List Step) (s : ScopedNames) : Prop where
  nodup : s.exports.keys.Nodup
  keys : s.exports.keys = (Table.ofList (entriesOf steps)).keys
  lists : ∀ name list, s.exports.get? name = some list → ListOf ctx steps name list

variable {steps : List Step} {s s₁ : ScopedNames}

theorem built_nil : Built ctx [] ⟨.empty, []⟩ where
  nodup := List.nodup_nil
  keys := rfl
  lists _ _ h := by cases h

/-- The names of the table are those that were entered. -/
theorem Built.mem_keys_iff (h : Built ctx steps s) {name : Text} :
    name ∈ s.exports.keys ↔ name ∈ (entriesOf steps).map Prod.fst := by
  rw [h.keys, Table.keys_ofList, List.mem_eraseDups]

theorem Built.findEntry_eq_none (h : Built ctx steps s) {name : Text}
    (hname : s.exports.get? name = none) : Table.findEntry name (entriesOf steps) = none := by
  cases hentry : Table.findEntry name (entriesOf steps) with
  | none => rfl
  | some rule =>
    have hmem := List.mem_map_of_mem (f := Prod.fst) (Table.mem_of_findEntry hentry)
    obtain ⟨list, hlist⟩ := Table.mem_keys_iff.mp (h.mem_keys_iff.mpr hmem)
    rw [hname] at hlist
    cases hlist

theorem Built.isEmpty_iff (h : Built ctx steps s) :
    s.exports.isEmpty = true ↔ entriesOf steps = [] := by
  have hkeys : s.exports.keys = [] ↔ (entriesOf steps).map Prod.fst = [] := by
    simp only [List.eq_nil_iff_forall_not_mem, h.mem_keys_iff]
  rw [Table.isEmpty, List.isEmpty_iff, ← List.map_eq_nil_iff (f := Prod.fst)]
  exact hkeys.trans List.map_eq_nil_iff

/-- Entering a name: a new name begins its list, a known one keeps the beginning. -/
theorem Built.enter (h : Built ctx steps s) (name rule : Text) :
    Built ctx (steps ++ [.enter name rule]) (enter ctx rule s name) where
  nodup := Table.nodup_keys_upsert h.nodup _ _
  keys := by
    have hentries : entriesOf (steps ++ [.enter name rule]) = entriesOf steps ++ [(name, rule)] :=
      entriesOf_append _ _
    have htable : Table.ofList (entriesOf steps ++ [(name, rule)]) =
        (Table.ofList (entriesOf steps)).insert name rule := List.foldl_append
    rw [ScopedNames.enter, Table.keys_upsert, hentries, htable, Table.insert, Table.keys_upsert,
      h.keys]
  lists := by
    intro other list hlist
    have hentry : (name, rule) ∈ entriesOf (steps ++ [.enter name rule]) := by
      rw [entriesOf_append]
      exact List.mem_append_right _ List.mem_cons_self
    rw [ScopedNames.enter, Table.get?_upsert] at hlist
    split at hlist
    · next heq =>
      subst heq
      obtain rfl := Option.some.inj hlist
      cases hold : s.exports.get? other with
      | none =>
        have hnew : Table.findEntry other (entriesOf steps) = none := h.findEntry_eq_none hold
        refine ⟨rule, [], ?_, rfl, fun word hword => by cases hword⟩
        rw [entriesOf_append, Table.findEntry_append, hnew]
        exact if_pos rfl
      | some old =>
        have hbegun := (h.lists other old hold).append [.enter other rule]
        rw [addName, Option.getD_some]
        by_cases hknown : old.contains (ctx.generate other rule)
        · simp only [if_pos hknown]
          exact hbegun
        · simp only [if_neg hknown]
          refine hbegun.add fun word hword => .inl ⟨_, hentry, ?_⟩
          exact List.mem_singleton.mp hword
    · exact (h.lists other list hlist).append _

/-- Composing a word into a class that was entered adds to the end of its list. -/
theorem Built.compose (h : Built ctx steps s) {composer word : Text}
    (hcomposer : composer ∈ (entriesOf steps).map Prod.fst) {list : List Text}
    (hword : composed ctx word s = .ok list s) :
    Built ctx (steps ++ [.compose composer word]) (extend s composer list) where
  nodup := Table.nodup_keys_upsert h.nodup _ _
  keys := by
    have hentries : entriesOf (steps ++ [.compose composer word]) = entriesOf steps := by
      rw [entriesOf_append]
      exact List.append_nil _
    rw [extend, Table.keys_upsert, if_pos (h.mem_keys_iff.mpr hcomposer), hentries, h.keys]
  lists := by
    intro name list' hlist
    have hmeaning : ∀ w ∈ list, Originates ctx (steps ++ [.compose composer word]) w := by
      intro w hw
      obtain ⟨-, hcases⟩ := of_composed hword
      rcases hcases with ⟨global, hglobal, rfl⟩ | ⟨-, ⟨himported, rfl⟩ | ⟨-, hget⟩⟩
      · obtain rfl := List.mem_singleton.mp hw
        exact .inr (.inr ⟨composer, word, List.mem_append_right _ List.mem_cons_self, hglobal⟩)
      · obtain rfl := List.mem_singleton.mp hw
        exact .inr (.inl himported)
      · exact ((h.lists word list hget).originates hw).append _
    rw [extend, Table.get?_upsert] at hlist
    split at hlist
    · next heq =>
      subst heq
      obtain ⟨old, hold⟩ := Table.mem_keys_iff.mp (h.mem_keys_iff.mpr hcomposer)
      rw [hold] at hlist
      obtain rfl := Option.some.inj hlist
      exact ((h.lists name old hold).append _).add hmeaning
    · exact (h.lists name list' hlist).append _

/-- **What every step keeps, a run keeps.** -/
theorem Built.run {more : List Step} (h : Built ctx steps s) (hrun : Run ctx s more s₁)
    (hmore : Introduced ((entriesOf steps).map Prod.fst) more) : Built ctx (steps ++ more) s₁ := by
  -- on the run; each step taken moves from the steps to come to those that were taken
  induction hrun generalizing steps with
  | nil s => rwa [List.append_nil]
  | @cons s s' s₂ step more hstep _ ih =>
    rw [← List.singleton_append, ← List.append_assoc]
    cases hstep with
    | enter name rule =>
      refine ih (h.enter name rule) ?_
      rw [entriesOf_append, List.map_append]
      exact hmore
    | compose hword =>
      refine ih (h.compose hmore.1 hword) ?_
      rw [entriesOf_append, List.map_append]
      exact hmore.2.mono (List.subset_append_left _ _)

theorem length_scopeNodes (rule : Text) (ns : List Node) {ns' : List Node}
    (h : scopeNodes ctx rule false ns s = .ok ns' s₁) : ns'.length = ns.length := by
  induction ns generalizing s ns' with
  | nil =>
    cases h
    rfl
  | cons n ns ih =>
    obtain ⟨n', s', rest, -, hns, rfl⟩ := of_scopeNodes_false h
    rw [List.length_cons, List.length_cons, ih hns]

/-! ## 4. Sheets -/

/-- The steps that scoping a sheet takes. -/
def sheetSteps (generate : Text → Text → Text) (sheet : Stylesheet) : List Step :=
  stepsAll ⟨generate, sheet.input, importedNames sheet⟩ sheet.input false sheet.nodes

/-- **The export block** of a sheet whose selectors have no backslashes, which stands behind its
    nodes: it has one declaration for each local name of the sheet, in the order in which they first
    appear, and its value is a list that begins with what the generator makes of the name in the rule
    where it first appears; all else in a list is a generated name too, an alias or a global name.
    Without local names there is no export block. -/
theorem export_lists {generate : Text → Text → Text} {sheet full : Stylesheet}
    (hselectors : ∀ p ∈ sheet.selectors, '\\' ∉ p.1) (h : run generate sheet = .ok full) :
    let entries := entriesOf (sheetSteps generate sheet)
    ∃ (nodes behind : List Node) (lists : List (Text × List Text)),
      nodes.length = sheet.nodes.length ∧
      full = { sheet with nodes := nodes ++ behind } ∧
      ExportsLists lists behind ∧ (behind = [] ↔ entries = []) ∧
      lists.map Prod.fst = (entries.map Prod.fst).eraseDups ∧
      ∀ e ∈ lists, ListOf ⟨generate, sheet.input, importedNames sheet⟩ (sheetSteps generate sheet)
        e.1 e.2 := by
  intro entries
  obtain ⟨nodes, s, hnodes, hfull⟩ := run_ok h
  obtain ⟨behind, hbelow, hbehind⟩ := exists_exportsLists { sheet with nodes } s.exports
  have hbuilt : Built _ (sheetSteps generate sheet) s :=
    built_nil.run (scopeNodes_run sheet.input false sheet.nodes hnodes)
      (introduced_stepsAll _ _ _ hselectors)
  have hkeys : s.exports.keys = (entries.map Prod.fst).eraseDups :=
    hbuilt.keys.trans (Table.keys_ofList _)
  have hnone : s.exports.entries = [] ↔ entries = [] :=
    List.isEmpty_iff.symm.trans hbuilt.isEmpty_iff
  refine ⟨nodes, behind, s.exports.entries, length_scopeNodes _ _ hnodes,
    hfull.trans hbelow, hbehind,
    hbehind.eq_nil_iff.trans hnone, hkeys, fun e he => ?_⟩
  exact hbuilt.lists e.1 e.2 ((Table.get?_eq_some_iff hbuilt.nodup).mpr he)

/-- A sheet in which one class composes an alias, another this class and a global name, and an
    animation is declared in one rule and used in another. -/
def composingPage : Stylesheet where
  nodes := [
    Interface.importBlock "base.css".toList [("i__green".toList, "green".toList)],
    .ofRule ":local(.comp)".toList [.ofDecl "composes".toList "i__green".toList],
    .ofRule ":local(.b)".toList [.ofDecl "composes".toList "comp global(g)".toList],
    .atBlock ⟨"keyframes".toList, " ".toList, ":local(fade)".toList⟩ ⟨[], " ".toList, [], none⟩ false
      [],
    .ofRule ":local(.c)".toList [.ofDecl "animation".toList ":local(fade) 1s".toList]]
  after := []
  semicolon := false
  input := []

theorem export_lists_composing :
    let generate : Text → Text → Text := fun name rule => name ++ '_' :: Text.ofNat rule.length
    (∀ p ∈ composingPage.selectors, '\\' ∉ p.1) ∧
      (entriesOf (sheetSteps generate composingPage)).map Prod.fst =
        ["comp".toList, "b".toList, "fade".toList, "c".toList, "fade".toList] ∧
      ∃ (full : Stylesheet) (lists : List (Text × List Text)),
        run generate composingPage = .ok full ∧
        ExportsLists lists (full.nodes.drop 5) ∧
        lists.map (fun e => (e.1, Text.join " ".toList e.2)) = [
          ("comp".toList, "comp_39 i__green".toList),
          ("b".toList, "b_42 comp_39 i__green g".toList),
          ("fade".toList, "fade_26 fade_44".toList), ("c".toList, "c_44".toList)] ∧
        ∀ e ∈ lists, ListOf ⟨generate, [], ["i__green".toList]⟩ (sheetSteps generate composingPage)
          e.1 e.2 := by
  intro generate
  have hselectors : ∀ p ∈ composingPage.selectors, '\\' ∉ p.1 := by decide +kernel
  refine ⟨hselectors, by decide +kernel, ?_⟩
  obtain ⟨full, hrun, hpairs⟩ := exists_ok_of_map (x := run generate composingPage)
    (f := fun full => (full.nodes.drop 5).flatMap fun n => Interface.pairs n.children) (b := [
      ("comp".toList, "comp_39 i__green".toList), ("b".toList, "b_42 comp_39 i__green g".toList),
      ("fade".toList, "fade_26 fade_44".toList), ("c".toList, "c_44".toList)]) (by decide +kernel)
  obtain ⟨nodes, behind, lists, hnodes, rfl, hbehind, -, -, hlists⟩ := export_lists hselectors hrun
  have hdrop : (nodes ++ behind).drop 5 = behind := List.drop_left' hnodes
  have hlast : ExportsLists lists ((nodes ++ behind).drop 5) := by
    rw [hdrop]
    exact hbehind
  exact ⟨_, lists, hrun, hlast, hlast.pairs.symm.trans hpairs, hlists⟩

end ScopedNames

end StyleModules
