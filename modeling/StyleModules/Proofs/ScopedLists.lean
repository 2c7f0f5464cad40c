import StyleModules.Proofs.CompositionList
import StyleModules.Proofs.Outcomes
import StyleModules.Proofs.ScopedSelector
import StyleModules.Proofs.TableLaws

/-!
The table of exports after a sheet was scoped.

* `Node.events` are the compositions that scoping carries out, each with its class, and
  `Node.entered` the names that it enters from selectors, both in order.
* `Lists` is what holds of the table at every moment: under a name stands its `composedList` after
  the compositions so far.
* `of_scopeNode_rule` and its neighbours say what has become of a node that was scoped.
* `scopeNodes_spec`: scoping a block, if it succeeds, carries out the events of the block and enters
  its names.
-/

namespace StyleModules

namespace ScopedNames

/-! ## 1. What scoping does, in order -/

/-- The name in a word that is `global(name)`. -/
def globalArgument? (word : Text) : Option Text :=
  ("global(".toList.isPrefixOf? word).bind (")".toList.isSuffixOf? ·)

/-- What a composed word adds to a list, given the lists so far. -/
def wordMeaning (imported : List Text) (lists : Text → List Text) (word : Text) : List Text :=
  match globalArgument? word with
  | some name => [name]
  | none => if imported.contains word then [word] else lists word

/-- The words that the compositions of a rule add to its class. -/
def ruleEvents (selector : Text) (ns : List Node) : List (Text × Text) :=
  match composer? selector with
  | some c => (compositions ns).flatMap fun d => (Text.words d.value).map ((c, ·))
  | none => []

end ScopedNames

mutual

/-- The compositions that scoping a node carries out, each with its class. -/
def Node.events : Node → List (Text × Text)
  | .rule s _ _ ns =>
    if Interface.isImport s || Interface.isExport s then []
    else ScopedNames.ruleEvents s ns ++ eventsAll ns
  | .atBlock _ _ _ ns => eventsAll ns
  | _ => []

def eventsAll : List Node → List (Text × Text)
  | [] => []
  | n :: ns => n.events ++ eventsAll ns

end

mutual

/-- The names that scoping a node enters from selectors. -/
def Node.entered : Node → List Text
  | .rule s _ _ ns =>
    if Interface.isImport s || Interface.isExport s then [] else LocalMark.names s ++ enteredAll ns
  | .atBlock _ _ _ ns => enteredAll ns
  | _ => []

def enteredAll : List Node → List Text
  | [] => []
  | n :: ns => n.entered ++ enteredAll ns

end

namespace ScopedNames

/-! ## 2. What holds of the table -/

section Invariant

variable (generate : Text → Text) (imported : List Text)

/-- Under every name stands the list that the compositions so far make; these are given with the
    last one first. -/
structure Lists (events : List (Text × Text)) (s : ScopedNames) : Prop where
  nodup : s.exports.keys.Nodup
  lists : ∀ n list, Selector.isName n → s.exports.get? n = some list →
    list = composedList generate (wordMeaning imported) events n
  composers : ∀ p ∈ events, Selector.isName p.1 → (s.exports.get? p.1).isSome

/-- Whether a composed word is read as a composition means it. -/
def Legible (word : Text) : Prop :=
  (globalArgument? word).isSome ∨ imported.contains word ∨ Selector.isName word

/-- A stretch of scoping: the compositions it carries out and the names it enters. -/
structure Scopes (events : List (Text × Text)) (s : ScopedNames) (new : List (Text × Text))
    (names : List Text) (s' : ScopedNames) : Prop where
  lists : Lists generate imported (new.reverse ++ events) s'
  kept : ∀ n, (s.exports.get? n).isSome → (s'.exports.get? n).isSome
  entered : ∀ n ∈ names, (s'.exports.get? n).isSome

end Invariant

variable {generate : Text → Text} {imported : List Text} {events : List (Text × Text)}
  {s s₁ s₂ : ScopedNames}

theorem lists_empty : Lists generate imported [] ⟨.empty, []⟩ where
  nodup := List.nodup_nil
  lists _ _ _ h := by cases h
  composers _ h := by cases h

theorem Scopes.refl (h : Lists generate imported events s) :
    Scopes generate imported events s [] [] s :=
  ⟨h, fun _ hn => hn, by simp⟩

/-- Names that were entered need not be told. -/
theorem Scopes.forget {new : List (Text × Text)} {names : List Text}
    (h : Scopes generate imported events s new names s₁) :
    Scopes generate imported events s new [] s₁ :=
  ⟨h.lists, h.kept, by simp⟩

theorem Scopes.trans {new new' : List (Text × Text)} {names names' : List Text}
    (h : Scopes generate imported events s new names s₁)
    (h' : Scopes generate imported (new.reverse ++ events) s₁ new' names' s₂) :
    Scopes generate imported events s (new ++ new') (names ++ names') s₂ where
  lists := by
    rw [List.reverse_append, List.append_assoc]
    exact h'.lists
  kept n hn := h'.kept n (h.kept n hn)
  entered n hn := by
    rcases List.mem_append.mp hn with hn | hn
    · exact h'.kept n (h.entered n hn)
    · exact h'.entered n hn

/-! ## 3. Names -/

/-- A generator that does not look at rules. -/
def Context.Generates (ctx : Context) (generate : Text → Text) (imported : List Text) : Prop :=
  (∀ name rule, ctx.generate name rule = generate name) ∧ ctx.imported = imported

variable {ctx : Context}

/-- Entering a name changes no list: it begins one, or finds the name in its list. -/
theorem scopes_enter (hctx : ctx.Generates generate imported)
    (h : Lists generate imported events s) (rule name : Text) :
    Scopes generate imported events s [] [name] (enter ctx rule s name) where
  lists := by
    refine ⟨Table.nodup_keys_upsert h.nodup _ _, ?_, ?_⟩
    · intro n list hn hlist
      rw [enter, Table.get?_upsert, hctx.1] at hlist
      split at hlist
      · next heq =>
        subst heq
        obtain rfl := Option.some.inj hlist
        show addName (generate n) (s.exports.get? n) = composedList generate _ events n
        cases hold : s.exports.get? n with
        | none =>
          have hnot : ∀ p ∈ events, n ≠ p.1 := by
            rintro p hp rfl
            have := h.composers p hp hn
            rw [hold] at this
            cases this
          rw [composedList_of_not_mem hnot]
          rfl
        | some list =>
          have hold' := h.lists n list hn hold
          have hmem : list.contains (generate n) = true := by
            rw [hold', List.contains_iff_mem]
            exact generate_mem_composedList events n
          rw [addName, Option.getD_some]
          simp only [hmem, if_true]
          exact hold'
      · exact h.lists n list hn hlist
    · intro p hp hn
      exact Table.isSome_get?_upsert (h.composers p hp hn) _ _
  kept n hn := Table.isSome_get?_upsert hn _ _
  entered n hn := by
    rw [List.mem_singleton.mp hn, enter, Table.get?_upsert, if_pos rfl]
    rfl

theorem scopes_enterAll (hctx : ctx.Generates generate imported)
    (h : Lists generate imported events s) (rule : Text) (names : List Text) :
    Scopes generate imported events s [] names (names.foldl (enter ctx rule) s) := by
  induction names generalizing s with
  | nil => exact .refl h
  | cons n ns ih =>
    have hone := scopes_enter hctx h rule n
    exact hone.trans (ih hone.lists)

/-! ## 4. Compositions -/

/-- A composed word stands for its global name, else for the alias that it is, else for the list of a
    class. -/
theorem of_composed {word : Text} {list : List Text} (h : composed ctx word s = .ok list s₁) :
    s₁ = s ∧ ((∃ name, globalArgument? word = some name ∧ list = [name]) ∨
      globalArgument? word = none ∧
        (word ∈ ctx.imported ∧ list = [word] ∨
          word ∉ ctx.imported ∧ s.exports.get? word = some list)) := by
  unfold composed at h
  cases hname : globalArgument? word with
  | some name =>
    have hname' := hname
    unfold globalArgument? at hname'
    simp only [hname'] at h
    cases h
    exact ⟨rfl, .inl ⟨name, rfl, rfl⟩⟩
  | none =>
    have hname' := hname
    unfold globalArgument? at hname'
    simp only [hname'] at h
    by_cases himported : ctx.imported.contains word
    · rw [if_pos himported] at h
      cases h
      exact ⟨rfl, .inr ⟨rfl, .inl ⟨List.contains_iff_mem.mp himported, rfl⟩⟩⟩
    · have hnot : word ∉ ctx.imported := fun hmem => himported (List.contains_iff_mem.mpr hmem)
      rw [if_neg himported] at h
      obtain ⟨s', s'', hget, h⟩ := bind_ok h
      cases hget
      cases hlist : s.exports.get? word with
      | some list' =>
        simp only [hlist] at h
        cases h
        exact ⟨rfl, .inr ⟨rfl, .inr ⟨hnot, rfl⟩⟩⟩
      | none =>
        simp only [hlist] at h
        cases h

/-- A composed word adds what it means. -/
theorem composed_spec (hctx : ctx.Generates generate imported)
    (h : Lists generate imported events s) {word : Text} (hw : Legible imported word)
    {list : List Text} (hok : composed ctx word s = .ok list s₁) :
    s₁ = s ∧ list = wordMeaning imported (composedList generate (wordMeaning imported) events)
      word := by
  obtain ⟨hstate, hcases⟩ := of_composed hok
  refine ⟨hstate, ?_⟩
  unfold wordMeaning
  rw [hctx.2] at hcases
  rcases hcases with ⟨name, hname, hlist⟩ | ⟨hname, ⟨hmem, hlist⟩ | ⟨hnot, hlist⟩⟩
  · rw [hname, hlist]
  · rw [hname, hlist]
    simp only [List.contains_iff_mem.mpr hmem, if_true]
  · have hcontains : ¬imported.contains word := fun h => hnot (List.contains_iff_mem.mp h)
    have hplain : Selector.isName word := by
      rcases hw with hw | hw | hw
      · rw [hname] at hw
        cases hw
      · exact absurd hw hcontains
      · exact hw
    rw [hname]
    simp only [if_neg hcontains]
    exact h.lists word list hplain hlist

/-- The state in which a list was added to the list of a class. -/
def extend (s : ScopedNames) (composer : Text) (list : List Text) : ScopedNames :=
  { s with exports := s.exports.upsert composer fun old => old.getD [] ++ list }

/-- Adding what a word means to the list of its class. -/
theorem scopes_extend (h : Lists generate imported events s) {composer : Text}
    (hcomposer : Selector.isName composer → (s.exports.get? composer).isSome) (word : Text) :
    Scopes generate imported events s [(composer, word)] []
      (extend s composer
        (wordMeaning imported (composedList generate (wordMeaning imported) events) word)) where
  lists := by
    refine ⟨Table.nodup_keys_upsert h.nodup _ _, ?_, ?_⟩
    · intro n list hn hlist
      rw [extend, Table.get?_upsert] at hlist
      show list = composedList generate _ ((composer, word) :: events) n
      rw [composedList]
      split at hlist
      · next heq =>
        subst heq
        obtain ⟨old, hold⟩ := Option.isSome_iff_exists.mp (hcomposer hn)
        rw [hold, Option.getD_some] at hlist
        rw [if_pos rfl, ← h.lists n old hn hold]
        exact (Option.some.inj hlist).symm
      · next hne =>
        rw [if_neg hne]
        exact h.lists n list hn hlist
    · intro p hp hn
      rcases List.mem_cons.mp hp with rfl | hp
      · exact Table.isSome_get?_upsert (hcomposer hn) _ _
      · exact Table.isSome_get?_upsert (h.composers p hp hn) _ _
  kept n hn := Table.isSome_get?_upsert hn _ _
  entered n hn := by cases hn

/-- Composing words into a class. -/
theorem composeNames_spec (hctx : ctx.Generates generate imported) {composer : Text}
    {words : List Text} (hwords : ∀ w ∈ words, Legible imported w)
    (h : Lists generate imported events s)
    (hcomposer : Selector.isName composer → (s.exports.get? composer).isSome)
    (hok : composeNames ctx composer words s = .ok () s₁) :
    Scopes generate imported events s (words.map ((composer, ·))) [] s₁ := by
  induction words generalizing s events with
  | nil =>
    cases hok
    exact .refl h
  | cons w ws ih =>
    obtain ⟨list, s', hcomposed, hok⟩ := bind_ok hok
    obtain ⟨rfl, rfl⟩ := composed_spec hctx h (hwords w List.mem_cons_self) hcomposed
    obtain ⟨_, s'', hmodify, hok⟩ := bind_ok hok
    cases hmodify
    have hone := scopes_extend h hcomposer w
    exact hone.trans (ih (fun w' hw' => hwords w' (List.mem_cons_of_mem w hw')) hone.lists
      (fun hn => hone.kept composer (hcomposer hn)) hok)

/-- Carrying out the compositions of a rule. -/
theorem compose_spec (hctx : ctx.Generates generate imported) {selector : Text} {ds : List Decl}
    (hwords : (composer? selector).isSome → ∀ d ∈ ds, ∀ w ∈ Text.words d.value,
      Legible imported w)
    (h : Lists generate imported events s)
    (hcomposer : ∀ c, composer? selector = some c → Selector.isName c →
      (s.exports.get? c).isSome)
    (hok : compose ctx selector ds s = .ok () s₁) :
    Scopes generate imported events s (match composer? selector with
      | some c => ds.flatMap fun d => (Text.words d.value).map ((c, ·))
      | none => []) [] s₁ := by
  induction ds generalizing s events with
  | nil =>
    cases hok
    cases composer? selector <;> exact .refl h
  | cons d ds ih =>
    cases hc : composer? selector with
    | none =>
      simp only [compose, hc] at hok
      cases hok
    | some c =>
      simp only [compose, hc] at hok
      obtain ⟨_, s', hnames, hok⟩ := bind_ok hok
      have hsome : (composer? selector).isSome := by rw [hc]; rfl
      have hone := composeNames_spec hctx (hwords hsome d List.mem_cons_self) h (hcomposer c hc)
        hnames
      have hrest := ih (fun _ d' hd' => hwords hsome d' (List.mem_cons_of_mem d hd')) hone.lists
        (fun c' hc' hn => hone.kept c' (hcomposer c' hc' hn)) hok
      rw [hc] at hrest
      exact hone.trans hrest

/-- The class of a rule is an identifier, and its selector is the mark of this class. -/
theorem of_composer {selector c : Text} (h : composer? selector = some c) :
    selector = Selector.marked '.' c ∧ Selector.isIdentifier c := by
  unfold composer? at h
  split at h
  · next name hname =>
    split at h
    · next hident =>
      obtain rfl := Option.some.inj h
      obtain ⟨u, hu, hs⟩ := Option.bind_eq_some_iff.mp hname
      refine ⟨?_, hident⟩
      rw [← Text.append_of_isPrefixOf? hu, ← Text.append_of_isSuffixOf? hs]
      rfl
    · cases h
  · cases h

/-- The class of a rule is among the names of its selector. -/
theorem mem_names_of_composer {selector c : Text} (h : composer? selector = some c)
    (hc : Selector.isName c) : c ∈ LocalMark.names selector := by
  have htext : selector = Selector.marked '.' c ++ [] := by
    rw [List.append_nil]
    exact (of_composer h).1
  rw [htext, LocalMark.names_eq, LocalMark.parts_mark (.inl rfl) hc]
  exact List.mem_cons_self

/-! ## 5. Nodes that were scoped -/

section Inversion

variable {rule : Text} {l : Layout} {b : Bool} {n' : Node} {ns ns' : List Node}

theorem of_scopeNode_block {sel : Text} (hblock : Interface.isImport sel || Interface.isExport sel)
    (h : scopeNode ctx rule (.rule sel l b ns) s = .ok n' s₁) :
    n' = .rule sel l b ns ∧ s₁ = s := by
  rw [scopeNode, if_pos hblock] at h
  cases h
  exact ⟨rfl, rfl⟩

/-- A rule has its names entered, then its compositions carried out, then its block scoped. -/
theorem of_scopeNode_rule {sel : Text}
    (hblock : ¬(Interface.isImport sel || Interface.isExport sel))
    (h : scopeNode ctx rule (.rule sel l b ns) s = .ok n' s₂) :
    let text := ctx.textOf (.rule sel l b ns)
    ∃ s₁ ns', compose ctx sel (compositions ns)
        ((LocalMark.names sel).foldl (enter ctx text) s) = .ok () s₁ ∧
      scopeNodes ctx text true ns s₁ = .ok ns' s₂ ∧
      n' = .rule (LocalMark.substitute (ctx.generate · text) sel) l b ns' := by
  rw [scopeNode, if_neg hblock] at h
  obtain ⟨full, s₀, htext, h⟩ := bind_ok h
  rw [scopeText_eq] at htext
  cases htext
  obtain ⟨_, s₁, hcompose, h⟩ := bind_ok h
  obtain ⟨ns', s₃, hns, h⟩ := bind_ok h
  cases h
  exact ⟨s₁, ns', hcompose, hns, rfl⟩

theorem of_scopeNode_atBlock {head : AtHead}
    (h : scopeNode ctx rule (.atBlock head l b ns) s = .ok n' s₂) :
    let text := ctx.textOf (.atBlock head l b ns)
    ∃ head' s₁ ns', scopeKeyframes ctx text head s = .ok head' s₁ ∧
      scopeNodes ctx text false ns s₁ = .ok ns' s₂ ∧ n' = .atBlock head' l b ns' := by
  rw [scopeNode] at h
  obtain ⟨head', s₁, hhead, h⟩ := bind_ok h
  obtain ⟨ns', s₃, hns, h⟩ := bind_ok h
  cases h
  exact ⟨head', s₁, ns', hhead, hns, rfl⟩

theorem of_scopeNode_atStatement {head : AtHead}
    (h : scopeNode ctx rule (.atStatement head l) s = .ok n' s₁) :
    ∃ head', scopeKeyframes ctx (ctx.textOf (.atStatement head l)) head s = .ok head' s₁ ∧
      n' = .atStatement head' l := by
  rw [scopeNode] at h
  obtain ⟨head', s₁, hhead, h⟩ := bind_ok h
  cases h
  exact ⟨head', hhead, rfl⟩

theorem of_scopeNode_decl {d : Decl} (h : scopeNode ctx rule (.decl d l) s = .ok n' s₁) :
    n' = .decl { d with value := LocalMark.substitute (ctx.generate · rule) d.value } l ∧
      s₁ = (LocalMark.names d.value).foldl (enter ctx rule) s := by
  rw [scopeNode] at h
  obtain ⟨full, s₀, htext, h⟩ := bind_ok h
  rw [scopeText_eq] at htext
  cases htext
  cases h
  exact ⟨rfl, rfl⟩

/-- Of the nodes of a block the compositions in a rule are taken out and the others scoped. -/
theorem of_scopeNodes_cons {inRule : Bool} {n : Node}
    (h : scopeNodes ctx rule inRule (n :: ns) s = .ok ns' s₂) :
    (inRule && isCompositionNode n) = true ∧ scopeNodes ctx rule inRule ns s = .ok ns' s₂ ∨
      (inRule && isCompositionNode n) = false ∧ ∃ n' s₁ rest,
        scopeNode ctx rule n s = .ok n' s₁ ∧ scopeNodes ctx rule inRule ns s₁ = .ok rest s₂ ∧
        ns' = n' :: rest := by
  rw [scopeNodes] at h
  cases hskip : inRule && isCompositionNode n with
  | true =>
    rw [hskip, if_pos rfl] at h
    exact .inl ⟨rfl, h⟩
  | false =>
    rw [hskip, if_neg Bool.false_ne_true] at h
    obtain ⟨n', s₁, hn, h⟩ := bind_ok h
    obtain ⟨rest, s₃, hns, h⟩ := bind_ok h
    cases h
    exact .inr ⟨rfl, n', s₁, rest, hn, hns, rfl⟩

/-- Outside of a rule every node is scoped. -/
theorem of_scopeNodes_false {n : Node} (h : scopeNodes ctx rule false (n :: ns) s = .ok ns' s₂) :
    ∃ n' s₁ rest, scopeNode ctx rule n s = .ok n' s₁ ∧
      scopeNodes ctx rule false ns s₁ = .ok rest s₂ ∧ ns' = n' :: rest := by
  rcases of_scopeNodes_cons h with ⟨hskip, -⟩ | ⟨-, hnode⟩
  · cases hskip
  · exact hnode

/-- The name of an animation that an at-rule marks. -/
def keyframesNames (head : AtHead) : List Text :=
  if AtHead.isKeyframes head.name then (scopeKeyframes.argument? (Text.trim head.params)).toList
  else []

theorem of_scopeKeyframes {head head' : AtHead}
    (h : scopeKeyframes ctx rule head s = .ok head' s₁) :
    s₁ = (keyframesNames head).foldl (enter ctx rule) s := by
  unfold scopeKeyframes at h
  unfold keyframesNames
  by_cases hname : AtHead.isKeyframes head.name
  · rw [if_pos hname] at h ⊢
    cases harg : scopeKeyframes.argument? (Text.trim head.params) with
    | some name =>
      simp only [harg] at h
      cases h
      rfl
    | none =>
      simp only [harg] at h
      cases h
      rfl
  · rw [if_neg hname] at h ⊢
    cases h
    rfl

end Inversion

/-! ## 6. Blocks -/

theorem scopeKeyframes_spec (hctx : ctx.Generates generate imported)
    (h : Lists generate imported events s) {rule : Text} {head head' : AtHead}
    (hok : scopeKeyframes ctx rule head s = .ok head' s₁) :
    Scopes generate imported events s [] [] s₁ := by
  rw [of_scopeKeyframes hok]
  exact (scopes_enterAll hctx h rule _).forget

theorem events_of_isCompositionNode {n : Node} (h : isCompositionNode n) :
    n.events = [] ∧ n.entered = [] := by
  cases n with
  | decl d l => exact ⟨rfl, rfl⟩
  | _ => cases h

mutual

/-- Scoping a node carries out its compositions and enters its names. -/
theorem scopeNode_spec (hctx : ctx.Generates generate imported) {events : List (Text × Text)}
    {s s₁ : ScopedNames} (h : Lists generate imported events s) (rule : Text) (n : Node)
    (hwords : ∀ p ∈ n.events, Legible imported p.2) {n' : Node}
    (hok : scopeNode ctx rule n s = .ok n' s₁) :
    Scopes generate imported events s n.events n.entered s₁ := by
  match n with
  | .rule sel l b ns =>
    unfold Node.events at hwords ⊢
    unfold Node.entered
    by_cases hblock : Interface.isImport sel || Interface.isExport sel
    · obtain ⟨-, rfl⟩ := of_scopeNode_block hblock hok
      rw [if_pos hblock, if_pos hblock]
      exact .refl h
    · rw [if_neg hblock] at hwords ⊢
      rw [if_neg hblock]
      obtain ⟨s', ns', hcompose, hns, -⟩ := of_scopeNode_rule hblock hok
      have hnames := scopes_enterAll hctx h (ctx.textOf (.rule sel l b ns)) (LocalMark.names sel)
      have hlegible : (composer? sel).isSome → ∀ d ∈ compositions ns, ∀ w ∈ Text.words d.value,
          Legible imported w := by
        intro hsome d hd w hw
        obtain ⟨c, hc⟩ := Option.isSome_iff_exists.mp hsome
        refine hwords (c, w) (List.mem_append_left _ ?_)
        rw [ruleEvents, hc]
        exact List.mem_flatMap.mpr ⟨d, hd, List.mem_map_of_mem hw⟩
      have hcomposed := compose_spec hctx hlegible hnames.lists
        (fun c hc hn => hnames.entered c (mem_names_of_composer hc hn)) hcompose
      have hall := (hnames.trans hcomposed).trans (scopeNodes_spec hctx hcomposed.lists _ true ns
        (fun p hp => hwords p (List.mem_append_right _ hp)) hns)
      rw [List.append_nil] at hall
      exact hall
  | .atBlock head l b ns =>
    obtain ⟨head', s', ns', hhead, hns, -⟩ := of_scopeNode_atBlock hok
    have hkeyframes := scopeKeyframes_spec hctx h hhead
    exact hkeyframes.trans (scopeNodes_spec hctx hkeyframes.lists _ false ns hwords hns)
  | .atStatement head l =>
    obtain ⟨head', hhead, -⟩ := of_scopeNode_atStatement hok
    exact scopeKeyframes_spec hctx h hhead
  | .decl d l =>
    obtain ⟨-, rfl⟩ := of_scopeNode_decl hok
    exact (scopes_enterAll hctx h rule (LocalMark.names d.value)).forget
  | .comment t l =>
    cases hok
    exact .refl h

theorem scopeNodes_spec (hctx : ctx.Generates generate imported) {events : List (Text × Text)}
    {s s₁ : ScopedNames} (h : Lists generate imported events s) (rule : Text) (inRule : Bool)
    (ns : List Node) (hwords : ∀ p ∈ eventsAll ns, Legible imported p.2) {ns' : List Node}
    (hok : scopeNodes ctx rule inRule ns s = .ok ns' s₁) :
    Scopes generate imported events s (eventsAll ns) (enteredAll ns) s₁ := by
  match ns with
  | [] =>
    cases hok
    exact .refl h
  | n :: ns =>
    have hrest := fun p hp => hwords p (List.mem_append_right n.events hp)
    rcases of_scopeNodes_cons hok with ⟨hskip, hns⟩ | ⟨-, n', s', rest, hn, hns, -⟩
    · obtain ⟨hevents, hentered⟩ :=
        events_of_isCompositionNode (Bool.and_eq_true_iff.mp hskip).2
      rw [eventsAll, enteredAll, hevents, hentered]
      exact scopeNodes_spec hctx h rule inRule ns hrest hns
    · have hone := scopeNode_spec hctx h rule n
        (fun p hp => hwords p (List.mem_append_left (eventsAll ns) hp)) hn
      exact hone.trans (scopeNodes_spec hctx hone.lists rule inRule ns hrest hns)

end

end ScopedNames

end StyleModules
