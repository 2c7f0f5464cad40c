import StyleModules.Proofs.ComposedWords
import StyleModules.Proofs.ScopedLists
import StyleModules.Proofs.TopBlock

/-!
Aliases for what is composed from elsewhere.

* An alias tells its number (`Interface.number_of_makeAlias`), and no two are made with the same.
* `ImportedNames.Sound` is what holds of the aliases at every moment: every one is known for one
  name at one path. They are never given up (`Grows`).
* `ImportedNames.word` is what stands for a composed name in a sheet. `ImportedNames.nodes_spec`:
  in the sheet with aliases, the compositions that scoping carries out are those of the sheet as it
  was read, each with the word that stands for it.
-/

namespace StyleModules

/-! ## 1. Aliases -/

namespace Interface

/-- The characters of an alias: ASCII letters, digits and `_`. -/
def isAliasChar (c : Char) : Bool :=
  Text.isAsciiAlnum c || c == '_'

theorem isBlank_of_isAliasChar {c : Char} (h : isAliasChar c) : Text.isBlank c = false := by
  have hwithin : ∀ {first last : UInt32}, 48 ≤ first.toNat → last.toNat ≤ 122 →
      first ≤ c.val → c.val ≤ last → 48 ≤ c.toNat ∧ c.toNat ≤ 122 :=
    fun hfirst hlast hlow hhigh => ⟨Nat.le_trans hfirst (UInt32.le_iff_toNat_le.mp hlow),
      Nat.le_trans (UInt32.le_iff_toNat_le.mp hhigh) hlast⟩
  have hrange : 48 ≤ c.toNat ∧ c.toNat ≤ 122 := by
    rcases Bool.or_eq_true_iff.mp h with halnum | hline
    · rcases Bool.or_eq_true_iff.mp halnum with hletter | hdigit
      · rcases Bool.or_eq_true_iff.mp hletter with hupper | hlower
        · obtain ⟨hlow, hhigh⟩ := of_decide_eq_true hupper
          exact hwithin (by decide) (by decide) hlow hhigh
        · obtain ⟨hlow, hhigh⟩ := Bool.and_eq_true_iff.mp hlower
          exact hwithin (by decide) (by decide) (of_decide_eq_true hlow) (of_decide_eq_true hhigh)
      · obtain ⟨hlow, hhigh⟩ := Bool.and_eq_true_iff.mp hdigit
        exact hwithin (by decide) (by decide) (of_decide_eq_true hlow) (of_decide_eq_true hhigh)
    · rw [eq_of_beq hline]
      decide
  simp only [Text.isBlank, Bool.or_eq_false_iff, Bool.and_eq_false_iff, decide_eq_false_iff_not,
    beq_eq_false_iff_ne]
  omega

theorem isIdentChar_of_isAliasChar {c : Char} (h : isAliasChar c) : Text.isIdentChar c := by
  simp only [isAliasChar, Bool.or_eq_true] at h
  rcases h with h | h <;> simp [Text.isIdentChar, h]

theorem isDigit_of_mem_ofNat {c : Char} {n : Nat} (h : c ∈ Text.ofNat n) : c.isDigit = true :=
  Nat.isDigit_of_mem_toDigits (by decide) (by decide) h

/-- An alias has characters of aliases only. -/
theorem isAliasChar_of_mem_makeAlias {kind name : Text} {number : Nat}
    (hkind : ∀ c ∈ kind, isAliasChar c) : ∀ c ∈ makeAlias kind name number, isAliasChar c := by
  have hname : ∀ c ∈ aliasWord name, isAliasChar c := by
    intro c hc
    obtain ⟨d, _, rfl⟩ := List.mem_map.mp hc
    split
    · assumption
    · rfl
  have hnumber : ∀ c ∈ Text.ofNat number, isAliasChar c := by
    intro c hc
    simp [isAliasChar, Text.isAsciiAlnum, Char.isAlphanum, isDigit_of_mem_ofNat hc]
  have hstart : ∀ c ∈ "i__".toList, isAliasChar c := List.all_eq_true.mp rfl
  intro c hc
  simp only [makeAlias, List.mem_append, List.mem_cons] at hc
  rcases hc with (hc | hc) | rfl | hc | rfl | hc
  · exact hstart c hc
  · exact hkind c hc
  · rfl
  · exact hname c hc
  · rfl
  · exact hnumber c hc

/-- The number of an alias stands behind its last `_`. -/
theorem getLast?_splitBy_makeAlias (kind name : Text) (number : Nat) :
    (Text.splitBy (· == '_') (makeAlias kind name number)).getLast? =
      some (Text.ofNat number) := by
  have hdigits : ∀ c ∈ Text.ofNat number, (c == '_') = false := by
    intro c hc
    rw [beq_eq_false_iff_ne]
    rintro rfl
    cases isDigit_of_mem_ofNat hc
  have htext : makeAlias kind name number =
      ("i__".toList ++ kind ++ '_' :: aliasWord name) ++ '_' :: Text.ofNat number := by
    simp [makeAlias]
  have hsplit := Text.splitBy_append_cons (p := (· == '_')) (c := '_') rfl (Text.ofNat number)
    ("i__".toList ++ kind ++ '_' :: aliasWord name)
  rw [htext, hsplit, Text.splitBy_of_forall hdigits]
  simp

/-- **An alias tells its number.** -/
theorem number_of_makeAlias {kind kind' name name' : Text} {number number' : Nat}
    (h : makeAlias kind name number = makeAlias kind' name' number') : number = number' := by
  have hdigits : Nat.toDigits 10 number = Nat.toDigits 10 number' := by
    have hlast := getLast?_splitBy_makeAlias kind name number
    rw [h, getLast?_splitBy_makeAlias] at hlast
    exact (Option.some.inj hlast).symm
  calc
    number = Nat.ofDigitChars 10 (Nat.toDigits 10 number) 0 := Nat.ofDigitChars_ten_toDigits.symm
    _ = Nat.ofDigitChars 10 (Nat.toDigits 10 number') 0 := by rw [hdigits]
    _ = number' := Nat.ofDigitChars_ten_toDigits

end Interface

namespace ImportedNames

/-! ## 2. What holds of the aliases -/

/-- The alias of a name at a path. -/
def alias? (s : ImportedNames) (path name : Text) : Option Text :=
  (s.paths.get? path).bind (·.get? name)

/-- Aliases are kept. -/
def Grows (s s' : ImportedNames) : Prop :=
  ∀ path name a, s.alias? path name = some a → s'.alias? path name = some a

/-- What holds at every moment: an alias is known for one name at one path, and this is one that
    was to be imported. -/
structure Sound (Q : Composed → Prop) (s : ImportedNames) : Prop where
  paths : s.paths.keys.Nodup
  names : ∀ {path t}, s.paths.get? path = some t → t.keys.Nodup
  used : ∀ {path t}, s.paths.get? path = some t → ∃ name, Q (.imported path name)
  asked : ∀ {path name a}, s.alias? path name = some a → Q (.imported path name)
  made : ∀ {path name a}, s.alias? path name = some a →
    ∃ number, number < s.aliases ∧ a = Interface.makeAlias "imported".toList name number
  distinct : ∀ {path path' name name' a}, s.alias? path name = some a →
    s.alias? path' name' = some a → path = path' ∧ name = name'

variable {Q : Composed → Prop} {s s₁ s₂ : ImportedNames}

theorem Grows.refl (s : ImportedNames) : Grows s s :=
  fun _ _ _ h => h

theorem Grows.trans (h : Grows s s₁) (h' : Grows s₁ s₂) : Grows s s₂ :=
  fun path name a ha => h' path name a (h path name a ha)

theorem sound_empty : Sound Q empty where
  paths := List.nodup_nil
  names h := by cases h
  used h := by cases h
  asked h := by cases h
  made h := by cases h
  distinct h := by cases h

/-- The aliases with one more. -/
def store (s : ImportedNames) (path name a : Text) : ImportedNames :=
  ⟨s.paths.insert path (((s.paths.get? path).getD .empty).insert name a), s.aliases + 1⟩

theorem get?_getD_paths (s : ImportedNames) (path name : Text) :
    ((s.paths.get? path).getD .empty).get? name = s.alias? path name := by
  unfold alias?
  cases s.paths.get? path <;> rfl

theorem alias?_store (s : ImportedNames) (path name a path' name' : Text) :
    (s.store path name a).alias? path' name' =
      if path' = path ∧ name' = name then some a else s.alias? path' name' := by
  unfold alias? store
  rw [Table.get?_insert]
  by_cases hpath : path' = path
  · subst hpath
    rw [if_pos rfl, Option.bind_some, Table.get?_insert, get?_getD_paths]
    simp [alias?]
  · simp [hpath]

/-- A new alias is made with a number that was not used. -/
theorem Sound.store (hs : Sound Q s) {path name : Text} (hQ : Q (.imported path name)) :
    Sound Q (s.store path name (Interface.makeAlias "imported".toList name s.aliases)) where
  paths := Table.nodup_keys_upsert hs.paths _ _
  names {path' t} h := by
    rw [ImportedNames.store, Table.get?_insert] at h
    split at h
    · obtain rfl := Option.some.inj h
      refine Table.nodup_keys_upsert ?_ _ _
      cases hold : s.paths.get? path with
      | none => exact List.nodup_nil
      | some t => exact hs.names hold
    · exact hs.names h
  used {path' t} h := by
    rw [ImportedNames.store, Table.get?_insert] at h
    split at h
    · next heq => exact ⟨name, heq ▸ hQ⟩
    · exact hs.used h
  asked {path' name' a} h := by
    rw [alias?_store] at h
    split at h
    · next heq => obtain ⟨rfl, rfl⟩ := heq; exact hQ
    · exact hs.asked h
  made {path' name' a} h := by
    rw [alias?_store] at h
    split at h
    · next heq =>
      obtain ⟨rfl, rfl⟩ := heq
      exact ⟨s.aliases, Nat.lt_succ_self _, (Option.some.inj h).symm⟩
    · obtain ⟨number, hlt, ha⟩ := hs.made h
      exact ⟨number, Nat.lt_succ_of_lt hlt, ha⟩
  distinct {path₁ path₂ name₁ name₂ a} h₁ h₂ := by
    have hfresh : ∀ {path' name'},
        s.alias? path' name' ≠ some (Interface.makeAlias "imported".toList name s.aliases) := by
      intro path' name' h
      obtain ⟨number, hlt, ha⟩ := hs.made h
      exact Nat.lt_irrefl _ (Interface.number_of_makeAlias ha ▸ hlt)
    rw [alias?_store] at h₁ h₂
    split at h₁ <;> split at h₂
    · next heq₁ heq₂ => exact ⟨heq₁.1.trans heq₂.1.symm, heq₁.2.trans heq₂.2.symm⟩
    · obtain rfl := Option.some.inj h₁
      exact absurd h₂ hfresh
    · obtain rfl := Option.some.inj h₂
      exact absurd h₁ hfresh
    · exact hs.distinct h₁ h₂

theorem grows_store {path name : Text} (hnew : s.alias? path name = none) (a : Text) :
    Grows s (s.store path name a) := by
  intro path' name' a' h
  rw [alias?_store, if_neg]
  · exact h
  · rintro ⟨rfl, rfl⟩
    rw [hnew] at h
    cases h

/-- The alias of a name: the one that is known, or a new one. -/
theorem Sound.aliasFor (hs : Sound Q s) {path name : Text} (hQ : Q (.imported path name)) :
    Sound Q (s.aliasFor path name).2 ∧ Grows s (s.aliasFor path name).2 ∧
      (s.aliasFor path name).2.alias? path name = some (s.aliasFor path name).1 := by
  unfold ImportedNames.aliasFor
  simp only [get?_getD_paths]
  split
  · next a ha => exact ⟨hs, .refl s, ha⟩
  · next hnew =>
    refine ⟨hs.store hQ, grows_store hnew _, ?_⟩
    show (s.store path name _).alias? path name = _
    rw [alias?_store, if_pos ⟨rfl, rfl⟩]

theorem Sound.aliasesFor (hs : Sound Q s) {path : Text} {names : List Text}
    (hQ : ∀ name ∈ names, Q (.imported path name)) :
    Sound Q (s.aliasesFor path names).2 ∧ Grows s (s.aliasesFor path names).2 ∧
      ∀ s', Grows (s.aliasesFor path names).2 s' →
        names.map (s'.alias? path) = (s.aliasesFor path names).1.map some := by
  induction names generalizing s with
  | nil => exact ⟨hs, .refl s, fun _ _ => rfl⟩
  | cons name names ih =>
    obtain ⟨hs', hg, ha⟩ := hs.aliasFor (hQ name List.mem_cons_self)
    obtain ⟨hs'', hg', hnames⟩ := ih hs' fun n hn => hQ n (List.mem_cons_of_mem name hn)
    refine ⟨hs'', hg.trans hg', fun s' hs' => ?_⟩
    exact List.cons_eq_cons.mpr ⟨hs' _ _ _ (hg' _ _ _ ha), hnames s' hs'⟩

/-! ## 3. Values -/

/-- What stands for a composed name in a sheet with aliases. -/
def word (s : ImportedNames) : Composed → Text
  | .here name => name
  | .global name => globalName name
  | .imported path name => (s.alias? path name).getD []

theorem word_of_alias {s : ImportedNames} {path name a : Text} (h : s.alias? path name = some a) :
    s.word (.imported path name) = a := by
  rw [word, h]
  rfl

/-- Whether a composed name has what stands for it. -/
def Covers (s : ImportedNames) : Composed → Prop
  | .imported path name => (s.alias? path name).isSome
  | _ => True

/-- Words stand for what they compose, class by class. -/
def Stands (Q : Composed → Prop) (s : ImportedNames) (ps : List (Text × Composed))
    (es : List (Text × Text)) : Prop :=
  es = ps.map (fun p => (p.1, s.word p.2)) ∧ ∀ p ∈ ps, Q p.2 ∧ s.Covers p.2

theorem Stands.nil (s : ImportedNames) : Stands Q s [] [] :=
  ⟨rfl, by simp⟩

theorem Stands.append {ps qs : List (Text × Composed)} {es fs : List (Text × Text)}
    (h : Stands Q s ps es) (h' : Stands Q s qs fs) : Stands Q s (ps ++ qs) (es ++ fs) := by
  refine ⟨by rw [h.1, h'.1, List.map_append], fun p hp => ?_⟩
  rcases List.mem_append.mp hp with hp | hp
  · exact h.2 p hp
  · exact h'.2 p hp

/-- Whatever is done later, words stand for what they compose. -/
def StandsFrom (Q : Composed → Prop) (s : ImportedNames) (ps : List (Text × Composed))
    (es : List (Text × Text)) : Prop :=
  ∀ s', Grows s s' → Stands Q s' ps es

theorem isWord_globalName {name : Text} (h : ∀ c ∈ name, Text.isBlank c = false) :
    globalName name ≠ [] ∧ ∀ c ∈ globalName name, Text.isBlank c = false := by
  have hbetween : ∀ p q : Text, p ≠ [] → (∀ c ∈ p, Text.isBlank c = false) →
      (∀ c ∈ q, Text.isBlank c = false) →
      p ++ name ++ q ≠ [] ∧ ∀ c ∈ p ++ name ++ q, Text.isBlank c = false := by
    intro p q hne hp hq
    refine ⟨by simp [hne], fun c hc => ?_⟩
    rcases List.mem_append.mp hc with hc | hc
    · rcases List.mem_append.mp hc with hc | hc
      · exact hp c hc
      · exact h c hc
    · exact hq c hc
  exact hbetween "global(".toList ")".toList (by decide) (by simp; decide) (by simp; decide)

theorem Sound.isWord (hs : Sound Q s) {path name a : Text} (ha : s.alias? path name = some a) :
    a ≠ [] ∧ ∀ c ∈ a, Text.isBlank c = false := by
  obtain ⟨number, _, rfl⟩ := hs.made ha
  refine ⟨by simp [Interface.makeAlias], fun c hc => ?_⟩
  exact Interface.isBlank_of_isAliasChar
    (Interface.isAliasChar_of_mem_makeAlias (List.all_eq_true.mp rfl) c hc)

/-- The aliases of names at a path stand for them. -/
theorem Sound.stands_aliasesFor (hs : Sound Q s) {path : Text} {names : List Text}
    (hQ : ∀ name ∈ names, Q (.imported path name)) (c : Text) :
    StandsFrom Q (s.aliasesFor path names).2 ((names.map (.imported path)).map ((c, ·)))
      ((s.aliasesFor path names).1.map ((c, ·))) := by
  intro s' hs'
  have haliases := (hs.aliasesFor hQ).2.2 s' hs'
  constructor
  · have hwords : (s.aliasesFor path names).1 = names.map fun n => (s'.alias? path n).getD [] := by
      have hget := congrArg (List.map (Option.getD · [])) haliases
      simpa [Function.comp_def] using hget.symm
    rw [hwords, List.map_map, List.map_map, List.map_map]
    rfl
  · intro p hp
    obtain ⟨x, hx, rfl⟩ := List.mem_map.mp hp
    obtain ⟨n, hn, rfl⟩ := List.mem_map.mp hx
    have hmem : s'.alias? path n ∈ names.map (s'.alias? path) := List.mem_map_of_mem hn
    rw [haliases] at hmem
    obtain ⟨a, _, ha⟩ := List.mem_map.mp hmem
    refine ⟨hQ n hn, ?_⟩
    show (s'.alias? path n).isSome
    rw [← ha]
    rfl

theorem Sound.words_aliasesFor (hs : Sound Q s) {path : Text} {names : List Text}
    (hQ : ∀ name ∈ names, Q (.imported path name)) :
    Text.words (Text.join " ".toList (s.aliasesFor path names).1) =
      (s.aliasesFor path names).1 := by
  obtain ⟨hs', _, haliases⟩ := hs.aliasesFor hQ
  refine Text.words_join fun w hw => ?_
  have hmem : some w ∈ (s.aliasesFor path names).1.map some := List.mem_map_of_mem hw
  rw [← haliases _ (.refl _)] at hmem
  obtain ⟨n, _, hn⟩ := List.mem_map.mp hmem
  exact hs'.isWord hn

/-- **The value of a composition gets the words that stand for what it composes.** -/
theorem Sound.value (hs : Sound Q s) {value : Text}
    (hvalid : ∀ x ∈ Composed.ofText value, x.valid) (hQ : ∀ x ∈ Composed.ofText value, Q x)
    (c : Text) :
    Sound Q (s.value value).2 ∧ Grows s (s.value value).2 ∧
      StandsFrom Q (s.value value).2 ((Composed.ofText value).map ((c, ·)))
        ((Text.words (s.value value).1).map ((c, ·))) := by
  have hreading : Composed.Reading (Text.words value) (Composed.ofText value) :=
    Composed.reading_ofWords _
  generalize Composed.ofText value = xs at hreading hvalid hQ ⊢
  cases hreading with
  | @global names hne h =>
    have hjoin : Text.words (Text.join " ".toList (names.map globalName)) =
        names.map globalName := by
      refine Text.words_join fun w hw => ?_
      obtain ⟨n, hn, rfl⟩ := List.mem_map.mp hw
      have hn' : n ∈ Text.words value := by rw [h]; exact List.mem_append_left _ hn
      exact isWord_globalName (Text.of_mem_words hn').2
    rw [Composed.value_of_global hne h]
    refine ⟨hs, .refl s, fun s' _ => ⟨?_, fun p hp => ?_⟩⟩
    · rw [hjoin, List.map_map, List.map_map, List.map_map]
      rfl
    · obtain ⟨x, hx, rfl⟩ := List.mem_map.mp hp
      obtain ⟨n, _, rfl⟩ := List.mem_map.mp hx
      exact ⟨hQ _ hx, trivial⟩
  | @imported names source path hne h hpath =>
    have hplain : ∀ c ∈ path, Text.isQuote c = false ∧ c ≠ '\\' := by
      obtain ⟨n, hn⟩ := List.exists_mem_of_ne_nil names hne
      have hn' := hvalid _ (List.mem_map_of_mem hn)
      simp only [Composed.valid, Bool.and_eq_true, List.all_eq_true, Bool.not_eq_true',
        bne_iff_ne] at hn'
      exact hn'.2
    have hQ' : ∀ n ∈ names, Q (.imported path n) := fun n hn => hQ _ (List.mem_map_of_mem hn)
    obtain ⟨hs', hg, _⟩ := hs.aliasesFor hQ'
    rw [Composed.value_of_imported hne h hpath hplain, hs.words_aliasesFor hQ']
    exact ⟨hs', hg, hs.stands_aliasesFor hQ' c⟩
  | here h =>
    have hnames : ∀ w ∈ Text.words value, Selector.isName w := by
      intro w hw
      have hw' := hvalid _ (List.mem_map_of_mem hw)
      simp only [Composed.valid, Composed.isFree, Bool.and_eq_true] at hw'
      exact hw'.1
    rw [Composed.value_of_here h hnames]
    refine ⟨hs, .refl s, fun s' _ => ⟨?_, fun p hp => ?_⟩⟩
    · rw [List.map_map, List.map_map]
      rfl
    · obtain ⟨x, hx, rfl⟩ := List.mem_map.mp hp
      obtain ⟨n, _, rfl⟩ := List.mem_map.mp hx
      exact ⟨hQ _ hx, trivial⟩

end ImportedNames

/-! ## 4. Blocks -/

/-- A node with its local names marked. -/
def Node.marked (around : List Text) (n : Node) : Node :=
  (n.mapSelectors LocalNames.selector around).mapNodes LocalNames.node

/-- The nodes of a block with their local names marked. -/
def markedAll (around : List Text) (ns : List Node) : List Node :=
  mapAllNodes LocalNames.node (mapAllSelectors LocalNames.selector around ns)

namespace ImportedNames

/-- Nodes whose compositions are as they should be, and which are no import or export blocks. -/
structure Composable (Q : Composed → Prop) (around : List Text) (ns : List Node) : Prop where
  decls : ∀ d ∈ (preorderAll ns).filterMap Node.decl?, Interface.isComposition d.prop →
    ∀ x ∈ Composed.ofText d.value, Q x
  selectors : ∀ p ∈ selectorsAll around ns,
    (Interface.isImport (LocalNames.selector p.2 p.1) ||
      Interface.isExport (LocalNames.selector p.2 p.1)) = false

/-- What is made of the nodes of a block: what they compose and what they declare stays. -/
structure Rewritten (Q : Composed → Prop) (around : List Text) (s : ImportedNames)
    (ns ns' : List Node) (s' : ImportedNames) : Prop where
  sound : Sound Q s'
  grows : Grows s s'
  stands : StandsFrom Q s' (compositionsAll around ns) (eventsAll ns')
  direct : ∀ c, StandsFrom Q s'
    ((ScopedNames.compositions ns).flatMap fun d => (Composed.ofText d.value).map ((c, ·)))
    ((ScopedNames.compositions ns').flatMap fun d => (Text.words d.value).map ((c, ·)))
  entered : enteredAll ns' =
    (selectorsAll around ns).flatMap fun p => LocalMark.names (LocalNames.selector p.2 p.1)

section Blocks

variable {Q : Composed → Prop} {around : List Text} {s s₁ s₂ : ImportedNames}

theorem Composable.head {n : Node} {ns : List Node} (h : Composable Q around (n :: ns)) :
    Composable Q around [n] := by
  constructor
  · intro d hd
    rw [preorderAll, preorderAll, List.append_nil] at hd
    refine h.decls d ?_
    rw [preorderAll, List.filterMap_append]
    exact List.mem_append_left _ hd
  · intro p hp
    rw [selectorsAll, selectorsAll, List.append_nil] at hp
    exact h.selectors p (List.mem_append_left _ hp)

theorem Composable.tail {n : Node} {ns : List Node} (h : Composable Q around (n :: ns)) :
    Composable Q around ns := by
  constructor
  · intro d hd
    refine h.decls d ?_
    rw [preorderAll, List.filterMap_append]
    exact List.mem_append_right _ hd
  · exact fun p hp => h.selectors p (List.mem_append_right _ hp)

theorem Composable.rule {sel : Text} {l : Layout} {b : Bool} {ns : List Node}
    (h : Composable Q around [.rule sel l b ns]) :
    (Interface.isImport (LocalNames.selector around sel) ||
      Interface.isExport (LocalNames.selector around sel)) = false ∧ Composable Q around ns := by
  refine ⟨h.selectors (sel, around) (by simp [selectorsAll, Node.selectors]), ?_, ?_⟩
  · intro d hd
    exact h.decls d (by simpa [preorderAll, Node.preorder, Node.decl?] using hd)
  · intro p hp
    exact h.selectors p (by simp [selectorsAll, Node.selectors, hp])

theorem Composable.atBlock {head : AtHead} {l : Layout} {b : Bool} {ns : List Node}
    (h : Composable Q around [.atBlock head l b ns]) :
    Composable Q (around ++ [head.name]) ns where
  decls d hd := h.decls d (by simpa [preorderAll, Node.preorder, Node.decl?] using hd)
  selectors p hp := h.selectors p (by simpa [selectorsAll, Node.selectors] using hp)

theorem Rewritten.nil (hs : Sound Q s) : Rewritten Q around s [] [] s :=
  ⟨hs, .refl s, fun _ _ => .nil _, fun _ _ _ => .nil _, rfl⟩

theorem StandsFrom.grows {ps : List (Text × Composed)} {es : List (Text × Text)}
    (h : StandsFrom Q s ps es) (hg : Grows s s₁) : StandsFrom Q s₁ ps es :=
  fun s' hs' => h s' (hg.trans hs')

theorem StandsFrom.append {ps qs : List (Text × Composed)} {es fs : List (Text × Text)}
    (h : StandsFrom Q s ps es) (h' : StandsFrom Q s qs fs) :
    StandsFrom Q s (ps ++ qs) (es ++ fs) :=
  fun s' hs' => (h s' hs').append (h' s' hs')

theorem compositions_cons (n : Node) (ns : List Node) :
    ScopedNames.compositions (n :: ns) =
      ScopedNames.compositions [n] ++ ScopedNames.compositions ns := by
  unfold ScopedNames.compositions
  rw [← List.filterMap_append, ← List.filter_append]
  rfl

/-- Nodes one after the other. -/
theorem Rewritten.cons {n n' : Node} {ns ns' : List Node}
    (h : Rewritten Q around s [n] [n'] s₁) (h' : Rewritten Q around s₁ ns ns' s₂) :
    Rewritten Q around s (n :: ns) (n' :: ns') s₂ where
  sound := h'.sound
  grows := h.grows.trans h'.grows
  stands := by
    have hn := h.stands
    simp only [compositionsAll, eventsAll, List.append_nil] at hn
    exact (hn.grows h'.grows).append h'.stands
  direct c := by
    rw [compositions_cons n, compositions_cons n', List.flatMap_append, List.flatMap_append]
    exact ((h.direct c).grows h'.grows).append (h'.direct c)
  entered := by
    have hn := h.entered
    simp only [enteredAll, selectorsAll, List.append_nil] at hn ⊢
    rw [hn, h'.entered, List.flatMap_append]

theorem Rewritten.rule {sel : Text} {l : Layout} {b : Bool} {ns ns' : List Node}
    (hblock : (Interface.isImport (LocalNames.selector around sel) ||
      Interface.isExport (LocalNames.selector around sel)) = false)
    (h : Rewritten Q around s ns ns' s₁) :
    Rewritten Q around s [.rule sel l b ns]
      [.rule (LocalNames.selector around sel) l b ns'] s₁ where
  sound := h.sound
  grows := h.grows
  stands := by
    simp only [compositionsAll, Node.compositions, eventsAll, Node.events, hblock, List.append_nil]
    refine StandsFrom.append ?_ h.stands
    unfold ScopedNames.ruleEvents
    cases ScopedNames.composer? (LocalNames.selector around sel) with
    | none => exact fun _ _ => .nil _
    | some c => exact h.direct c
  direct c := fun _ _ => .nil _
  entered := by
    simp only [enteredAll, Node.entered, hblock, List.append_nil, selectorsAll, Node.selectors,
      List.flatMap_cons, h.entered]
    rfl

theorem Rewritten.atBlock {head head' : AtHead} {l : Layout} {b : Bool} {ns ns' : List Node}
    (h : Rewritten Q (around ++ [head.name]) s ns ns' s₁) :
    Rewritten Q around s [.atBlock head l b ns] [.atBlock head' l b ns'] s₁ where
  sound := h.sound
  grows := h.grows
  stands := by
    simp only [compositionsAll, Node.compositions, eventsAll, Node.events, List.append_nil]
    exact h.stands
  direct c := fun _ _ => .nil _
  entered := by
    simp only [enteredAll, Node.entered, List.append_nil, selectorsAll, Node.selectors]
    exact h.entered

/-- Marking keeps properties, and compositions as they are. -/
theorem decl_of_isComposition {d : Decl} (h : Interface.isComposition d.prop) :
    LocalNames.decl d = d := by
  have hprop : d.prop = "composes".toList ∨ d.prop = "compose-with".toList := by
    simpa [Interface.isComposition] using h
  have hlower : Text.lower d.prop ≠ "animation".toList ∧
      Text.lower d.prop ≠ "animation-name".toList := by
    rcases hprop with hprop | hprop <;> rw [hprop] <;> decide
  simp only [LocalNames.decl, if_neg hlower.1, if_neg hlower.2]

theorem prop_decl (d : Decl) : (LocalNames.decl d).prop = d.prop := by
  unfold LocalNames.decl
  simp only
  split
  · rfl
  · split <;> rfl

theorem compositions_decl {d : Decl} (h : Interface.isComposition d.prop) (l : Layout) :
    ScopedNames.compositions [.decl d l] = [d] := by
  simp [ScopedNames.compositions, ScopedNames.isCompositionNode, Node.decl?, h]

theorem compositions_decl_of_not {d : Decl} (h : ¬Interface.isComposition d.prop) (l : Layout) :
    ScopedNames.compositions [.decl d l] = [] := by
  simp [ScopedNames.compositions, ScopedNames.isCompositionNode, Node.decl?, h]

theorem Rewritten.decl (hQ : ∀ x, Q x → x.valid) (hs : Sound Q s) {d : Decl} {l : Layout}
    (h : Composable Q around [.decl d l]) :
    Rewritten Q around s [.decl d l] [.decl (s.decl (LocalNames.decl d)).1 l]
      (s.decl (LocalNames.decl d)).2 := by
  by_cases hcomp : Interface.isComposition d.prop
  · have hnames := h.decls d (by simp [preorderAll, Node.preorder, Node.decl?]) hcomp
    have hvalid := fun x hx => hQ x (hnames x hx)
    have hdecl : s.decl d = ({ d with value := (s.value d.value).1 }, (s.value d.value).2) := by
      rw [ImportedNames.decl, if_pos hcomp]
    have hnew := compositions_decl (d := { d with value := (s.value d.value).1 }) hcomp l
    rw [decl_of_isComposition hcomp, hdecl]
    dsimp only
    obtain ⟨hs', hg, _⟩ := hs.value hvalid hnames []
    refine ⟨hs', hg, fun _ _ => .nil _, fun c => ?_, rfl⟩
    rw [compositions_decl hcomp, hnew, List.flatMap_singleton, List.flatMap_singleton]
    exact (hs.value hvalid hnames c).2.2
  · have hdecl : s.decl (LocalNames.decl d) = (LocalNames.decl d, s) := by
      rw [ImportedNames.decl, prop_decl, if_neg hcomp]
    rw [hdecl]
    refine ⟨hs, .refl s, fun _ _ => .nil _, fun c => ?_, rfl⟩
    rw [compositions_decl_of_not hcomp, compositions_decl_of_not (by rwa [prop_decl])]
    exact fun _ _ => .nil _

end Blocks

mutual

/-- A node gets aliases for what it composes from elsewhere. -/
theorem node_spec {Q : Composed → Prop} (hQ : ∀ x, Q x → x.valid) {s : ImportedNames}
    (hs : Sound Q s) (around : List Text) (n : Node) (h : Composable Q around [n]) :
    Rewritten Q around s [n] [(node s (n.marked around)).1] (node s (n.marked around)).2 := by
  match n with
  | .rule sel l b ns =>
    obtain ⟨hblock, hns⟩ := h.rule
    exact .rule hblock (nodes_spec hQ hs around ns hns)
  | .atBlock head l b ns => exact .atBlock (nodes_spec hQ hs _ ns h.atBlock)
  | .atStatement head l => exact ⟨hs, .refl s, fun _ _ => .nil _, fun _ _ _ => .nil _, rfl⟩
  | .decl d l => exact .decl hQ hs h
  | .comment t l => exact ⟨hs, .refl s, fun _ _ => .nil _, fun _ _ _ => .nil _, rfl⟩

/-- The nodes of a block get aliases for what they compose from elsewhere. -/
theorem nodes_spec {Q : Composed → Prop} (hQ : ∀ x, Q x → x.valid) {s : ImportedNames}
    (hs : Sound Q s) (around : List Text) (ns : List Node) (h : Composable Q around ns) :
    Rewritten Q around s ns (nodes s (markedAll around ns)).1
      (nodes s (markedAll around ns)).2 := by
  match ns with
  | [] => exact .nil hs
  | n :: ns =>
    have hn := node_spec hQ hs around n h.head
    exact hn.cons (nodes_spec hQ hn.sound around ns h.tail)

end

end ImportedNames

end StyleModules
