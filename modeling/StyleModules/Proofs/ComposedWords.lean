import StyleModules.Pass.ImportedNames
import StyleModules.Proofs.CompositionList
import StyleModules.Proofs.Splitting

/-!
How the value of a composition is read.

A clause is looked for from the right, character by character; `Composed.ofText` looks at the words.
`FromClause.ofText?_of_words` says that words in front of `from` and a source make a clause with
these words and this source. From that follows what becomes of each kind of composition:
`Composed.value_of_global`, `Composed.value_of_imported` and `Composed.value_of_here`. The last may
have a clause too, and is left as it is.
-/

namespace StyleModules

namespace FromClause

/-! ## 1. Clauses -/

/-- The two sides of a `from` that is a word with names in front of it and a source behind it. -/
structure Suitable (a b : Text) : Prop where
  front : ∃ c, a.getLast? = some c ∧ Text.isBlank c = true
  back : ∃ c, b.head? = some c ∧ Text.isBlank c = true
  source : isSource (Text.trim b) = true
  names : Text.trim a ≠ []

theorem ofSides?_of_suitable {a b : Text} (h : Suitable a b) :
    ofSides? a b = some ⟨Text.trim a, Text.trim b⟩ := by
  obtain ⟨⟨c, hlast, hc⟩, ⟨d, hhead, hd⟩, hsource, hnames⟩ := h
  unfold ofSides?
  simp [hlast, hhead, hc, hd, hsource, hnames]

theorem suitable_of_ofSides? {a b : Text} {clause : FromClause} (h : ofSides? a b = some clause) :
    Suitable a b ∧ clause = ⟨Text.trim a, Text.trim b⟩ := by
  simp only [ofSides?, Option.ite_none_right_eq_some, Bool.and_eq_true, Bool.not_eq_true',
    List.isEmpty_eq_false_iff, Option.any_eq_true, Option.some.injEq] at h
  obtain ⟨⟨⟨⟨hfront, hback⟩, hsource⟩, hnames⟩, rfl⟩ := h
  exact ⟨⟨hfront, hback, hsource, hnames⟩, rfl⟩

/-- A suitable `from` cuts the words of the text in two. -/
theorem Suitable.words {a b : Text} (h : Suitable a b) :
    Text.words (a ++ "from".toList ++ b) =
      Text.words a ++ "from".toList :: Text.words b := by
  obtain ⟨d, hhead, hd⟩ := h.back
  have hback : Text.words ("from".toList ++ b) = "from".toList :: Text.words b := by
    refine Text.words_append_of_head (by decide) (by simp; decide) fun e he => ?_
    rw [hhead] at he
    rw [← Option.some.inj he, hd]
  rw [List.append_assoc, Text.words_append_of_getLast h.front, hback]

theorem trim_eq_nil_of_words {t : Text} (h : Text.words t = []) : Text.trim t = [] := by
  rw [Text.trim, Text.trimEnd_blanks (Text.isBlank_of_words_eq_nil h)]
  rfl

theorem Suitable.words_front {a b : Text} (h : Suitable a b) : Text.words a ≠ [] :=
  fun hnil => h.names (trim_eq_nil_of_words hnil)

theorem Suitable.words_back {a b : Text} (h : Suitable a b) : Text.words b ≠ [] := by
  intro hnil
  have hsource := h.source
  rw [trim_eq_nil_of_words hnil] at hsource
  cases hsource

/-- A clause is found if there is a suitable `from`. -/
theorem exists_find? {front a b : Text} (h : Suitable (front.reverse ++ a) b) :
    ∃ clause, find? front (a ++ "from".toList ++ b) = some clause := by
  induction a generalizing front with
  | nil =>
    rw [List.append_nil] at h
    show ∃ clause, find? front ('f' :: ("rom".toList ++ b)) = some clause
    rw [find?]
    cases find? ('f' :: front) ("rom".toList ++ b) with
    | some later => exact ⟨later, rfl⟩
    | none =>
      have hstrip : "from".toList.isPrefixOf? ('f' :: ("rom".toList ++ b)) = some b :=
        Text.isPrefixOf?_append "from".toList b
      rw [hstrip]
      exact ⟨_, ofSides?_of_suitable h⟩
  | cons c a ih =>
    have h' : Suitable ((c :: front).reverse ++ a) b := by simpa using h
    obtain ⟨clause, hclause⟩ := ih h'
    exact ⟨clause, by rw [List.cons_append, List.cons_append, find?, hclause]⟩

/-- A clause that is found is at a suitable `from`, and no suitable one stands behind it. -/
theorem find?_spec {front t : Text} {clause : FromClause} (h : find? front t = some clause) :
    ∃ a b, t = a ++ "from".toList ++ b ∧ ofSides? (front.reverse ++ a) b = some clause ∧
      ∀ a' b', t = a' ++ "from".toList ++ b' → Suitable (front.reverse ++ a') b' →
        a'.length ≤ a.length := by
  induction t generalizing front with
  | nil => cases h
  | cons c t ih =>
    rw [find?] at h
    cases hlater : find? (c :: front) t with
    | some later =>
      rw [hlater] at h
      cases h
      obtain ⟨a, b, rfl, hsides, hlast⟩ := ih hlater
      refine ⟨c :: a, b, rfl, by simpa using hsides, fun a' b' ht' hsuit => ?_⟩
      cases a' with
      | nil => exact Nat.zero_le _
      | cons c' a' =>
        obtain ⟨hc, ht'⟩ := List.cons.inj ht'
        exact Nat.succ_le_succ (hlast a' b' ht' (by simpa [hc] using hsuit))
    | none =>
      rw [hlater] at h
      obtain ⟨b, hb, hsides⟩ := Option.bind_eq_some_iff.mp h
      refine ⟨[], b, (Text.append_of_isPrefixOf? hb).symm, by simpa using hsides,
        fun a' b' ht' hsuit => ?_⟩
      cases a' with
      | nil => exact Nat.le_refl _
      | cons c' a' =>
        -- a suitable `from` further behind would have been found
        have hc : c = c' := (List.cons.inj ht').1
        have ht : t = a' ++ "from".toList ++ b' := (List.cons.inj ht').2
        have hsuit' : Suitable ((c :: front).reverse ++ a') b' := by simpa [hc] using hsuit
        obtain ⟨later, hfound⟩ := exists_find? hsuit'
        rw [ht, hfound] at hlater
        cases hlater

theorem ofText?_spec {t : Text} {clause : FromClause} (h : ofText? t = some clause) :
    ∃ a b, t = a ++ "from".toList ++ b ∧ Suitable a b ∧ clause = ⟨Text.trim a, Text.trim b⟩ ∧
      ∀ a' b', t = a' ++ "from".toList ++ b' → Suitable a' b' → a'.length ≤ a.length := by
  obtain ⟨a, b, ht, hsides, hlast⟩ := find?_spec h
  obtain ⟨hsuit, hclause⟩ := suitable_of_ofSides? hsides
  exact ⟨a, b, ht, hsuit, hclause, hlast⟩

/-- **Words in front of `from` and a source make a clause with these words and this source.** -/
theorem ofText?_of_words {t source : Text} {names : List Text} (hnames : names ≠ [])
    (ht : Text.words t = names ++ ["from".toList, source]) (hsource : isSource source = true) :
    ∃ clause, ofText? t = some clause ∧ Text.words clause.names = names ∧
      clause.source = source := by
  obtain ⟨a, b, rfl, ha, hb, hlast, hhead⟩ := Text.exists_of_words_eq_append_cons ht
  have hsuit : Suitable a b := by
    have hane : a ≠ [] := by
      rintro rfl
      exact hnames ha.symm
    have hbne : b ≠ [] := by
      rintro rfl
      cases hb
    refine ⟨⟨a.getLast hane, List.getLast?_eq_some_getLast hane, ?_⟩,
      ⟨b.head hbne, List.head?_eq_some_head hbne, ?_⟩, ?_, ?_⟩
    · exact hlast _ (List.getLast?_eq_some_getLast hane)
    · exact hhead _ (List.head?_eq_some_head hbne)
    · rw [Text.trim_of_words hb]
      exact hsource
    · intro htrim
      refine hnames ?_
      rw [← ha, ← Text.words_trim, htrim]
      rfl
  obtain ⟨clause, hclause⟩ : ∃ clause, ofText? (a ++ "from".toList ++ b) = some clause :=
    exists_find? hsuit
  obtain ⟨a', b', hab, hsuit', rfl, hlater⟩ := ofText?_spec hclause
  -- the clause was found at this `from` or behind it, and behind it there are too few words
  have hprefix : a <+: a' := by
    have hleft : a <+: a ++ "from".toList ++ b := ⟨"from".toList ++ b, by simp⟩
    have hright : a' <+: a ++ "from".toList ++ b := ⟨"from".toList ++ b', by rw [hab]; simp⟩
    exact List.prefix_of_prefix_length_le hleft hright (hlater a b rfl hsuit)
  obtain ⟨x, rfl⟩ := hprefix
  have hrest : Text.words x ++ "from".toList :: Text.words b' = ["from".toList, source] := by
    have hwords := ht
    rw [hab, hsuit'.words, Text.words_append_of_getLast hsuit.front, ha, List.append_assoc]
      at hwords
    exact List.append_cancel_left hwords
  have hlength := congrArg List.length hrest
  have hpos := List.length_pos_iff.mpr hsuit'.words_back
  simp only [List.length_append, List.length_cons, List.length_nil] at hlength
  have hx : Text.words x = [] := List.length_eq_zero_iff.mp (by omega)
  rw [hx] at hrest
  refine ⟨_, hclause, ?_, Text.trim_of_words (List.cons.inj hrest).2⟩
  rw [Text.words_trim, Text.words_append_of_getLast hsuit.front, ha, hx, List.append_nil]

end FromClause

/-! ## 2. Sources -/

/-- Without marks and backslashes, the inside of a quoted text stands for itself. -/
theorem Text.unescape?_of_plain {mark : Char} {t : Text} (h : ∀ c ∈ t, c ≠ mark ∧ c ≠ '\\') :
    unescape? mark t = some t := by
  induction t with
  | nil => rw [unescape?]
  | cons c t ih =>
    obtain ⟨hmark, hback⟩ := h c List.mem_cons_self
    have hrest := ih fun d hd => h d (List.mem_cons_of_mem c hd)
    rw [unescape?, if_neg hback, if_neg hmark, hrest]
    rfl

namespace Composed

/-- A quoted path can be a source, and stands for the path. -/
theorem unquote?_of_quotedPath? {source path : Text} (h : quotedPath? source = some path)
    (hpath : ∀ c ∈ path, Text.isQuote c = false ∧ c ≠ '\\') :
    FromClause.isSource source = true ∧ Text.unquote? source = some path := by
  unfold quotedPath? at h
  split at h
  · cases h
  · next mark t =>
    split at h
    · next hq =>
      obtain ⟨hmark, hlast⟩ : Text.isQuote mark = true ∧ t.getLast? = some mark := by
        simpa using hq
      obtain rfl := Option.some.inj h
      refine ⟨by simp [FromClause.isSource, hmark], ?_⟩
      have hinside : Text.unescape? mark t.dropLast = some t.dropLast := by
        refine Text.unescape?_of_plain fun c hc => ⟨?_, (hpath c hc).2⟩
        rintro rfl
        rw [(hpath c hc).1] at hmark
        cases hmark
      have hopen : (mark == '"' || mark == '\'' || mark == '\x60') = true := by
        rw [show (mark == '"' || mark == '\'') = true from hmark]
        rfl
      rw [Text.unquote?, if_pos hopen, hlast]
      simpa using hinside
    · cases h

/-! ## 3. Compositions -/

/-- How words are read as a composition. -/
inductive Reading (words : List Text) : List Composed → Prop
  | global {names : List Text} (hne : names ≠ [])
      (h : words = names ++ ["from".toList, "global".toList]) : Reading words (names.map global)
  | imported {names : List Text} {source path : Text} (hne : names ≠ [])
      (h : words = names ++ ["from".toList, source]) (hpath : quotedPath? source = some path) :
      Reading words (names.map (imported path))
  | here (h : ∀ names, names ≠ [] → words ≠ names ++ ["from".toList, "global".toList]) :
      Reading words (words.map here)

theorem reading_ofWords (words : List Text) : Reading words (ofWords words) := by
  have hreverse : ∀ {source keyword : Text} {rest : List Text},
      words.reverse = source :: keyword :: rest → words = rest.reverse ++ [keyword, source] := by
    intro source keyword rest h
    rw [← List.reverse_reverse words, h]
    simp
  have hends : ∀ names, words = names ++ ["from".toList, "global".toList] →
      words.reverse = "global".toList :: "from".toList :: names.reverse := by
    rintro names rfl
    rw [List.reverse_append]
    rfl
  unfold ofWords
  split
  · next source keyword name names hwords =>
    have hne : (name :: names).reverse ≠ [] := by simp
    have h := hreverse hwords
    split
    · next hfrom =>
      subst hfrom
      split
      · next hglobal =>
        subst hglobal
        exact .global hne h
      · next hglobal =>
        split
        · next path hpath => exact .imported hne h hpath
        · refine .here fun names' _ h' => hglobal ?_
          exact (List.cons.inj (hwords.symm.trans (hends names' h'))).1
    · next hfrom =>
      refine .here fun names' _ h' => hfrom ?_
      exact (List.cons.inj (List.cons.inj (hwords.symm.trans (hends names' h'))).2).1
  · next hshort =>
    refine .here fun names hne h => ?_
    obtain ⟨last, front, hnames⟩ :=
      List.exists_cons_of_ne_nil (mt List.reverse_eq_nil_iff.mp hne)
    exact hshort _ _ _ _ ((hends names h).trans (by rw [hnames]))

/-- Global names are marked as such. -/
theorem value_of_global {value : Text} {names : List Text} (hne : names ≠ [])
    (h : Text.words value = names ++ ["from".toList, "global".toList]) (s : ImportedNames) :
    s.value value = (Text.join " ".toList (names.map ImportedNames.globalName), s) := by
  obtain ⟨clause, hclause, hnames, hsource⟩ := FromClause.ofText?_of_words hne h (by decide)
  simp only [ImportedNames.value, hclause, hnames, hsource, if_true]

/-- Names from a path get aliases. -/
theorem value_of_imported {value source path : Text} {names : List Text} (hne : names ≠ [])
    (h : Text.words value = names ++ ["from".toList, source])
    (hpath : quotedPath? source = some path)
    (hplain : ∀ c ∈ path, Text.isQuote c = false ∧ c ≠ '\\') (s : ImportedNames) :
    s.value value = (Text.join " ".toList (s.aliasesFor path names).1,
      (s.aliasesFor path names).2) := by
  obtain ⟨hisSource, hunquote⟩ := unquote?_of_quotedPath? hpath hplain
  obtain ⟨clause, hclause, hnames, hsource⟩ := FromClause.ofText?_of_words hne h hisSource
  have hglobal : ¬source = "global".toList := by
    rintro rfl
    cases hpath
  simp only [ImportedNames.value, hclause, hnames, hsource, if_neg hglobal, hunquote]

/-- A composition of names of the same sheet is left alone: if it has a clause, then one with a
    source that is neither quoted nor `global`. -/
theorem value_of_here {value : Text}
    (hglobal : ∀ names, names ≠ [] →
      Text.words value ≠ names ++ ["from".toList, "global".toList])
    (hnames : ∀ w ∈ Text.words value, Selector.isName w) (s : ImportedNames) :
    s.value value = (value, s) := by
  unfold ImportedNames.value
  split
  · rfl
  · next clause hclause =>
    obtain ⟨a, b, ht, hsuit, rfl, _⟩ := FromClause.ofText?_spec hclause
    have hwords : Text.words value = Text.words a ++ "from".toList :: Text.words b := by
      rw [ht, hsuit.words]
    have hsource : ¬Text.trim b = "global".toList := by
      intro hb
      refine hglobal (Text.words a) hsuit.words_front ?_
      rw [hwords, ← Text.words_trim b, hb]
      rfl
    have hquoted : Text.unquote? (Text.trim b) = none := by
      cases hb : Text.trim b with
      | nil => rfl
      | cons mark rest =>
        rw [Text.unquote?, if_neg]
        intro hmark
        -- a quotation mark would stand in a word, and that is a name
        have hkind : mark = '"' ∨ mark = '\'' ∨ mark = '\x60' := by
          simpa [or_assoc] using hmark
        have hchar : Text.isBlank mark = false ∧ Text.isIdentChar mark = false := by
          rcases hkind with rfl | rfl | rfl <;> decide
        obtain ⟨w, hw, hmem⟩ := Text.exists_word_of_mem (t := Text.trim b) (c := mark)
          (by rw [hb]; exact List.mem_cons_self) hchar.1
        rw [Text.words_trim] at hw
        have hname := hnames w (by rw [hwords]; simp [hw])
        rw [(Selector.isName_iff.mp hname).2 mark hmem] at hchar
        cases hchar.2
    simp only [if_neg hsource, hquoted]

end Composed

end StyleModules
