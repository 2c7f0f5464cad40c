import StyleModules.Proofs.ScopedSelector

/-!
Selectors that marking and scoping leave alone.

* `Selector.lexeme_append`: the items of a selector are the selector, so marking can lose only what
  it writes differently: names, switches and wrappers.
* `Selector.localize_of_not_mentions`: a selector without `.` and `#`, and without `:local` and
  `:global` in any letter case, has none of these items and stays as it is.
* `LocalMark.substitute_of_unmarked`: a text without `:local(` has nothing to scope.
-/

namespace StyleModules

namespace Text

/-- A text contains a pattern if it can be cut in front of it and behind it. -/
theorem contains_iff {pattern : Text} (hpattern : pattern ≠ []) {t : Text} :
    contains pattern t = true ↔ ∃ u v, t = u ++ (pattern ++ v) := by
  induction t with
  | nil =>
    constructor
    · intro h
      rw [contains, cutOn, if_neg (by simpa using hpattern)] at h
      cases h
    · intro h
      obtain ⟨u, v, huv⟩ := h
      have hnil := (List.append_eq_nil_iff.mp (List.append_eq_nil_iff.mp huv.symm).2).1
      exact absurd hnil hpattern
  | cons c t ih =>
    rw [contains, cutOn]
    cases hp : pattern.isPrefixOf? (c :: t) with
    | some rest =>
      refine iff_of_true rfl ⟨[], rest, (append_of_isPrefixOf? hp).symm⟩
    | none =>
      rw [Option.isSome_map]
      constructor
      · intro h
        obtain ⟨u, v, rfl⟩ := ih.mp h
        exact ⟨c :: u, v, rfl⟩
      · intro h
        obtain ⟨u, v, huv⟩ := h
        cases u with
        | nil =>
          rw [huv, List.nil_append, isPrefixOf?_append] at hp
          cases hp
        | cons d u => exact ih.mpr ⟨u, v, (List.cons.inj huv).2⟩

theorem contains_within {pattern : Text} (hpattern : pattern ≠ []) {t : Text} (u v : Text)
    (h : contains pattern t = true) : contains pattern (u ++ (t ++ v)) = true := by
  obtain ⟨u', v', rfl⟩ := (contains_iff hpattern).mp h
  exact (contains_iff hpattern).mpr ⟨u ++ u', v' ++ v, by simp only [List.append_assoc]⟩

end Text

namespace Selector

/-! ## 1. Items -/

/-- What follows brackets begins with the closing one. -/
theorem bracketed_rest (opening closing : Char) (mark : Option Char) (depth : Nat) (t : Text) :
    (bracketed opening closing mark depth t).2 = [] ∨
      ∃ rest, (bracketed opening closing mark depth t).2 = closing :: rest := by
  fun_induction bracketed opening closing mark depth t with
  | case1 => exact .inl rfl
  | case2 => exact .inl rfl
  | case3 _ _ _ _ ih => exact ih
  | case4 _ _ _ _ _ _ ih => exact ih
  | case5 _ _ _ _ _ _ ih => exact ih
  | case6 _ _ _ _ _ ih => exact ih
  | case7 => exact .inr ⟨_, rfl⟩
  | case8 _ _ _ _ _ _ _ ih => exact ih
  | case9 _ _ _ _ _ _ _ _ ih => exact ih

/-- What is built from an argument is written with it, up to the closing parenthesis. -/
theorem withArgument_append {make : Text → Bool → Item} (head t : Text)
    (hmake : ∀ inside closed, (make inside closed).text = head ++ inside ++ Item.close closed) :
    (withArgument make t).item.text ++ (withArgument make t).rest = head ++ t := by
  have happend : (argument t).1 ++ (argument t).2 = t := bracketed_append '(' ')' none 1 t
  have hclose : Item.close (!(argument t).2.isEmpty) ++ (argument t).2.tail = (argument t).2 := by
    rcases bracketed_rest '(' ')' none 1 t with hrest | ⟨rest, hrest⟩
    · rw [argument, hrest]
      rfl
    · rw [argument, hrest]
      rfl
  calc (withArgument make t).item.text ++ (withArgument make t).rest
      = head ++ (argument t).1 ++ Item.close (!(argument t).2.isEmpty) ++ (argument t).2.tail := by
        rw [withArgument, hmake]
    _ = head ++ ((argument t).1 ++ (argument t).2) := by
        rw [List.append_assoc, hclose, List.append_assoc]
    _ = head ++ t := by rw [happend]

theorem pseudoElement_append (t : Text) :
    (pseudoElement t).item.text ++ (pseudoElement t).rest = ':' :: ':' :: t := by
  have happend := identifier_append t
  rw [pseudoElement]
  cases hcut : identifier t with
  | mk name rest =>
    rw [hcut] at happend
    subst happend
    dsimp only
    split
    · rw [withArgument_append ("::".toList ++ name ++ ['(']) _
        (fun inside closed => by simp [Item.text])]
      simp
    · simp [Item.text]

theorem pseudoClass_append (t : Text) :
    (pseudoClass t).item.text ++ (pseudoClass t).rest = ':' :: t := by
  have happend := identifier_append t
  rw [pseudoClass]
  cases hcut : identifier t with
  | mk name rest =>
    rw [hcut] at happend
    subst happend
    dsimp only
    split
    · rw [withArgument_append (':' :: name ++ ['(']) _ (fun inside closed => rfl)]
      simp
    · simp [Item.text, List.takeWhile_append_dropWhile]
    · rw [withArgument_append (':' :: name ++ ['(']) _ (fun inside closed => rfl)]
      simp
    · simp [Item.text]

/-- An item and the rest of the text are the text. -/
theorem lexeme_append (c : Char) (t : Text) :
    (lexeme c t).item.text ++ (lexeme c t).rest = c :: t := by
  unfold lexeme
  split
  · next hc => rw [hc]; rfl
  split
  · exact congrArg (c :: ·) (string_append c t)
  split
  · have happend := bracketed_append '[' ']' none 1 t
    have hrest : ∀ rest : Text, rest.take 1 ++ rest.tail = rest := fun rest => by cases rest <;> rfl
    simp only [Item.text, List.cons_append, List.append_assoc, hrest, happend]
  split
  · cases t <;> rfl
  split
  · have happend := identifier_append t
    dsimp only
    split
    · rfl
    · exact congrArg (c :: ·) happend
  split
  · next hc =>
    rw [hc]
    split
    · exact pseudoElement_append _
    · exact pseudoClass_append _
  · rfl

/-! ## 2. Selectors without names -/

/-- Whether a selector mentions a mode: it holds `:local` or `:global` in any letter case. -/
def mentionsModes (s : Text) : Bool :=
  Text.contains ":local".toList (Text.lower s) || Text.contains ":global".toList (Text.lower s)

/-- Whether a selector mentions a class, an id or a mode. -/
def mentionsNames (s : Text) : Bool :=
  s.any (fun c => c == '.' || c == '#') || mentionsModes s

/-- What a part of a selector mentions, the selector does. -/
theorem mentionsModes_within {t : Text} (u v : Text) (h : mentionsModes t = true) :
    mentionsModes (u ++ (t ++ v)) = true := by
  have hlower : Text.lower (u ++ (t ++ v)) = Text.lower u ++ (Text.lower t ++ Text.lower v) := by
    simp only [Text.lower, List.map_append]
  rw [mentionsModes, Bool.or_eq_true] at h ⊢
  rw [hlower]
  rcases h with h | h
  · exact .inl (Text.contains_within (by simp) _ _ h)
  · exact .inr (Text.contains_within (by simp) _ _ h)

theorem mentionsNames_within {t : Text} (u v : Text) (h : mentionsNames t = true) :
    mentionsNames (u ++ (t ++ v)) = true := by
  rw [mentionsNames, Bool.or_eq_true] at h ⊢
  rcases h with h | h
  · rw [List.any_append, List.any_append, h]
    exact .inl (by simp)
  · exact .inr (mentionsModes_within u v h)

theorem not_mentionsNames_within {u t v : Text} (h : mentionsNames (u ++ (t ++ v)) = false) :
    mentionsNames t = false := by
  cases ht : mentionsNames t with
  | false => rfl
  | true =>
    rw [mentionsNames_within u v ht] at h
    cases h

/-- Whether an item is written as it stands if its inside is. -/
def Item.isCopied : Item → Bool
  | plain _ => true
  | comma => true
  | call _ _ _ => true
  | _ => false

theorem Item.write_of_isCopied {item : Item} (h : item.isCopied = true) (mode : Mode) :
    item.write mode item.inside = item.text := by
  cases item <;> first | rfl | cases h

theorem Item.exists_inside (item : Item) : ∃ u v, item.text = u ++ (item.inside ++ v) := by
  cases item with
  | wrapper mode head inside closed => exact ⟨head, close closed, List.append_assoc _ _ _⟩
  | call head inside closed => exact ⟨head, close closed, List.append_assoc _ _ _⟩
  | _ => exact ⟨[], _, rfl⟩

/-- The name of a mode behind a `:` is a mention. -/
theorem mentionsModes_of_mode {name : Text} {mode : Mode} (h : Mode.ofName? name = some mode)
    (rest : Text) : mentionsModes (':' :: (name ++ rest)) = true := by
  have hlower : Text.lower (':' :: (name ++ rest)) =
      [] ++ (':' :: Text.lower name ++ Text.lower rest) := by
    simp only [Text.lower, List.map_cons, List.map_append, List.nil_append, List.cons_append]
    rfl
  rw [mentionsModes, Bool.or_eq_true, hlower]
  rw [Mode.ofName?] at h
  by_cases hglobal : Text.lower name = "global".toList
  · rw [hglobal]
    exact .inr ((Text.contains_iff (by simp)).mpr ⟨[], Text.lower rest, rfl⟩)
  · rw [if_neg hglobal] at h
    by_cases hlocal : Text.lower name = "local".toList
    · rw [hlocal]
      exact .inl ((Text.contains_iff (by simp)).mpr ⟨[], Text.lower rest, rfl⟩)
    · rw [if_neg hlocal] at h
      cases h

/-- A pseudo-class in a selector without modes asks for none. -/
theorem ofName?_identifier {t : Text} (h : mentionsModes (':' :: t) = false) :
    Mode.ofName? (identifier t).1 = none := by
  cases hname : Mode.ofName? (identifier t).1 with
  | none => rfl
  | some mode =>
    have hmention := mentionsModes_of_mode hname (identifier t).2
    rw [identifier_append, h] at hmention
    cases hmention

theorem pseudoClass_isCopied {t : Text} (h : mentionsNames (':' :: t) = false) :
    (pseudoClass t).item.isCopied = true := by
  have hmode : Mode.ofName? (identifier t).1 = none := by
    rw [mentionsNames, Bool.or_eq_false_iff] at h
    exact ofName?_identifier h.2
  rw [pseudoClass]
  dsimp only
  rw [hmode]
  split
  · next heq _ => cases heq
  · next heq _ => cases heq
  · rfl
  · rfl

theorem lexeme_isCopied {c : Char} {t : Text} (h : mentionsNames (c :: t) = false) :
    (lexeme c t).item.isCopied = true := by
  unfold lexeme
  split
  · rfl
  split
  · rfl
  split
  · rfl
  split
  · rfl
  split
  · next hc =>
    rw [mentionsNames, List.any_cons] at h
    have hc' : (c == '.' || c == '#') = true := by simpa using hc
    rw [hc'] at h
    cases h
  split
  · next hc =>
    split
    · rw [pseudoElement]
      dsimp only
      split
      · rfl
      · rfl
    · exact pseudoClass_isCopied (hc ▸ h)
  · rfl

/-- **A selector that mentions no names is left alone by marking.** -/
theorem localize_of_not_mentions (start mode : Mode) (s : Text) (h : mentionsNames s = false) :
    localize start mode s = s := by
  match s with
  | [] => rw [localize]
  | c :: t =>
    have happend := lexeme_append c t
    have hlength := lexeme_length c t
    obtain ⟨u, v, htext⟩ := (lexeme c t).item.exists_inside
    rw [localize_cons, localize_of_not_mentions _ _ (lexeme c t).item.inside,
      localize_of_not_mentions _ _ (lexeme c t).rest, Item.write_of_isCopied (lexeme_isCopied h),
      happend]
    · rw [← happend] at h
      exact not_mentionsNames_within (v := []) (by rwa [List.append_nil])
    · rw [← happend, htext, List.append_assoc, List.append_assoc] at h
      exact not_mentionsNames_within h
termination_by s.length

end Selector

namespace LocalMark

/-- A text without marks is not scoped. -/
theorem substitute_of_unmarked {generate : Text → Text} {t : Text}
    (h : Text.contains ":local(".toList t = false) : substitute generate t = t := by
  induction t with
  | nil => exact substitute_nil
  | cons c t ih =>
    have hfirst : ":local(".toList.isPrefixOf? (c :: t) = none := by
      cases hp : ":local(".toList.isPrefixOf? (c :: t) with
      | none => rfl
      | some rest =>
        rw [(Text.contains_iff (by simp)).mpr ⟨[], rest, (Text.append_of_isPrefixOf? hp).symm⟩] at h
        cases h
    have hrest : Text.contains ":local(".toList t = false := by
      rw [Text.contains, Text.cutOn, hfirst, Option.isSome_map] at h
      exact h
    rw [substitute_cons hfirst, ih hrest]

/-- A selector with a mark mentions a mode. -/
theorem mentionsNames_of_mark {t : Text} (h : Text.contains ":local(".toList t = true) :
    Selector.mentionsNames t = true := by
  obtain ⟨u, v, rfl⟩ := (Text.contains_iff (by simp)).mp h
  exact Selector.mentionsNames_within u v (by decide)

end LocalMark

end StyleModules
