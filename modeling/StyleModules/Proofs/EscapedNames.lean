import Mathlib.Data.List.Infix
import StyleModules.Proofs.RestyledSheet

/-!
Classes whose names have escapes in them.

Marking reads an escaped character as part of the name it stands in, whatever it is. The parenthesis
that closes a mark is looked for in another way: every parenthesis counts, an escaped one too. So a
name comes out of its mark whole exactly if its escaped parentheses match.

* `LocalMark.cutClose_append`: a text that closes no more parentheses than are open is passed over on
  the way to the closing one.
* `LocalMark.exists_stray`: in any other text there is a first parenthesis that closes too much.
* `ScopedNames.run_escaped`: what becomes of a rule for one class, by the parentheses in its name.
  `ScopedNames.run_escaped_close` is a rule that goes wrong.
-/

namespace StyleModules

namespace LocalMark

/-! ## 1. Parentheses -/

/-- Whether a text closes no more parentheses than are open, `depth` of them in front of it. -/
def StaysOpen (depth : Nat) (t : Text) : Prop :=
  ∀ front, front <+: t → front.count ')' ≤ depth + front.count '('

/-- Whether the parentheses of a text match, be they escaped or not. -/
def Matched (t : Text) : Prop :=
  StaysOpen 0 t ∧ t.count '(' = t.count ')'

instance (depth : Nat) (t : Text) : Decidable (StaysOpen depth t) :=
  decidable_of_iff (∀ front ∈ t.inits, front.count ')' ≤ depth + front.count '(')
    (by simp only [List.mem_inits, StaysOpen])

instance (t : Text) : Decidable (Matched t) :=
  inferInstanceAs (Decidable (_ ∧ _))

/-- The number of open parentheses behind a character. -/
def depthAfter (depth : Nat) (c : Char) : Nat :=
  if c = '(' then depth + 1 else if c = ')' then depth - 1 else depth

/-- A character changes the number of open parentheses as the counts say. -/
theorem depthAfter_add {depth : Nat} {c : Char} (h : c = ')' → 0 < depth) (t : Text) :
    depthAfter depth c + t.count '(' + (c :: t).count ')' =
      depth + (c :: t).count '(' + t.count ')' := by
  unfold depthAfter
  by_cases hopen : c = '('
  · subst hopen
    simp
    omega
  · by_cases hclose : c = ')'
    · have hpos := h hclose
      subst hclose
      simp
      omega
    · simp [hopen, hclose]

theorem staysOpen_cons {depth : Nat} {c : Char} {t : Text} :
    StaysOpen depth (c :: t) ↔ (c = ')' → 0 < depth) ∧ StaysOpen (depthAfter depth c) t := by
  constructor
  · intro h
    have hpos : c = ')' → 0 < depth := by
      rintro rfl
      have hone := h [')'] (List.prefix_append [')'] t)
      simp at hone
      omega
    refine ⟨hpos, fun front hfront => ?_⟩
    have hcount := h (c :: front) (List.cons_prefix_cons.mpr ⟨rfl, hfront⟩)
    have hadd := depthAfter_add hpos front
    omega
  · intro ⟨hpos, ht⟩ front hfront
    cases front with
    | nil => simp
    | cons d front =>
      obtain ⟨rfl, htail⟩ := List.cons_prefix_cons.mp hfront
      have hcount := ht front htail
      have hadd := depthAfter_add hpos front
      omega

theorem cutClose_cons {depth : Nat} {c : Char} (h : c = ')' → 0 < depth) (t : Text) :
    cutClose depth (c :: t) =
      (cutClose (depthAfter depth c) t).map fun cut => (c :: cut.1, cut.2) := by
  rw [cutClose]
  · rfl
  · rintro rfl rfl
    exact absurd (h rfl) (by decide)

/-- What stays open is passed over on the way to the closing parenthesis. -/
theorem cutClose_append {depth : Nat} {t : Text} (h : StaysOpen depth t) (rest : Text) :
    cutClose depth (t ++ rest) =
      (cutClose (depth + t.count '(' - t.count ')') rest).map fun cut => (t ++ cut.1, cut.2) := by
  induction t generalizing depth with
  | nil => simp
  | cons c t ih =>
    obtain ⟨hpos, ht⟩ := staysOpen_cons.mp h
    have hdepth : depthAfter depth c + t.count '(' - t.count ')' =
        depth + (c :: t).count '(' - (c :: t).count ')' := by
      have hadd := depthAfter_add hpos t
      omega
    rw [List.cons_append, cutClose_cons hpos, ih ht, hdepth, Option.map_map]
    rfl

/-- What does not stay open has a first parenthesis that closes too much. -/
theorem exists_stray {depth : Nat} {t : Text} (h : ¬StaysOpen depth t) :
    ∃ a b, t = a ++ ')' :: b ∧ StaysOpen depth a ∧ depth + a.count '(' = a.count ')' := by
  induction t generalizing depth with
  | nil =>
    refine absurd (fun front hfront => ?_) h
    simp [List.prefix_nil.mp hfront]
  | cons c t ih =>
    by_cases hpos : c = ')' → 0 < depth
    · have ht : ¬StaysOpen (depthAfter depth c) t := fun ht => h (staysOpen_cons.mpr ⟨hpos, ht⟩)
      obtain ⟨a, b, rfl, ha, hcount⟩ := ih ht
      refine ⟨c :: a, b, rfl, staysOpen_cons.mpr ⟨hpos, ha⟩, ?_⟩
      have hadd := depthAfter_add hpos a
      omega
    · obtain ⟨rfl, hzero⟩ := Classical.not_imp.mp hpos
      refine ⟨[], t, rfl, fun front hfront => ?_, ?_⟩
      · simp [List.prefix_nil.mp hfront]
      · simp
        omega

/-- The parentheses of a text match, or one of them closes too much, or one stays open. -/
theorem matched_cases (t : Text) : Matched t ∨ (∃ a rest, t = a ++ ')' :: rest ∧ Matched a) ∨
    StaysOpen 0 t ∧ t.count ')' < t.count '(' := by
  by_cases hopen : StaysOpen 0 t
  · have hle := hopen t List.prefix_rfl
    by_cases hcount : t.count '(' = t.count ')'
    · exact .inl ⟨hopen, hcount⟩
    · exact .inr (.inr ⟨hopen, by omega⟩)
  · obtain ⟨a, rest, hcut, ha, hcount⟩ := exists_stray hopen
    exact .inr (.inl ⟨a, rest, hcut, ha, by omega⟩)

/-! ## 2. Names in marks -/

/-- A mark ends where its parentheses match. -/
theorem cutClose_of_matched {t : Text} (h : Matched t) (rest : Text) :
    cutClose 0 (t ++ ')' :: rest) = some (t, rest) := by
  have hzero : 0 + t.count '(' - t.count ')' = 0 := by
    have hcount := h.2
    omega
  rw [cutClose_append h.1, hzero, cutClose, Option.map_some, List.append_nil]

/-- A mark in which a parenthesis stays open does not end. -/
theorem cutClose_of_open {t : Text} (h : StaysOpen 0 t) (hcount : t.count ')' < t.count '(') :
    cutClose 0 (t ++ [')']) = none := by
  have hpos : ')' = ')' → 0 < 0 + t.count '(' - t.count ')' := by omega
  rw [cutClose_append h, cutClose_cons hpos, cutClose]
  rfl

/-- A mark that does not end is copied. -/
theorem parts_of_not_closed {t rest : Text} (h : ":local(".toList.isPrefixOf? t = some rest)
    (hclose : cutClose 0 rest = none) : parts t = [.copied t] := by
  cases t with
  | nil => cases h
  | cons c t =>
    rw [parts]
    split
    · next h' => rw [h] at h'; cases h'
    · next r h' =>
      rw [h] at h'
      obtain rfl := Option.some.inj h'
      split
      · rfl
      · next h'' => rw [hclose] at h''; cases h''

end LocalMark

namespace Selector

/-- A character that is part of a name only by an escape has a backslash in front of it. -/
theorem exists_escape {a b : Text} {c : Char} (hc : Text.isIdentChar c = false) (hne : c ≠ '\\')
    (h : isEscaped (a ++ c :: b)) : ∃ a', a = a' ++ ['\\'] ∧ isEscaped a' ∧ isEscaped b := by
  fun_induction isEscaped a with
  | case1 =>
    rw [List.nil_append, isEscaped, hc] at h
    · cases h
    · exact fun e _ => hne e
    · exact fun _ _ e _ => hne e
  | case2 => exact ⟨[], rfl, rfl, h⟩
  | case3 d a ih =>
    obtain ⟨a', rfl, ha', hb⟩ := ih h
    exact ⟨'\\' :: d :: a', rfl, ha', hb⟩
  | case4 d a hlast hmore ih =>
    have hd := ne_backslash hlast hmore
    rw [List.cons_append, isEscaped, Bool.and_eq_true] at h
    · obtain ⟨a', rfl, ha', hb⟩ := ih h.2
      refine ⟨d :: a', rfl, ?_, hb⟩
      rw [isEscaped, h.1, ha']
      · rfl
      · exact fun e _ => hd e
      · exact fun _ _ e _ => hd e
    · exact fun e _ => hd e
    · exact fun _ _ e _ => hd e

theorem identifier_of_escaped {t : Text} (h : isEscaped t) : identifier t = (t, []) := by
  have hnil : identifier (t ++ []) = (t, []) := identifier_of_isEscaped h rfl
  rwa [List.append_nil] at hnil

/-- A name may end in a backslash. -/
theorem identifier_of_backslash {t : Text} (h : isEscaped t) :
    identifier (t ++ ['\\']) = (t ++ ['\\'], []) := by
  fun_induction isEscaped t with
  | case1 => rfl
  | case2 => cases h
  | case3 c t ih =>
    show push '\\' (push c (identifier (t ++ ['\\']))) = _
    rw [ih h]
    rfl
  | case4 c t hlast hmore ih =>
    have hc := ne_backslash hlast hmore
    simp only [Bool.and_eq_true] at h
    rw [List.cons_append, identifier, if_pos h.1, ih h.2]
    · rfl
    · exact fun e _ => hc e
    · exact fun _ _ e _ => hc e

/-- A class is marked with its escapes. -/
theorem markLocal_escaped {x : Text} (hx : isEscaped x) (hne : x ≠ []) :
    markLocal ('.' :: x) = marked '.' x := by
  have hempty : x.isEmpty = false := List.isEmpty_eq_false_iff.mpr hne
  have hlexeme : lexeme '.' x = ⟨.name '.' x, []⟩ := by
    show (if (identifier x).1.isEmpty then (⟨.plain ['.'], x⟩ : Cut)
      else ⟨.name '.' (identifier x).1, (identifier x).2⟩) = _
    rw [identifier_of_escaped hx, hempty]
    rfl
  rw [markLocal, localize_cons, hlexeme]
  simp only [localize, List.append_nil]
  rfl

end Selector

/-! ## 3. A rule for one class -/

namespace LocalMark

open Selector

theorem staysOpen_class {x : Text} (h : StaysOpen 0 x) : StaysOpen 0 ('.' :: x) :=
  staysOpen_cons.mpr ⟨fun e => absurd e (by decide), h⟩

theorem matched_class {x : Text} (h : Matched x) : Matched ('.' :: x) := by
  refine ⟨staysOpen_class h.1, ?_⟩
  have hcount := h.2
  simpa using hcount

theorem marked_class (x : Text) : marked '.' x = ":local(".toList ++ ('.' :: x ++ [')']) :=
  rfl

/-- A name whose parentheses match is the name in its mark. -/
theorem parts_of_matched {x : Text} (hx : isEscaped x) (hne : x ≠ []) (h : Matched x) :
    parts (marked '.' x) = [.copied ['.'], .name x] := by
  have hclose := cutClose_of_matched (matched_class h) []
  rw [marked_class, parts_of_cutClose (.inl rfl) hclose (identifier_of_escaped hx) hne, parts]

/-- A name that closes too much is cut there, and the rest of it is copied. -/
theorem parts_of_stray {a b : Text} (hx : isEscaped (a ++ ')' :: b)) (ha : Matched a) :
    parts (marked '.' (a ++ ')' :: b)) =
      .copied ['.'] :: .name a :: (b ++ [')']).map fun c => .copied [c] := by
  obtain ⟨a', rfl, ha', hb⟩ := exists_escape (by decide) (by decide) hx
  have hclose := cutClose_of_matched (matched_class ha) (b ++ [')'])
  have htext : marked '.' (a' ++ ['\\'] ++ ')' :: b) =
      ":local(".toList ++ ('.' :: (a' ++ ['\\']) ++ ')' :: (b ++ [')'])) := by
    rw [marked_class]
    simp only [List.cons_append, List.append_assoc]
  have hloose : Loose [')'] := .cons (by decide) fun _ => .nil
  rw [htext, parts_of_cutClose (.inl rfl) hclose (identifier_of_backslash ha') (by simp),
    parts_escaped hb hloose, parts_of_not_mark (fun h => absurd h (by decide)), parts,
    List.map_append]
  rfl

/-- A name that leaves a parenthesis open leaves its mark open. -/
theorem parts_of_open {x : Text} (h : StaysOpen 0 x) (hcount : x.count ')' < x.count '(') :
    parts (marked '.' x) = [.copied (marked '.' x)] := by
  have hcount' : ('.' :: x).count ')' < ('.' :: x).count '(' := by simpa using hcount
  refine parts_of_not_closed (Text.isPrefixOf?_append _ _) ?_
  exact cutClose_of_open (staysOpen_class h) hcount'

end LocalMark

namespace ScopedNames

open LocalMark Selector

section OneClass

variable (generate : Text → Text → Text) {x : Text} (hx : isEscaped x) (hne : x ≠ [])
  (sheet : Stylesheet) {l : Layout} {b : Bool} (hsheet : sheet.nodes = [.rule ('.' :: x) l b []])

/-- The text that a generator sees of a rule for one class. -/
def classText (x : Text) (l : Layout) (b : Bool) : Text :=
  (⟨generate, sheet.input, []⟩ : Context).textOf (.rule (marked '.' x) l b [])

/-- A sheet whose only rule has got a selector, with a block for what it exports. -/
def scopedClass (l : Layout) (b : Bool) (selector : Text) (symbols : List (Text × Text)) :
    Stylesheet :=
  { sheet with nodes := [.rule selector l b [], Interface.exportBlock symbols] }

/-- The block tells which name is exported. -/
theorem name_of_scopedClass {selector selector' name name' value value' : Text}
    (h : scopedClass sheet l b selector [(name, value)] =
      scopedClass sheet l b selector' [(name', value')]) : name = name' := by
  have hpairs : ∀ sel p, (scopedClass sheet l b sel [p]).nodes.flatMap
      (fun n => Interface.pairs n.children) = [p] := fun _ _ => rfl
  have hsame := congrArg (fun out => out.nodes.flatMap fun n => Interface.pairs n.children) h
  rw [hpairs, hpairs] at hsame
  exact (Prod.mk.inj (List.cons.inj hsame).1).1

include hx hne hsheet

/-- Marking a rule for one class. -/
theorem marked_of_class : LocalNames.run sheet =
    { sheet with nodes := [.rule (marked '.' x) l b []] } := by
  have hselector : LocalNames.selector [] ('.' :: x) = marked '.' x := by
    rw [← markLocal_escaped hx hne]
    rfl
  rw [LocalNames.run, Stylesheet.mapSelectors, hsheet, ← hselector]
  rfl

/-- Scoping the rule, by the parts of its mark. -/
theorem run_of_parts {ps : List Part} (hparts : parts (marked '.' x) = ps) :
    let text := classText generate sheet x l b
    let full := { sheet with nodes :=
      [.rule (ps.flatMap (Part.write (generate · text))) l b []] }
    let exports := ((ps.filterMap Part.name?).foldl
      (enter ⟨generate, sheet.input, []⟩ text) ⟨.empty, []⟩).exports
    run generate (LocalNames.run sheet) =
      .ok (if exports.isEmpty then full else full.append (exportBlock exports)) := by
  intro text full exports
  subst hparts
  rw [marked_of_class hx hne sheet hsheet]
  have hnode : scopeNode ⟨generate, sheet.input, []⟩ sheet.input (.rule (marked '.' x) l b [])
      ⟨.empty, []⟩ = .ok (.rule (substitute (generate · text) (marked '.' x)) l b [])
        ((names (marked '.' x)).foldl (enter ⟨generate, sheet.input, []⟩ text) ⟨.empty, []⟩) :=
    scopeNode_rule rfl rfl rfl
  exact run_of_scopeNodes (scopeNodes_cons rfl hnode rfl)

/-- A rule whose mark gives one name exports it. -/
theorem run_of_name {ps : List Part} (hparts : parts (marked '.' x) = ps) {name : Text}
    (hname : ps.filterMap Part.name? = [name]) :
    let text := classText generate sheet x l b
    run generate (LocalNames.run sheet) = .ok (scopedClass sheet l b
      (ps.flatMap (Part.write (generate · text))) [(name, generate name text)]) := by
  intro text
  have hblock : exportBlock ⟨[(name, [generate name text])]⟩ =
      Interface.exportBlock [(name, generate name text)] := by
    rw [exportBlock, List.map_cons, Text.join_singleton]
    rfl
  rw [run_of_parts generate hx hne sheet hsheet hparts, hname, scopedClass, ← hblock]
  rfl

theorem run_of_matched (h : Matched x) :
    run generate (LocalNames.run sheet) = .ok (scopedClass sheet l b
      ('.' :: generate x (classText generate sheet x l b))
      [(x, generate x (classText generate sheet x l b))]) := by
  rw [run_of_name generate hx hne sheet hsheet (parts_of_matched hx hne h) rfl]
  simp only [List.flatMap_cons, List.flatMap_nil, Part.write, List.append_nil, List.singleton_append]

theorem run_of_stray {a rest : Text} (hcut : x = a ++ ')' :: rest) (ha : Matched a) :
    run generate (LocalNames.run sheet) = .ok (scopedClass sheet l b
      ('.' :: (generate a (classText generate sheet x l b) ++ rest ++ [')']))
      [(a, generate a (classText generate sheet x l b))]) := by
  have hparts := parts_of_stray (hcut ▸ hx) ha
  rw [← hcut] at hparts
  have hname := congrArg (a :: ·) (filterMap_copied (rest ++ [')']))
  rw [run_of_name generate hx hne sheet hsheet hparts hname, List.flatMap_cons, List.flatMap_cons,
    flatMap_copied]
  simp only [Part.write, List.singleton_append, List.append_assoc]

theorem run_of_open (h : StaysOpen 0 x) (hcount : x.count ')' < x.count '(') :
    run generate (LocalNames.run sheet) =
      .ok { sheet with nodes := [.rule (marked '.' x) l b []] } := by
  rw [run_of_parts generate hx hne sheet hsheet (parts_of_open h hcount)]
  simp only [List.flatMap_cons, List.flatMap_nil, Part.write, List.append_nil]
  rfl

end OneClass

/-- **A rule for one class whose name has escapes**, marked and then scoped. The class gets the name
    of the generator and is exported under its own exactly if the parentheses in its name match. If
    one of them closes too much, the name is cut there: what stands in front of it is scoped and
    exported, and what follows is copied with the end of the mark. If one of them stays open, the
    mark stays as it is and nothing is exported. -/
theorem run_escaped (generate : Text → Text → Text) {x : Text} (hx : isEscaped x) (hne : x ≠ [])
    (sheet : Stylesheet) {l : Layout} {b : Bool}
    (hsheet : sheet.nodes = [.rule ('.' :: x) l b []]) :
    let text := classText generate sheet x l b
    (run generate (LocalNames.run sheet) =
      .ok (scopedClass sheet l b ('.' :: generate x text) [(x, generate x text)]) ↔ Matched x) ∧
    (¬Matched x →
      (∃ a rest, x = a ++ ')' :: rest ∧ Matched a ∧ run generate (LocalNames.run sheet) =
        .ok (scopedClass sheet l b ('.' :: (generate a text ++ rest ++ [')']))
          [(a, generate a text)])) ∨
      (StaysOpen 0 x ∧ x.count ')' < x.count '(' ∧ run generate (LocalNames.run sheet) =
        .ok { sheet with nodes := [.rule (marked '.' x) l b []] })) := by
  intro text
  have hwhole := run_of_matched generate hx hne sheet hsheet
  rcases matched_cases x with hmatched | ⟨a, rest, hcut, ha⟩ | ⟨hopen, hcount⟩
  · exact ⟨iff_of_true (hwhole hmatched) hmatched, fun hnot => absurd hmatched hnot⟩
  · have hrun := run_of_stray generate hx hne sheet hsheet hcut ha
    have hother : run generate (LocalNames.run sheet) ≠
        .ok (scopedClass sheet l b ('.' :: generate x text) [(x, generate x text)]) := by
      intro heq
      have hname : a = x := name_of_scopedClass sheet (Except.ok.inj (hrun.symm.trans heq))
      rw [hcut] at hname
      simp at hname
    exact ⟨iff_of_false hother fun h => hother (hwhole h), fun _ => .inl ⟨a, rest, hcut, ha, hrun⟩⟩
  · have hrun := run_of_open generate hx hne sheet hsheet hopen hcount
    have hother : run generate (LocalNames.run sheet) ≠
        .ok (scopedClass sheet l b ('.' :: generate x text) [(x, generate x text)]) := by
      intro heq
      rw [hrun] at heq
      simp [scopedClass] at heq
    exact ⟨iff_of_false hother fun h => hother (hwhole h), fun _ => .inr ⟨hopen, hcount, hrun⟩⟩

/-- A sheet with one rule for a class whose name escapes a colon, a slash and a pair of
    parentheses. -/
def escapedPage : Stylesheet where
  nodes := [.rule ".md\\:w-1\\/2\\(\\)".toList ⟨[], " ".toList, [], none⟩ false []]
  after := []
  semicolon := false
  input := []

theorem run_escaped_page :
    let x := "md\\:w-1\\/2\\(\\)".toList
    isEscaped x ∧ x ≠ [] ∧ Matched x ∧
      run (fun name _ => '_' :: name) (LocalNames.run escapedPage) =
        .ok (scopedClass escapedPage ⟨[], " ".toList, [], none⟩ false ('.' :: '_' :: x)
          [(x, '_' :: x)]) := by
  intro x
  have hmatched : Matched x := by decide
  exact ⟨by decide, by decide, hmatched,
    (run_escaped (fun name _ => '_' :: name) (by decide) (by decide) escapedPage rfl).1.mpr
      hmatched⟩

/-- An escaped parenthesis ends a mark: the class `a\)b` is written and exported as `a\`, with the
    rest of its name and the end of the mark left behind it. -/
theorem run_escaped_close :
    let x := "a\\)b".toList
    isEscaped x ∧ x ≠ [] ∧ ¬Matched x ∧
      ((Stylesheet.parse ('.' :: x ++ " \x7b\x7d".toList)).toOption.bind fun sheet =>
        (run (fun name _ => '_' :: name) (LocalNames.run sheet)).toOption.map Stylesheet.print) =
      some "._a\\b) \x7b\x7d\n:export \x7b\n  a\\: _a\\;\n\x7d".toList := by
  refine ⟨by decide, by decide, by decide, ?_⟩
  decide +kernel

end ScopedNames

end StyleModules
