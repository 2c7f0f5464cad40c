import StyleModules.Pass.ScopedNames
import StyleModules.Proofs.SelectorGrammar
import StyleModules.Proofs.Splitting

/-!
Scoping a selector list: what becomes of the local names of a list that is marked and then scoped.

* `LocalMark.substitute` is the text that the parts of a marked text make; the marks are found again
  by looking for `:local(` alone (`substitute_mark`).
* Nothing else in a marked list looks like a mark. What follows a colon is `Loose`: its leading name
  has no parenthesis behind it.
* `ScopedNames.scopeText_markLocal`: marking and scoping write each name that stands in local mode
  as the generator wants it, and leave the rest of the list as modes demand.
-/

namespace StyleModules

namespace LocalMark

/-! ## 1. Parts of a text -/

/-- A part as it is written, names by a generator. -/
def Part.write (generate : Text → Text) : Part → Text
  | copied t => t
  | name n => generate n

/-- The name that a part is, if it is one. -/
def Part.name? : Part → Option Text
  | name n => some n
  | copied _ => none

theorem names_eq (t : Text) : names t = (parts t).filterMap Part.name? :=
  rfl

/-- A text with names of the generator for the names that it marks. -/
def substitute (generate : Text → Text) (t : Text) : Text :=
  (parts t).flatMap (Part.write generate)

variable {generate : Text → Text}

/-- Characters that are copied one by one are written as they stand. -/
theorem flatMap_copied (t : Text) :
    (t.map fun c => Part.copied [c]).flatMap (Part.write generate) = t := by
  rw [List.flatMap_map]
  exact List.flatMap_singleton' t

theorem filterMap_copied (t : Text) :
    (t.map fun c => Part.copied [c]).filterMap Part.name? = [] := by
  rw [List.filterMap_map]
  exact List.filterMap_eq_nil_iff.mpr fun _ _ => rfl

theorem substitute_nil : substitute generate [] = [] := by
  rw [substitute, parts]
  rfl

/-- A character that begins no mark is copied. -/
theorem parts_cons {c : Char} {t : Text} (h : ":local(".toList.isPrefixOf? (c :: t) = none) :
    parts (c :: t) = .copied [c] :: parts t := by
  rw [parts]
  split
  · rfl
  · next h' => rw [h] at h'; cases h'

theorem substitute_cons {c : Char} {t : Text} (h : ":local(".toList.isPrefixOf? (c :: t) = none) :
    substitute generate (c :: t) = c :: substitute generate t := by
  rw [substitute, parts_cons h]
  rfl

theorem cutClose_of_forall {t : Text} (h : ∀ c ∈ t, c ≠ '(' ∧ c ≠ ')') (rest : Text) :
    cutClose 0 (t ++ ')' :: rest) = some (t, rest) := by
  induction t with
  | nil => rfl
  | cons c t ih =>
    obtain ⟨ho, hc⟩ := h c List.mem_cons_self
    rw [List.cons_append, cutClose, if_neg ho, if_neg hc,
      ih fun d hd => h d (List.mem_cons_of_mem c hd)]
    · rfl
    · intro _ e; exact absurd e hc

/-- A mark that is closed gives the parts of what it holds. -/
theorem parts_of_opening {t rest a b : Text} (h : ":local(".toList.isPrefixOf? t = some rest)
    (hclose : cutClose 0 rest = some (a, b)) : parts t = inside a ++ parts b := by
  cases t with
  | nil => cases h
  | cons c t =>
    rw [parts]
    split
    · next h' => rw [h] at h'; cases h'
    · next r h' =>
      rw [h] at h'
      obtain rfl := Option.some.inj h'
      split
      · next h'' => rw [hclose] at h''; cases h''
      · next h'' =>
        rw [hclose] at h''
        obtain ⟨rfl, rfl⟩ := Prod.mk.inj (Option.some.inj h'')
        rfl

/-- The parts of one class or id. -/
theorem inside_name {mark : Char} (hm : mark = '.' ∨ mark = '#') {t : Text}
    (hid : Selector.identifier t = (t, [])) (hne : t ≠ []) :
    inside (mark :: t) = [.copied [mark], .name t] := by
  have hnames : namesIn (mark :: t) = [.copied [mark], .name t] := by
    have hempty : t.isEmpty = false := List.isEmpty_eq_false_iff.mpr hne
    rw [namesIn, if_pos (by rcases hm with rfl | rfl <;> rfl)]
    simp only [hid, hempty, namesIn]
    rfl
  -- trimmed or not, the text begins with its mark, so it is no name
  have htrim : Text.trim (mark :: t) = mark :: Text.trimEnd t :=
    Text.trim_cons (by rcases hm with rfl | rfl <;> rfl) t
  have hnot : ∀ u, Selector.isIdentifier (mark :: u) = false := by
    rcases hm with rfl | rfl <;> exact fun u => rfl
  rw [inside, htrim]
  simp only [hnot, hnames]
  rfl

/-- A mark that is closed behind one class or id gives its name. -/
theorem parts_of_cutClose {mark : Char} (hm : mark = '.' ∨ mark = '#') {t name rest : Text}
    (hclose : cutClose 0 t = some (mark :: name, rest))
    (hid : Selector.identifier name = (name, [])) (hne : name ≠ []) :
    parts (":local(".toList ++ t) = .copied [mark] :: .name name :: parts rest := by
  rw [parts_of_opening (Text.isPrefixOf?_append _ _) hclose, inside_name hm hid hne]
  rfl

/-- A mark that holds one class or id gives its name. -/
theorem parts_mark {mark : Char} (hm : mark = '.' ∨ mark = '#') {t : Text}
    (ht : Selector.isName t) (rest : Text) :
    parts (Selector.marked mark t ++ rest) = .copied [mark] :: .name t :: parts rest := by
  have happend : ∀ p : Text, p ++ mark :: (t ++ [')']) ++ rest = p ++ (mark :: t ++ ')' :: rest) :=
    fun p => by simp
  have htext : Selector.marked mark t ++ rest = ":local(".toList ++ (mark :: t ++ ')' :: rest) :=
    happend _
  have hclose : cutClose 0 (mark :: t ++ ')' :: rest) = some (mark :: t, rest) := by
    refine cutClose_of_forall (fun c hc => ?_) rest
    rcases List.mem_cons.mp hc with rfl | hc
    · rcases hm with rfl | rfl <;> decide
    · have hident := (Selector.isName_iff.mp ht).2 c hc
      constructor <;> rintro rfl <;> cases hident
  have hid : Selector.identifier t = (t, []) := by
    have hnil : Selector.identifier (t ++ []) = (t, []) := Selector.identifier_of_isName ht rfl
    rwa [List.append_nil] at hnil
  rw [htext, parts_of_cutClose hm hclose hid (Selector.isName_iff.mp ht).1]

theorem substitute_mark {mark : Char} (hm : mark = '.' ∨ mark = '#') {t : Text}
    (ht : Selector.isName t) (rest : Text) :
    substitute generate (Selector.marked mark t ++ rest) =
      mark :: generate t ++ substitute generate rest := by
  rw [substitute, parts_mark hm ht]
  simp [Part.write, substitute]

/-! ## 2. What is no mark -/

/-- A text whose leading name, if any, has no parenthesis behind it. -/
def Loose (t : Text) : Prop :=
  (t.dropWhile Text.isIdentChar).head? ≠ some '('

theorem Loose.nil : Loose [] := by
  simp [Loose]

theorem Loose.cons {c : Char} (hc : c ≠ '(') {t : Text} (ht : Text.isIdentChar c → Loose t) :
    Loose (c :: t) := by
  unfold Loose
  by_cases h : Text.isIdentChar c
  · rw [List.dropWhile_cons_of_pos h]
    exact ht h
  · rw [List.dropWhile_cons_of_neg h, List.head?_cons]
    exact fun e => hc (Option.some.inj e)

theorem Loose.append_escaped {t rest : Text} (ht : Selector.isEscaped t) (hr : Loose rest) :
    Loose (t ++ rest) := by
  fun_induction Selector.isEscaped t with
  | case1 => exact hr
  | case2 => cases ht
  | case3 c t _ => exact .cons (by decide) fun h => absurd h (by decide)
  | case4 c t _ _ ih =>
    simp only [Bool.and_eq_true] at ht
    refine .cons ?_ fun _ => ih ht.2
    rintro rfl
    cases ht.1

/-- What is loose does not make a mark of the colon in front of it. -/
theorem Loose.not_mark {t : Text} (h : Loose t) : "local(".toList.isPrefixOf? t = none := by
  cases hp : "local(".toList.isPrefixOf? t with
  | none => rfl
  | some rest =>
    have ht := Text.append_of_isPrefixOf? hp
    have hdrop : t.dropWhile Text.isIdentChar = '(' :: rest := by
      rw [← ht]
      rfl
    exact absurd (by rw [hdrop]; rfl) h

theorem parts_of_not_mark {c : Char} {t : Text}
    (h : c = ':' → "local(".toList.isPrefixOf? t = none) :
    parts (c :: t) = .copied [c] :: parts t := by
  refine parts_cons ?_
  show (if ':' == c then "local(".toList.isPrefixOf? t else none) = none
  split
  · next hc => exact h (eq_of_beq hc).symm
  · rfl

theorem substitute_of_not_mark {c : Char} {t : Text}
    (h : c = ':' → "local(".toList.isPrefixOf? t = none) :
    substitute generate (c :: t) = c :: substitute generate t := by
  rw [substitute, parts_of_not_mark h]
  rfl

theorem substitute_of_loose {c : Char} {t : Text} (h : c = ':' → Loose t) :
    substitute generate (c :: t) = c :: substitute generate t :=
  substitute_of_not_mark fun hc => (h hc).not_mark

/-- A name is copied, escapes and all. -/
theorem parts_escaped {t rest : Text} (ht : Selector.isEscaped t) (hr : Loose rest) :
    parts (t ++ rest) = t.map (fun c => .copied [c]) ++ parts rest := by
  fun_induction Selector.isEscaped t with
  | case1 => rfl
  | case2 => cases ht
  | case3 c t ih =>
    have hloose := Loose.append_escaped ht hr
    rw [List.cons_append, List.cons_append, parts_of_not_mark (fun h => absurd h (by decide)),
      parts_of_not_mark fun _ => hloose.not_mark, ih ht]
    rfl
  | case4 c t _ _ ih =>
    simp only [Bool.and_eq_true] at ht
    rw [List.cons_append, parts_of_not_mark (by rintro rfl; cases ht.1), ih ht.2]
    rfl

theorem substitute_escaped {t rest : Text} (ht : Selector.isEscaped t) (hr : Loose rest) :
    substitute generate (t ++ rest) = t ++ substitute generate rest := by
  rw [substitute, parts_escaped ht hr, List.flatMap_append, flatMap_copied]
  rfl

/-- A name has no colon in it. -/
theorem substitute_name {t : Text} (ht : Selector.isName t) (rest : Text) :
    substitute generate (t ++ rest) = t ++ substitute generate rest := by
  have hall := (Selector.isName_iff.mp ht).2
  clear ht
  induction t with
  | nil => rfl
  | cons c t ih =>
    have hc := hall c List.mem_cons_self
    rw [List.cons_append, substitute_of_loose (by rintro rfl; cases hc),
      ih fun d hd => hall d (List.mem_cons_of_mem c hd)]
    rfl

/-- A pattern that reaches over a character would have to hold it. -/
theorem isPrefixOf?_append_cons {pattern t rest : Text} {d : Char} (hd : d ∉ pattern)
    (h : pattern.isPrefixOf? t = none) : pattern.isPrefixOf? (t ++ d :: rest) = none := by
  induction pattern generalizing t with
  | nil => cases h
  | cons c p ih =>
    cases t with
    | nil =>
      have hne : (c == d) = false := by
        simp only [beq_eq_false_iff_ne]
        rintro rfl
        exact hd List.mem_cons_self
      rw [List.nil_append, Text.isPrefixOf?_cons, hne]
      rfl
    | cons e t =>
      rw [Text.isPrefixOf?_cons] at h
      rw [List.cons_append, Text.isPrefixOf?_cons]
      split
      · next he =>
        rw [if_pos he] at h
        exact ih (fun hm => hd (List.mem_cons_of_mem c hm)) h
      · rfl

/-- What holds no mark, up to a character that no mark holds. -/
theorem substitute_of_not_contains {t : Text} (h : Text.contains ":local(".toList t = false)
    (rest : Text) :
    substitute generate (t ++ ']' :: rest) = t ++ substitute generate (']' :: rest) := by
  induction t with
  | nil => rfl
  | cons c t ih =>
    unfold Text.contains at h
    rw [Text.cutOn] at h
    split at h
    · cases h
    · next hp =>
      have hnone : ":local(".toList.isPrefixOf? (c :: (t ++ ']' :: rest)) = none :=
        isPrefixOf?_append_cons (by decide) hp
      rw [Option.isSome_map] at h
      rw [List.cons_append, substitute_cons hnone, ih h]
      rfl

end LocalMark

/-! ## 3. Marked lists -/

namespace Selector

open LocalMark

variable {generate : Text → Text}

/-- How a local name is written in the end. -/
def renamed (generate : Text → Text) (mark : Char) (t : Text) : Text :=
  mark :: generate t

theorem Atom.loose {a : Atom} (h : a.valid) {rest : Text} (hr : Loose rest) :
    Loose (a.print ++ rest) := by
  cases a with
  | char c =>
    refine .cons ?_ fun _ => hr
    rintro rfl
    cases h
  | attr t => exact .cons (by decide) fun h => absurd h (by decide)
  | element t => exact .cons (by decide) fun h => absurd h (by decide)
  | pseudo t => exact .cons (by decide) fun h => absurd h (by decide)

/-- What is copied has no marks in it. -/
theorem Atom.substitute_print {a : Atom} (h : a.valid) {rest : Text} (hr : Loose rest) :
    substitute generate (a.print ++ rest) = a.print ++ substitute generate rest := by
  cases a with
  | char c =>
    refine substitute_of_loose ?_
    rintro rfl
    cases h
  | attr t =>
    simp only [valid, Bool.and_eq_true, Bool.not_eq_true'] at h
    have hclose : substitute generate (']' :: rest) = ']' :: substitute generate rest :=
      substitute_of_loose fun h => absurd h (by decide)
    show substitute generate ('[' :: (t ++ [']'] ++ rest)) = _
    rw [substitute_of_loose (fun h => absurd h (by decide)), List.append_assoc,
      List.singleton_append, substitute_of_not_contains h.2, hclose]
    simp [print]
  | element t =>
    have hloose := Loose.append_escaped h hr
    show substitute generate (':' :: ':' :: (t ++ rest)) = _
    rw [substitute_of_loose fun _ => .cons (by decide) fun h => absurd h (by decide),
      substitute_of_loose fun _ => hloose, substitute_escaped h hr]
    rfl
  | pseudo t =>
    simp only [valid, Bool.and_eq_true] at h
    show substitute generate (':' :: (t ++ rest)) = _
    rw [substitute_of_loose fun _ => .append_escaped (isEscaped_of_isName h.1) hr,
      substitute_name h.1]
    rfl

namespace Term

mutual

theorem loose_write (x : Term) (h : x.valid) (mode : Mode) {rest : Text} (hr : Loose rest) :
    Loose (x.write marked mode ++ rest) := by
  match x with
  | copied a => exact a.loose h hr
  | comma => exact .cons (by decide) fun h => absurd h (by decide)
  | name mark t =>
    cases mode with
    | «local» => exact .cons (by decide) fun h => absurd h (by decide)
    | global =>
      simp only [valid, Bool.and_eq_true, Bool.or_eq_true, decide_eq_true_eq] at h
      rcases h.1 with rfl | rfl <;> exact .cons (by decide) fun h => absurd h (by decide)
  | switch m word => exact hr
  | wrapper m word inside =>
    simp only [valid, Bool.and_eq_true] at h
    exact loose_writeAll inside h.2 m m false hr
  | call t inside => exact .cons (by decide) fun h => absurd h (by decide)

/-- A marked list continues no name with a parenthesis. -/
theorem loose_writeAll (xs : List Term) (h : validAll xs) (start mode : Mode) (drops : Bool)
    {rest : Text} (hr : Loose rest) : Loose (writeAll marked start mode drops xs ++ rest) := by
  match xs with
  | [] => exact hr
  | x :: xs =>
    simp only [validAll, Bool.and_eq_true] at h
    have hrest := loose_writeAll xs h.2 start (x.modeAfter start mode) (x.dropsAfter drops) hr
    rw [writeAll, List.append_assoc]
    split
    · exact hrest
    · exact loose_write x h.1.1 mode hrest

end

/-- A pseudo-class with an argument is no mark, unless its name is that of one. -/
theorem not_mark_of_call {t : Text} (ht : isName t) (hmode : Mode.ofName? t = none)
    (rest : Text) : "local(".toList.isPrefixOf? (t ++ '(' :: rest) = none := by
  cases hp : "local(".toList.isPrefixOf? (t ++ '(' :: rest) with
  | none => rfl
  | some u =>
    have hword : identifier ("local".toList ++ '(' :: u) = ("local".toList, '(' :: u) :=
      identifier_of_isName (by decide) rfl
    have hname : identifier (t ++ '(' :: rest) = (t, '(' :: rest) := identifier_of_isName ht rfl
    have hsame : "local".toList ++ '(' :: u = "local(".toList ++ u := rfl
    rw [hsame, Text.append_of_isPrefixOf? hp, hname] at hword
    rw [(Prod.mk.inj hword).1] at hmode
    exact absurd hmode (by decide)

mutual

theorem substitute_write (x : Term) (h : x.valid) (mode : Mode) {rest : Text} (hr : Loose rest) :
    substitute generate (x.write marked mode ++ rest) =
      x.write (renamed generate) mode ++ substitute generate rest := by
  match x with
  | copied a => exact a.substitute_print h hr
  | comma => exact substitute_of_loose fun h => absurd h (by decide)
  | name mark t =>
    simp only [valid, Bool.and_eq_true, Bool.or_eq_true, decide_eq_true_eq] at h
    cases mode with
    | «local» => exact substitute_mark h.1 h.2 rest
    | global =>
      show substitute generate (mark :: (t ++ rest)) = _
      rw [substitute_of_loose fun _ => .append_escaped (isEscaped_of_isName h.2) hr,
        substitute_name h.2]
      rfl
  | switch m word => rfl
  | wrapper m word inside =>
    simp only [valid, Bool.and_eq_true] at h
    exact substitute_writeAll inside h.2 m m false hr
  | call t inside =>
    simp only [valid, Bool.and_eq_true, decide_eq_true_eq] at h
    have hclosed : Loose (')' :: rest) := .cons (by decide) fun h => absurd h (by decide)
    have hinside := substitute_writeAll inside h.2 mode mode false hclosed
    have hclose : substitute generate (')' :: rest) = ')' :: substitute generate rest :=
      substitute_of_loose fun h => absurd h (by decide)
    have htext : (call t inside).write marked mode ++ rest =
        ':' :: (t ++ '(' :: (writeAll marked mode mode false inside ++ ')' :: rest)) := by
      simp [write]
    rw [htext, substitute_of_not_mark (fun _ => not_mark_of_call h.1.1 h.1.2 _),
      substitute_name h.1.1,
      substitute_of_loose (fun h => absurd h (by decide)), hinside, hclose]
    simp [write]

/-- **The marks of a list are replaced by what the generator makes of the names.** -/
theorem substitute_writeAll (xs : List Term) (h : validAll xs) (start mode : Mode) (drops : Bool)
    {rest : Text} (hr : Loose rest) :
    substitute generate (writeAll marked start mode drops xs ++ rest) =
      writeAll (renamed generate) start mode drops xs ++ substitute generate rest := by
  match xs with
  | [] => rfl
  | x :: xs =>
    simp only [validAll, Bool.and_eq_true] at h
    have hloose := loose_writeAll xs h.2 start (x.modeAfter start mode) (x.dropsAfter drops) hr
    have hrest := substitute_writeAll xs h.2 start (x.modeAfter start mode) (x.dropsAfter drops) hr
    rw [writeAll, writeAll, List.append_assoc, List.append_assoc]
    split
    · exact hrest
    · rw [substitute_write x h.1.1 mode hloose, hrest]

end

end Term

end Selector

/-! ## 4. Scoping -/

namespace ScopedNames

open Selector

/-- The state in which one more local name is entered. -/
def enter (ctx : Context) (rule : Text) (s : ScopedNames) (name : Text) : ScopedNames :=
  ⟨s.exports.upsert name (addName (ctx.generate name rule)), s.calls ++ [(name, rule)]⟩

/-- Writing parts never fails, writes the generator's names, and enters the names in order. -/
theorem writeParts_eq (ctx : Context) (rule : Text) (ps : List LocalMark.Part) (s : ScopedNames) :
    writeParts ctx rule ps s =
      .ok (ps.flatMap (LocalMark.Part.write fun n => ctx.generate n rule))
        ((ps.filterMap LocalMark.Part.name?).foldl (enter ctx rule) s) := by
  induction ps generalizing s with
  | nil => rfl
  | cons p ps ih =>
    cases p with
    | copied t =>
      show EStateM.map (t ++ ·) (writeParts ctx rule ps) s = _
      rw [EStateM.map, ih s]
      rfl
    | name n =>
      show EStateM.map (ctx.generate n rule ++ ·) (writeParts ctx rule ps) (enter ctx rule s n) = _
      rw [EStateM.map, ih (enter ctx rule s n)]
      rfl

/-- Scoping a text replaces its marks and enters the names that it marks. -/
theorem scopeText_eq (ctx : Context) (rule t : Text) (s : ScopedNames) :
    scopeText ctx rule t s = .ok (LocalMark.substitute (fun n => ctx.generate n rule) t)
      ((LocalMark.names t).foldl (enter ctx rule) s) := by
  rw [scopeText, writeParts_eq, LocalMark.names_eq]
  rfl

/-- **Marking and scoping a selector list** leave it as it was written, but for three things: each
    name that stands in local mode is written as the generator wants it, wrappers leave what they
    hold, and switches go with the blanks behind them. -/
theorem scopeText_markLocal (ctx : Context) (rule : Text) (s : ScopedNames) (xs : List Term)
    (h : Term.validAll xs) :
    ∃ s', scopeText ctx rule (markLocal (Term.printAll xs)) s =
      .ok (Term.writeAll (fun mark n => mark :: ctx.generate n rule) .local .local false xs)
        s' := by
  have hmarked : markLocal (Term.printAll xs) = Term.writeAll marked .local .local false xs :=
    Term.localize_printAll xs h .local .local false
  have hnames : LocalMark.substitute (fun n => ctx.generate n rule)
      (Term.writeAll marked .local .local false xs ++ []) =
        Term.writeAll (renamed fun n => ctx.generate n rule) .local .local false xs ++
          LocalMark.substitute _ [] :=
    Term.substitute_writeAll xs h .local .local false .nil
  rw [List.append_nil, LocalMark.substitute_nil, List.append_nil] at hnames
  exact ⟨_, by rw [scopeText_eq, hmarked, hnames]; rfl⟩

/-- Modes that nest, inherit and end at commas. -/
def nestedModes : List Term :=
  [.name '.' "a".toList, .switch .global "global".toList, .copied (.char ' '),
    .name '.' "b".toList, .copied (.char ' '),
    .call "is".toList [.name '.' "c".toList, .comma,
      .wrapper .local "Local".toList [.name '.' "d".toList], .copied (.char '>'),
      .name '.' "e".toList],
    .name '#' "f".toList, .comma, .copied (.char ' '), .name '.' "g".toList,
    .copied (.attr "x=')'".toList), .copied (.element "before".toList),
    .copied (.pseudo "hover".toList)]

theorem scopeText_markLocal_nested :
    Term.validAll nestedModes ∧
    Term.printAll nestedModes =
      ".a:global .b :is(.c,:Local(.d)>.e)#f, .g[x=')']::before:hover".toList ∧
    ∃ s', scopeText ⟨fun n _ => n ++ "-1".toList, [], []⟩ []
        (markLocal (Term.printAll nestedModes)) ⟨.empty, []⟩ =
      .ok ".a-1.b :is(.c,.d-1>.e)#f, .g-1[x=')']::before:hover".toList s' := by
  refine ⟨by decide, by decide, ?_⟩
  obtain ⟨s', h⟩ := scopeText_markLocal ⟨fun n _ => n ++ "-1".toList, [], []⟩ [] ⟨.empty, []⟩
    nestedModes (by decide)
  exact ⟨s', h.trans (congrArg (EStateM.Result.ok · s') (by decide))⟩

/-- A switch and a class, and a blank beyond ASCII between them. -/
def switchedBeforeWideBlank : List Term :=
  [.switch .global "global".toList, .copied (.char '\u3000'), .name '.' "b".toList]

/-- Two classes, and a blank beyond ASCII between them. -/
def namedBeforeWideBlank : List Term :=
  [.name '.' "a".toList, .copied (.char '\u3000'), .name '.' "b".toList]

/-- The condition on what follows a name is needed, also for blanks: one beyond ASCII continues the
    name in front of it. So the switch is none, and the class behind it is scoped; and of the two
    classes the first is asked for with the blank. -/
theorem wide_blank_continues_name :
    let generate : Text → Text → Text := fun n _ => n ++ "-1".toList
    let write := Term.writeAll (fun mark n => mark :: generate n []) .local .local false
    let scope := fun xs =>
      scopeText ⟨generate, [], []⟩ [] (markLocal (Term.printAll xs)) ⟨.empty, []⟩
    Text.isBlank '\u3000' = true ∧
    (∀ x ∈ switchedBeforeWideBlank ++ namedBeforeWideBlank, x.valid) ∧
    Term.printAll switchedBeforeWideBlank = ":global\u3000.b".toList ∧
    write switchedBeforeWideBlank = ".b".toList ∧
    (∃ s', scope switchedBeforeWideBlank = .ok ":global\u3000.b-1".toList s') ∧
    Term.printAll namedBeforeWideBlank = ".a\u3000.b".toList ∧
    write namedBeforeWideBlank = ".a-1\u3000.b-1".toList ∧
    ∃ s', scope namedBeforeWideBlank = .ok ".a\u3000-1.b-1".toList s' := by
  intro generate write scope
  have hscope : ∀ xs, ∃ s', scope xs = .ok (LocalMark.substitute (generate · [])
      (markLocal (Term.printAll xs))) s' := fun xs => ⟨_, scopeText_eq _ _ _ _⟩
  refine ⟨by decide, by decide, by decide, by decide, ?_, by decide, by decide, ?_⟩
  · obtain ⟨s', h⟩ := hscope switchedBeforeWideBlank
    exact ⟨s', h.trans (congrArg (EStateM.Result.ok · s') (by decide +kernel))⟩
  · obtain ⟨s', h⟩ := hscope namedBeforeWideBlank
    exact ⟨s', h.trans (congrArg (EStateM.Result.ok · s') (by decide +kernel))⟩

end ScopedNames

end StyleModules
