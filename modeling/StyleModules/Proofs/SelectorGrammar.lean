import StyleModules.Selector.Local

/-!
A grammar of selector lists, and how the lists of the grammar are marked.

* A list is a sequence of terms: what is copied, commas, classes and ids, the switches `:local` and
  `:global`, the wrappers `:local(...)` and `:global(...)`, and pseudo-classes with a list for an
  argument. `Term.printAll` writes it.
* A list is `valid` if its names are names, its attributes are closed, and each name is as long as
  it can be: what follows a name does not continue it. Characters beyond ASCII belong to names,
  blanks among them.
* `Term.writeAll` says what modes mean: how a list is written where a local name is written in a way
  of its own. Marking writes the names of the list as `:local(...)` (`localize_printAll`).
-/

namespace StyleModules.Selector

/-! ## 1. Terms -/

/-- A name: characters of names, at least one. -/
def isName (t : Text) : Bool :=
  !t.isEmpty && t.all Text.isIdentChar

/-- A name in which a backslash takes the next character along. -/
def isEscaped : Text → Bool
  | [] => true
  | ['\\'] => false
  | '\\' :: _ :: t => isEscaped t
  | c :: t => Text.isIdentChar c && isEscaped t

/-- Whether the strings of an attribute are closed, the one included that the text begins in, and no
    bracket stands outside of them. -/
def isClosed : Option Char → Text → Bool
  | mark, [] => mark.isNone
  | _, ['\\'] => false
  | mark, '\\' :: _ :: t => isClosed mark t
  | some mark, c :: t => isClosed (if c = mark then none else some mark) t
  | none, c :: t =>
    if Text.isQuote c then isClosed (some c) t
    else !"[]()".toList.contains c && isClosed none t

/-- Whether a text continues no name in front of it. -/
def stopsName : Text → Bool
  | [] => true
  | c :: _ => !Text.isIdentChar c && c != '\\'

/-- Whether a text continues nothing in front of it that ends in a name. -/
def endsName (t : Text) : Bool :=
  stopsName t && t.head? != some '('

/-- What is copied as it stands: a character of a type name, a combinator, `*`, `&` or a blank; an
    attribute; a pseudo-element; a pseudo-class without an argument. -/
inductive Atom where
  | char (c : Char)
  | attr (t : Text)
  | element (t : Text)
  | pseudo (t : Text)
  deriving DecidableEq, Repr

namespace Atom

def print : Atom → Text
  | char c => [c]
  | attr t => '[' :: (t ++ [']'])
  | element t => ':' :: ':' :: t
  | pseudo t => ':' :: t

def valid : Atom → Bool
  | char c => !",\"'[\\.#:()".toList.contains c
  | attr t => isClosed none t && !Text.contains ":local(".toList t
  | element t => isEscaped t
  | pseudo t => isName t && Mode.ofName? t = none

def endsInName : Atom → Bool
  | element _ => true
  | pseudo _ => true
  | _ => false

end Atom

/-- A term of a selector list. A switch and a wrapper have the mode and the word that asks for
    it. -/
inductive Term where
  | copied (a : Atom)
  | comma
  | name (mark : Char) (t : Text)
  | switch (mode : Mode) (word : Text)
  | wrapper (mode : Mode) (word : Text) (inside : List Term)
  | call (t : Text) (inside : List Term)
  deriving Repr

namespace Term

mutual

/-- A term as it is written. -/
def print : Term → Text
  | copied a => a.print
  | comma => [',']
  | name mark t => mark :: t
  | switch _ word => ':' :: word
  | wrapper _ word inside => ':' :: (word ++ '(' :: (printAll inside ++ [')']))
  | call t inside => ':' :: (t ++ '(' :: (printAll inside ++ [')']))

/-- A list as it is written. -/
def printAll : List Term → Text
  | [] => []
  | x :: xs => x.print ++ printAll xs

end

/-- Whether a term ends in a name, which what follows could continue. -/
def endsInName : Term → Bool
  | copied a => a.endsInName
  | name _ _ => true
  | switch _ _ => true
  | _ => false

mutual

def valid : Term → Bool
  | copied a => a.valid
  | comma => true
  | name mark t => (mark = '.' || mark = '#') && isName t
  | switch mode word => isName word && Mode.ofName? word = some mode
  | wrapper mode word inside => isName word && Mode.ofName? word = some mode && validAll inside
  | call t inside => isName t && Mode.ofName? t = none && validAll inside

/-- Every term is valid, and every name is as long as it can be. -/
def validAll : List Term → Bool
  | [] => true
  | x :: xs => x.valid && (!x.endsInName || endsName (printAll xs)) && validAll xs

end

/-! ## 2. What modes mean -/

def isSwitch : Term → Bool
  | switch _ _ => true
  | _ => false

def isBlank : Term → Bool
  | copied (.char c) => Text.isBlank c
  | _ => false

/-- The mode behind a term of a list that began in `start`: a switch holds up to the next comma. -/
def modeAfter (start mode : Mode) : Term → Mode
  | comma => start
  | switch m _ => m
  | _ => mode

/-- Whether blanks behind a term are dropped: behind a switch, all of them are. -/
def dropsAfter (drops : Bool) (x : Term) : Bool :=
  x.isSwitch || (drops && x.isBlank)

mutual

/-- A term that stands in a mode, local names being written by `f` from mark and name. A wrapper
    leaves its inside, each selector of which begins in the wrapper's mode; the selectors in the
    argument of a pseudo-class begin in the mode that the pseudo-class stands in. -/
def write (f : Char → Text → Text) (mode : Mode) : Term → Text
  | copied a => a.print
  | comma => [',']
  | name mark t => if mode = .local then f mark t else mark :: t
  | switch _ _ => []
  | wrapper m _ inside => writeAll f m m false inside
  | call t inside => ':' :: (t ++ '(' :: (writeAll f mode mode false inside ++ [')']))

/-- A list each selector of which begins in `start`. It stands in `mode`, and behind a switch if
    blanks are dropped. -/
def writeAll (f : Char → Text → Text) (start mode : Mode) (drops : Bool) : List Term → Text
  | [] => []
  | x :: xs =>
    (if drops && x.isBlank then [] else x.write f mode) ++
      writeAll f start (x.modeAfter start mode) (x.dropsAfter drops) xs

end

end Term

/-! ## 3. Stretches -/

theorem isName_iff {t : Text} : isName t ↔ t ≠ [] ∧ ∀ c ∈ t, Text.isIdentChar c := by
  simp [isName]

theorem isEscaped_of_isName {t : Text} (h : isName t) : isEscaped t := by
  have hall := (isName_iff.mp h).2
  clear h
  induction t with
  | nil => rfl
  | cons c t ih =>
    have hc := hall c List.mem_cons_self
    rw [isEscaped, hc, ih fun d hd => hall d (List.mem_cons_of_mem c hd)]
    · rfl
    · rintro rfl; cases hc
    · rintro _ _ rfl; cases hc

theorem identifier_cons {c : Char} (hc : c ≠ '\\') (t : Text) :
    identifier (c :: t) =
      if Text.isIdentChar c then push c (identifier t) else ([], c :: t) := by
  rw [identifier]
  · exact fun e _ => hc e
  · exact fun _ _ e _ => hc e

/-- An identifier without backslashes is a name. -/
theorem isName_of_isIdentifier {t : Text} (h : isIdentifier t) (ht : '\\' ∉ t) : isName t := by
  unfold isIdentifier at h
  simp only [Bool.and_eq_true, Bool.not_eq_true', List.isEmpty_eq_false_iff, List.isEmpty_iff] at h
  obtain ⟨hne, hrest⟩ := h
  refine isName_iff.mpr ⟨hne, ?_⟩
  clear hne
  induction t with
  | nil => exact fun c hc => by cases hc
  | cons c t ih =>
    rw [List.mem_cons, not_or] at ht
    rw [identifier_cons (Ne.symm ht.1)] at hrest
    by_cases hc : Text.isIdentChar c
    · rw [if_pos hc] at hrest
      intro d hd
      rcases List.mem_cons.mp hd with rfl | hd
      · exact hc
      · exact ih ht.2 hrest d hd
    · rw [if_neg hc] at hrest
      cases hrest

/-- A name that nothing continues is read whole. -/
theorem identifier_of_isEscaped {t rest : Text} (ht : isEscaped t) (hr : stopsName rest) :
    identifier (t ++ rest) = (t, rest) := by
  fun_induction isEscaped t with
  | case1 =>
    cases rest with
    | nil => rfl
    | cons c rest =>
      unfold stopsName at hr
      simp only [Bool.and_eq_true, Bool.not_eq_true', bne_iff_ne, ne_eq] at hr
      rw [List.nil_append, identifier, if_neg (by simp [hr.1])]
      · rintro rfl; exact absurd rfl hr.2
      · rintro _ _ rfl; exact absurd rfl hr.2
  | case2 => cases ht
  | case3 c t ih =>
    show push '\\' (push c (identifier (t ++ rest))) = _
    rw [ih ht]
    rfl
  | case4 c t h1 h2 ih =>
    simp only [Bool.and_eq_true] at ht
    rw [List.cons_append, identifier, if_pos ht.1, ih ht.2]
    · rfl
    · rintro rfl; exact absurd ht.1 (by decide)
    · rintro _ _ rfl; exact absurd ht.1 (by decide)

/-- A character that begins no escape, by the two ways in which it could. -/
theorem ne_backslash {c : Char} {t : Text} (h : c = '\\' → t = [] → False)
    (h' : ∀ d u, c = '\\' → t = d :: u → False) : c ≠ '\\' := by
  intro e
  cases t with
  | nil => exact h e rfl
  | cons d u => exact h' d u e rfl

theorem bracketed_in_string {opening closing mark c : Char} (hc : c ≠ '\\') (depth : Nat)
    (t : Text) :
    bracketed opening closing (some mark) depth (c :: t) =
      push c (bracketed opening closing (if c = mark then none else some mark) depth t) := by
  rw [bracketed]
  · exact fun e _ => hc e
  · exact fun _ _ e _ => hc e

theorem bracketed_quote {opening closing c : Char} (hc : Text.isQuote c) (depth : Nat) (t : Text) :
    bracketed opening closing none depth (c :: t) =
      push c (bracketed opening closing (some c) depth t) := by
  have hne : c ≠ '\\' := by rintro rfl; cases hc
  rw [bracketed, if_pos hc]
  · exact fun e _ => hne e
  · exact fun _ _ e _ => hne e

theorem bracketed_other {opening closing c : Char} (hne : c ≠ '\\') (hq : ¬Text.isQuote c)
    (ho : c ≠ opening) (hc : c ≠ closing) (depth : Nat) (t : Text) :
    bracketed opening closing none depth (c :: t) =
      push c (bracketed opening closing none depth t) := by
  rw [bracketed, if_neg hq, if_neg ho, if_neg hc]
  · exact fun e _ => hne e
  · exact fun _ _ e _ => hne e

/-- What is closed is passed over whole on the way to a closing bracket. -/
theorem bracketed_of_isClosed {opening closing : Char} (ho : opening ∈ "[]()".toList)
    (hc : closing ∈ "[]()".toList) {mark : Option Char} {t : Text} (ht : isClosed mark t)
    (depth : Nat) (rest : Text) :
    bracketed opening closing mark depth (t ++ rest) =
      (t ++ (bracketed opening closing none depth rest).1,
        (bracketed opening closing none depth rest).2) := by
  fun_induction isClosed mark t with
  | case1 mark =>
    obtain rfl := Option.isNone_iff_eq_none.mp ht
    rfl
  | case2 => cases ht
  | case3 mark c t ih =>
    show push '\\' (push c (bracketed opening closing mark depth (t ++ rest))) = _
    rw [ih ht]
    rfl
  | case4 mark c t h h' ih =>
    rw [List.cons_append, bracketed_in_string (ne_backslash h h'), ih ht]
    rfl
  | case5 c t h h' hq ih =>
    rw [List.cons_append, bracketed_quote hq, ih ht]
    rfl
  | case6 c t h h' hq ih =>
    simp only [Bool.and_eq_true, Bool.not_eq_true', List.contains_eq_mem, decide_eq_false_iff_not]
      at ht
    rw [List.cons_append, bracketed_other (ne_backslash h h') hq (by rintro rfl; exact ht.1 ho)
      (by rintro rfl; exact ht.1 hc), ih ht.2]
    rfl

/-- A text that is passed over whole on the way to a closing parenthesis. -/
def Neutral (t : Text) : Prop :=
  ∀ depth rest, bracketed '(' ')' none (depth + 1) (t ++ rest) =
    (t ++ (bracketed '(' ')' none (depth + 1) rest).1,
      (bracketed '(' ')' none (depth + 1) rest).2)

namespace Neutral

theorem nil : Neutral [] :=
  fun _ _ => rfl

theorem append {s t : Text} (hs : Neutral s) (ht : Neutral t) : Neutral (s ++ t) := by
  intro depth rest
  rw [List.append_assoc, hs, ht, List.append_assoc]

theorem cons {c : Char} (hc : ¬c ∈ "\"'\\()".toList) {t : Text} (ht : Neutral t) :
    Neutral (c :: t) := by
  intro depth rest
  have hq : ¬Text.isQuote c := by
    intro h
    unfold Text.isQuote at h
    rcases Bool.or_eq_true_iff.mp h with h | h <;> rw [eq_of_beq h] at hc <;> exact hc (by decide)
  rw [List.cons_append, bracketed_other (by rintro rfl; exact hc (by decide)) hq
    (by rintro rfl; exact hc (by decide)) (by rintro rfl; exact hc (by decide)), ht]
  rfl

theorem parens {t : Text} (ht : Neutral t) : Neutral ('(' :: (t ++ [')'])) := by
  intro depth rest
  have hclose : bracketed '(' ')' none (depth + 2) (')' :: rest) =
      push ')' (bracketed '(' ')' none (depth + 1) rest) := rfl
  show push '(' (bracketed '(' ')' none (depth + 2) (t ++ [')'] ++ rest)) = _
  rw [List.append_assoc, ht, List.singleton_append, hclose]
  simp [push]

/-- A name has no parentheses and no quotes, but for escaped ones. -/
theorem of_isEscaped {t : Text} (ht : isEscaped t) : Neutral t := by
  fun_induction isEscaped t with
  | case1 => exact nil
  | case2 => cases ht
  | case3 c t ih =>
    intro depth rest
    show push '\\' (push c (bracketed '(' ')' none (depth + 1) (t ++ rest))) = _
    rw [ih ht]
    rfl
  | case4 c t _ _ ih =>
    simp only [Bool.and_eq_true] at ht
    refine cons ?_ (ih ht.2)
    intro hc
    have hall : ∀ d ∈ "\"'\\()".toList, Text.isIdentChar d = false := by simp; decide
    rw [hall c hc] at ht
    cases ht.1

/-- The argument of a list is what stands up to the closing parenthesis. -/
theorem argument {t : Text} (ht : Neutral t) (rest : Text) :
    Selector.argument (t ++ ')' :: rest) = (t, ')' :: rest) := by
  have hclose : bracketed '(' ')' none 1 (')' :: rest) = ([], ')' :: rest) := rfl
  rw [Selector.argument, ht 0, hclose, List.append_nil]

end Neutral

theorem Atom.neutral {a : Atom} (h : a.valid) : Neutral a.print := by
  cases a with
  | char c =>
    refine .cons (fun hc => ?_) .nil
    have hall : ∀ d ∈ "\"'\\()".toList, (Atom.char d).valid = false := by simp; decide
    rw [hall c hc] at h
    cases h
  | attr t =>
    have ht : isClosed none t := (Bool.and_eq_true_iff.mp h).1
    have hneutral : Neutral t := fun depth rest =>
      bracketed_of_isClosed (by decide) (by decide) ht (depth + 1) rest
    exact .cons (by decide) (hneutral.append (.cons (by decide) .nil))
  | element t => exact .cons (by decide) (.cons (by decide) (.of_isEscaped h))
  | pseudo t =>
    exact .cons (by decide) (.of_isEscaped (isEscaped_of_isName (Bool.and_eq_true_iff.mp h).1))

namespace Term

mutual

/-- A valid term is passed over whole. -/
theorem neutral (x : Term) (h : x.valid) : Neutral x.print := by
  match x with
  | copied a => exact a.neutral h
  | comma => exact .cons (by decide) .nil
  | name mark t =>
    simp only [valid, Bool.and_eq_true, Bool.or_eq_true, decide_eq_true_eq] at h
    refine .cons ?_ (.of_isEscaped (isEscaped_of_isName h.2))
    rcases h.1 with rfl | rfl <;> decide
  | switch mode word =>
    simp only [valid, Bool.and_eq_true] at h
    exact .cons (by decide) (.of_isEscaped (isEscaped_of_isName h.1))
  | wrapper mode word inside =>
    simp only [valid, Bool.and_eq_true] at h
    exact .cons (by decide) (.append (.of_isEscaped (isEscaped_of_isName h.1.1))
      (.parens (neutral_printAll inside h.2)))
  | call t inside =>
    simp only [valid, Bool.and_eq_true] at h
    exact .cons (by decide) (.append (.of_isEscaped (isEscaped_of_isName h.1.1))
      (.parens (neutral_printAll inside h.2)))

theorem neutral_printAll (xs : List Term) (h : validAll xs) : Neutral (printAll xs) := by
  match xs with
  | [] => exact .nil
  | x :: xs =>
    simp only [validAll, Bool.and_eq_true] at h
    exact .append (neutral x h.1.1) (neutral_printAll xs h.2)

end

end Term

/-! ## 4. Reading terms -/

theorem endsName_stops {t : Text} (h : endsName t) : stopsName t :=
  (Bool.and_eq_true_iff.mp h).1

theorem endsName_ne_paren {t rest : Text} (h : endsName rest) : rest ≠ '(' :: t := by
  rintro rfl
  cases h

/-- The name of a pseudo-class or pseudo-element is read whole. -/
theorem identifier_of_isName {t rest : Text} (ht : isName t) (hr : stopsName rest) :
    identifier (t ++ rest) = (t, rest) :=
  identifier_of_isEscaped (isEscaped_of_isName ht) hr

/-- A pseudo-class without an argument, by the mode that its name asks for. -/
theorem pseudoClass_of_endsName {t rest : Text} (ht : isName t) (hr : endsName rest) :
    pseudoClass (t ++ rest) =
      match Mode.ofName? t with
      | some mode => ⟨.switch mode (':' :: t ++ rest.takeWhile Text.isBlank),
          rest.dropWhile Text.isBlank⟩
      | none => ⟨.plain (':' :: t), rest⟩ := by
  rw [pseudoClass, identifier_of_isName ht (endsName_stops hr)]
  simp only
  split
  · exact absurd rfl (endsName_ne_paren hr)
  · next hmode _ => rw [hmode]
  · exact absurd rfl (endsName_ne_paren hr)
  · next hmode _ => rw [hmode]

/-- A pseudo-class with an argument, by the mode that its name asks for. -/
theorem pseudoClass_argument {t inside : Text} (ht : isName t) (hi : Neutral inside)
    (rest : Text) :
    pseudoClass (t ++ '(' :: (inside ++ ')' :: rest)) =
      match Mode.ofName? t with
      | some mode => ⟨.wrapper mode (':' :: t ++ ['(']) inside true, rest⟩
      | none => ⟨.call (':' :: t ++ ['(']) inside true, rest⟩ := by
  have hstops : stopsName ('(' :: (inside ++ ')' :: rest)) := rfl
  have hargument := hi.argument rest
  rw [pseudoClass, identifier_of_isName ht hstops]
  simp only
  cases Mode.ofName? t <;> simp only [withArgument, hargument] <;> rfl

/-- A colon and a name are no pseudo-element. -/
theorem lexeme_colon {t : Text} (ht : isName t) (rest : Text) :
    lexeme ':' (t ++ rest) = pseudoClass (t ++ rest) := by
  cases t with
  | nil => cases ht
  | cons c t =>
    have hc : Text.isIdentChar c := (isName_iff.mp ht).2 c List.mem_cons_self
    have hne : c ≠ ':' := by rintro rfl; cases hc
    unfold lexeme
    simp [hne, Text.isQuote]

/-- A character that begins nothing is copied. -/
theorem lexeme_other {c : Char} (hc : c ∉ ",\"'[\\.#:".toList) (t : Text) :
    lexeme c t = ⟨.plain [c], t⟩ := by
  have hne : ∀ d ∈ ",\"'[\\.#:".toList, c ≠ d := by
    intro d hd e
    exact hc (e ▸ hd)
  have hq : ¬Text.isQuote c := by
    simp [Text.isQuote, hne '"' (by decide), hne '\'' (by decide)]
  have hmark : ¬(c = '.' || c = '#') := by simp [hne '.' (by decide), hne '#' (by decide)]
  unfold lexeme
  rw [if_neg (hne ',' (by decide)), if_neg hq, if_neg (hne '[' (by decide)),
    if_neg (hne '\\' (by decide)), if_neg hmark, if_neg (hne ':' (by decide))]

namespace Atom

/-- What is copied is read as one item. -/
theorem lexeme_print {a : Atom} (h : a.valid) {rest : Text} (hr : a.endsInName → endsName rest) :
    ∃ c t, a.print ++ rest = c :: t ∧ lexeme c t = ⟨.plain a.print, rest⟩ := by
  cases a with
  | char c =>
    refine ⟨c, rest, rfl, lexeme_other (fun hc => ?_) rest⟩
    have hall : ∀ d ∈ ",\"'[\\.#:".toList, (Atom.char d).valid = false := by simp; decide
    rw [hall c hc] at h
    cases h
  | attr t =>
    have ht : isClosed none t := (Bool.and_eq_true_iff.mp h).1
    refine ⟨'[', t ++ ']' :: rest, by simp [print], ?_⟩
    have hclose : bracketed '[' ']' none 1 (']' :: rest) = ([], ']' :: rest) := rfl
    have hinside : bracketed '[' ']' none 1 (t ++ ']' :: rest) = (t, ']' :: rest) := by
      rw [bracketed_of_isClosed (by decide) (by decide) ht, hclose, List.append_nil]
    show (⟨.plain ('[' :: ((bracketed '[' ']' none 1 (t ++ ']' :: rest)).1 ++
      (bracketed '[' ']' none 1 (t ++ ']' :: rest)).2.take 1)),
      (bracketed '[' ']' none 1 (t ++ ']' :: rest)).2.tail⟩ : Cut) = _
    rw [hinside]
    rfl
  | element t =>
    refine ⟨':', ':' :: (t ++ rest), rfl, ?_⟩
    show pseudoElement (t ++ rest) = _
    rw [pseudoElement, identifier_of_isEscaped h (endsName_stops (hr rfl))]
    simp only
    split
    · next u => exact absurd rfl (endsName_ne_paren (t := u) (hr rfl))
    · rfl
  | pseudo t =>
    simp only [valid, Bool.and_eq_true, decide_eq_true_eq] at h
    refine ⟨':', t ++ rest, rfl, ?_⟩
    rw [lexeme_colon h.1, pseudoClass_of_endsName h.1 (hr rfl), h.2]
    rfl

theorem isBlank_head {a : Atom} {c : Char} {rest t : Text} (h : a.print ++ rest = c :: t) :
    Text.isBlank c = (Term.copied a).isBlank := by
  cases a <;> obtain ⟨rfl, _⟩ := List.cons.inj h <;> rfl

end Atom

namespace Term

/-- The item that a term is read as, and what is left of the text behind it. -/
def cut (rest : Text) : Term → Cut
  | copied a => ⟨.plain a.print, rest⟩
  | comma => ⟨.comma, rest⟩
  | name mark t => ⟨.name mark t, rest⟩
  | switch mode word =>
    ⟨.switch mode (':' :: word ++ rest.takeWhile Text.isBlank), rest.dropWhile Text.isBlank⟩
  | wrapper mode word inside => ⟨.wrapper mode (':' :: word ++ ['(']) (printAll inside) true, rest⟩
  | call t inside => ⟨.call (':' :: t ++ ['(']) (printAll inside) true, rest⟩

/-- A valid term is read whole, and as what it is. -/
theorem lexeme_print {x : Term} (h : x.valid) {rest : Text} (hr : x.endsInName → endsName rest) :
    ∃ c t, x.print ++ rest = c :: t ∧ Text.isBlank c = x.isBlank ∧ lexeme c t = x.cut rest := by
  cases x with
  | copied a =>
    obtain ⟨c, t, he, hl⟩ := a.lexeme_print h hr
    exact ⟨c, t, he, a.isBlank_head he, hl⟩
  | comma => exact ⟨',', rest, rfl, rfl, rfl⟩
  | name mark t =>
    simp only [valid, Bool.and_eq_true, Bool.or_eq_true, decide_eq_true_eq] at h
    have hid := identifier_of_isName h.2 (endsName_stops (hr rfl))
    have hne : t.isEmpty = false := List.isEmpty_eq_false_iff.mpr (isName_iff.mp h.2).1
    have hcut : (if (identifier (t ++ rest)).1.isEmpty then (⟨.plain [mark], t ++ rest⟩ : Cut)
        else ⟨.name mark (identifier (t ++ rest)).1, (identifier (t ++ rest)).2⟩) =
        ⟨.name mark t, rest⟩ := by
      rw [hid, hne]
      rfl
    rcases h.1 with rfl | rfl <;> exact ⟨_, t ++ rest, rfl, rfl, hcut⟩
  | switch mode word =>
    simp only [valid, Bool.and_eq_true, decide_eq_true_eq] at h
    refine ⟨':', word ++ rest, rfl, rfl, ?_⟩
    rw [lexeme_colon h.1, pseudoClass_of_endsName h.1 (hr rfl), h.2]
    rfl
  | wrapper mode word inside =>
    simp only [valid, Bool.and_eq_true, decide_eq_true_eq] at h
    refine ⟨':', word ++ '(' :: (printAll inside ++ ')' :: rest), by simp [print], rfl, ?_⟩
    rw [lexeme_colon h.1.1, pseudoClass_argument h.1.1 (neutral_printAll inside h.2), h.1.2]
    rfl
  | call t inside =>
    simp only [valid, Bool.and_eq_true, decide_eq_true_eq] at h
    refine ⟨':', t ++ '(' :: (printAll inside ++ ')' :: rest), by simp [print], rfl, ?_⟩
    rw [lexeme_colon h.1.1, pseudoClass_argument h.1.1 (neutral_printAll inside h.2), h.1.2]
    rfl

end Term

/-! ## 5. Marking -/

/-- A local name as it is marked. -/
def marked (mark : Char) (t : Text) : Text :=
  ":local(".toList ++ mark :: (t ++ [')'])

/-- A text without its leading blanks, if they are dropped. -/
def dropBlanks (drops : Bool) (t : Text) : Text :=
  if drops then t.dropWhile Text.isBlank else t

theorem localize_cons (start mode : Mode) (c : Char) (t : Text) :
    localize start mode (c :: t) =
      (lexeme c t).item.write mode (localize ((lexeme c t).item.innerMode mode)
        ((lexeme c t).item.innerMode mode) (lexeme c t).item.inside) ++
      localize start ((lexeme c t).item.modeAfter start mode) (lexeme c t).rest := by
  rw [localize]

namespace Term

theorem cut_modeAfter (start mode : Mode) (rest : Text) (x : Term) :
    (x.cut rest).item.modeAfter start mode = x.modeAfter start mode := by
  cases x <;> rfl

theorem cut_rest (rest : Text) (x : Term) : (x.cut rest).rest = dropBlanks x.isSwitch rest := by
  cases x <;> rfl

theorem eq_char_of_isBlank {x : Term} (h : x.isBlank) :
    ∃ c, x = copied (.char c) ∧ Text.isBlank c := by
  unfold isBlank at h
  split at h
  · next c => exact ⟨c, rfl, h⟩
  · cases h

mutual

/-- A term is marked as its mode says. -/
theorem cut_write (x : Term) (h : x.valid) (mode : Mode) (rest : Text) :
    (x.cut rest).item.write mode (localize ((x.cut rest).item.innerMode mode)
      ((x.cut rest).item.innerMode mode) (x.cut rest).item.inside) = x.write marked mode := by
  match x with
  | copied a => rfl
  | comma => rfl
  | name mark t => rfl
  | switch m word => rfl
  | wrapper m word inside =>
    simp only [valid, Bool.and_eq_true] at h
    exact localize_printAll inside h.2 m m false
  | call t inside =>
    simp only [valid, Bool.and_eq_true] at h
    have hinside := localize_printAll inside h.2 mode mode false
    show ':' :: t ++ ['('] ++ localize mode mode (printAll inside) ++ [')'] = _
    rw [show printAll inside = dropBlanks false (printAll inside) from rfl, hinside]
    simp [write]

/-- **The local names of a list are marked**, and what the list says about modes is dropped. -/
theorem localize_printAll (xs : List Term) (h : validAll xs) (start mode : Mode) (drops : Bool) :
    localize start mode (dropBlanks drops (printAll xs)) =
      writeAll marked start mode drops xs := by
  match xs with
  | [] =>
    have hnil : dropBlanks drops [] = [] := by cases drops <;> rfl
    rw [printAll, hnil, localize]
    rfl
  | x :: xs =>
    simp only [validAll, Bool.and_eq_true, Bool.or_eq_true, Bool.not_eq_true'] at h
    have hr : x.endsInName → endsName (printAll xs) := fun he => by
      rcases h.1.2 with h' | h'
      · rw [he] at h'; cases h'
      · exact h'
    cases hd : drops && x.isBlank with
    | true =>
      -- a blank behind a switch
      obtain ⟨rfl, hblank⟩ := Bool.and_eq_true_iff.mp hd
      obtain ⟨c, rfl, hc⟩ := eq_char_of_isBlank hblank
      have hdrop : dropBlanks true (c :: printAll xs) = dropBlanks true (printAll xs) :=
        List.dropWhile_cons_of_pos hc
      show localize start mode (dropBlanks true (c :: printAll xs)) = _
      rw [hdrop, localize_printAll xs h.2, writeAll, hd]
      simp [modeAfter, dropsAfter, hblank]
    | false =>
      obtain ⟨c, t, he, hblank, hl⟩ := lexeme_print h.1.1 hr
      have hkept : dropBlanks drops (c :: t) = c :: t := by
        cases drops with
        | false => rfl
        | true => exact List.dropWhile_cons_of_neg (by simpa [hblank] using hd)
      rw [printAll, he, hkept, localize_cons, hl, cut_write x h.1.1, cut_modeAfter, cut_rest,
        localize_printAll xs h.2, writeAll, dropsAfter, hd, Bool.or_false]
      rfl

end

end Term

end StyleModules.Selector
