import StyleModules.Sheet.Statement

/-!
Closed texts, and how a scanner goes through them.

* A text is closed if it ends outside of every string, comment, bracket and escape that begins in
  it, and no terminator stands outside of them (`isClosed`).
* The scanner goes through a closed text to its end and goes on behind it as if it began there,
  whatever follows (`scan_append`). Only a `*` must not follow: with a `/` at the end it would open
  a comment.
-/

namespace StyleModules.Statement

/-! ## 1. Closed texts -/

/-- What a character can be inside of, brackets apart. -/
inductive Inside where
  | words
  | string (mark : Char)
  | comment
  deriving DecidableEq, Repr

/-- The number of brackets that are open after a character between words. -/
def depthAfter (depth : Nat) (c : Char) : Nat :=
  if c == '(' || c == '[' then depth + 1
  else if c == ')' || c == ']' then depth - 1
  else depth

/-- Whether a text closes all that is open in front of it and all that it opens itself. The first
    character is passed over if it is the second one of a pair: of an escape, or of the two
    characters around a comment. -/
def closes : Bool → Inside → Nat → Text → Bool
  | second, inside, depth, [] => !second && inside == .words && depth == 0
  | true, inside, depth, _ :: t => closes false inside depth t
  | false, .words, depth, c :: t =>
    if c == '\\' then closes true .words depth t
    else if c == '/' && t.head? == some '*' then closes true .comment depth t
    else if Text.isQuote c then closes false (.string c) depth t
    else if isTerminator c && depth == 0 then false
    else closes false .words (depthAfter depth c) t
  | false, .string mark, depth, c :: t =>
    if c == '\\' then closes true (.string mark) depth t
    else closes false (if c == mark then .words else .string mark) depth t
  | false, .comment, depth, c :: t =>
    if c == '*' && t.head? == some '/' then closes true .words depth t
    else closes false .comment depth t

/-- Whether a text is closed. -/
def isClosed (t : Text) : Bool :=
  closes false .words 0 t

/-! ## 2. The scanner in a closed text -/

/-- What the scanner is inside of. -/
def Mode.inside : Mode → Inside
  | .plain => .words
  | .quoted mark _ => .string mark
  | .comment _ => .comment

/-- A text in front of the words. -/
def Cut.behind (t : Text) (cut : Cut) : Cut :=
  ⟨t ++ cut.words, cut.rest⟩

/-- The scanner goes through a text and begins anew behind it. -/
def PassedOver (inside : Inside) (depth : Nat) (t : Text) : Prop :=
  ∀ mode brackets pos rest, Mode.inside mode = inside → brackets.length = depth →
    rest.head? ≠ some '*' →
    scan mode brackets pos (t ++ rest) =
      (scan .plain [] (pos + Text.size t) rest).map (Cut.behind t)

/-- The scanner goes through a text and is then inside of something else, if what follows begins in
    a certain way. -/
def StepsOver (inside : Inside) (depth : Nat) (t : Text) (inside' : Inside) (depth' : Nat)
    (follows : Text → Prop) : Prop :=
  ∀ mode brackets pos rest, Mode.inside mode = inside → brackets.length = depth → follows rest →
    ∃ mode' brackets', Mode.inside mode' = inside' ∧ brackets'.length = depth' ∧
      scan mode brackets pos (t ++ rest) =
        (scan mode' brackets' (pos + Text.size t) rest).map (Cut.behind t)

section Steps

variable {inside inside' : Inside} {depth depth' : Nat} {t : Text}

theorem StepsOver.passedOver {front : Text} {follows : Text → Prop}
    (hstep : StepsOver inside depth front inside' depth' follows)
    (hfollows : ∀ rest, rest.head? ≠ some '*' → follows (t ++ rest))
    (h : PassedOver inside' depth' t) : PassedOver inside depth (front ++ t) := by
  intro mode brackets pos rest hmode hdepth hrest
  obtain ⟨mode', brackets', hmode', hdepth', hscan⟩ :=
    hstep mode brackets pos (t ++ rest) hmode hdepth (hfollows rest hrest)
  rw [List.append_assoc, hscan, h mode' brackets' _ rest hmode' hdepth' hrest, Text.size_append,
    Nat.add_assoc]
  cases scan .plain [] (pos + (Text.size front + Text.size t)) rest with
  | error e => rfl
  | ok cut => exact congrArg (fun w => Except.ok (Cut.mk w cut.rest)) (List.append_assoc ..).symm

theorem passedOver_nil : PassedOver .words 0 [] := by
  intro mode brackets pos rest hmode hdepth _
  cases mode with
  | plain =>
    obtain rfl := List.length_eq_zero_iff.mp hdepth
    show scan .plain [] pos rest = (scan .plain [] pos rest).map (Cut.behind [])
    cases scan .plain [] pos rest <;> rfl
  | quoted mark start => cases hmode
  | comment start => cases hmode

theorem length_openAfter (brackets : List Nat) (pos : Nat) (c : Char) :
    (openAfter brackets pos c).length = depthAfter brackets.length c := by
  unfold openAfter depthAfter
  split
  · rfl
  · split
    · exact List.length_tail
    · rfl

/-- An escape, between words or in a string. -/
theorem stepsOver_escape (c : Char) (hinside : inside ≠ .comment) :
    StepsOver inside depth ['\\', c] inside depth fun _ => True := by
  intro mode brackets pos rest hmode hdepth _
  refine ⟨mode, brackets, hmode, hdepth, ?_⟩
  have hsize : pos + Text.size ['\\', c] = pos + 1 + c.utf8Size := by
    rw [Nat.add_assoc]
    rfl
  rw [hsize]
  cases mode with
  | plain =>
    rw [List.cons_append, List.cons_append, scan]
    rfl
  | quoted mark start =>
    rw [List.cons_append, List.cons_append, scan]
    rfl
  | comment start => exact absurd hmode.symm hinside

theorem stepsOver_openComment :
    StepsOver .words depth ['/', '*'] .comment depth fun _ => True := by
  intro mode brackets pos rest hmode hdepth _
  cases mode with
  | plain => exact ⟨.comment pos, brackets, rfl, hdepth, rfl⟩
  | quoted mark start => cases hmode
  | comment start => cases hmode

theorem stepsOver_closeComment :
    StepsOver .comment depth ['*', '/'] .words depth fun _ => True := by
  intro mode brackets pos rest hmode hdepth _
  cases mode with
  | plain => cases hmode
  | quoted mark start => cases hmode
  | comment start => exact ⟨.plain, brackets, rfl, hdepth, rfl⟩

/-- A character between words that is not one of a pair. -/
theorem scan_cons {c : Char} (hescape : c ≠ '\\') (brackets : List Nat) (pos : Nat) {t : Text}
    (hcomment : ¬(c = '/' ∧ t.head? = some '*')) :
    scan .plain brackets pos (c :: t) =
      if Text.isQuote c then (scan (.quoted c pos) brackets (pos + 1) t).map (Cut.push c)
      else if isTerminator c && brackets.isEmpty then .ok ⟨[], c :: t⟩
      else (scan .plain (openAfter brackets pos c) (pos + c.utf8Size) t).map (Cut.push c) := by
  rw [scan]
  · intro d u hc
    exact absurd hc hescape
  · rintro u hc rfl
    exact absurd ⟨hc, rfl⟩ hcomment

theorem stepsOver_quote {c : Char} (hc : Text.isQuote c = true) :
    StepsOver .words depth [c] (.string c) depth fun _ => True := by
  have hquote : c = '"' ∨ c = '\'' := by simpa [Text.isQuote] using hc
  have hsize : Text.size [c] = 1 := by
    rcases hquote with rfl | rfl
    · rfl
    · rfl
  have hescape : c ≠ '\\' := by
    rintro rfl
    cases hc
  have hslash : c ≠ '/' := by
    rintro rfl
    cases hc
  intro mode brackets pos rest hmode hdepth _
  cases mode with
  | plain =>
    refine ⟨.quoted c pos, brackets, rfl, hdepth, ?_⟩
    rw [List.cons_append, scan_cons hescape _ _ fun h => hslash h.1, if_pos hc, hsize]
    rfl
  | quoted mark start => cases hmode
  | comment start => cases hmode

theorem stepsOver_word {c : Char} (hescape : c ≠ '\\') (hquote : Text.isQuote c = false)
    (hterminator : (isTerminator c && depth == 0) = false) :
    StepsOver .words depth [c] .words (depthAfter depth c) fun rest =>
      ¬(c = '/' ∧ rest.head? = some '*') := by
  intro mode brackets pos rest hmode hdepth hrest
  cases mode with
  | plain =>
    refine ⟨.plain, openAfter brackets pos c, rfl, hdepth ▸ length_openAfter brackets pos c, ?_⟩
    have hempty : brackets.isEmpty = (depth == 0) := by
      rw [← hdepth]
      cases brackets <;> rfl
    rw [List.cons_append, List.nil_append, scan_cons hescape _ _ hrest, hquote, hempty, hterminator]
    rfl
  | quoted mark start => cases hmode
  | comment start => cases hmode

theorem stepsOver_string {c mark : Char} (hescape : c ≠ '\\') :
    StepsOver (.string mark) depth [c] (if c == mark then .words else .string mark) depth
      fun _ => True := by
  intro mode brackets pos rest hmode hdepth _
  cases mode with
  | plain => cases hmode
  | quoted mark' start =>
    obtain rfl : mark' = mark := Inside.string.inj hmode
    refine ⟨if c == mark' then .plain else .quoted mark' start, brackets, ?_, hdepth, ?_⟩
    · split <;> rfl
    · rw [List.cons_append, scan]
      · rfl
      · intro d u hc
        exact absurd hc hescape
  | comment start => cases hmode

theorem stepsOver_comment {c : Char} :
    StepsOver .comment depth [c] .comment depth fun rest =>
      ¬(c = '*' ∧ rest.head? = some '/') := by
  intro mode brackets pos rest hmode hdepth hrest
  cases mode with
  | plain => cases hmode
  | quoted mark start => cases hmode
  | comment start =>
    refine ⟨.comment start, brackets, rfl, hdepth, ?_⟩
    rw [List.cons_append, scan]
    · rfl
    · rintro u hc rfl
      exact absurd ⟨hc, rfl⟩ hrest

end Steps

/-- **The scanner goes through a text that closes what is open.** The induction is on the text; of a
    pair both characters are passed over at once, which is why a text that begins with the second
    one is passed over without it. -/
theorem passedOver_of_closes {second : Bool} {inside : Inside} {depth : Nat} {t : Text}
    (h : closes second inside depth t = true) :
    if second then ∃ c u, t = c :: u ∧ PassedOver inside depth u
      else PassedOver inside depth t := by
  fun_induction closes second inside depth t with
  | case1 second inside depth =>
    simp only [Bool.and_eq_true, Bool.not_eq_true', beq_iff_eq] at h
    obtain ⟨⟨rfl, rfl⟩, rfl⟩ := h
    exact passedOver_nil
  | case2 inside depth c t ih => exact ⟨c, t, rfl, ih h⟩
  | case3 depth c t hc ih =>
    obtain rfl : c = '\\' := eq_of_beq hc
    obtain ⟨d, u, rfl, hu⟩ := ih h
    exact (stepsOver_escape d (by simp)).passedOver (fun _ _ => trivial) hu
  | case4 depth c t _ hc ih =>
    obtain ⟨hc, hhead⟩ := Bool.and_eq_true_iff.mp hc
    obtain rfl : c = '/' := eq_of_beq hc
    obtain ⟨d, u, rfl, hu⟩ := ih h
    obtain rfl : d = '*' := Option.some.inj (eq_of_beq hhead)
    exact stepsOver_openComment.passedOver (fun _ _ => trivial) hu
  | case5 depth c t _ _ hc ih => exact (stepsOver_quote hc).passedOver (fun _ _ => trivial) (ih h)
  | case6 => cases h
  | case7 depth c t hescape hslash hquote hterminator ih =>
    refine (stepsOver_word (by simpa using hescape) (Bool.eq_false_iff.mpr hquote)
      (Bool.eq_false_iff.mpr hterminator)).passedOver (fun rest hrest hpair => ?_) (ih h)
    -- a comment would begin in the text, or with what follows it
    cases t with
    | nil => exact hrest hpair.2
    | cons d t => exact hslash (by simpa using hpair)
  | case8 mark depth c t hc ih =>
    obtain rfl : c = '\\' := eq_of_beq hc
    obtain ⟨d, u, rfl, hu⟩ := ih h
    exact (stepsOver_escape d (by simp)).passedOver (fun _ _ => trivial) hu
  | case9 mark depth c t hescape ih =>
    exact (stepsOver_string (by simpa using hescape)).passedOver (fun _ _ => trivial) (ih h)
  | case10 depth c t hc ih =>
    obtain ⟨hc, hhead⟩ := Bool.and_eq_true_iff.mp hc
    obtain rfl : c = '*' := eq_of_beq hc
    obtain ⟨d, u, rfl, hu⟩ := ih h
    obtain rfl : d = '/' := Option.some.inj (eq_of_beq hhead)
    exact stepsOver_closeComment.passedOver (fun _ _ => trivial) hu
  | case11 depth c t hstar ih =>
    refine stepsOver_comment.passedOver (fun rest _ hpair => ?_) (ih h)
    cases t with
    | nil => cases h
    | cons d t => exact hstar (by simpa using hpair)

/-- **The scanner goes through a closed text and begins anew behind it.** -/
theorem scan_append {t : Text} (h : isClosed t = true) (pos : Nat) {rest : Text}
    (hrest : rest.head? ≠ some '*') :
    scan .plain [] pos (t ++ rest) =
      (scan .plain [] (pos + Text.size t) rest).map (Cut.behind t) :=
  passedOver_of_closes h .plain [] pos rest rfl rfl hrest

end StyleModules.Statement
