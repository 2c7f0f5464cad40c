import StyleModules.Proofs.UnmarkedSelector

/-!
Selectors with comments in them.

Marking knows no comments: the text of a comment is read like the rest of the selector. So names in
it are marked, and a quotation mark in it begins a string that may reach far behind the comment.

* `Selector.StandsAlone`: what closes its strings and brackets, escapes nothing and says nothing
  about modes is marked by itself, whatever follows it (`localize_append`).
* `Selector.markLocal_commented`: what marking makes of a selector with a comment in it, and which
  comments it passes over. `Selector.markLocal_apostrophe` is a comment that it does not pass over.
-/

namespace StyleModules.Selector

/-! ## 1. Texts that stand alone -/

/-- The bracket that closes an opening one. -/
def closing? (c : Char) : Option Char :=
  if c = '(' then some ')' else if c = '[' then some ']' else none

/-- Whether a character closes a bracket. -/
def isClosing (c : Char) : Bool :=
  c == ')' || c == ']'

/-- The brackets that are waited for behind a character outside of strings, innermost first. A
    closing bracket has to fit the innermost open one; where none is open, it may stand alone. -/
def waitingAfter (waiting : List Char) (c : Char) : Option (List Char) :=
  match closing? c with
  | some w => some (w :: waiting)
  | none =>
    if isClosing c then
      match waiting with
      | [] => some []
      | w :: waiting => if c = w then some waiting else none
    else some waiting

/-- Whether a text closes its strings and brackets, those included that it begins in. -/
def closes : Option Char → List Char → Text → Bool
  | mark, waiting, [] => mark.isNone && waiting.isEmpty
  | some mark, waiting, c :: t => closes (if c = mark then none else some mark) waiting t
  | none, waiting, c :: t =>
    if Text.isQuote c then closes (some c) waiting t
    else
      match waitingAfter waiting c with
      | some waiting => closes none waiting t
      | none => false

/-- A selector that can be read by itself: it closes its strings and brackets, and has neither
    escapes nor modes. -/
structure StandsAlone (s : Text) : Prop where
  closes : closes none [] s
  unescaped : '\\' ∉ s
  modeless : mentionsModes s = false

instance (s : Text) : Decidable (StandsAlone s) :=
  decidable_of_iff (closes none [] s = true ∧ '\\' ∉ s ∧ mentionsModes s = false)
    ⟨fun ⟨h, h', h''⟩ => ⟨h, h', h''⟩, fun ⟨h, h', h''⟩ => ⟨h, h', h''⟩⟩

/-- Whether a text continues nothing that ends in front of it: no name, no pseudo-class that could
    have an argument, and no colon. -/
def startsAnew : Text → Bool
  | [] => true
  | c :: _ => !Text.isIdentChar c && !"\\(:".toList.contains c

theorem closes_quote {c : Char} (hc : Text.isQuote c = true) (waiting : List Char) (t : Text) :
    closes none waiting (c :: t) = closes (some c) waiting t := by
  rw [closes, if_pos hc]

/-- Outside of strings a character leaves something to wait for. -/
theorem exists_waiting {c : Char} (hc : Text.isQuote c = false) {waiting : List Char} {t : Text}
    (h : closes none waiting (c :: t)) :
    ∃ waiting', waitingAfter waiting c = some waiting' ∧ closes none waiting' t := by
  rw [closes, hc, if_neg Bool.false_ne_true] at h
  cases hw : waitingAfter waiting c with
  | none =>
    rw [hw] at h
    cases h
  | some waiting' =>
    rw [hw] at h
    exact ⟨waiting', rfl, h⟩

/-- A character that is no bracket changes nothing. -/
theorem waitingAfter_other {c : Char} (hc : c ∉ "()[]".toList) (waiting : List Char) :
    waitingAfter waiting c = some waiting := by
  have hne : ∀ d ∈ "()[]".toList, c ≠ d := by
    intro d hd e
    exact hc (e ▸ hd)
  have hopen : closing? c = none := by
    rw [closing?, if_neg (hne '(' (by decide)), if_neg (hne '[' (by decide))]
  have hclose : isClosing c = false := by
    simp [isClosing, hne ')' (by decide), hne ']' (by decide)]
  simp only [waitingAfter, hopen, hclose, Bool.false_eq_true, if_false]

theorem closes_plain {c : Char} (hq : Text.isQuote c = false) (hc : c ∉ "()[]".toList)
    {waiting : List Char} {t : Text} (h : closes none waiting (c :: t)) :
    closes none waiting t := by
  obtain ⟨waiting', hw, ht⟩ := exists_waiting hq h
  rw [waitingAfter_other hc] at hw
  exact Option.some.inj hw ▸ ht

theorem not_isQuote_of_isIdentChar {c : Char} (h : Text.isIdentChar c) :
    Text.isQuote c = false := by
  cases hq : Text.isQuote c with
  | false => rfl
  | true =>
    unfold Text.isQuote at hq
    rcases Bool.or_eq_true_iff.mp hq with hq | hq <;> rw [eq_of_beq hq] at h <;> cases h

theorem not_bracket_of_isIdentChar {c : Char} (h : Text.isIdentChar c) : c ∉ "()[]".toList := by
  intro hc
  have hall : ∀ d ∈ "()[]".toList, Text.isIdentChar d = false := by simp; decide
  rw [hall c hc] at h
  cases h

theorem closing?_cases {c w : Char} (h : closing? c = some w) :
    (c = '(' ∧ w = ')') ∨ (c = '[' ∧ w = ']') := by
  unfold closing? at h
  split at h
  · next hc => exact .inl ⟨hc, (Option.some.inj h).symm⟩
  · split at h
    · next hc => exact .inr ⟨hc, (Option.some.inj h).symm⟩
    · cases h

theorem opening_unique {c d w : Char} (hc : closing? c = some w) (hd : closing? d = some w) :
    c = d := by
  rcases closing?_cases hc with ⟨rfl, rfl⟩ | ⟨rfl, rfl⟩
  · exact ((closing?_cases hd).resolve_right fun h => absurd h.2 (by decide)).1.symm
  · exact ((closing?_cases hd).resolve_left fun h => absurd h.2 (by decide)).1.symm

/-- No bracket is both an opening and a closing one. -/
theorem isClosing_of_closing? {c w : Char} (h : closing? c = some w) :
    isClosing c = false ∧ isClosing w = true := by
  rcases closing?_cases h with ⟨rfl, rfl⟩ | ⟨rfl, rfl⟩ <;> exact ⟨rfl, rfl⟩

/-- What is waited for last of all is closed by the character, or is still waited for. -/
theorem waitingAfter_concat {waiting waiting' : List Char} {c w : Char}
    (h : waitingAfter (waiting ++ [w]) c = some waiting') :
    (waiting = [] ∧ c = w ∧ waiting' = [] ∧ waitingAfter [] c = some []) ∨
      ∃ less, waiting' = less ++ [w] ∧ waitingAfter waiting c = some less ∧
        (isClosing c → waiting ≠ []) := by
  unfold waitingAfter at h ⊢
  cases hopen : closing? c with
  | some w' =>
    have hnot := (isClosing_of_closing? hopen).1
    simp only [hopen] at h ⊢
    refine .inr ⟨w' :: waiting, (Option.some.inj h).symm, rfl, fun hclose => ?_⟩
    rw [hnot] at hclose
    cases hclose
  | none =>
    cases hclose : isClosing c with
    | false =>
      simp only [hopen, hclose, Bool.false_eq_true, if_false] at h ⊢
      exact .inr ⟨waiting, (Option.some.inj h).symm, rfl, False.elim⟩
    | true =>
      simp only [hopen, hclose, if_true] at h ⊢
      cases waiting with
      | nil =>
        simp only [List.nil_append] at h
        split at h
        · next hc => exact .inl ⟨rfl, hc, (Option.some.inj h).symm, trivial⟩
        · cases h
      | cons w' waiting =>
        simp only [List.cons_append] at h ⊢
        split at h
        · next hc => exact .inr ⟨waiting, (Option.some.inj h).symm, if_pos hc, by simp⟩
        · cases h

/-- What is waited for first of all need not be: what closes it may stand alone. -/
theorem closes_of_concat {mark : Option Char} {waiting : List Char} {w : Char} {t : Text}
    (h : closes mark (waiting ++ [w]) t) : closes mark waiting t := by
  induction t generalizing mark waiting with
  | nil => simp [closes] at h
  | cons c t ih =>
    cases mark with
    | some mark =>
      rw [closes] at h ⊢
      exact ih h
    | none =>
      cases hq : Text.isQuote c with
      | true =>
        rw [closes_quote hq] at h ⊢
        exact ih h
      | false =>
        obtain ⟨waiting', hw, ht⟩ := exists_waiting hq h
        rw [closes, hq, if_neg Bool.false_ne_true]
        rcases waitingAfter_concat hw with ⟨rfl, -, rfl, halone⟩ | ⟨less, rfl, hless, -⟩
        · rw [halone]
          exact ht
        · rw [hless]
          exact ih ht

/-! ## 2. Stretches with more text behind them -/

theorem string_cons {mark c : Char} (hc : c ≠ '\\') (t : Text) :
    string mark (c :: t) = if c = mark then ([c], t) else push c (string mark t) := by
  rw [string]
  · exact fun e _ => hc e
  · exact fun _ _ e _ => hc e

/-- A name is not continued by a text that starts anew. -/
theorem identifier_extend {t more : Text} (ht : '\\' ∉ t) (hmore : startsAnew more) :
    identifier (t ++ more) = ((identifier t).1, (identifier t).2 ++ more) := by
  induction t with
  | nil =>
    have hstops : stopsName more := by
      cases more with
      | nil => rfl
      | cons c more =>
        simp only [startsAnew, Bool.and_eq_true, Bool.not_eq_true', List.contains_eq_mem,
          decide_eq_false_iff_not] at hmore
        have hc : c ≠ '\\' := fun e => hmore.2 (e ▸ by decide)
        simp [stopsName, hmore.1, hc]
    exact identifier_of_isEscaped (t := []) rfl hstops
  | cons c t ih =>
    rw [List.mem_cons, not_or] at ht
    rw [List.cons_append, identifier_cons (Ne.symm ht.1), identifier_cons (Ne.symm ht.1), ih ht.2]
    split <;> rfl

theorem closes_identifier {waiting : List Char} {t : Text} (ht : '\\' ∉ t)
    (h : closes none waiting t) : closes none waiting (identifier t).2 := by
  induction t with
  | nil => exact h
  | cons c t ih =>
    rw [List.mem_cons, not_or] at ht
    rw [identifier_cons (Ne.symm ht.1)]
    split
    · next hc =>
      exact ih ht.2 (closes_plain (not_isQuote_of_isIdentChar hc) (not_bracket_of_isIdentChar hc) h)
    · exact h

/-- A string that is closed ends by itself. -/
theorem string_extend {mark : Char} {waiting : List Char} {t : Text} (ht : '\\' ∉ t)
    (h : closes (some mark) waiting t) (more : Text) :
    string mark (t ++ more) = ((string mark t).1, (string mark t).2 ++ more) ∧
      closes none waiting (string mark t).2 := by
  induction t with
  | nil => simp [closes] at h
  | cons c t ih =>
    rw [List.mem_cons, not_or] at ht
    rw [closes] at h
    rw [List.cons_append, string_cons (Ne.symm ht.1), string_cons (Ne.symm ht.1)]
    by_cases hc : c = mark
    · rw [if_pos hc] at h
      simp only [if_pos hc]
      exact ⟨trivial, h⟩
    · rw [if_neg hc] at h
      obtain ⟨hstring, hrest⟩ := ih ht.2 h
      simp only [if_neg hc, hstring]
      exact ⟨rfl, hrest⟩

theorem bracketed_cons {c : Char} (hc : c ≠ '\\') (hq : Text.isQuote c = false)
    (opening closing : Char) (depth : Nat) (t : Text) :
    bracketed opening closing none depth (c :: t) =
      if c = opening then push c (bracketed opening closing none (depth + 1) t)
      else if c = closing then
        if depth ≤ 1 then ([], c :: t) else push c (bracketed opening closing none (depth - 1) t)
      else push c (bracketed opening closing none depth t) := by
  rw [bracketed, hq, if_neg Bool.false_ne_true]
  · exact fun e _ => hc e
  · exact fun _ _ e _ => hc e

section Brackets

variable {opening closing : Char} (hpair : closing? opening = some closing) {c : Char}

include hpair

theorem ne_closing (h : isClosing c = false) : c ≠ closing := by
  intro e
  rw [e, (isClosing_of_closing? hpair).2] at h
  cases h

theorem ne_opening (h : closing? c = none) : c ≠ opening := by
  intro e
  rw [e, hpair] at h
  cases h

theorem bracketed_opening (hc : c ≠ '\\') (hq : Text.isQuote c = false) {w : Char}
    (hopen : closing? c = some w) (waiting : List Char) (t : Text) :
    bracketed opening closing none (waiting.count closing + 1) (c :: t) =
      push c (bracketed opening closing none ((w :: waiting).count closing + 1) t) := by
  rw [bracketed_cons hc hq]
  by_cases heq : c = opening
  · rw [heq, hpair] at hopen
    obtain rfl := Option.some.inj hopen
    rw [if_pos heq, List.count_cons_self]
  · have hw : w ≠ closing := fun e => heq (opening_unique (e ▸ hopen) hpair)
    rw [if_neg heq, if_neg (ne_closing hpair (isClosing_of_closing? hopen).1),
      List.count_cons_of_ne hw]

/-- Outside of strings as many brackets are open as closing ones are waited for. -/
theorem bracketed_waiting (hc : c ≠ '\\') (hq : Text.isQuote c = false)
    {waiting less : List Char} (hw : waitingAfter waiting c = some less)
    (hopen : isClosing c → waiting ≠ []) (t : Text) :
    bracketed opening closing none (waiting.count closing + 1) (c :: t) =
      push c (bracketed opening closing none (less.count closing + 1) t) := by
  unfold waitingAfter at hw
  cases hco : closing? c with
  | some w =>
    rw [hco] at hw
    obtain rfl := Option.some.inj hw
    exact bracketed_opening hpair hc hq hco waiting t
  | none =>
    rw [bracketed_cons hc hq, if_neg (ne_opening hpair hco)]
    cases hclose : isClosing c with
    | false =>
      simp only [hco, hclose, Bool.false_eq_true, if_false, Option.some.injEq] at hw
      rw [if_neg (ne_closing hpair hclose), hw]
    | true =>
      simp only [hco, hclose, if_true] at hw
      cases waiting with
      | nil => exact absurd rfl (hopen hclose)
      | cons w waiting =>
        simp only at hw
        split at hw
        · next heq =>
          obtain rfl := Option.some.inj hw
          subst heq
          by_cases hcl : c = closing
          · subst hcl
            rw [if_pos rfl, if_neg (by rw [List.count_cons_self]; omega), List.count_cons_self]
            rfl
          · rw [if_neg hcl, List.count_cons_of_ne hcl]
        · cases hw

/-- The bracket that closes the outermost one ends the stretch. -/
theorem bracketed_closing (t : Text) :
    bracketed opening closing none 1 (closing :: t) = ([], closing :: t) := by
  rcases closing?_cases hpair with ⟨rfl, rfl⟩ | ⟨rfl, rfl⟩ <;> rfl

/-- Brackets that are closed end by themselves. -/
theorem bracketed_extend {mark : Option Char} {waiting : List Char} {t : Text} (ht : '\\' ∉ t)
    (h : closes mark (waiting ++ [closing]) t) (more : Text) :
    ∃ inside rest, closes none [] rest ∧
      bracketed opening closing mark (waiting.count closing + 1) t = (inside, closing :: rest) ∧
      bracketed opening closing mark (waiting.count closing + 1) (t ++ more) =
        (inside, closing :: rest ++ more) := by
  induction t generalizing mark waiting with
  | nil => simp [closes] at h
  | cons c t ih =>
    rw [List.mem_cons, not_or] at ht
    have hc := Ne.symm ht.1
    cases mark with
    | some mark =>
      rw [closes] at h
      obtain ⟨inside, rest, hrest, hbare, hmore⟩ := ih ht.2 h
      rw [List.cons_append, bracketed_in_string hc, bracketed_in_string hc, hbare, hmore]
      exact ⟨c :: inside, rest, hrest, rfl, rfl⟩
    | none =>
      cases hq : Text.isQuote c with
      | true =>
        rw [closes_quote hq] at h
        obtain ⟨inside, rest, hrest, hbare, hmore⟩ := ih ht.2 h
        rw [List.cons_append, bracketed_quote hq, bracketed_quote hq, hbare, hmore]
        exact ⟨c :: inside, rest, hrest, rfl, rfl⟩
      | false =>
        obtain ⟨waiting', hw, hclosed⟩ := exists_waiting hq h
        rcases waitingAfter_concat hw with ⟨rfl, rfl, rfl, -⟩ | ⟨less, rfl, hless, hopen⟩
        · -- the bracket that closes the outermost one
          exact ⟨[], t, hclosed, bracketed_closing hpair t, bracketed_closing hpair (t ++ more)⟩
        · obtain ⟨inside, rest, hrest, hbare, hmore⟩ := ih ht.2 hclosed
          rw [List.cons_append, bracketed_waiting hpair hc hq hless hopen,
            bracketed_waiting hpair hc hq hless hopen, hbare, hmore]
          exact ⟨c :: inside, rest, hrest, rfl, rfl⟩

end Brackets

/-! ## 3. Items with more text behind them -/

/-- A cut with more text behind it. -/
def Cut.extend (cut : Cut) (more : Text) : Cut :=
  ⟨cut.item, cut.rest ++ more⟩

/-- Whatever is dropped from the front outside of strings, the rest closes what it opens. -/
theorem closes_tail {c : Char} (hq : Text.isQuote c = false) {t : Text}
    (h : closes none [] (c :: t)) : closes none [] t := by
  obtain ⟨waiting, hw, ht⟩ := exists_waiting hq h
  unfold waitingAfter at hw
  cases hopen : closing? c with
  | some w =>
    rw [hopen] at hw
    obtain rfl := Option.some.inj hw
    exact closes_of_concat (show closes none ([] ++ [w]) t from ht)
  | none =>
    simp only [hopen, ite_self, Option.some.injEq] at hw
    exact hw ▸ ht

/-- An argument that is closed ends by itself. -/
theorem withArgument_extend (make : Text → Bool → Item) {t : Text} (ht : '\\' ∉ t)
    (h : closes none [')'] t) (more : Text) :
    withArgument make (t ++ more) = (withArgument make t).extend more ∧
      closes none [] (withArgument make t).rest := by
  have hpair : closing? '(' = some ')' := rfl
  have hclosed : closes none ([] ++ [')']) t := h
  obtain ⟨inside, rest, hrest, hbare, hmore⟩ := bracketed_extend hpair ht hclosed more
  have hargument : argument t = (inside, ')' :: rest) := hbare
  have hargument' : argument (t ++ more) = (inside, ')' :: rest ++ more) := hmore
  simp only [withArgument, hargument, hargument']
  exact ⟨rfl, hrest⟩

/-- What stands behind a name: an argument that is closed, or nothing that is one. -/
theorem identifier_rest {t more : Text} (ht : '\\' ∉ t) (h : closes none [] t)
    (hmore : startsAnew more) :
    (∃ u, (identifier t).2 = '(' :: u ∧ '\\' ∉ u ∧ closes none [')'] u) ∨
      (∀ u, (identifier t).2 ≠ '(' :: u ∧ (identifier t).2 ++ more ≠ '(' :: u) := by
  have hclosed := closes_identifier ht h
  cases hrest : (identifier t).2 with
  | nil =>
    refine .inr fun u => ⟨by simp, fun e => ?_⟩
    rw [List.nil_append] at e
    rw [e] at hmore
    cases hmore
  | cons c u =>
    by_cases hc : c = '('
    · subst hc
      rw [hrest] at hclosed
      refine .inl ⟨u, rfl, fun hmem => ht ?_, hclosed⟩
      rw [← identifier_append t, hrest]
      exact List.mem_append_right _ (List.mem_cons_of_mem _ hmem)
    · exact .inr fun v => ⟨fun e => hc (List.cons.inj e).1, fun e => hc (List.cons.inj e).1⟩

theorem pseudoElement_extend {t more : Text} (ht : '\\' ∉ t) (h : closes none [] t)
    (hmore : startsAnew more) :
    pseudoElement (t ++ more) = (pseudoElement t).extend more ∧
      closes none [] (pseudoElement t).rest := by
  rw [pseudoElement, pseudoElement, identifier_extend ht hmore]
  rcases identifier_rest ht h hmore with ⟨u, hrest, hu, hclosed⟩ | hnot
  · simp only [hrest]
    exact withArgument_extend _ hu hclosed more
  · dsimp only
    split
    · next u heq => exact absurd heq (hnot u).2
    · split
      · next u heq => exact absurd heq (hnot u).1
      · exact ⟨rfl, closes_identifier ht h⟩

theorem pseudoClass_call {t u : Text} (hmode : Mode.ofName? (identifier t).1 = none)
    (hrest : (identifier t).2 = '(' :: u) :
    pseudoClass t = withArgument (.call (':' :: (identifier t).1 ++ ['('])) u := by
  rw [pseudoClass]
  simp only [hmode, hrest]

theorem pseudoClass_bare {t : Text} (hmode : Mode.ofName? (identifier t).1 = none)
    (hrest : ∀ u, (identifier t).2 ≠ '(' :: u) :
    pseudoClass t = ⟨.plain (':' :: (identifier t).1), (identifier t).2⟩ := by
  rw [pseudoClass]
  simp only [hmode]

theorem pseudoClass_extend {t more : Text} (ht : '\\' ∉ t) (h : closes none [] t)
    (hmore : startsAnew more) (hmode : Mode.ofName? (identifier t).1 = none) :
    pseudoClass (t ++ more) = (pseudoClass t).extend more ∧
      closes none [] (pseudoClass t).rest := by
  have hname := identifier_extend ht hmore
  have hmode' : Mode.ofName? (identifier (t ++ more)).1 = none := by rw [hname]; exact hmode
  rcases identifier_rest ht h hmore with ⟨u, hrest, hu, hclosed⟩ | hnot
  · have hrest' : (identifier (t ++ more)).2 = '(' :: (u ++ more) := by rw [hname, hrest]; rfl
    rw [pseudoClass_call hmode hrest, pseudoClass_call hmode' hrest', hname]
    exact withArgument_extend _ hu hclosed more
  · have hrest' : ∀ u, (identifier (t ++ more)).2 ≠ '(' :: u := by rw [hname]; exact fun u => (hnot u).2
    rw [pseudoClass_bare hmode fun u => (hnot u).1, pseudoClass_bare hmode' hrest', hname]
    exact ⟨rfl, closes_identifier ht h⟩

theorem lexeme_quote {c : Char} (hc : Text.isQuote c = true) (t : Text) :
    lexeme c t = ⟨.plain (c :: (string c t).1), (string c t).2⟩ := by
  have hcomma : c ≠ ',' := by
    intro e
    rw [e] at hc
    cases hc
  unfold lexeme
  rw [if_neg hcomma, if_pos hc]

theorem lexeme_mark {c : Char} (hc : c = '.' ∨ c = '#') (t : Text) :
    lexeme c t = if (identifier t).1.isEmpty then ⟨.plain [c], t⟩
      else ⟨.name c (identifier t).1, (identifier t).2⟩ := by
  rcases hc with rfl | rfl <;> rfl

theorem lexeme_pseudoClass {t : Text} (h : t.head? ≠ some ':') : lexeme ':' t = pseudoClass t := by
  cases t with
  | nil => rfl
  | cons c t =>
    have hc : c ≠ ':' := fun e => h (congrArg some e)
    unfold lexeme
    simp [hc, Text.isQuote]

theorem lexeme_square_extend {t : Text} (ht : '\\' ∉ t) (h : closes none [']'] t) (more : Text) :
    lexeme '[' (t ++ more) = (lexeme '[' t).extend more ∧ closes none [] (lexeme '[' t).rest := by
  have hpair : closing? '[' = some ']' := rfl
  have hclosed : closes none ([] ++ [']']) t := h
  obtain ⟨inside, rest, hrest, hbare, hmore⟩ := bracketed_extend hpair ht hclosed more
  have hlexeme : ∀ u v, bracketed '[' ']' none 1 u = (inside, ']' :: v) →
      lexeme '[' u = ⟨.plain ('[' :: (inside ++ [']'])), v⟩ := by
    intro u v hu
    unfold lexeme
    simp [hu, Text.isQuote]
  rw [hlexeme t rest hbare, hlexeme (t ++ more) (rest ++ more) hmore]
  exact ⟨rfl, hrest⟩

theorem lexeme_colon_extend {t more : Text} (ht : '\\' ∉ t) (h : closes none [] t)
    (hmore : startsAnew more) (hmodes : mentionsModes (':' :: t) = false) :
    lexeme ':' (t ++ more) = (lexeme ':' t).extend more ∧ closes none [] (lexeme ':' t).rest := by
  by_cases hcolon : t.head? = some ':'
  · obtain ⟨u, rfl⟩ := List.head?_eq_some_iff.mp hcolon
    rw [List.mem_cons, not_or] at ht
    exact pseudoElement_extend ht.2 (closes_tail rfl h) hmore
  · have hcolon' : (t ++ more).head? ≠ some ':' := by
      cases t with
      | nil =>
        intro e
        obtain ⟨u, rfl⟩ := List.head?_eq_some_iff.mp e
        cases hmore
      | cons c t => exact hcolon
    rw [lexeme_pseudoClass hcolon, lexeme_pseudoClass hcolon']
    exact pseudoClass_extend ht h hmore (ofName?_identifier hmodes)

/-- **An item of a selector that stands alone ends by itself**, and what follows it closes what it
    opens. -/
theorem lexeme_extend {c : Char} {t more : Text} (h : StandsAlone (c :: t))
    (hmore : startsAnew more) :
    lexeme c (t ++ more) = (lexeme c t).extend more ∧ closes none [] (lexeme c t).rest := by
  obtain ⟨hclosed, hescape, hmodes⟩ := h
  rw [List.mem_cons, not_or] at hescape
  obtain ⟨hc, ht⟩ := hescape
  cases hq : Text.isQuote c with
  | true =>
    rw [closes_quote hq] at hclosed
    obtain ⟨hstring, hrest⟩ := string_extend ht hclosed more
    rw [lexeme_quote hq, lexeme_quote hq, hstring]
    exact ⟨rfl, hrest⟩
  | false =>
    have htail := closes_tail hq hclosed
    by_cases hmark : c = '.' ∨ c = '#'
    · rw [lexeme_mark hmark, lexeme_mark hmark, identifier_extend ht hmore]
      dsimp only
      split
      · exact ⟨rfl, htail⟩
      · exact ⟨rfl, closes_identifier ht htail⟩
    by_cases hcomma : c = ','
    · subst hcomma
      exact ⟨rfl, htail⟩
    by_cases hsquare : c = '['
    · subst hsquare
      exact lexeme_square_extend ht hclosed more
    by_cases hcolon : c = ':'
    · subst hcolon
      exact lexeme_colon_extend ht htail hmore hmodes
    · have hother : c ∉ ",\"'[\\.#:".toList := by
        simp only [Text.isQuote, Bool.or_eq_false_iff, beq_eq_false_iff_ne] at hq
        simp [hcomma, hq, hsquare, Ne.symm hc, not_or.mp hmark, hcolon]
      rw [lexeme_other hother, lexeme_other hother]
      exact ⟨rfl, htail⟩

/-! ## 4. Marking -/

theorem modeAfter_pseudoElement (t : Text) (mode : Mode) :
    (pseudoElement t).item.modeAfter mode mode = mode := by
  rw [pseudoElement]
  dsimp only
  split
  · rfl
  · rfl

theorem modeAfter_pseudoClass {t : Text} (h : mentionsModes (':' :: t) = false) (mode : Mode) :
    (pseudoClass t).item.modeAfter mode mode = mode := by
  have hmode := ofName?_identifier h
  by_cases hcall : ∃ u, (identifier t).2 = '(' :: u
  · obtain ⟨u, hrest⟩ := hcall
    rw [pseudoClass_call hmode hrest]
    rfl
  · rw [pseudoClass_bare hmode fun u hu => hcall ⟨u, hu⟩]
    rfl

/-- Where no mode is mentioned, none is switched to. -/
theorem modeAfter_lexeme {c : Char} {t : Text} (h : mentionsModes (c :: t) = false) (mode : Mode) :
    (lexeme c t).item.modeAfter mode mode = mode := by
  unfold lexeme
  split
  · rfl
  split
  · rfl
  split
  · rfl
  split
  · rfl
  split
  · dsimp only
    split
    · rfl
    · rfl
  split
  · next hc =>
    split
    · exact modeAfter_pseudoElement _ mode
    · exact modeAfter_pseudoClass (hc ▸ h) mode
  · rfl

theorem StandsAlone.rest {c : Char} {t : Text} (h : StandsAlone (c :: t))
    (hclosed : Selector.closes none [] (lexeme c t).rest) : StandsAlone (lexeme c t).rest := by
  have happend := lexeme_append c t
  refine ⟨hclosed, fun hmem => h.unescaped ?_, ?_⟩
  · rw [← happend]
    exact List.mem_append_right _ hmem
  · cases hmodes : mentionsModes (lexeme c t).rest with
    | false => rfl
    | true =>
      have hwhole := mentionsModes_within (lexeme c t).item.text [] hmodes
      rw [List.append_nil, happend, h.modeless] at hwhole
      cases hwhole

/-- **What stands alone is marked by itself.** -/
theorem localize_append {s more : Text} (h : StandsAlone s) (hmore : startsAnew more)
    (mode : Mode) :
    localize mode mode (s ++ more) = localize mode mode s ++ localize mode mode more := by
  match s with
  | [] =>
    have hnil : localize mode mode [] = [] := by rw [localize]
    rw [hnil, List.nil_append, List.nil_append]
  | c :: t =>
    have hlength := lexeme_length c t
    obtain ⟨hlexeme, hclosed⟩ := lexeme_extend h hmore
    have hmode := modeAfter_lexeme h.modeless mode
    rw [List.cons_append, localize_cons, localize_cons, hlexeme]
    simp only [Cut.extend, hmode]
    rw [localize_append (h.rest hclosed) hmore mode, List.append_assoc]
termination_by s.length

/-- Whether a text has only characters that are copied one by one. -/
def isProse (t : Text) : Bool :=
  t.all fun c => !"\"'[\\.#:".toList.contains c

/-- Prose is passed over. -/
theorem localize_prose {t : Text} (h : isProse t) (mode : Mode) (more : Text) :
    localize mode mode (t ++ more) = t ++ localize mode mode more := by
  induction t with
  | nil => rfl
  | cons c t ih =>
    rw [isProse, List.all_cons, Bool.and_eq_true, Bool.not_eq_true', List.contains_eq_mem,
      decide_eq_false_iff_not] at h
    have hcopied : localize mode mode (c :: (t ++ more)) = c :: localize mode mode (t ++ more) := by
      rw [localize_cons]
      by_cases hcomma : c = ','
      · subst hcomma
        rfl
      · have hother : c ∉ ",\"'[\\.#:".toList := by
          intro hmem
          rcases List.mem_cons.mp hmem with hc | hc
          · exact hcomma hc
          · exact h.1 hc
        rw [lexeme_other hother]
        rfl
    rw [List.cons_append, hcopied, ih h.2]
    rfl

theorem markLocal_append {s more : Text} (h : StandsAlone s) (hmore : startsAnew more) :
    markLocal (s ++ more) = markLocal s ++ markLocal more :=
  localize_append h hmore .local

theorem markLocal_prose {t : Text} (h : isProse t) (more : Text) :
    markLocal (t ++ more) = t ++ markLocal more :=
  localize_prose h .local more

/-- **A selector with a comment in it.** What stands in front of the comment is marked by itself, and
    the comment is read as a part of the selector. If its text stands alone it is marked by itself
    too, and so is what stands behind it; the comment is kept as it is exactly if there is nothing
    to mark in it. It is always kept, with all around it marked, if it is prose. -/
theorem markLocal_commented {a : Text} (ha : StandsAlone a) (comment b : Text) :
    let whole := a ++ "/*".toList ++ comment ++ "*/".toList ++ b
    let kept := markLocal a ++ "/*".toList ++ comment ++ "*/".toList ++ markLocal b
    markLocal whole = markLocal a ++ "/*".toList ++ markLocal (comment ++ "*/".toList ++ b) ∧
    (StandsAlone comment →
      markLocal whole =
        markLocal a ++ "/*".toList ++ markLocal comment ++ "*/".toList ++ markLocal b ∧
      (markLocal whole = kept ↔ markLocal comment = comment)) ∧
    (isProse comment → markLocal whole = kept) := by
  intro whole kept
  have hopen : isProse "/*".toList := by decide
  have hclose : isProse "*/".toList := by decide
  have hfront : markLocal whole =
      markLocal a ++ "/*".toList ++ markLocal (comment ++ "*/".toList ++ b) := by
    have htext : whole = a ++ ("/*".toList ++ (comment ++ "*/".toList ++ b)) := by
      simp only [whole, List.append_assoc]
    rw [htext, markLocal_append ha rfl, markLocal_prose hopen]
    exact (List.append_assoc _ _ _).symm
  refine ⟨hfront, fun halone => ?_, fun hprose => ?_⟩
  · have hback : markLocal (comment ++ "*/".toList ++ b) =
        markLocal comment ++ "*/".toList ++ markLocal b := by
      rw [List.append_assoc, markLocal_append halone rfl, markLocal_prose hclose, List.append_assoc]
    have hparts : markLocal whole =
        markLocal a ++ "/*".toList ++ markLocal comment ++ "*/".toList ++ markLocal b := by
      rw [hfront, hback]
      simp only [List.append_assoc]
    refine ⟨hparts, ?_⟩
    rw [hparts]
    simp only [kept, List.append_assoc, List.append_cancel_left_eq, List.append_cancel_right_eq]
  · have hback : markLocal (comment ++ "*/".toList ++ b) = comment ++ "*/".toList ++ markLocal b := by
      rw [List.append_assoc, markLocal_prose hprose, markLocal_prose hclose, List.append_assoc]
    rw [hfront, hback]
    simp only [kept, List.append_assoc]

theorem markLocal_commented_list :
    let a := ".a:is(.b, [x=')'])".toList
    let comment := " see (1), or #2: [d] ".toList
    StandsAlone a ∧ StandsAlone comment ∧
      markLocal (a ++ "/*".toList ++ comment ++ "*/".toList ++ " > .c".toList) =
        (":local(.a):is(:local(.b), [x=')'])/* see (1), or :local(#2): [d] */ > " ++
          ":local(.c)").toList := by
  have ha : StandsAlone ".a:is(.b, [x=')'])".toList := by decide
  have hcomment : StandsAlone " see (1), or #2: [d] ".toList := by decide
  refine ⟨ha, hcomment, ?_⟩
  rw [((markLocal_commented ha _ _).2.1 hcomment).1]
  decide +kernel

/-- A comment with an apostrophe in it hides the class behind it. -/
theorem markLocal_apostrophe :
    StandsAlone ".a".toList ∧ StandsAlone ".b".toList ∧
      markLocal (".a".toList ++ "/*".toList ++ "it's".toList ++ "*/".toList ++ ".b".toList) =
        ":local(.a)/*it's*/.b".toList ∧
      markLocal ".a".toList ++ "/*".toList ++ "it's".toList ++ "*/".toList ++
        markLocal ".b".toList = ":local(.a)/*it's*/:local(.b)".toList := by
  refine ⟨by decide, by decide, ?_, ?_⟩
  · decide +kernel
  · decide +kernel

end StyleModules.Selector
