import StyleModules.Proofs.CommentedSelector

/-!
Reading a selector one character at a time.

A `Reader` knows where it stands in any text whatsoever, malformed ones included. Four kinds of
stretches hide what stands in them (`Reader.hides`):

* a backslash and the character behind it;
* a string, up to the next mark of its kind or the end of the text;
* an attribute, up to the bracket that closes it or the end of the argument that it stands in;
* the argument of a pseudo-element, up to the parenthesis that closes it.

Backslashes work everywhere, strings hide brackets and parentheses, and parentheses are counted in
attributes as well: the argument of a pseudo-class ends at its closing parenthesis, and an attribute
in it with it.

The reader passes the stretches that a selector is cut into (`identifier`, `string`, `bracketed`)
as one would expect: `run_identifier`, `run_string`, `covers_bracketed`, `run_argument`.
-/

namespace StyleModules.Selector

/-! ## 1. The reader -/

/-- What an open parenthesis encloses: the argument of a pseudo-class, that of a pseudo-element, or
    neither. -/
inductive Paren where
  | call
  | element
  | plain
  deriving DecidableEq, Repr

/-- What leads up to a place, as far as a parenthesis there depends on it: nothing, a colon, a colon
    and a name, two colons and maybe a name. -/
inductive Lead where
  | none
  | colon
  | pseudo
  | element
  deriving DecidableEq, Repr

namespace Lead

/-- Behind a character of a name. -/
def next : Lead → Lead
  | colon => pseudo
  | l => l

/-- Behind a character. -/
def after (l : Lead) (c : Char) : Lead :=
  if c = ':' then if l = colon then element else colon
  else if Text.isIdentChar c then l.next
  else none

/-- What a parenthesis encloses. -/
def opens : Lead → Paren
  | none => .plain
  | colon => .call
  | pseudo => .call
  | element => .element

theorem next_next (l : Lead) : l.next.next = l.next := by
  cases l <;> rfl

end Lead

/-- A reader of selectors at some place. -/
structure Reader where
  /-- Whether a backslash takes the next character along. -/
  escaped : Bool
  /-- The mark of the string that it stands in. -/
  mark : Option Char
  /-- The number of square brackets that are open in the attribute that it stands in. -/
  squares : Nat
  /-- The open parentheses, innermost first. -/
  parens : List Paren
  lead : Lead
  deriving DecidableEq, Repr

namespace Reader

/-- Whether the reader stands in the argument of a pseudo-element. -/
def inElement (r : Reader) : Bool :=
  r.parens.contains .element

/-- Whether what stands here is no part of the selector itself. -/
def hides (r : Reader) : Bool :=
  r.escaped || r.mark.isSome || r.squares != 0 || r.inElement

/-- Behind a closing parenthesis. An attribute does not reach beyond the argument of a
    pseudo-class. -/
def close (r : Reader) : Reader :=
  match r.parens with
  | [] => { r with lead := .none }
  | .call :: ps => { r with squares := 0, parens := ps, lead := .none }
  | _ :: ps => { r with parens := ps, lead := .none }

/-- Behind a character that stands outside of strings and is not escaped. -/
def read (r : Reader) (c : Char) : Reader :=
  if Text.isQuote c then { r with mark := some c, lead := .none }
  else if c = '(' then { r with parens := r.lead.opens :: r.parens, lead := .none }
  else if c = ')' then r.close
  else if r.inElement then r
  else if c = '[' then { r with squares := r.squares + 1, lead := .none }
  else if c = ']' then { r with squares := r.squares - 1, lead := .none }
  else if r.squares != 0 then r
  else { r with lead := r.lead.after c }

/-- Behind one more character. -/
def step (r : Reader) (c : Char) : Reader :=
  if r.escaped then { r with escaped := false, lead := r.lead.next }
  else if c = '\\' then { r with escaped := true }
  else
    match r.mark with
    | some mark => { r with mark := if c = mark then none else some mark }
    | none => r.read c

/-- Behind more text. -/
def run (r : Reader) (t : Text) : Reader :=
  t.foldl step r

/-- In front of a selector. -/
def start : Reader :=
  ⟨false, none, 0, [], .none⟩

/-- Outside of everything that hides, but for parentheses. -/
def standing (ps : List Paren) (l : Lead) : Reader :=
  ⟨false, none, 0, ps, l⟩

@[simp] theorem run_nil (r : Reader) : r.run [] = r := rfl

@[simp] theorem run_cons (r : Reader) (c : Char) (t : Text) :
    r.run (c :: t) = (r.step c).run t := rfl

theorem run_append (r : Reader) (s t : Text) : r.run (s ++ t) = (r.run s).run t :=
  List.foldl_append

theorem hides_standing {ps : List Paren} (hps : .element ∉ ps) (l : Lead) :
    (standing ps l).hides = false := by
  simp [hides, standing, inElement, hps]

/-! ## 2. Steps -/

section Step

variable {r : Reader}

theorem step_escaped (h : r.escaped = true) (c : Char) :
    r.step c = { r with escaped := false, lead := r.lead.next } := by
  rw [step, if_pos h]

theorem step_backslash (h : r.escaped = false) : r.step '\\' = { r with escaped := true } := by
  rw [step, h, if_neg Bool.false_ne_true, if_pos rfl]

/-- A backslash and a character are passed together. -/
theorem run_escape (h : r.escaped = false) (c : Char) :
    (r.step '\\').step c = { r with lead := r.lead.next } := by
  rw [step_backslash h, step_escaped rfl, ← h]

theorem step_in_string (h : r.escaped = false) {c : Char} (hc : c ≠ '\\') {mark : Char}
    (hmark : r.mark = some mark) :
    r.step c = { r with mark := if c = mark then none else some mark } := by
  rw [step, h, if_neg Bool.false_ne_true, if_neg hc]
  simp only [hmark]

theorem step_eq_read (h : r.escaped = false) {c : Char} (hc : c ≠ '\\') (hmark : r.mark = none) :
    r.step c = r.read c := by
  rw [step, h, if_neg Bool.false_ne_true, if_neg hc]
  simp only [hmark]

theorem read_quote {c : Char} (hc : Text.isQuote c = true) :
    r.read c = { r with mark := some c, lead := .none } := by
  rw [read, if_pos hc]

theorem read_close : r.read ')' = r.close :=
  rfl

/-- A character that is neither a quotation mark nor a parenthesis. -/
theorem read_other {c : Char} (hq : Text.isQuote c = false) (ho : c ≠ '(') (hc : c ≠ ')') :
    r.read c =
      if r.inElement then r
      else if c = '[' then { r with squares := r.squares + 1, lead := .none }
      else if c = ']' then { r with squares := r.squares - 1, lead := .none }
      else if r.squares != 0 then r
      else { r with lead := r.lead.after c } := by
  rw [read, hq, if_neg Bool.false_ne_true, if_neg ho, if_neg hc]

section Square

variable (h : r.escaped = false) (hmark : r.mark = none) (helement : r.inElement = false)

include h hmark helement

theorem step_openSquare : r.step '[' = { r with squares := r.squares + 1, lead := .none } := by
  rw [step_eq_read h (by decide) hmark, read_other rfl (by decide) (by decide), helement,
    if_neg Bool.false_ne_true, if_pos rfl]

theorem step_closeSquare : r.step ']' = { r with squares := r.squares - 1, lead := .none } := by
  rw [step_eq_read h (by decide) hmark, read_other rfl (by decide) (by decide), helement,
    if_neg Bool.false_ne_true, if_neg (by decide), if_pos rfl]

end Square

/-- Only a backslash escapes. -/
theorem escaped_step (h : r.escaped = false) {c : Char} (hc : c ≠ '\\') :
    (r.step c).escaped = false := by
  cases hmark : r.mark with
  | some mark => rw [step_in_string h hc hmark]; exact h
  | none =>
    rw [step_eq_read h hc hmark]
    unfold read close
    repeat' split
    all_goals exact h

end Step

end Reader

/-- Whether a character is the mark of a class or an id. -/
def BeginsName (c : Char) : Prop :=
  c = '.' ∨ c = '#'

instance (c : Char) : Decidable (BeginsName c) :=
  inferInstanceAs (Decidable (c = '.' ∨ c = '#'))

theorem BeginsName.not_isIdentChar {c : Char} (h : BeginsName c) : Text.isIdentChar c = false := by
  rcases h with rfl | rfl <;> rfl

namespace Reader

/-! ## 3. Stretches without names -/

/-- Every mark of a class or an id in a text is hidden from the reader. -/
def Passes (r : Reader) (t : Text) : Prop :=
  ∀ a c b, t = a ++ c :: b → BeginsName c → (r.run a).hides = true

namespace Passes

theorem nil (r : Reader) : r.Passes [] := by
  intro a c b h
  exact absurd h.symm (by simp)

theorem cons {r : Reader} {c : Char} {t : Text} (hc : BeginsName c → r.hides = true)
    (ht : (r.step c).Passes t) : r.Passes (c :: t) := by
  intro a d b h hd
  cases a with
  | nil =>
    obtain ⟨rfl, rfl⟩ := List.cons.inj h
    exact hc hd
  | cons e a =>
    obtain ⟨rfl, rfl⟩ := List.cons.inj h
    exact ht a d b rfl hd

theorem single {r : Reader} {c : Char} (hc : ¬BeginsName c) : r.Passes [c] :=
  cons (fun h => absurd h hc) (nil _)

theorem head {r : Reader} {c : Char} {t : Text} (h : r.Passes (c :: t)) (hc : BeginsName c) :
    r.hides = true :=
  h [] c t rfl hc

theorem tail {r : Reader} {c : Char} {t : Text} (h : r.Passes (c :: t)) : (r.step c).Passes t := by
  intro a d b ht hd
  exact h (c :: a) d b (by rw [ht]; rfl) hd

theorem append {r : Reader} {s t : Text} (hs : r.Passes s) (ht : (r.run s).Passes t) :
    r.Passes (s ++ t) := by
  induction s generalizing r with
  | nil => exact ht
  | cons c s ih => exact cons hs.head (ih hs.tail ht)

/-- A backslash hides the character behind it. -/
theorem escape {r : Reader} (h : r.escaped = false) {c : Char} {t : Text}
    (ht : Passes { r with lead := r.lead.next } t) : r.Passes ('\\' :: c :: t) := by
  refine cons (fun hc => absurd hc (by decide)) (cons (fun _ => ?_) ?_)
  · rw [step_backslash h]
    rfl
  · rw [run_escape h]
    exact ht

end Passes

/-- A character that neither hides nor encloses anything only leads on. -/
theorem step_standing {ps : List Paren} (hps : .element ∉ ps) (l : Lead) {c : Char}
    (hc : c ∉ "\\\"'()[]".toList) : (standing ps l).step c = standing ps (l.after c) := by
  have hne : ∀ d ∈ "\\\"'()[]".toList, c ≠ d := by
    intro d hd e
    exact hc (e ▸ hd)
  have hq : Text.isQuote c = false := by
    simp [Text.isQuote, hne '"' (by decide), hne '\'' (by decide)]
  have helement : (standing ps l).inElement = false := by simp [standing, inElement, hps]
  rw [step_eq_read rfl (hne _ (by decide)) rfl,
    read_other hq (hne _ (by decide)) (hne _ (by decide)), helement, if_neg Bool.false_ne_true,
    if_neg (hne _ (by decide)), if_neg (hne _ (by decide))]
  rfl

theorem step_identChar {ps : List Paren} (hps : .element ∉ ps) (l : Lead) {c : Char}
    (hc : Text.isIdentChar c) : (standing ps l).step c = standing ps l.next := by
  have hall : ∀ d ∈ "\\\"'()[]".toList, Text.isIdentChar d = false := by simp; decide
  have hcolon : c ≠ ':' := by rintro rfl; cases hc
  have hplain : c ∉ "\\\"'()[]".toList := by
    intro hmem
    rw [hall c hmem] at hc
    cases hc
  rw [step_standing hps l hplain, Lead.after, if_neg hcolon, if_pos hc]

/-- Nothing in a name begins another one. -/
theorem passes_identifier {ps : List Paren} (hps : .element ∉ ps) (l : Lead) (t : Text) :
    (standing ps l).Passes (identifier t).1 := by
  fun_induction identifier t generalizing l with
  | case1 => exact .nil _
  | case2 => exact .cons (fun h => absurd h (by decide)) (.nil _)
  | case3 c t ih => exact .escape rfl (ih l.next)
  | case4 c t _ _ hc ih =>
    refine .cons (fun h => ?_) ?_
    · rw [h.not_isIdentChar] at hc
      cases hc
    · rw [step_identChar hps l hc]
      exact ih l.next
  | case5 => exact .nil _

/-- A name with something behind it leads on. -/
theorem run_identifier {ps : List Paren} (hps : .element ∉ ps) (l : Lead) {t : Text}
    (h : (identifier t).2 ≠ []) :
    (standing ps l).run (identifier t).1 =
      standing ps (if (identifier t).1.isEmpty then l else l.next) := by
  -- a name of one character or more leads on once
  have honce : ∀ name : Text, (if name.isEmpty then l.next else l.next.next) = l.next := by
    intro name
    rw [l.next_next, ite_self]
  fun_induction identifier t generalizing l with
  | case1 => exact absurd rfl h
  | case2 => exact absurd rfl h
  | case3 c t ih =>
    have hrest := ih l.next h (fun name => by rw [l.next.next_next, ite_self])
    simp only [push_fst, run_cons, run_escape (r := standing ps l) rfl c]
    exact hrest.trans (congrArg (standing ps) (honce _))
  | case4 c t _ _ hc ih =>
    have hrest := ih l.next h (fun name => by rw [l.next.next_next, ite_self])
    rw [push_fst, run_cons, step_identChar hps l hc, hrest]
    exact congrArg (standing ps) (honce _)
  | case5 => rfl

section Colon

variable {ps : List Paren} (hps : .element ∉ ps)

include hps

theorem step_colon : (standing ps .none).step ':' = standing ps .colon :=
  step_standing hps .none (by decide)

theorem passes_colon (t : Text) : (standing ps .none).Passes (':' :: (identifier t).1) := by
  refine .cons (fun h => absurd h (by decide)) ?_
  rw [step_colon hps]
  exact passes_identifier hps .colon t

theorem run_colon {t : Text} (h : (identifier t).2 ≠ []) :
    (standing ps .none).run (':' :: (identifier t).1) =
      standing ps (if (identifier t).1.isEmpty then .colon else .pseudo) := by
  rw [run_cons, step_colon hps, run_identifier hps .colon h]
  rfl

theorem run_two_colons : ((standing ps .none).step ':').step ':' = standing ps .element := by
  rw [step_colon hps]
  exact step_standing hps .colon (by decide)

theorem passes_colons (t : Text) : (standing ps .none).Passes (':' :: ':' :: (identifier t).1) := by
  refine .cons (fun h => absurd h (by decide)) (.cons (fun h => absurd h (by decide)) ?_)
  rw [run_two_colons hps]
  exact passes_identifier hps .element t

theorem run_colons {t : Text} (h : (identifier t).2 ≠ []) :
    (standing ps .none).run (':' :: ':' :: (identifier t).1) = standing ps .element := by
  rw [run_cons, run_cons, run_two_colons hps, run_identifier hps .element h]
  exact congrArg (standing ps) (ite_self _)

end Colon

/-- Everything in a string is hidden. -/
theorem passes_string (mark : Char) (n : Nat) (ps : List Paren) (t : Text) :
    Passes ⟨false, some mark, n, ps, .none⟩ (string mark t).1 := by
  fun_induction string mark t with
  | case1 => exact .nil _
  | case2 => exact .cons (fun _ => rfl) (.nil _)
  | case3 c t ih => exact .escape rfl ih
  | case4 => exact .cons (fun _ => rfl) (.nil _)
  | case5 c t h h' hc ih =>
    refine .cons (fun _ => rfl) ?_
    rw [step_in_string rfl (ne_backslash h h') rfl, if_neg hc]
    exact ih

/-- A string with something behind it is closed. -/
theorem run_string (mark : Char) (n : Nat) (ps : List Paren) {t : Text}
    (h : (string mark t).2 ≠ []) :
    run ⟨false, some mark, n, ps, .none⟩ (string mark t).1 = ⟨false, none, n, ps, .none⟩ := by
  fun_induction string mark t with
  | case1 => exact absurd rfl h
  | case2 => exact absurd rfl h
  | case3 c t ih =>
    simp only [push_fst, run_cons]
    rw [run_escape rfl]
    exact ih h
  | case4 t h1 h2 =>
    rw [run_cons, step_in_string rfl (ne_backslash h1 h2) rfl, if_pos rfl]
    rfl
  | case5 c t h1 h2 hc ih =>
    rw [push_fst, run_cons, step_in_string rfl (ne_backslash h1 h2) rfl, if_neg hc]
    exact ih h

/-! ## 4. Parentheses -/

section Close

variable (r : Reader)

theorem parens_close : r.close.parens = r.parens.tail := by
  unfold close
  split <;> simp [*]

theorem mark_close : r.close.mark = r.mark := by
  unfold close
  split <;> rfl

theorem escaped_close : r.close.escaped = r.escaped := by
  unfold close
  split <;> rfl

/-- Only parentheses open or close parentheses. -/
theorem parens_read_other {c : Char} (ho : c ≠ '(') (hc : c ≠ ')') :
    (r.read c).parens = r.parens := by
  unfold read
  rw [if_neg ho, if_neg hc]
  repeat' split
  all_goals rfl

/-- Only quotation marks begin a string. -/
theorem mark_read {c : Char} (hq : Text.isQuote c = false) : (r.read c).mark = r.mark := by
  unfold read
  rw [hq, if_neg Bool.false_ne_true]
  repeat' split
  all_goals first | rfl | exact r.mark_close

end Close

/-- A text in which no parenthesis of `base` is closed. -/
def Keeps (base : List Paren) (r : Reader) (t : Text) : Prop :=
  ∀ a b, t = a ++ b → base <:+ (r.run a).parens

namespace Keeps

variable {base : List Paren} {r : Reader}

theorem nil (h : base <:+ r.parens) : r.Keeps base [] := by
  intro a b hab
  obtain ⟨rfl, rfl⟩ := List.append_eq_nil_iff.mp hab.symm
  exact h

theorem cons {c : Char} {t : Text} (h : base <:+ r.parens) (ht : (r.step c).Keeps base t) :
    r.Keeps base (c :: t) := by
  intro a b hab
  cases a with
  | nil => exact h
  | cons d a =>
    obtain ⟨rfl, rfl⟩ := List.cons.inj hab
    exact ht a b rfl

theorem tail {c : Char} {t : Text} (h : r.Keeps base (c :: t)) : (r.step c).Keeps base t := by
  intro a b hab
  exact h (c :: a) b (by rw [hab]; rfl)

theorem rest {s t : Text} (h : r.Keeps base (s ++ t)) : (r.run s).Keeps base t := by
  intro a b hab
  rw [← run_append]
  exact h (s ++ a) b (by rw [hab, List.append_assoc])

theorem front {s t : Text} (h : r.Keeps base (s ++ t)) : r.Keeps base s := by
  intro a b hab
  exact h a (b ++ t) (by rw [hab, List.append_assoc])

end Keeps

/-- A text in which no parenthesis of `base` is closed, cut off from the rest, if there is one, at
    the parenthesis that closes the innermost of them. -/
structure Encloses (base : List Paren) (r : Reader) (cut : Text × Text) : Prop where
  keeps : r.Keeps base cut.1
  unescaped : cut.2 ≠ [] → (r.run cut.1).escaped = false
  outside : cut.2 ≠ [] → (r.run cut.1).mark = none
  closes : cut.2 ≠ [] → (r.run cut.1).parens = base

theorem Encloses.cons {base : List Paren} {r : Reader} {c : Char} {cut : Text × Text}
    (hbase : base <:+ r.parens) (h : (r.step c).Encloses base cut) :
    r.Encloses base (push c cut) :=
  ⟨.cons hbase h.keeps, h.unescaped, h.outside, h.closes⟩

/-- What stands in parentheses closes none of those around it, and if it ends, it ends at the one
    that closes the innermost of these. -/
theorem encloses_bracketed {mark : Option Char} {depth : Nat} {t : Text} {r : Reader}
    {inner base : List Paren} (hescaped : r.escaped = false) (hmark : r.mark = mark)
    (hparens : r.parens = inner ++ base) (hdepth : inner.length + 1 = depth) :
    r.Encloses base (bracketed '(' ')' mark depth t) := by
  have hbase : base <:+ r.parens := hparens ▸ List.suffix_append inner base
  fun_induction bracketed '(' ')' mark depth t generalizing r inner with
  | case1 =>
    exact ⟨.nil hbase, fun h => absurd rfl h, fun h => absurd rfl h, fun h => absurd rfl h⟩
  | case2 =>
    have hstep := step_backslash hescaped
    exact ⟨.cons hbase (.nil (hstep ▸ hbase)), fun h => absurd rfl h, fun h => absurd rfl h,
      fun h => absurd rfl h⟩
  | case3 mark depth c t ih =>
    have hrun := run_escape hescaped c
    have hrest : Encloses base ((r.step '\\').step c) (bracketed '(' ')' mark depth t) :=
      hrun ▸ @ih { r with lead := r.lead.next } inner hescaped hmark hparens hdepth hbase
    exact .cons hbase (.cons (step_backslash hescaped ▸ hbase) hrest)
  | case4 mark depth c t h h' ih =>
    have hstep := step_in_string hescaped (ne_backslash h h') hmark
    exact .cons hbase (hstep ▸ ih hescaped rfl hparens hdepth hbase)
  | case5 depth c t h h' hq ih =>
    have hstep : r.step c = { r with mark := some c, lead := .none } := by
      rw [step_eq_read hescaped (ne_backslash h h') hmark, read_quote hq]
    exact .cons hbase (hstep ▸ ih hescaped rfl hparens hdepth hbase)
  | case6 depth t h h' hq ih =>
    have hstep : r.step '(' = { r with parens := r.lead.opens :: r.parens, lead := .none } :=
      step_eq_read hescaped (by decide) hmark
    have hinner : r.lead.opens :: r.parens = (r.lead.opens :: inner) ++ base := by
      rw [hparens]
      rfl
    exact .cons hbase (hstep ▸ ih hescaped hmark hinner (by rw [List.length_cons, hdepth])
      (hbase.trans (List.suffix_cons _ _)))
  | case7 depth t h h' hq hne hle =>
    obtain rfl : inner = [] := List.eq_nil_of_length_eq_zero (by omega)
    exact ⟨.nil hbase, fun _ => hescaped, fun _ => hmark, fun _ => hparens⟩
  | case8 depth t h h' hq hne hle ih =>
    have hstep : r.step ')' = r.close := step_eq_read hescaped (by decide) hmark
    cases inner with
    | nil => rw [List.length_nil] at hdepth; omega
    | cons p inner =>
      have hinner : r.close.parens = inner ++ base := by
        rw [parens_close, hparens]
        rfl
      exact .cons hbase (hstep ▸ ih (r.escaped_close.trans hescaped) (r.mark_close.trans hmark)
        hinner (by rw [List.length_cons] at hdepth; omega) (hinner ▸ List.suffix_append inner base))
  | case9 depth c t h h' hq ho hc ih =>
    have hstep := step_eq_read hescaped (ne_backslash h h') hmark
    have hinner : (r.step c).parens = r.parens := by rw [hstep, parens_read_other r ho hc]
    have houtside : (r.step c).mark = none := by
      rw [hstep, mark_read r (Bool.eq_false_iff.mpr hq), hmark]
    exact .cons hbase (ih (escaped_step hescaped (ne_backslash h h')) houtside (hinner ▸ hparens)
      hdepth (hinner ▸ hbase))

theorem encloses_argument (p : Paren) (ps : List Paren) (t : Text) :
    (standing (p :: ps) .none).Encloses (p :: ps) (argument t) :=
  @encloses_bracketed none 1 t _ [] (p :: ps) rfl rfl rfl rfl

/-- In the argument of a pseudo-element there are no attributes and no other arguments. -/
theorem step_inElement {r : Reader} (h : .element ∈ r.parens) (hsquares : r.squares = 0)
    (hlead : r.lead = .none) (c : Char) : (r.step c).squares = 0 ∧ (r.step c).lead = .none := by
  have helement : r.inElement = true := by simpa [inElement] using h
  unfold step read close
  rw [helement, if_pos rfl]
  repeat' split
  all_goals simp [hsquares, hlead, Lead.next]

/-- The argument of a pseudo-element is hidden. -/
theorem passes_argument (ps : List Paren) (t : Text) :
    (standing (.element :: ps) .none).Passes (argument t).1 := by
  intro a c b h _
  have hsuffix := (encloses_argument .element ps t).keeps a (c :: b) h
  have hmem : .element ∈ ((standing (.element :: ps) .none).run a).parens :=
    hsuffix.subset List.mem_cons_self
  simp [hides, inElement, hmem]

theorem run_element {r : Reader} {ps : List Paren} {t : Text} (h : r.Keeps (.element :: ps) t)
    (hsquares : r.squares = 0) (hlead : r.lead = .none) :
    (r.run t).squares = 0 ∧ (r.run t).lead = .none := by
  induction t generalizing r with
  | nil => exact ⟨hsquares, hlead⟩
  | cons c t ih =>
    have hmem : .element ∈ r.parens := (h [] _ rfl).subset List.mem_cons_self
    obtain ⟨hsquares', hlead'⟩ := step_inElement hmem hsquares hlead c
    exact ih h.tail hsquares' hlead'

/-- A pseudo-element is behind its argument what it was in front of it. -/
theorem run_argument (ps : List Paren) {t : Text} (h : (argument t).2 ≠ []) :
    (standing (.element :: ps) .none).run (argument t).1 = standing (.element :: ps) .none := by
  obtain ⟨hkeeps, hescaped, hmark, hparens⟩ := encloses_argument .element ps t
  obtain ⟨hsquares, hlead⟩ := run_element hkeeps rfl rfl
  generalize (standing (.element :: ps) .none).run (argument t).1 = r at *
  cases r
  simp only at hescaped hmark hparens hsquares hlead
  rw [hescaped h, hmark h, hparens h, hsquares, hlead]
  rfl

/-! ## 5. Attributes -/

/-- In an attribute of an argument that is enclosed by `base`. -/
def inAttribute (mark : Option Char) (depth k : Nat) (base : List Paren) : Reader :=
  ⟨false, mark, depth, List.replicate k .plain ++ base, .none⟩

theorem hides_inAttribute (mark : Option Char) {depth : Nat} (hdepth : 0 < depth) (k : Nat)
    (base : List Paren) : (inAttribute mark depth k base).hides = true := by
  have hsquares : (depth != 0) = true := by
    rw [bne_iff_ne]
    omega
  simp [hides, inAttribute, hsquares]

/-- A text that is hidden, cut off from the rest, if there is one, at the bracket that closes an
    attribute. -/
structure Covers (base : List Paren) (r : Reader) (cut : Text × Text) : Prop where
  passes : r.Passes cut.1
  closes : cut.2 ≠ [] → ∃ k, r.run cut.1 = inAttribute none 1 k base

theorem Covers.cons {base : List Paren} {r : Reader} {c : Char} {cut : Text × Text}
    (hhides : r.hides = true) (h : (r.step c).Covers base cut) : r.Covers base (push c cut) :=
  ⟨.cons (fun _ => hhides) h.passes, h.closes⟩

/-- A parenthesis is counted in an attribute too, and closes none of those around it. -/
theorem read_paren {base : List Paren} (depth k : Nat) {c : Char} (hc : c = '(' ∨ c = ')')
    (hkeeps : base <:+ ((inAttribute none depth k base).read c).parens) :
    ∃ k', (inAttribute none depth k base).read c = inAttribute none depth k' base := by
  rcases hc with rfl | rfl
  · exact ⟨k + 1, rfl⟩
  · cases k with
    | succ k => exact ⟨k, rfl⟩
    | zero =>
      cases base with
      | nil => exact ⟨0, rfl⟩
      | cons p ps =>
        rw [read_close, parens_close] at hkeeps
        have hlength := hkeeps.length_le
        simp only [inAttribute, List.replicate_zero, List.nil_append, List.tail_cons,
          List.length_cons] at hlength
        omega

section Attribute

variable {base : List Paren} (hbase : .element ∉ base)

include hbase

theorem not_inElement (mark : Option Char) (depth k : Nat) :
    (inAttribute mark depth k base).inElement = false := by
  simp [inAttribute, inElement, hbase]

theorem read_inAttribute {depth k : Nat} (hdepth : 0 < depth) {c : Char}
    (hq : Text.isQuote c = false) (ho : c ≠ '[') (hc : c ≠ ']')
    (hkeeps : base <:+ ((inAttribute none depth k base).read c).parens) :
    ∃ k', (inAttribute none depth k base).read c = inAttribute none depth k' base := by
  by_cases hparen : c = '(' ∨ c = ')'
  · exact read_paren depth k hparen hkeeps
  · have hsquares : ((inAttribute none depth k base).squares != 0) = true := by
      simp only [inAttribute, bne_iff_ne]
      omega
    rw [not_or] at hparen
    refine ⟨k, ?_⟩
    rw [read_other hq hparen.1 hparen.2, not_inElement hbase, if_neg Bool.false_ne_true, if_neg ho,
      if_neg hc, if_pos hsquares]

/-- **An attribute is hidden, up to the bracket that closes it.** -/
theorem covers_bracketed {mark : Option Char} {depth k : Nat} (hdepth : 0 < depth) {t : Text}
    (hkeeps : (inAttribute mark depth k base).Keeps base (bracketed '[' ']' mark depth t).1) :
    (inAttribute mark depth k base).Covers base (bracketed '[' ']' mark depth t) := by
  have hhides := hides_inAttribute mark hdepth k base
  fun_induction bracketed '[' ']' mark depth t generalizing k with
  | case1 => exact ⟨.nil _, fun h => absurd rfl h⟩
  | case2 => exact ⟨.cons (fun _ => hhides) (.nil _), fun h => absurd rfl h⟩
  | case3 mark depth c t ih =>
    have hrun : ((inAttribute mark depth k base).step '\\').step c = inAttribute mark depth k base :=
      run_escape rfl c
    have hrest := ih hdepth (hrun ▸ hkeeps.tail.tail) hhides
    exact ⟨.escape rfl hrest.passes, fun h => hrun ▸ hrest.closes h⟩
  | case4 mark depth c t h h' ih =>
    have hstep : (inAttribute (some mark) depth k base).step c =
        inAttribute (if c = mark then none else some mark) depth k base :=
      step_in_string rfl (ne_backslash h h') rfl
    exact .cons hhides (hstep ▸ ih hdepth (hstep ▸ hkeeps.tail) (hides_inAttribute _ hdepth k base))
  | case5 depth c t h h' hq ih =>
    have hstep : (inAttribute none depth k base).step c = inAttribute (some c) depth k base := by
      rw [step_eq_read rfl (ne_backslash h h') rfl, read_quote hq]
      rfl
    exact .cons hhides (hstep ▸ ih hdepth (hstep ▸ hkeeps.tail) (hides_inAttribute _ hdepth k base))
  | case6 depth t h h' hq ih =>
    have hstep : (inAttribute none depth k base).step '[' = inAttribute none (depth + 1) k base :=
      step_openSquare rfl rfl (not_inElement hbase none depth k)
    have hdepth' : 0 < depth + 1 := Nat.succ_pos depth
    exact .cons hhides
      (hstep ▸ ih hdepth' (hstep ▸ hkeeps.tail) (hides_inAttribute _ hdepth' k base))
  | case7 depth t h h' hq hne hle =>
    obtain rfl : depth = 1 := by omega
    exact ⟨.nil _, fun _ => ⟨k, rfl⟩⟩
  | case8 depth t h h' hq hne hle ih =>
    have hstep : (inAttribute none depth k base).step ']' = inAttribute none (depth - 1) k base :=
      step_closeSquare rfl rfl (not_inElement hbase none depth k)
    have hdepth' : 0 < depth - 1 := by omega
    exact .cons hhides
      (hstep ▸ ih hdepth' (hstep ▸ hkeeps.tail) (hides_inAttribute _ hdepth' k base))
  | case9 depth c t h h' hq ho hc ih =>
    have hread := step_eq_read (r := inAttribute none depth k base) rfl (ne_backslash h h') rfl
    have hafter : base <:+ ((inAttribute none depth k base).step c).parens := hkeeps [c] _ rfl
    obtain ⟨k', hk'⟩ :=
      read_inAttribute hbase hdepth (Bool.eq_false_iff.mpr hq) ho hc (hread ▸ hafter)
    have hstep := hread.trans hk'
    exact .cons hhides (hstep ▸ ih hdepth (hstep ▸ hkeeps.tail) (hides_inAttribute _ hdepth k' base))

end Attribute

end Reader

end StyleModules.Selector
