import StyleModules.Proofs.WrappedWords
import StyleModules.Proofs.SelectorReader

/-!
Marking a selector inserts marks and does nothing else.

A selector that says nothing about modes is cut around its names (`Wraps`): the classes and ids that
its reader comes upon outside of what hides them. `markLocal_wraps` says that exactly these are
marked, and that all other text stays, whatever the text is.

The names are found by going from item to item, and into the arguments of pseudo-classes. A `Slice` is
the text of such an argument with what stands behind it. Its closing parenthesis comes before
anything else that is open in it, so a name in it is as long as it is in the whole text.
-/

namespace StyleModules.Selector

open Reader

/-! ## 1. Names where they stand -/

/-- A class or an id where it stands: a mark and a name that is as long as it can be. -/
def IsNameAt (p : Occurrence) : Prop :=
  ∃ c name, BeginsName c ∧ name ≠ [] ∧ p.word = c :: name ∧
    identifier (name ++ p.after) = (name, p.after)

/-- A text that is cut around the names that a reader comes upon. -/
inductive Wraps : Reader → Text → Wrapping → Prop
  | nil (r : Reader) : Wraps r [] (.last [])
  | copy {r : Reader} {c : Char} {t : Text} {w : Wrapping}
      (hc : ¬(BeginsName c ∧ r.hides = false ∧ (identifier t).1 ≠ []))
      (hw : Wraps (r.step c) t w) : Wraps r (c :: t) (w.push [c])
  | name {r : Reader} {c : Char} {name rest : Text} {w : Wrapping} (hc : BeginsName c)
      (hr : r.hides = false) (hname : name ≠ []) (hid : identifier (name ++ rest) = (name, rest))
      (hw : Wraps (r.run (c :: name)) rest w) :
      Wraps r (c :: (name ++ rest)) (.word [] (c :: name) w)

/-- A reader that nothing hides from stands outside of all but parentheses. -/
theorem Reader.eq_standing {r : Reader} (h : r.hides = false) :
    r = standing r.parens r.lead ∧ .element ∉ r.parens := by
  obtain ⟨escaped, mark, squares, parens, lead⟩ := r
  simp only [hides, inElement, Bool.or_eq_false_iff, Option.isSome_eq_false_iff,
    Option.isNone_iff_eq_none, bne_eq_false_iff_eq, List.contains_eq_mem,
    decide_eq_false_iff_not] at h
  obtain ⟨⟨⟨rfl, rfl⟩, rfl⟩, helement⟩ := h
  exact ⟨rfl, helement⟩

theorem Reader.step_beginsName {ps : List Paren} (hps : .element ∉ ps) (l : Lead) {c : Char}
    (hc : BeginsName c) : (standing ps l).step c = standing ps .none := by
  rcases hc with rfl | rfl
  · exact step_standing hps l (by decide)
  · exact step_standing hps l (by decide)

theorem identifier_fst {name rest : Text} (h : identifier (name ++ rest) = (name, rest)) :
    (identifier (name ++ rest)).1 = name := by
  rw [h]

namespace Wraps

theorem text {r : Reader} {t : Text} {w : Wrapping} (h : Wraps r t w) : w.text = t := by
  induction h with
  | nil => rfl
  | copy _ _ ih => rw [Wrapping.text_push, ih]; rfl
  | name _ _ _ _ _ ih => rw [Wrapping.text, ih]; rfl

/-- **The words of the cut are the names that nothing hides.** -/
theorem mem_words {r : Reader} {t : Text} {w : Wrapping} (h : Wraps r t w) (p : Occurrence) :
    p ∈ w.words ↔ p.text = t ∧ IsNameAt p ∧ (r.run p.before).hides = false := by
  induction h generalizing p with
  | nil r =>
    refine iff_of_false (fun h => (nomatch h)) ?_
    rintro ⟨htext, ⟨c, name, -, -, hword, -⟩, -⟩
    rw [Occurrence.text, hword] at htext
    simp at htext
  | @copy r c t w hc hw ih =>
    rw [Wrapping.words_push, List.mem_map]
    constructor
    · rintro ⟨q, hq, rfl⟩
      obtain ⟨htext, hname, hvisible⟩ := (ih q).mp hq
      exact ⟨by rw [Occurrence.text_shift, htext]; rfl, hname, hvisible⟩
    · rintro ⟨htext, hname, hvisible⟩
      rcases Occurrence.first_or_shift htext with ⟨hbefore, hword⟩ | ⟨q, rfl, hq⟩
      · -- the character would be the mark of the name
        obtain ⟨e, name, he, hne, hword', hid⟩ := hname
        rw [hword'] at hword
        obtain ⟨rfl, rfl⟩ := List.cons.inj hword
        rw [hbefore] at hvisible
        exact absurd ⟨he, hvisible, (identifier_fst hid).symm ▸ hne⟩ hc
      · exact ⟨q, (ih q).mpr ⟨hq, hname, hvisible⟩, rfl⟩
  | @name r c name rest w hc hr hne hid hw ih =>
    have hpasses : (r.step c).Passes name := by
      obtain ⟨hstanding, helement⟩ := eq_standing hr
      rw [hstanding, step_beginsName helement _ hc, ← identifier_fst hid]
      exact passes_identifier helement .none _
    rw [Wrapping.words, List.mem_cons, List.mem_map, hw.text]
    constructor
    · rintro (rfl | ⟨q, hq, rfl⟩)
      · exact ⟨rfl, ⟨c, name, hc, hne, rfl, hid⟩, hr⟩
      · obtain ⟨htext, hname, hvisible⟩ := (ih q).mp hq
        refine ⟨by rw [Occurrence.text_shift, htext]; rfl, hname, ?_⟩
        rw [Occurrence.shift, run_append]
        exact hvisible
    · rintro ⟨htext, hname, hvisible⟩
      rcases @Occurrence.within_or_shift p (c :: name) rest htext with
        ⟨d, more, hfront, hword⟩ | ⟨q, rfl, hq⟩
      · obtain ⟨e, name', he, -, hword', hid'⟩ := hname
        rw [hword'] at hword
        obtain ⟨rfl, hrest⟩ := List.cons.inj hword
        cases hbefore : p.before with
        | nil =>
          rw [hbefore] at hfront
          obtain ⟨rfl, rfl⟩ := List.cons.inj hfront
          rw [show name' ++ p.after = name ++ rest from hrest, hid] at hid'
          obtain ⟨rfl, hafter⟩ := Prod.mk.inj hid'
          refine .inl ?_
          rw [hafter, ← hbefore, ← hword']
        | cons f before =>
          -- the mark would stand inside of the name, where it is hidden
          rw [hbefore] at hfront
          obtain ⟨rfl, hinside⟩ := List.cons.inj hfront
          have hhidden := hpasses before e more hinside he
          rw [hbefore, run_cons, hhidden] at hvisible
          cases hvisible
      · rw [Occurrence.shift, run_append] at hvisible
        exact .inr ⟨q, (ih q).mpr ⟨hq, hname, hvisible⟩, rfl⟩

end Wraps

/-- A stretch without names is copied. -/
theorem Wraps.passes {r : Reader} {x t : Text} {w : Wrapping} (hx : r.Passes x)
    (h : Wraps (r.run x) t w) : Wraps r (x ++ t) (w.push x) := by
  induction x generalizing r with
  | nil => rwa [Wrapping.push_nil]
  | cons c x ih =>
    have hrest := ih hx.tail h
    rw [← List.singleton_append, ← Wrapping.push_push]
    refine .copy (fun hc => ?_) hrest
    rw [hx.head hc.1] at hc
    exact absurd hc.2.1 (by decide)

/-! ## 2. Where an item ends -/

/-- A text that begins with nothing that a lead could lead to. -/
def Lead.Settled (l : Lead) (t : Text) : Prop :=
  l = .none ∨ (endsName t ∧ (l = .colon → t.head? ≠ some ':'))

theorem Lead.after_settled {l : Lead} {c : Char} {t : Text} (h : l.Settled (c :: t)) :
    l.after c = Lead.none.after c := by
  rcases h with rfl | ⟨hends, hcolon⟩
  · rfl
  · simp only [endsName, stopsName, Bool.and_eq_true, Bool.not_eq_true'] at hends
    unfold after
    by_cases hc : c = ':'
    · have hl : l ≠ .colon := fun e => hcolon e (congrArg some hc)
      rw [if_pos hc, if_pos hc, if_neg hl]
      rfl
    · rw [if_neg hc, if_neg hc, hends.1.1]
      rfl

namespace Reader

variable {ps : List Paren} (hps : .element ∉ ps) {l : Lead} {t : Text}

include hps

/-- What is settled is read as if nothing led up to it. -/
theorem step_settled {c : Char} (h : l.Settled (c :: t)) :
    (standing ps l).step c = (standing ps .none).step c := by
  by_cases hc : c ∈ "\\\"'()[]".toList
  · rcases h with rfl | ⟨hends, -⟩
    · rfl
    have helement : ∀ l, (standing ps l).inElement = false := by simp [standing, inElement, hps]
    have hcases : c = '\\' ∨ c = '"' ∨ c = '\'' ∨ c = '(' ∨ c = ')' ∨ c = '[' ∨ c = ']' := by
      simpa using hc
    rcases hcases with rfl | rfl | rfl | rfl | rfl | rfl | rfl
    · cases hends
    · rfl
    · rfl
    · cases hends
    · cases ps with
      | nil => rfl
      | cons p ps => cases p <;> rfl
    · rw [step_openSquare rfl rfl (helement l), step_openSquare rfl rfl (helement .none)]
      rfl
    · rw [step_closeSquare rfl rfl (helement l), step_closeSquare rfl rfl (helement .none)]
      rfl
  · rw [step_standing hps l hc, step_standing hps .none hc, Lead.after_settled h]

theorem run_settled (h : l.Settled t) (ht : t ≠ []) :
    (standing ps l).run t = (standing ps .none).run t := by
  cases t with
  | nil => exact absurd rfl ht
  | cons c t => rw [run_cons, run_cons, step_settled hps h]

theorem keeps_settled {base : List Paren} (h : l.Settled t)
    (hkeeps : (standing ps l).Keeps base t) : (standing ps .none).Keeps base t := by
  intro a b hab
  cases a with
  | nil => exact hkeeps [] b hab
  | cons c a =>
    have ha : l.Settled (c :: a) := by
      rw [hab] at h
      exact h
    rw [← run_settled hps ha (by simp)]
    exact hkeeps (c :: a) b hab

theorem wraps_settled {w : Wrapping} (h : l.Settled t) (hw : Wraps (standing ps .none) t w) :
    Wraps (standing ps l) t w := by
  have hhides : (standing ps l).hides = (standing ps .none).hides := by
    rw [hides_standing hps, hides_standing hps]
  cases hw with
  | nil => exact .nil _
  | copy hc hw => exact .copy (hhides ▸ hc) (step_settled hps h ▸ hw)
  | name hc hr hname hid hw =>
    refine .name hc (hhides ▸ hr) hname hid ?_
    rw [run_cons, step_settled hps h]
    exact hw

end Reader

/-! ## 3. Slices -/

/-- In front of an item, in an argument that is enclosed by `base`. -/
def Reader.idle (k : Nat) (base : List Paren) : Reader :=
  standing (List.replicate k .plain ++ base) .none

theorem Reader.not_mem_idle {base : List Paren} (hbase : .element ∉ base) (k : Nat) :
    .element ∉ List.replicate k .plain ++ base := by
  simp [hbase]

/-- The text of an argument, or of a whole selector, and what stands behind it: nothing, or the
    parenthesis that closes it. -/
structure Slice (base : List Paren) (r : Reader) (t more : Text) : Prop where
  keeps : r.Keeps base t
  ends : more = [] ∨ (more.head? = some ')' ∧ (r.run t).escaped = false)
  modeless : mentionsModes t = false

/-- What a part of a selector without modes mentions, the selector does. -/
theorem not_mentionsModes_within {u t v : Text} (h : mentionsModes (u ++ (t ++ v)) = false) :
    mentionsModes t = false := by
  cases ht : mentionsModes t with
  | false => rfl
  | true =>
    rw [mentionsModes_within u v ht] at h
    cases h

theorem Slice.rest {base : List Paren} {r : Reader} {s t more : Text}
    (h : Slice base r (s ++ t) more) : Slice base (r.run s) t more := by
  refine ⟨h.keeps.rest, ?_, ?_⟩
  · rw [← run_append]
    exact h.ends
  · exact not_mentionsModes_within (v := []) (by rw [List.append_nil]; exact h.modeless)

/-- A name in a slice is as long as it is in the whole text. -/
theorem identifier_slice {r : Reader} (hr : r.escaped = false) {t more : Text}
    (h : more = [] ∨ (more.head? = some ')' ∧ (r.run t).escaped = false)) :
    identifier (t ++ more) = ((identifier t).1, (identifier t).2 ++ more) := by
  rcases h with rfl | ⟨hmore, hend⟩
  · rw [List.append_nil, List.append_nil]
  obtain ⟨more, rfl⟩ := List.head?_eq_some_iff.mp hmore
  fun_induction identifier t generalizing r with
  | case1 => rfl
  | case2 =>
    rw [run_cons, step_backslash hr] at hend
    cases hend
  | case3 c t ih =>
    rw [run_cons, run_cons, run_escape hr] at hend
    show push '\\' (push c (identifier (t ++ ')' :: more))) = _
    rw [@ih { r with lead := r.lead.next } hr hend]
    rfl
  | case4 c t h h' hc ih =>
    have hne := ne_backslash h h'
    rw [List.cons_append, identifier_cons hne, if_pos hc, ih (escaped_step hr hne) hend]
    rfl
  | case5 c t h h' hc =>
    rw [List.cons_append, identifier_cons (ne_backslash h h'), if_neg hc]

/-- Nothing behind a name continues it. -/
theorem stopsName_identifier (t : Text) : stopsName (identifier t).2 = true := by
  fun_induction identifier t with
  | case1 => rfl
  | case2 => rfl
  | case3 _ _ ih => exact ih
  | case4 _ _ _ _ _ ih => exact ih
  | case5 c t h h' hc => simp [stopsName, hc, ne_backslash h h']

/-- Behind a name without an argument stands nothing that belongs to it. -/
theorem endsName_identifier {t : Text} (h : ∀ u, (identifier t).2 ≠ '(' :: u) :
    endsName (identifier t).2 = true := by
  rw [endsName, stopsName_identifier, Bool.true_and, bne_iff_ne]
  intro hhead
  obtain ⟨u, hu⟩ := List.head?_eq_some_iff.mp hhead
  exact h u hu

/-! ## 4. Items that are copied -/

/-- An item that is copied, and what follows it. -/
structure Copies (base : List Paren) (k : Nat) (x rest more : Text) : Prop where
  wraps : ∀ w, Wraps ((idle k base).run x) (rest ++ more) w →
    Wraps (idle k base) (x ++ (rest ++ more)) (w.push x)
  settles : rest ≠ [] → ∃ k' l,
    (idle k base).run x = standing (List.replicate k' .plain ++ base) l ∧ l.Settled rest

section Copies

variable {base : List Paren} (hbase : .element ∉ base) {k : Nat} {t more : Text}

theorem Copies.of_passes {x rest : Text} (hx : (idle k base).Passes x)
    (h : rest ≠ [] → ∃ k' l,
      (idle k base).run x = standing (List.replicate k' .plain ++ base) l ∧ l.Settled rest) :
    Copies base k x rest more :=
  ⟨fun _ hw => .passes hx hw, h⟩

theorem Copies.of_idle {x rest : Text} (hx : (idle k base).Passes x)
    (h : rest ≠ [] → ∃ k', (idle k base).run x = idle k' base) : Copies base k x rest more :=
  .of_passes hx fun hne =>
    let ⟨k', hk'⟩ := h hne
    ⟨k', .none, hk', .inl rfl⟩

theorem copies_quote {c : Char} (hc : Text.isQuote c = true) :
    Copies base k (c :: (string c t).1) (string c t).2 more := by
  have hne : c ≠ '\\' := by rintro rfl; cases hc
  have hname : ¬BeginsName c := by rintro (rfl | rfl) <;> cases hc
  have hstep : (idle k base).step c = ⟨false, some c, 0, List.replicate k .plain ++ base, .none⟩ := by
    rw [step_eq_read rfl hne rfl, read_quote hc]
    rfl
  refine .of_idle (.cons (fun h => absurd h hname) ?_) fun hrest => ⟨k, ?_⟩
  · rw [hstep]
    exact passes_string c 0 _ t
  · rw [run_cons, hstep, run_string c 0 _ hrest]
    rfl

theorem copies_escape : Copies base k ('\\' :: t.take 1) t.tail more := by
  cases t with
  | nil => exact .of_idle (.single (by decide)) fun h => absurd rfl h
  | cons c t => exact .of_idle (.escape rfl (.nil _)) fun _ => ⟨k, run_escape (r := idle k base) rfl c⟩

/-- What encloses an argument, and the argument, is copied with its closing parenthesis. -/
theorem Copies.of_element {ps : List Paren} {x u : Text}
    (hps : ps = List.replicate k .plain ++ base) (hx : (standing ps .none).Passes x)
    (hrun : (standing ps .none).run x = standing ps .element) :
    Copies base k (x ++ '(' :: ((argument u).1 ++ Item.close (!(argument u).2.isEmpty)))
      (argument u).2.tail more := by
  subst hps
  have hopen : (standing (List.replicate k .plain ++ base) .element).step '(' =
      standing (.element :: (List.replicate k .plain ++ base)) .none := rfl
  refine .of_idle (hx.append ?_) fun hrest => ⟨k, ?_⟩
  · rw [hrun]
    refine .cons (fun h => absurd h (by decide)) ?_
    rw [hopen]
    refine (passes_argument _ u).append ?_
    cases (argument u).2 with
    | nil => exact .nil _
    | cons c rest => exact .single (by decide)
  · have hne : (argument u).2 ≠ [] := by
      intro e
      rw [e] at hrest
      exact hrest rfl
    have hclosed : Item.close (!(argument u).2.isEmpty) = [')'] := by
      rw [List.isEmpty_eq_false_iff.mpr hne]
      rfl
    rw [hclosed, idle, run_append, hrun, run_cons, hopen, run_append, run_argument _ hne]
    rfl

include hbase

theorem copies_attribute (h : (idle k base).Keeps base ('[' :: t)) :
    Copies base k ('[' :: ((bracketed '[' ']' none 1 t).1 ++ (bracketed '[' ']' none 1 t).2.take 1))
      (bracketed '[' ']' none 1 t).2.tail more := by
  have hstep : (idle k base).step '[' = inAttribute none 1 k base :=
    step_openSquare rfl rfl (not_inElement hbase none 0 k)
  have hkeeps := h.tail
  rw [hstep, ← bracketed_append '[' ']' none 1 t] at hkeeps
  have hcovers := covers_bracketed hbase Nat.one_pos hkeeps.front
  refine .of_idle (.cons (fun h => absurd h (by decide)) ?_) fun hrest => ?_
  · rw [hstep]
    refine hcovers.passes.append ?_
    rcases bracketed_rest '[' ']' none 1 t with hr | ⟨rest, hr⟩
    · rw [hr]
      exact .nil _
    · rw [hr]
      exact .single (by decide)
  · rcases bracketed_rest '[' ']' none 1 t with hr | ⟨rest, hr⟩
    · rw [hr] at hrest
      exact absurd rfl hrest
    · obtain ⟨k', hk'⟩ := hcovers.closes (by rw [hr]; exact List.cons_ne_nil _ _)
      refine ⟨k', ?_⟩
      rw [run_cons, hstep, run_append, hk', hr]
      exact step_closeSquare rfl rfl (not_inElement hbase none 1 k')

/-- A character that begins nothing. -/
theorem copies_other {c : Char} (hc : c ∉ "\"'[\\.#:".toList)
    (h : (idle k base).Keeps base (c :: t)) : Copies base k [c] t more := by
  have hne : ∀ d ∈ "\"'[\\.#:".toList, c ≠ d := fun d hd e => hc (e ▸ hd)
  have hname : ¬BeginsName c := by
    rintro (e | e)
    · exact hne '.' (by decide) e
    · exact hne '#' (by decide) e
  refine .of_idle (.single hname) fun _ => ?_
  by_cases hparen : c = '(' ∨ c = ')'
  · have hread := step_eq_read (r := idle k base) rfl (hne '\\' (by decide)) rfl
    have hafter : base <:+ ((idle k base).step c).parens := h [c] t rfl
    obtain ⟨k', hk'⟩ := read_paren 0 k hparen (hread ▸ hafter)
    exact ⟨k', hread.trans hk'⟩
  · rw [not_or] at hparen
    refine ⟨k, ?_⟩
    by_cases hsquare : c = ']'
    · subst hsquare
      exact step_closeSquare rfl rfl (not_inElement hbase none 0 k)
    · have hafter : Lead.none.after c = .none := by
        rw [Lead.after, if_neg (hne ':' (by decide))]
        exact ite_self _
      have hplain : c ∉ "\\\"'()[]".toList := by
        simp [hne '\\' (by decide), hne '"' (by decide), hne '\'' (by decide), hparen,
          hne '[' (by decide), hsquare]
      rw [run_cons, idle, step_standing (not_mem_idle hbase k) .none hplain, hafter]
      rfl

/-- A mark without a name. -/
theorem copies_mark {c : Char} (hc : BeginsName c) (h : Slice base (idle k base) (c :: t) more)
    (hempty : (identifier t).1 = []) : Copies base k [c] t more := by
  have hstep : (idle k base).step c = idle k base :=
    step_beginsName (not_mem_idle hbase k) .none hc
  refine ⟨fun w hw => .copy (fun hname => hname.2.2 ?_) hw, fun _ => ⟨k, .none, hstep, .inl rfl⟩⟩
  have hends := h.ends
  rw [run_cons, hstep] at hends
  show (identifier (t ++ more)).1 = []
  rw [identifier_slice rfl hends]
  exact hempty

theorem copies_pseudoElement :
    Copies base k (pseudoElement t).item.text (pseudoElement t).rest more ∧
      ∀ inner, (pseudoElement t).item.write .local inner = (pseudoElement t).item.text := by
  have hps := not_mem_idle hbase k
  by_cases hcall : ∃ u, (identifier t).2 = '(' :: u
  · obtain ⟨u, hu⟩ := hcall
    have hcut : pseudoElement t =
        ⟨.plain ((':' :: ':' :: (identifier t).1) ++
          '(' :: ((argument u).1 ++ Item.close (!(argument u).2.isEmpty))), (argument u).2.tail⟩ := by
      rw [pseudoElement]
      simp only [hu, withArgument]
      rw [List.append_assoc]
      rfl
    have hrun := run_colons hps (t := t) (by rw [hu]; exact List.cons_ne_nil _ _)
    rw [hcut]
    exact ⟨.of_element rfl (passes_colons hps t) hrun, fun _ => rfl⟩
  · have hnot : ∀ u, (identifier t).2 ≠ '(' :: u := fun u hu => hcall ⟨u, hu⟩
    have hcut : pseudoElement t = ⟨.plain (':' :: ':' :: (identifier t).1), (identifier t).2⟩ := by
      rw [pseudoElement]
      dsimp only
      split
      · next u hu => exact absurd hu (hnot u)
      · rfl
    rw [hcut]
    refine ⟨.of_passes (passes_colons hps t) fun hrest => ⟨k, .element, run_colons hps hrest, ?_⟩,
      fun _ => rfl⟩
    exact .inr ⟨endsName_identifier hnot, fun h => by cases h⟩

/-- A pseudo-class without an argument. -/
theorem copies_pseudoClass (hnot : ∀ u, (identifier t).2 ≠ '(' :: u) (hcolon : t.head? ≠ some ':') :
    Copies base k (':' :: (identifier t).1) (identifier t).2 more := by
  have hps := not_mem_idle hbase k
  refine .of_passes (passes_colon hps t) fun hrest => ⟨k, _, run_colon hps hrest, ?_⟩
  refine .inr ⟨endsName_identifier hnot, fun hlead => ?_⟩
  have happend := identifier_append t
  cases hname : (identifier t).1 with
  | nil =>
    rw [hname, List.nil_append] at happend
    rwa [happend]
  | cons c name =>
    rw [hname] at hlead
    cases hlead

end Copies

/-! ## 5. Marking -/

/-- Marking a text, with more text behind it, cuts it around the names that its reader comes upon. -/
def IsCut (t : Text) : Prop :=
  ∀ base k more w, .element ∉ base → Slice base (idle k base) t more →
    Wraps ((idle k base).run t) more w →
      ∃ w', Wraps (idle k base) (t ++ more) w' ∧ w'.marked = localize .local .local t ++ w.marked

theorem localize_nil (start mode : Mode) : localize start mode [] = [] := by
  rw [localize]

/-- An item of a selector without modes, and what follows it. -/
theorem localize_item {c : Char} {t : Text} (h : mentionsModes (c :: t) = false) (mode : Mode) :
    localize mode mode (c :: t) =
      (lexeme c t).item.write mode (localize ((lexeme c t).item.innerMode mode)
        ((lexeme c t).item.innerMode mode) (lexeme c t).item.inside) ++
      localize mode mode (lexeme c t).rest := by
  rw [localize_cons, modeAfter_lexeme h]

section Marking

variable {base : List Paren} {k : Nat} {more : Text} {w : Wrapping}

/-- What stands behind an item is cut as it is by itself. -/
theorem IsCut.behind {x rest : Text} (ih : IsCut rest) (hbase : .element ∉ base)
    (h : Slice base (idle k base) (x ++ rest) more)
    (hsettles : rest ≠ [] → ∃ k' l,
      (idle k base).run x = standing (List.replicate k' .plain ++ base) l ∧ l.Settled rest)
    (hw : Wraps ((idle k base).run (x ++ rest)) more w) :
    ∃ w', Wraps ((idle k base).run x) (rest ++ more) w' ∧
      w'.marked = localize .local .local rest ++ w.marked := by
  rw [run_append] at hw
  have hrest := h.rest
  cases rest with
  | nil => exact ⟨w, hw, by rw [localize_nil]; rfl⟩
  | cons c rest =>
    obtain ⟨k', l, hrun, hl⟩ := hsettles (List.cons_ne_nil _ _)
    have hps := not_mem_idle hbase k'
    have hsame := run_settled hps hl (List.cons_ne_nil _ _)
    have hmore : l.Settled (c :: rest ++ more) := hl
    rw [hrun] at hw hrest ⊢
    have hslice : Slice base (idle k' base) (c :: rest) more :=
      ⟨keeps_settled hps hl hrest.keeps, by rw [idle, ← hsame]; exact hrest.ends, hrest.modeless⟩
    rw [hsame] at hw
    obtain ⟨w', hw', hmarked⟩ := ih base k' more w hbase hslice hw
    exact ⟨w', wraps_settled hps hmore hw', hmarked⟩

theorem isCut_copied {c : Char} {t : Text} {cut : Cut} (hlexeme : lexeme c t = cut)
    (hwrite : ∀ inner, cut.item.write .local inner = cut.item.text) (ih : IsCut cut.rest)
    (hbase : .element ∉ base) (h : Slice base (idle k base) (c :: t) more)
    (hcopies : Copies base k cut.item.text cut.rest more)
    (hw : Wraps ((idle k base).run (c :: t)) more w) :
    ∃ w', Wraps (idle k base) (c :: t ++ more) w' ∧
      w'.marked = localize .local .local (c :: t) ++ w.marked := by
  have htext := lexeme_append c t
  rw [localize_item h.modeless, hlexeme, hwrite]
  rw [hlexeme] at htext
  rw [← htext] at h hw ⊢
  obtain ⟨w', hw', hmarked⟩ := ih.behind hbase h hcopies.settles hw
  refine ⟨_, by rw [List.append_assoc]; exact hcopies.wraps w' hw', ?_⟩
  rw [Wrapping.marked_push, hmarked, List.append_assoc]

theorem isCut_name {c : Char} {t : Text} (ih : IsCut (identifier t).2) (hbase : .element ∉ base)
    (h : Slice base (idle k base) (c :: t) more) (hc : BeginsName c) (hne : (identifier t).1 ≠ [])
    (hw : Wraps ((idle k base).run (c :: t)) more w) :
    ∃ w', Wraps (idle k base) (c :: t ++ more) w' ∧
      w'.marked = localize .local .local (c :: t) ++ w.marked := by
  have hps := not_mem_idle hbase k
  have hstep : (idle k base).step c = idle k base := step_beginsName hps .none hc
  have hlexeme : lexeme c t = ⟨.name c (identifier t).1, (identifier t).2⟩ := by
    rw [lexeme_mark hc, List.isEmpty_eq_false_iff.mpr hne]
    rfl
  have hends := h.ends
  rw [run_cons, hstep] at hends
  have hid := identifier_slice rfl hends
  have htext : c :: t = c :: (identifier t).1 ++ (identifier t).2 := by
    rw [List.cons_append, identifier_append]
  have hrun : (identifier t).2 ≠ [] → (idle k base).run (c :: (identifier t).1) = idle k base := by
    intro hrest
    rw [run_cons, hstep, idle, run_identifier hps .none hrest]
    exact congrArg (standing _) (ite_self _)
  rw [localize_item h.modeless, hlexeme]
  rw [htext] at h hw
  obtain ⟨w', hw', hmarked⟩ :=
    ih.behind hbase h (fun hrest => ⟨k, .none, hrun hrest, .inl rfl⟩) hw
  refine ⟨.word [] (c :: (identifier t).1) w', ?_, ?_⟩
  · have hwhole : c :: t ++ more = c :: ((identifier t).1 ++ ((identifier t).2 ++ more)) := by
      rw [← List.append_assoc, identifier_append]
      rfl
    rw [hwhole]
    refine .name hc (hides_standing hps .none) hne ?_ hw'
    rw [← List.append_assoc, identifier_append]
    exact hid
  · rw [Wrapping.marked, hmarked]
    simp [Item.write]

/-- The reader goes into the argument of a pseudo-class. -/
theorem run_call {ps : List Paren} (hps : .element ∉ ps) {t u : Text}
    (hu : (identifier t).2 = '(' :: u) :
    (standing ps .none).Passes (':' :: (identifier t).1 ++ ['(']) ∧
      (standing ps .none).run (':' :: (identifier t).1 ++ ['(']) = idle 0 (.call :: ps) := by
  have hrun := run_colon hps (t := t) (by rw [hu]; exact List.cons_ne_nil _ _)
  refine ⟨(passes_colon hps t).append (.single (by decide)), ?_⟩
  rw [run_append, hrun]
  cases (identifier t).1 <;> rfl

/-- The reader comes out of the argument of a pseudo-class at its closing parenthesis. -/
theorem step_close_call {r : Reader} {ps : List Paren} (hescaped : r.escaped = false)
    (hmark : r.mark = none) (hparens : r.parens = .call :: ps) :
    r.step ')' = standing ps .none := by
  rw [step_eq_read hescaped (by decide) hmark, read_close, close, hparens]
  simp only [hescaped, hmark]
  rfl

/-- An argument is cut by itself, up to its closing parenthesis if it has one. -/
theorem isCut_argument {x u inside after : Text} (hcut : argument u = (inside, after))
    (ihinside : IsCut inside) (ihrest : IsCut after.tail) (hbase : .element ∉ base)
    (h : Slice base (idle k base) (x ++ u) more) (hpasses : (idle k base).Passes x)
    (hrun : (idle k base).run x = idle 0 (.call :: (List.replicate k .plain ++ base)))
    (hw : Wraps ((idle k base).run (x ++ u)) more w) :
    ∃ w', Wraps (idle k base) (x ++ (u ++ more)) w' ∧
      w'.marked = x ++ (localize .local .local inside ++ (Item.close (!after.isEmpty) ++
        (localize .local .local after.tail ++ w.marked))) := by
  have hcall : .element ∉ Paren.call :: (List.replicate k .plain ++ base) := by
    rw [List.mem_cons, not_or]
    exact ⟨by decide, not_mem_idle hbase k⟩
  have hencloses := encloses_argument .call (List.replicate k .plain ++ base) u
  have happend : (argument u).1 ++ (argument u).2 = u := bracketed_append '(' ')' none 1 u
  have hafter : (argument u).2 = [] ∨ ∃ rest, (argument u).2 = ')' :: rest :=
    bracketed_rest '(' ')' none 1 u
  rw [hcut] at hencloses happend hafter
  have hslice := h.rest
  rw [hrun] at hslice
  have hmodeless : mentionsModes inside = false :=
    not_mentionsModes_within (u := []) (v := after) (by rw [List.nil_append, happend]; exact hslice.modeless)
  rcases hafter with hopen | ⟨rest, hclosed⟩
  · -- no parenthesis closes the argument: it is all that is left
    obtain rfl : after = [] := hopen
    obtain rfl : inside = u := by rw [← happend, List.append_nil]
    rw [run_append, hrun] at hw
    obtain ⟨w', hw', hmarked⟩ := ihinside _ 0 more w hcall
      ⟨hencloses.keeps, hslice.ends, hmodeless⟩ hw
    refine ⟨w'.push x, .passes hpasses (hrun ▸ hw'), ?_⟩
    rw [Wrapping.marked_push, hmarked, List.tail_nil, localize_nil]
    rfl
  · obtain rfl : after = ')' :: rest := hclosed
    have hend : (idle 0 (.call :: (List.replicate k .plain ++ base))).run (inside ++ [')']) =
        idle k base := by
      have hne : ')' :: rest ≠ [] := List.cons_ne_nil _ _
      rw [run_append]
      exact step_close_call (hencloses.unescaped hne) (hencloses.outside hne) (hencloses.closes hne)
    have hbehind : (idle k base).run (x ++ (inside ++ [')'])) = idle k base := by
      rw [run_append, hrun, hend]
    have htext : x ++ u = x ++ (inside ++ [')']) ++ rest := by
      rw [← happend]
      simp only [List.append_assoc, List.singleton_append]
    have hslice' : Slice (.call :: (List.replicate k .plain ++ base))
        (idle 0 (.call :: (List.replicate k .plain ++ base))) inside (')' :: (rest ++ more)) :=
      ⟨hencloses.keeps, .inr ⟨rfl, hencloses.unescaped (List.cons_ne_nil _ _)⟩, hmodeless⟩
    rw [htext] at h hw
    obtain ⟨w₁, hw₁, hmarked₁⟩ :=
      ihrest.behind hbase h (fun _ => ⟨k, .none, hbehind, .inl rfl⟩) hw
    have hparen : Wraps ((idle 0 (.call :: (List.replicate k .plain ++ base))).run inside)
        (')' :: (rest ++ more)) (w₁.push [')']) := by
      refine .passes (x := [')']) (.single (by decide)) ?_
      rw [← run_append, hend, ← hbehind]
      exact hw₁
    obtain ⟨w₂, hw₂, hmarked₂⟩ := ihinside _ 0 _ _ hcall hslice' hparen
    refine ⟨w₂.push x, .passes hpasses ?_, ?_⟩
    · rw [hrun, ← happend, List.append_assoc]
      exact hw₂
    · rw [Wrapping.marked_push, hmarked₂, Wrapping.marked_push, hmarked₁]
      rfl

theorem isCut_call {t u : Text} (ihinside : IsCut (argument u).1) (ihrest : IsCut (argument u).2.tail)
    (hbase : .element ∉ base) (h : Slice base (idle k base) (':' :: t) more)
    (hcolon : t.head? ≠ some ':') (hu : (identifier t).2 = '(' :: u)
    (hw : Wraps ((idle k base).run (':' :: t)) more w) :
    ∃ w', Wraps (idle k base) (':' :: t ++ more) w' ∧
      w'.marked = localize .local .local (':' :: t) ++ w.marked := by
  obtain ⟨hpasses, hrun⟩ := run_call (not_mem_idle hbase k) hu
  have hlexeme : lexeme ':' t = ⟨.call (':' :: (identifier t).1 ++ ['(']) (argument u).1
      (!(argument u).2.isEmpty), (argument u).2.tail⟩ := by
    rw [lexeme_pseudoClass hcolon, pseudoClass_call (ofName?_identifier h.modeless) hu]
    rfl
  have htext : ':' :: t = (':' :: (identifier t).1 ++ ['(']) ++ u := by
    rw [List.append_assoc, List.singleton_append, ← hu, List.cons_append, identifier_append]
  rw [localize_item h.modeless, hlexeme]
  rw [htext] at h hw ⊢
  rw [List.append_assoc (':' :: (identifier t).1 ++ ['(']) u more]
  obtain ⟨w', hw', hmarked⟩ := isCut_argument (Prod.eta _).symm ihinside ihrest hbase h hpasses hrun hw
  refine ⟨w', hw', ?_⟩
  rw [hmarked]
  simp only [Item.write, Item.innerMode, Item.inside, List.append_assoc]

end Marking

/-- **Marking cuts every text around the names that its reader comes upon.** The induction is on the
    length: what stands inside an item and what stands behind it is shorter. -/
theorem isCut (t : Text) : IsCut t := by
  match t with
  | [] =>
    intro base k more w _ _ hw
    exact ⟨w, hw, by rw [localize_nil]; rfl⟩
  | c :: t =>
    have ih : ∀ u : Text, u.length ≤ t.length → IsCut u := fun u hu => isCut u
    have hrest := ih _ (lexeme_length c t).1
    intro base k more w hbase h hw
    by_cases hquote : Text.isQuote c = true
    · have hlexeme := lexeme_quote hquote t
      exact isCut_copied hlexeme (fun _ => rfl) (hlexeme ▸ hrest) hbase h (copies_quote hquote) hw
    by_cases hattribute : c = '['
    · subst hattribute
      exact isCut_copied rfl (fun _ => rfl) hrest hbase h (copies_attribute hbase h.keeps) hw
    by_cases hescape : c = '\\'
    · subst hescape
      exact isCut_copied rfl (fun _ => rfl) hrest hbase h copies_escape hw
    by_cases hmark : BeginsName c
    · have hlexeme := lexeme_mark hmark t
      by_cases hempty : (identifier t).1 = []
      · rw [hempty] at hlexeme
        exact isCut_copied hlexeme (fun _ => rfl) (hlexeme ▸ hrest) hbase h
          (copies_mark hbase hmark h hempty) hw
      · rw [List.isEmpty_eq_false_iff.mpr hempty] at hlexeme
        rw [hlexeme] at hrest
        exact isCut_name hrest hbase h hmark hempty hw
    by_cases hcolon : c = ':'
    · subst hcolon
      by_cases helement : t.head? = some ':'
      · obtain ⟨u, rfl⟩ := List.head?_eq_some_iff.mp helement
        have hlexeme : lexeme ':' (':' :: u) = pseudoElement u := rfl
        obtain ⟨hcopies, hwrite⟩ := copies_pseudoElement hbase (t := u)
        exact isCut_copied hlexeme hwrite hrest hbase h hcopies hw
      by_cases hcall : ∃ u, (identifier t).2 = '(' :: u
      · obtain ⟨u, hu⟩ := hcall
        have hname := identifier_length t
        have hargument : (argument u).1.length + (argument u).2.length = u.length :=
          bracketed_length '(' ')' none 1 u
        rw [hu, List.length_cons] at hname
        exact isCut_call (ih _ (by omega)) (ih _ (by rw [List.length_tail]; omega)) hbase h helement
          hu hw
      · have hnot : ∀ u, (identifier t).2 ≠ '(' :: u := fun u hu => hcall ⟨u, hu⟩
        have hlexeme := (lexeme_pseudoClass helement).trans
          (pseudoClass_bare (ofName?_identifier h.modeless) hnot)
        exact isCut_copied hlexeme (fun _ => rfl) (hlexeme ▸ hrest) hbase h
          (copies_pseudoClass hbase hnot helement) hw
    · have hother : c ∉ "\"'[\\.#:".toList := by
        simp only [BeginsName, not_or] at hmark
        have hquotes : c ≠ '"' ∧ c ≠ '\'' := by simpa [Text.isQuote] using hquote
        simp [hquotes, hattribute, hescape, hmark, hcolon]
      have hcopies : Copies base k [c] t more := copies_other hbase hother h.keeps
      by_cases hcomma : c = ','
      · subst hcomma
        exact isCut_copied rfl (fun _ => rfl) hrest hbase h hcopies hw
      · have hlexeme : lexeme c t = ⟨.plain [c], t⟩ :=
          lexeme_other (fun hmem => (List.mem_cons.mp hmem).elim hcomma hother) t
        exact isCut_copied hlexeme (fun _ => rfl) (hlexeme ▸ hrest) hbase h hcopies hw
termination_by t.length

/-- Whether an item says something about modes. -/
def Item.saysMode : Item → Bool
  | switch _ _ => true
  | wrapper _ _ _ _ => true
  | _ => false

theorem saysMode_pseudoClass {t : Text} (h : mentionsModes (':' :: t) = false) :
    (pseudoClass t).item.saysMode = false := by
  have hmode := ofName?_identifier h
  by_cases hcall : ∃ u, (identifier t).2 = '(' :: u
  · obtain ⟨u, hrest⟩ := hcall
    rw [pseudoClass_call hmode hrest]
    rfl
  · rw [pseudoClass_bare hmode fun u hu => hcall ⟨u, hu⟩]
    rfl

theorem saysMode_lexeme {c : Char} {t : Text} (h : mentionsModes (c :: t) = false) :
    (lexeme c t).item.saysMode = false := by
  unfold lexeme
  split
  · rfl
  split
  · rfl
  split
  · rfl
  split
  · rfl
  split
  · dsimp only
    split <;> rfl
  split
  · next hc =>
    split
    · rw [pseudoElement]
      dsimp only
      split <;> rfl
    · exact saysMode_pseudoClass (hc ▸ h)
  · rfl

theorem Item.write_global {item : Item} (h : item.saysMode = false) :
    item.write .global item.inside = item.text := by
  cases item with
  | switch => cases h
  | wrapper => cases h
  | _ => rfl

theorem Item.innerMode_of_saysMode {item : Item} (h : item.saysMode = false) (mode : Mode) :
    item.innerMode mode = mode := by
  cases item with
  | wrapper => cases h
  | _ => rfl

/-- A selector without modes that stands in global mode is left alone. -/
theorem localize_global {s : Text} (h : mentionsModes s = false) :
    localize .global .global s = s := by
  match s with
  | [] => exact localize_nil _ _
  | c :: t =>
    have hlength := lexeme_length c t
    have happend := lexeme_append c t
    have hmode := saysMode_lexeme h
    obtain ⟨u, v, htext⟩ := (lexeme c t).item.exists_inside
    rw [localize_item h, Item.innerMode_of_saysMode hmode]
    rw [← happend] at h
    have hinside : mentionsModes (lexeme c t).item.inside = false := by
      rw [htext, List.append_assoc, List.append_assoc] at h
      exact not_mentionsModes_within h
    have hrest : mentionsModes (lexeme c t).rest = false :=
      not_mentionsModes_within (v := []) (by rwa [List.append_nil])
    rw [localize_global hinside, localize_global hrest, Item.write_global hmode, happend]
termination_by s.length

/-- **Marking only inserts marks.** A selector that says nothing about modes, well-formed or not, is
    cut around words, and these words are marked. They are exactly the classes and ids, with names as
    long as they can be, that stand neither behind a backslash nor in a string, an attribute or the
    argument of a pseudo-element. In global mode the selector stays as it is. -/
theorem markLocal_wraps {s : Text} (h : mentionsModes s = false) :
    (∃ w : Wrapping, w.text = s ∧ markLocal s = w.marked ∧
      ∀ p : Occurrence, p ∈ w.words ↔
        p.text = s ∧ IsNameAt p ∧ (Reader.start.run p.before).hides = false) ∧
    localize .global .global s = s := by
  refine ⟨?_, localize_global h⟩
  have hslice : Slice [] (idle 0 []) s [] :=
    ⟨fun _ _ _ => List.nil_suffix, .inl rfl, h⟩
  obtain ⟨w, hw, hmarked⟩ := isCut s [] 0 [] (.last []) (by decide) hslice (.nil _)
  rw [List.append_nil] at hw
  refine ⟨w, hw.text, ?_, hw.mem_words⟩
  rw [markLocal, hmarked]
  exact (List.append_nil _).symm

/-- An attribute that is not closed ends with the argument it stands in, and a string that is not
    closed never ends. -/
theorem markLocal_wraps_unclosed :
    let s := "a\\.b:not([x).c]::d(.e)#f\".g".toList
    mentionsModes s = false ∧ ∃ w : Wrapping, w.text = s ∧ markLocal s = w.marked ∧
      ⟨"a\\.b:not([x)".toList, ".c".toList, "]::d(.e)#f\".g".toList⟩ ∈ w.words ∧
      ⟨"a\\.b:not([x).c]::d(.e)".toList, "#f".toList, "\".g".toList⟩ ∈ w.words ∧
      ⟨"a\\.b:not([x).c]::d(".toList, ".e".toList, ")#f\".g".toList⟩ ∉ w.words ∧
      ⟨"a\\.b:not([x).c]::d(.e)#f\"".toList, ".g".toList, []⟩ ∉ w.words := by
  have hmodeless : mentionsModes "a\\.b:not([x).c]::d(.e)#f\".g".toList = false := by decide
  obtain ⟨⟨w, htext, hmarked, hwords⟩, -⟩ := markLocal_wraps hmodeless
  refine ⟨hmodeless, w, htext, hmarked, ?_, ?_, ?_, ?_⟩
  · exact (hwords _).mpr ⟨by decide, ⟨'.', ['c'], by decide, by decide, by decide, by decide⟩,
      by decide⟩
  · exact (hwords _).mpr ⟨by decide, ⟨'#', ['f'], by decide, by decide, by decide, by decide⟩,
      by decide⟩
  · exact fun h => absurd ((hwords _).mp h).2.2 (by decide)
  · exact fun h => absurd ((hwords _).mp h).2.2 (by decide)

end StyleModules.Selector
