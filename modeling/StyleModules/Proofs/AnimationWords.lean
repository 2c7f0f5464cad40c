import StyleModules.Proofs.LinkedAnimations
import StyleModules.Proofs.WrappedWords

/-!
The words of a value that uses animations, and which of them are marked.

A word ends at a blank or a comma, but not at one in a string or in parentheses. `Nesting` says at
every place of a value, balanced or not, what is open there, and `WordAt` which words there are.

* The value is cut twice, at commas and each part of it at blanks, and the second cut starts anew
  in each part. Nothing is open at a comma that separates, so both cuts together are one
  (`refine_parts`).
* `Lined` describes the parts of a value without cutting it. They are the only ones there are
  (`Lined.parts_text`), and the runs among them are its words (`Lined.wordAt_iff`).
* `mark_wraps`: marking a value puts marks around some of its words. In a list these are all names; in
  the shorthand, the first name between two commas. Marking a list a second time changes nothing.
-/

namespace StyleModules.Animation

/-! ## 1. Words -/

/-- What is open at a place: maybe a string, and some parentheses. -/
structure Nesting where
  mark : Option Char
  depth : Nat
  deriving DecidableEq, Repr

namespace Nesting

/-- Where nothing is open. -/
def outside : Nesting :=
  ⟨none, 0⟩

/-- Behind one more character. -/
def step (n : Nesting) (c : Char) : Nesting :=
  match n.mark with
  | some mark => ⟨if c = mark then none else some mark, n.depth⟩
  | none =>
    if Text.isQuote c then ⟨some c, n.depth⟩
    else if c = '(' then ⟨none, n.depth + 1⟩
    else if c = ')' then ⟨none, n.depth - 1⟩
    else n

/-- Behind more text. -/
def run (n : Nesting) (t : Text) : Nesting :=
  t.foldl step n

/-- Whether a character separates here. -/
def separates (n : Nesting) (isSeparator : Char → Bool) (c : Char) : Bool :=
  decide (n = outside) && isSeparator c

/-- No character of a text separates. -/
def Holds (n : Nesting) (isSeparator : Char → Bool) (t : Text) : Prop :=
  ∀ a c b, t = a ++ c :: b → (n.run a).separates isSeparator c = false

/-- The number of commas in a text that separate. -/
def commas (n : Nesting) : Text → Nat
  | [] => 0
  | c :: t => (n.step c).commas t + if n.separates (· == ',') c then 1 else 0

@[simp] theorem run_nil (n : Nesting) : n.run [] = n := rfl

@[simp] theorem run_cons (n : Nesting) (c : Char) (t : Text) :
    n.run (c :: t) = (n.step c).run t := rfl

theorem run_append (n : Nesting) (s t : Text) : n.run (s ++ t) = (n.run s).run t :=
  List.foldl_append

theorem commas_append (n : Nesting) (s t : Text) :
    n.commas (s ++ t) = n.commas s + (n.run s).commas t := by
  induction s generalizing n with
  | nil => rw [List.nil_append, commas, Nat.zero_add, run_nil]
  | cons c s ih =>
    rw [List.cons_append, commas, commas, ih, run_cons]
    omega

theorem separates_iff {n : Nesting} {isSeparator : Char → Bool} {c : Char} :
    n.separates isSeparator c = true ↔ n = outside ∧ isSeparator c = true := by
  simp [separates]

/-- What opens nothing and closes nothing leaves everything as it is. -/
theorem step_opensNothing {c : Char} (hc : OpensNothing c) (d : Nat) :
    (⟨none, d⟩ : Nesting).step c = ⟨none, d⟩ := by
  obtain ⟨hq, ho, hc⟩ := hc
  simp only [step, hq, ho, hc, Bool.false_eq_true, if_false]

end Nesting

/-- What ends a word. -/
def isBreak (c : Char) : Bool :=
  Text.isBlank c || c == ','

/-- A word where it stands in a value, as long as it can be. `n` is what is open in front of the
    value. -/
structure WordAt (n : Nesting) (p : Occurrence) : Prop where
  ne_nil : p.word ≠ []
  whole : (n.run p.before).Holds isBreak p.word
  begins : p.before = [] ∨ ∃ u c, p.before = u ++ [c] ∧ (n.run u).separates isBreak c = true
  ends : p.after = [] ∨ ∃ c v, p.after = c :: v ∧
    (n.run (p.before ++ p.word)).separates isBreak c = true

/-! ## 2. Parts -/

open Nesting

section Lined

variable {isSeparator : Char → Bool}

/-- Parts that a text can be cut into. -/
inductive Lined (isSeparator : Char → Bool) : Nesting → List Part → Prop
  | nil (n : Nesting) : Lined isSeparator n []
  | separator {n : Nesting} {c : Char} {ps : List Part} (hc : n.separates isSeparator c = true)
      (hps : Lined isSeparator n ps) : Lined isSeparator n (.separator c :: ps)
  | run {n : Nesting} {t : Text} {ps : List Part} (ht : t ≠ []) (hold : n.Holds isSeparator t)
      (hstop : ∀ u qs, ps ≠ .run u :: qs) (hps : Lined isSeparator (n.run t) ps) :
      Lined isSeparator n (.run t :: ps)

theorem holds_nil (n : Nesting) : n.Holds isSeparator [] := by
  intro a c b h
  exact absurd h.symm (by simp)

theorem holds_cons {n : Nesting} {c : Char} {t : Text} (hc : n.separates isSeparator c = false)
    (ht : (n.step c).Holds isSeparator t) : n.Holds isSeparator (c :: t) := by
  intro a d b h
  cases a with
  | nil =>
    obtain ⟨rfl, rfl⟩ := List.cons.inj h
    exact hc
  | cons e a =>
    obtain ⟨rfl, rfl⟩ := List.cons.inj h
    exact ht a d b rfl

theorem Nesting.Holds.head {n : Nesting} {c : Char} {t : Text} (h : n.Holds isSeparator (c :: t)) :
    n.separates isSeparator c = false :=
  h [] c t rfl

theorem Nesting.Holds.tail {n : Nesting} {c : Char} {t : Text} (h : n.Holds isSeparator (c :: t)) :
    (n.step c).Holds isSeparator t := by
  intro a d b ht
  exact h (c :: a) d b (by rw [ht]; rfl)

theorem Nesting.Holds.commas_eq_zero {n : Nesting} {t : Text} (h : n.Holds isBreak t) :
    n.commas t = 0 := by
  induction t generalizing n with
  | nil => rfl
  | cons c t ih =>
    have hcomma : n.separates (· == ',') c = false := by
      have hnot := h.head
      rw [Nesting.separates, isBreak, Bool.and_or_distrib_left, Bool.or_eq_false_iff] at hnot
      exact hnot.2
    rw [commas, ih h.tail, hcomma]
    rfl

/-- A character that does not separate joins the run behind it, or makes one. -/
theorem Lined.attach {n : Nesting} {c : Char} {ps : List Part}
    (hc : n.separates isSeparator c = false) (h : Lined isSeparator (n.step c) ps) :
    Lined isSeparator n (attach c ps) := by
  cases h with
  | nil => exact .run (by simp) (holds_cons hc (holds_nil _)) nofun (.nil _)
  | separator hd hps => exact .run (by simp) (holds_cons hc (holds_nil _)) nofun (.separator hd hps)
  | run ht hold hstop hps => exact .run (by simp) (holds_cons hc hold) hstop hps

theorem text_attach (c : Char) (ps : List Part) : text (attach c ps) = c :: text ps := by
  unfold attach
  split <;> rfl

variable (hseparator : ∀ c, isSeparator c = true → OpensNothing c)

include hseparator

/-- A separator changes nothing in what is open. -/
theorem step_separates {n : Nesting} {c : Char} (h : n.separates isSeparator c = true) :
    n.step c = n := by
  obtain ⟨rfl, hc⟩ := separates_iff.mp h
  exact step_opensNothing (hseparator c hc) 0

/-- A character separates, or else joins what follows it. -/
theorem parts_cons (n : Nesting) (c : Char) (t : Text) :
    parts isSeparator n.mark n.depth (c :: t) =
      if n.separates isSeparator c then .separator c :: parts isSeparator n.mark n.depth t
      else attach c (parts isSeparator (n.step c).mark (n.step c).depth t) := by
  obtain ⟨mark, depth⟩ := n
  cases mark with
  | some mark => rfl
  | none =>
    have hseparates : (⟨none, depth⟩ : Nesting).separates isSeparator c =
        (depth = 0 && isSeparator c) := by
      simp [Nesting.separates, Nesting.outside]
    by_cases hopens : OpensNothing c
    · rw [parts, hseparates, step_opensNothing hopens, hopens.1, if_neg Bool.false_ne_true,
        if_neg hopens.2.1, if_neg hopens.2.2]
    · have hnot : isSeparator c = false :=
        Bool.eq_false_iff.mpr fun h => hopens (hseparator c h)
      rw [hseparates, hnot, Bool.and_false, if_neg Bool.false_ne_true, parts, hnot, Bool.and_false]
      unfold Nesting.step
      dsimp only
      split
      · rfl
      split
      · rfl
      split <;> rfl

/-- The parts of a text are such parts. -/
theorem lined_parts (n : Nesting) (t : Text) :
    Lined isSeparator n (parts isSeparator n.mark n.depth t) := by
  induction t generalizing n with
  | nil =>
    rw [parts]
    exact .nil n
  | cons c t ih =>
    rw [parts_cons hseparator]
    split
    · next hc => exact .separator hc (ih n)
    · next hc => exact .attach (Bool.eq_false_iff.mpr hc) (ih (n.step c))

/-- The parts of a text are the text. -/
theorem text_parts (n : Nesting) (t : Text) : text (parts isSeparator n.mark n.depth t) = t := by
  induction t generalizing n with
  | nil =>
    rw [parts]
    rfl
  | cons c t ih =>
    rw [parts_cons hseparator]
    split
    · exact congrArg (c :: ·) (ih n)
    · rw [text_attach, ih]

/-- Characters that do not separate make a run, if none follows that would join it. -/
theorem parts_holds {n : Nesting} {t : Text} (ht : t ≠ []) (hold : n.Holds isSeparator t)
    {rest : Text} {ps : List Part} (hstop : ∀ u qs, ps ≠ .run u :: qs)
    (hrest : parts isSeparator (n.run t).mark (n.run t).depth rest = ps) :
    parts isSeparator n.mark n.depth (t ++ rest) = .run t :: ps := by
  induction t generalizing n with
  | nil => exact absurd rfl ht
  | cons c t ih =>
    rw [List.cons_append, parts_cons hseparator, hold.head, if_neg Bool.false_ne_true]
    cases t with
    | nil =>
      rw [List.nil_append, show parts isSeparator (n.step c).mark (n.step c).depth rest = ps from hrest]
      cases ps with
      | nil => rfl
      | cons p ps =>
        cases p with
        | run u => exact absurd rfl (hstop u ps)
        | separator d => rfl
    | cons d t =>
      rw [ih (List.cons_ne_nil d t) hold.tail hrest]
      rfl

/-- **No text can be cut in two ways.** -/
theorem Lined.parts_text {n : Nesting} {ps : List Part} (h : Lined isSeparator n ps) :
    parts isSeparator n.mark n.depth (text ps) = ps := by
  induction h with
  | nil n =>
    show parts isSeparator n.mark n.depth [] = []
    rw [parts]
  | @separator n c ps hc _ ih =>
    show parts isSeparator n.mark n.depth (c :: text ps) = _
    rw [parts_cons hseparator, if_pos hc, ih]
  | @run n t ps ht hold hstop _ ih => exact parts_holds hseparator ht hold hstop ih

end Lined

theorem isBreak_opensNothing (c : Char) (h : isBreak c = true) : OpensNothing c :=
  opensNothing_of rfl h

/-- The parts of a value. -/
theorem lined_value (value : Text) : Lined isBreak outside (parts isBreak none 0 value) :=
  lined_parts isBreak_opensNothing outside value

theorem text_value (value : Text) : text (parts isBreak none 0 value) = value :=
  text_parts isBreak_opensNothing outside value

/-! ## 3. Cutting twice -/

/-- The parts of a text that was cut at commas, each run cut again at blanks. `n` is what is open in
    front of the first. -/
def refine (n : Nesting) : List Part → List Part
  | [] => []
  | .run t :: ps => parts Text.isBlank n.mark n.depth t ++ refine outside ps
  | .separator c :: ps => .separator c :: refine outside ps

theorem attach_append (c : Char) {ps : List Part} (h : ps ≠ []) (qs : List Part) :
    attach c (ps ++ qs) = attach c ps ++ qs := by
  cases ps with
  | nil => exact absurd rfl h
  | cons p ps => cases p <;> rfl

theorem blank_opensNothing (c : Char) (h : Text.isBlank c = true) : OpensNothing c :=
  opensNothing_of rfl h

theorem comma_opensNothing (c : Char) (h : (c == ',') = true) : OpensNothing c := by
  rw [eq_of_beq h]
  exact ⟨rfl, by decide, by decide⟩

/-- A character in front of parts belongs to the first run, and is cut off again if it is a blank. -/
theorem refine_attach {n : Nesting} {c : Char} {ps : List Part}
    (h : Lined (· == ',') (n.step c) ps) :
    refine n (attach c ps) =
      if n.separates Text.isBlank c then .separator c :: refine (n.step c) ps
      else attach c (refine (n.step c) ps) := by
  -- a run of one character
  have hsingle : parts Text.isBlank n.mark n.depth [c] =
      if n.separates Text.isBlank c then [.separator c] else [.run [c]] := by
    rw [parts_cons blank_opensNothing, parts, parts]
    rfl
  cases h with
  | nil =>
    show parts Text.isBlank n.mark n.depth [c] ++ [] = _
    rw [hsingle, List.append_nil]
    rfl
  | @separator _ d ps hd hps =>
    show parts Text.isBlank n.mark n.depth [c] ++ .separator d :: refine outside ps = _
    rw [hsingle]
    split <;> rfl
  | @run _ t ps ht hold hstop hps =>
    have hne : parts Text.isBlank (n.step c).mark (n.step c).depth t ≠ [] := by
      intro hnil
      have htext := text_parts blank_opensNothing (n.step c) t
      rw [hnil] at htext
      exact ht htext.symm
    show parts Text.isBlank n.mark n.depth (c :: t) ++ refine outside ps = _
    rw [parts_cons blank_opensNothing, refine, attach_append c hne]
    split
    · next hblank => rw [step_separates blank_opensNothing hblank]; rfl
    · rfl

/-- **Cutting at commas and then at blanks is cutting at both**: nothing is open at a comma that
    separates, so starting anew behind it makes no difference. -/
theorem refine_parts (n : Nesting) (t : Text) :
    refine n (parts (· == ',') n.mark n.depth t) = parts isBreak n.mark n.depth t := by
  induction t generalizing n with
  | nil =>
    rw [parts, parts]
    rfl
  | cons c t ih =>
    rw [parts_cons comma_opensNothing, parts_cons isBreak_opensNothing]
    have hbreak : n.separates isBreak c =
        (n.separates Text.isBlank c || n.separates (· == ',') c) := by
      simp only [separates, isBreak, Bool.and_or_distrib_left]
    cases hcomma : n.separates (· == ',') c with
    | true =>
      obtain ⟨rfl, -⟩ := separates_iff.mp hcomma
      rw [hbreak, hcomma, Bool.or_true, if_pos rfl, if_pos rfl, refine, ih]
    | false =>
      rw [hbreak, hcomma, Bool.or_false, if_neg Bool.false_ne_true,
        refine_attach (lined_parts comma_opensNothing _ _), ih]
      split
      · next hblank => rw [step_separates blank_opensNothing hblank]
      · rfl

/-! ## 4. Words are runs -/

/-- A run where it stands among parts, with the parts in front of it. -/
inductive RunAt : List Part → List Part → Occurrence → Prop
  | head {t : Text} {ps : List Part} {p : Occurrence} (hword : t = p.word) (hbefore : p.before = [])
      (hafter : text ps = p.after) : RunAt (.run t :: ps) [] p
  | cons {ps front : List Part} {p : Occurrence} (q : Part) (h : RunAt ps front p) :
      RunAt (q :: ps) (q :: front) (p.shift q.text)

theorem RunAt.text_eq {ps front : List Part} {p : Occurrence} (h : RunAt ps front p) :
    p.text = text ps := by
  induction h with
  | head hword hbefore hafter =>
    rw [Occurrence.text, hbefore, ← hword, ← hafter]
    rfl
  | cons q _ ih =>
    rw [Occurrence.text_shift, ih]
    rfl

namespace WordAt

variable {n : Nesting} {p : Occurrence} {front : Text}

/-- A word with more text in front, if it does not grow together with it. -/
theorem shift (h : WordAt (n.run front) p)
    (hfront : p.before = [] → ∃ u c, front = u ++ [c] ∧ (n.run u).separates isBreak c = true) :
    WordAt n (p.shift front) := by
  refine ⟨h.ne_nil, ?_, ?_, ?_⟩
  · rw [Occurrence.shift, run_append]
    exact h.whole
  · rcases h.begins with hbefore | ⟨u, c, hbefore, hc⟩
    · obtain ⟨u, c, hu, hc⟩ := hfront hbefore
      exact .inr ⟨u, c, by rw [Occurrence.shift, hbefore, hu, List.append_nil], hc⟩
    · refine .inr ⟨front ++ u, c, by rw [Occurrence.shift, hbefore, List.append_assoc], ?_⟩
      rwa [run_append]
  · rcases h.ends with hafter | ⟨c, v, hafter, hc⟩
    · exact .inl hafter
    · refine .inr ⟨c, v, hafter, ?_⟩
      rwa [Occurrence.shift, List.append_assoc, run_append]

/-- A word without the text in front. -/
theorem unshift (h : WordAt n (p.shift front)) : WordAt (n.run front) p := by
  refine ⟨h.ne_nil, ?_, ?_, ?_⟩
  · rw [← run_append]
    exact h.whole
  · rcases List.eq_nil_or_concat p.before with hbefore | ⟨u, c, hbefore⟩
    · exact .inl hbefore
    · rw [List.concat_eq_append] at hbefore
      refine .inr ⟨u, c, hbefore, ?_⟩
      rcases h.begins with hnil | ⟨u', c', hfront, hc'⟩
      · rw [Occurrence.shift, hbefore] at hnil
        simp at hnil
      · have hfront' : (front ++ u) ++ [c] = u' ++ [c'] := by
          rw [List.append_assoc, ← hbefore]
          exact hfront
        obtain ⟨rfl, hlast⟩ := List.append_inj' hfront' rfl
        obtain ⟨rfl, -⟩ := List.cons.inj hlast
        rwa [← run_append]
  · rcases h.ends with hafter | ⟨c, v, hafter, hc⟩
    · exact .inl hafter
    · refine .inr ⟨c, v, hafter, ?_⟩
      rwa [Occurrence.shift, List.append_assoc, run_append] at hc

end WordAt

namespace Lined

variable {n : Nesting}

/-- What follows a run is a separator. -/
theorem separates_of_text {ps : List Part} (h : Lined isBreak n ps) (hstop : ∀ u qs, ps ≠ .run u :: qs)
    {c : Char} {t : Text} (htext : text ps = c :: t) : n.separates isBreak c = true := by
  cases h with
  | nil => cases htext
  | separator hc _ =>
    obtain ⟨rfl, -⟩ := List.cons.inj htext
    exact hc
  | run => exact absurd rfl (hstop _ _)

/-- A run is a word. -/
theorem wordAt_of_run {ps front : List Part} (h : Lined isBreak n ps) {p : Occurrence}
    (hrun : RunAt ps front p) : WordAt n p := by
  induction hrun generalizing n with
  | @head t ps p hword hbefore hafter =>
    subst hword
    cases h with
    | run ht hold hstop hback =>
      refine ⟨ht, by rw [hbefore]; exact hold, .inl hbefore, ?_⟩
      cases hrest : p.after with
      | nil => exact .inl rfl
      | cons c v =>
        refine .inr ⟨c, v, rfl, ?_⟩
        rw [hbefore]
        exact hback.separates_of_text hstop (hafter.trans hrest)
  | @cons ps front p q hrun ih =>
    cases h with
    | @separator _ c _ hc hps =>
      have hstep : n.run [c] = n := step_separates isBreak_opensNothing hc
      have hword : WordAt (n.run [c]) p := hstep.symm ▸ ih hps
      exact hword.shift fun _ => ⟨[], c, rfl, hc⟩
    | @run _ u _ ht hold hstop hps =>
      refine (ih hps).shift fun hnil => ?_
      -- two runs do not follow each other
      cases hrun with
      | head => exact absurd rfl (hstop _ _)
      | @cons _ _ _ r _ =>
        cases r with
        | run v => exact absurd rfl (hstop v _)
        | separator d => cases hnil

/-- A word is a run. -/
theorem run_of_wordAt {ps : List Part} (h : Lined isBreak n ps) {p : Occurrence}
    (htext : p.text = text ps) (hword : WordAt n p) : ∃ front, RunAt ps front p := by
  induction h generalizing p with
  | nil n =>
    have hnil := (List.append_eq_nil_iff.mp htext).2
    exact absurd (List.append_eq_nil_iff.mp hnil).1 hword.ne_nil
  | @separator n c ps hc hps ih =>
    rcases Occurrence.first_or_shift htext with ⟨hbefore, hd⟩ | ⟨q, rfl, hq⟩
    · -- the word would begin with the separator
      exfalso
      obtain ⟨e, word, hword'⟩ := List.exists_cons_of_ne_nil hword.ne_nil
      rw [hword'] at hd
      have hhead := hword.whole
      rw [hbefore, hword', (List.cons.inj hd).1] at hhead
      have hnot : n.separates isBreak c = false := hhead.head
      rw [hnot] at hc
      cases hc
    · have hstep : n.run [c] = n := step_separates isBreak_opensNothing hc
      obtain ⟨front, hrun⟩ := ih hq (hstep ▸ hword.unshift)
      exact ⟨_, hrun.cons (.separator c)⟩
  | @run n t ps ht hold hstop hps ih =>
    rcases @Occurrence.within_or_shift p t (text ps) htext with ⟨d, more, hfront, hd⟩ | ⟨q, rfl, hq⟩
    · -- the word begins where the run begins, and each is as long as it can be
      have hbefore : p.before = [] := by
        rcases hword.begins with hbefore | ⟨u, c, hbefore, hc⟩
        · exact hbefore
        · have hnot := hold u c (d :: more) (by rw [hfront, hbefore, List.append_assoc]; rfl)
          rw [hnot] at hc
          cases hc
      rw [hbefore, List.nil_append] at hfront
      have hwhole := hword.whole
      have hends := hword.ends
      rw [hbefore] at hwhole hends
      rw [← hfront] at hd
      have hsame : p.word = t := by
        rcases List.append_eq_append_iff.mp hd with ⟨as, hlong, hafter⟩ | ⟨bs, hlong, hrest⟩
        · cases as with
          | nil => rw [hlong, List.append_nil]
          | cons c as =>
            rcases hends with hnil | ⟨e, v, he, hc⟩
            · rw [hnil] at hafter
              cases hafter
            · rw [he] at hafter
              obtain ⟨rfl, -⟩ := List.cons.inj hafter
              have hnot := hold _ _ _ hlong
              rw [List.nil_append] at hc
              rw [hnot] at hc
              cases hc
        · cases bs with
          | nil => rw [hlong, List.append_nil]
          | cons c bs =>
            have hnot := hwhole _ _ _ hlong
            rw [run_nil, hps.separates_of_text hstop hrest] at hnot
            cases hnot
      rw [hsame] at hd
      exact ⟨[], .head hsame.symm hbefore (List.append_cancel_left hd).symm⟩
    · obtain ⟨front, hrun⟩ := ih hq hword.unshift
      exact ⟨_, hrun.cons (.run t)⟩

/-- **The runs among parts are the words of their text.** -/
theorem wordAt_iff {ps : List Part} (h : Lined isBreak n ps) {p : Occurrence} :
    (∃ front, RunAt ps front p) ↔ p.text = text ps ∧ WordAt n p :=
  ⟨fun ⟨_, hrun⟩ => ⟨hrun.text_eq, h.wordAt_of_run hrun⟩,
    fun ⟨htext, hword⟩ => h.run_of_wordAt htext hword⟩

end Lined

/-! ## 5. Which words are marked -/

/-- Whether a name has been marked since the last comma, behind one more run. In a list this does not
    matter. -/
def finds (shorthand found : Bool) (t : Text) : Bool :=
  found || (shorthand && isName shorthand t)

/-- Parts cut around the names that are marked: those in front of which none was found. -/
def wrapping (shorthand : Bool) : Bool → List Part → Wrapping
  | _, [] => .last []
  | found, .run t :: ps =>
    if !found && isName shorthand t then .word [] t (wrapping shorthand (finds shorthand found t) ps)
    else (wrapping shorthand (finds shorthand found t) ps).push t
  | found, .separator c :: ps => (wrapping shorthand (found && c != ',') ps).push [c]

/-- Whether a name has been marked since the last comma, behind parts. -/
def foundAfter (shorthand : Bool) : Bool → List Part → Bool
  | found, [] => found
  | found, .run t :: ps => foundAfter shorthand (finds shorthand found t) ps
  | found, .separator c :: ps => foundAfter shorthand (found && c != ',') ps

theorem text_wrapping (shorthand found : Bool) (ps : List Part) :
    (wrapping shorthand found ps).text = text ps := by
  induction ps generalizing found with
  | nil => rfl
  | cons p ps ih =>
    cases p with
    | run t =>
      rw [wrapping]
      split
      · exact congrArg (t ++ ·) (ih _)
      · rw [Wrapping.text_push, ih]
        rfl
    | separator c =>
      rw [wrapping, Wrapping.text_push, ih]
      rfl

theorem marked_word (t : Text) (w : Wrapping) :
    (Wrapping.word [] t w).marked = marked t ++ w.marked := by
  unfold marked
  rw [Wrapping.marked]
  simp only [List.nil_append, List.append_assoc, List.singleton_append]

/-- Without the shorthand, all names are marked. -/
theorem marked_wrapping_false (ps : List Part) : (wrapping false false ps).marked = markAll ps := by
  induction ps with
  | nil => rfl
  | cons p ps ih =>
    rw [markAll_eq] at ih ⊢
    rw [List.flatMap_cons, ← ih]
    cases p with
    | run t =>
      have hnone : finds false false t = false := rfl
      rw [wrapping, Part.write, hnone]
      by_cases hname : isName false t = true
      · rw [hname, if_pos rfl, Bool.not_false, Bool.and_self, if_pos rfl, marked_word]
      · rw [if_neg hname, Bool.eq_false_iff.mpr hname, Bool.and_false, if_neg Bool.false_ne_true]
        exact Wrapping.marked_push _ _
    | separator c => exact Wrapping.marked_push _ _

/-- Names between two commas: the first is marked, if none was found before. -/
theorem marked_wrapping_append {ps : List Part} (hps : .separator ',' ∉ ps) {qs : List Part}
    (hqs : qs = [] ∨ ∃ rest, qs = .separator ',' :: rest) (found : Bool) :
    (wrapping true found (ps ++ qs)).marked =
      (if found then text ps else markFirst ps) ++ (wrapping true false qs).marked := by
  induction ps generalizing found with
  | nil =>
    have hreset : wrapping true found qs = wrapping true false qs := by
      rcases hqs with rfl | ⟨rest, rfl⟩
      · rfl
      · simp [wrapping]
    rw [List.nil_append, hreset]
    cases found <;> rfl
  | cons p ps ih =>
    rw [List.mem_cons, not_or] at hps
    cases p with
    | run t =>
      rw [List.cons_append, wrapping, markFirst, finds, Bool.true_and]
      cases found with
      | true =>
        simp only [Bool.not_true, Bool.false_and, Bool.false_eq_true, if_false, if_true, Bool.true_or]
        rw [Wrapping.marked_push, ih hps.2 true, ← List.append_assoc]
        rfl
      | false =>
        by_cases hname : isName true t = true
        · rw [hname, if_pos rfl, Bool.not_false, Bool.and_self, if_pos rfl, marked_word,
            Bool.or_true, ih hps.2 true, if_neg Bool.false_ne_true, List.append_assoc]
          rfl
        · rw [if_neg hname, Bool.eq_false_iff.mpr hname, Bool.and_false, if_neg Bool.false_ne_true,
            if_neg Bool.false_ne_true, Bool.or_false, Wrapping.marked_push, ih hps.2 false,
            List.append_assoc]
          rfl
    | separator c =>
      have hc : (c != ',') = true := by
        rw [bne_iff_ne]
        exact fun e => hps.1 (by rw [e])
      rw [List.cons_append, wrapping, hc, Bool.and_true, Wrapping.marked_push, ih hps.2 found]
      cases found <;> rfl

/-- The separators between words of a part are blanks. -/
theorem not_mem_parts_blank (n : Nesting) (t : Text) :
    .separator ',' ∉ parts Text.isBlank n.mark n.depth t := by
  have hlined := lined_parts blank_opensNothing n t
  generalize parts Text.isBlank n.mark n.depth t = ps at hlined
  induction hlined with
  | nil => exact List.not_mem_nil
  | @separator n c ps hc _ ih =>
    rw [List.mem_cons, not_or]
    refine ⟨fun e => ?_, ih⟩
    obtain rfl := Part.separator.inj e
    exact absurd (separates_iff.mp hc).2 (by decide)
  | run _ _ _ _ ih =>
    rw [List.mem_cons, not_or]
    exact ⟨nofun, ih⟩

/-- Marking what is cut twice is marking each part by itself. -/
theorem marked_wrapping_refine {n : Nesting} {ps : List Part} (h : Lined (· == ',') n ps) :
    (wrapping true false (refine outside ps)).marked = ps.flatMap (Part.write (markPart true)) := by
  induction h with
  | nil => rfl
  | @separator n c ps hc _ ih =>
    rw [refine, wrapping, Wrapping.marked_push, Bool.false_and, ih]
    rfl
  | @run n t ps _ _ hstop hps ih =>
    have hrest : refine outside ps = [] ∨ ∃ rest, refine outside ps = .separator ',' :: rest := by
      cases hps with
      | nil => exact .inl rfl
      | @separator _ c qs hc _ =>
        rw [eq_of_beq (separates_iff.mp hc).2]
        exact .inr ⟨_, rfl⟩
      | run => exact absurd rfl (hstop _ _)
    rw [refine, marked_wrapping_append (not_mem_parts_blank outside t) hrest, ih,
      if_neg Bool.false_ne_true]
    rfl

theorem markAll_append (ps qs : List Part) : markAll (ps ++ qs) = markAll ps ++ markAll qs :=
  List.flatMap_append

theorem markAll_refine (ps : List Part) :
    markAll (refine outside ps) = ps.flatMap (Part.write (markPart false)) := by
  induction ps with
  | nil => rfl
  | cons p ps ih =>
    rw [List.flatMap_cons, ← ih]
    cases p with
    | run t => exact markAll_append _ _
    | separator c => rfl

/-- **Marking a value marks words of it.** -/
theorem mark_eq_wrapping (shorthand : Bool) (value : Text) :
    mark shorthand value = (wrapping shorthand false (parts isBreak none 0 value)).marked := by
  have hcut : refine outside (parts (· == ',') none 0 value) = parts isBreak none 0 value :=
    refine_parts outside value
  have hlined : Lined (· == ',') outside (parts (· == ',') none 0 value) :=
    lined_parts comma_opensNothing outside value
  rw [mark_eq, ← hcut]
  cases shorthand with
  | true => exact (marked_wrapping_refine hlined).symm
  | false => rw [marked_wrapping_false, markAll_refine]

/-- A run among parts is the first of them, or stands behind it. -/
theorem exists_runAt_cons {q : Part} {ps : List Part} {p : Occurrence} {P : List Part → Prop} :
    (∃ front, RunAt (q :: ps) front p ∧ P front) ↔
      (RunAt (q :: ps) [] p ∧ P []) ∨
        ∃ p', (∃ front, RunAt ps front p' ∧ P (q :: front)) ∧ p'.shift q.text = p := by
  constructor
  · rintro ⟨front, hrun, hP⟩
    cases hrun with
    | head hword hbefore hafter => exact .inl ⟨.head hword hbefore hafter, hP⟩
    | cons q hrun => exact .inr ⟨_, ⟨_, hrun, hP⟩, rfl⟩
  · rintro (⟨hrun, hP⟩ | ⟨p', ⟨front, hrun, hP⟩, rfl⟩)
    · exact ⟨[], hrun, hP⟩
    · exact ⟨_, .cons q hrun, hP⟩

/-- The words of the cut are the runs that are names, if none was marked before them. -/
theorem mem_words_wrapping {shorthand found : Bool} {ps : List Part} {p : Occurrence} :
    p ∈ (wrapping shorthand found ps).words ↔
      ∃ front, RunAt ps front p ∧ isName shorthand p.word = true ∧
        foundAfter shorthand found front = false := by
  induction ps generalizing found p with
  | nil => exact iff_of_false (fun h => (nomatch h)) fun ⟨_, h, _⟩ => (nomatch h)
  | cons q ps ih =>
    rw [exists_runAt_cons]
    cases q with
    | separator c =>
      have hnot : ¬RunAt (.separator c :: ps) [] p := nofun
      rw [wrapping, Wrapping.words_push, List.mem_map, or_iff_right fun h => hnot h.1]
      exact exists_congr fun q => and_congr_left fun e => e ▸ ih
    | run t =>
      rw [wrapping]
      by_cases hmark : (!found && isName shorthand t) = true
      · rw [if_pos hmark, Wrapping.words, List.mem_cons, List.mem_map, text_wrapping]
        refine or_congr ⟨?_, ?_⟩ (exists_congr fun q => and_congr_left fun e => e ▸ ih)
        · rintro rfl
          obtain ⟨hnone, hname⟩ := Bool.and_eq_true_iff.mp hmark
          exact ⟨.head rfl rfl rfl, hname, by simpa [foundAfter] using hnone⟩
        · rintro ⟨hrun, -, -⟩
          cases hrun with
          | head hword hbefore hafter => rw [hword, hafter, ← hbefore]
      · have hnot : ¬(RunAt (.run t :: ps) [] p ∧ isName shorthand p.word = true ∧
            foundAfter shorthand found [] = false) := by
          rintro ⟨hrun, hname, hnone⟩
          cases hrun with
          | head hword =>
            rw [foundAfter] at hnone
            exact hmark (by rw [hword, hname, hnone]; rfl)
        rw [if_neg hmark, Wrapping.words_push, List.mem_map, or_iff_right hnot]
        exact exists_congr fun q => and_congr_left fun e => e ▸ ih

/-! ## 6. The first name between two commas -/

/-- A name that is the first between two commas: between it and those in front stands a comma. -/
def IsFirst (p : Occurrence) : Prop :=
  ∀ q : Occurrence, q.text = p.text → WordAt outside q → isName true q.word = true →
    q.before.length < p.before.length → outside.commas q.before < outside.commas p.before

/-- In a list, no name stands in the way of another. -/
theorem foundAfter_list (ps : List Part) : foundAfter false false ps = false := by
  induction ps with
  | nil => rfl
  | cons p ps ih => cases p <;> exact ih

/-- Every run among parts is the first of them, or stands behind it. -/
theorem forall_runAt_cons {r : Part} {ps : List Part} {P : Occurrence → Prop} :
    (∀ q fq, RunAt (r :: ps) fq q → P q) ↔
      (∀ q, RunAt (r :: ps) [] q → P q) ∧ ∀ q fq, RunAt ps fq q → P (q.shift r.text) := by
  constructor
  · exact fun h => ⟨fun q hq => h q [] hq, fun q fq hq => h _ _ (hq.cons r)⟩
  · rintro ⟨hhead, hback⟩ q fq hq
    cases hq with
    | head hword hbefore hafter => exact hhead q (.head hword hbefore hafter)
    | cons r hq => exact hback _ _ hq

/-- No name has been marked since the last comma: there is a comma behind each. -/
theorem foundAfter_eq_false_iff {n : Nesting} {ps front : List Part} {p : Occurrence}
    (h : Lined isBreak n ps) (hrun : RunAt ps front p) {found : Bool} :
    foundAfter true found front = false ↔ (found = true → 0 < n.commas p.before) ∧
      ∀ q fq, RunAt ps fq q → isName true q.word = true → q.before.length < p.before.length →
        n.commas q.before < n.commas p.before := by
  induction hrun generalizing n found with
  | @head t ps p _ hbefore _ =>
    rw [hbefore]
    cases found <;> simp [foundAfter, commas]
  | @cons ps front p r hrun ih =>
    rw [forall_runAt_cons]
    simp only [Occurrence.shift, List.length_append, Nat.add_lt_add_iff_left, commas_append,
      Part.text]
    cases h with
    | @separator _ c _ hc hps =>
      have hstep : n.run [c] = n := step_separates isBreak_opensNothing hc
      have hhead : ∀ q, ¬RunAt (.separator c :: ps) [] q := by
        intro q hq
        cases hq
      have hcomma : n.commas [c] = if c = ',' then 1 else 0 := by
        simp [commas, Nesting.separates, (separates_iff.mp hc).1]
      simp only [foundAfter, ih hps, hhead, false_implies, implies_true, true_and, hstep,
        hcomma]
      refine and_congr_left fun _ => ?_
      by_cases hsame : c = ','
      · simp [hsame, Nat.add_comm 1]
      · simp [hsame]
    | @run _ t _ ht hold hstop hps =>
      have hpos : 0 < t.length := List.length_pos_iff.mpr ht
      have hhead : (∀ q, RunAt (.run t :: ps) [] q → isName true q.word = true →
          q.before.length < t.length + p.before.length →
            n.commas q.before < (n.run t).commas p.before) ↔
          (isName true t = true → 0 < (n.run t).commas p.before) := by
        constructor
        · exact fun h hname => h ⟨[], t, text ps⟩ (.head rfl rfl rfl) hname (by simp; omega)
        · rintro h q hq hname -
          cases hq with
          | head hword hbefore =>
            rw [hbefore]
            exact h (hword ▸ hname)
      simp only [foundAfter, ih hps, hold.commas_eq_zero, Nat.zero_add, finds, Bool.true_and,
        Bool.or_eq_true, or_imp, hhead, and_assoc]

/-- The words that marking marks. -/
theorem mem_words_parts {shorthand : Bool} {value : Text} {p : Occurrence} :
    p ∈ (wrapping shorthand false (parts isBreak none 0 value)).words ↔
      p.text = value ∧ WordAt outside p ∧ isName shorthand p.word = true ∧
        (shorthand = true → IsFirst p) := by
  have hlined := lined_value value
  have htext := text_value value
  have hfirst : ∀ front, RunAt (parts isBreak none 0 value) front p →
      (foundAfter shorthand false front = false ↔ (shorthand = true → IsFirst p)) := by
    intro front hrun
    cases shorthand with
    | false => simp [foundAfter_list]
    | true =>
      rw [foundAfter_eq_false_iff hlined hrun]
      simp only [Bool.false_eq_true, false_implies, true_and, forall_const, IsFirst]
      refine forall_congr' fun q => ?_
      rw [hrun.text_eq, ← exists_imp, hlined.wordAt_iff, and_imp]
  rw [mem_words_wrapping]
  constructor
  · rintro ⟨front, hrun, hname, hfound⟩
    obtain ⟨hp, hword⟩ := hlined.wordAt_iff.mp ⟨front, hrun⟩
    exact ⟨hp.trans htext, hword, hname, (hfirst front hrun).mp hfound⟩
  · rintro ⟨hp, hword, hname, hshort⟩
    obtain ⟨front, hrun⟩ := hlined.wordAt_iff.mpr ⟨hp.trans htext.symm, hword⟩
    exact ⟨front, hrun, hname, (hfirst front hrun).mpr hshort⟩

/-! ## 7. Marking a list twice -/

/-- Characters that open nothing leave everything as it is. -/
theorem run_opensNothing {t : Text} (ht : ∀ c ∈ t, OpensNothing c) (d : Nat) :
    (⟨none, d⟩ : Nesting).run t = ⟨none, d⟩ := by
  induction t with
  | nil => rfl
  | cons c t ih =>
    obtain ⟨hc, ht⟩ := List.forall_mem_cons.mp ht
    rw [run_cons, step_opensNothing hc, ih ht]

theorem isIdentChar_of_isName {shorthand : Bool} {t : Text} (h : isName shorthand t = true) :
    ∀ c ∈ t, Text.isIdentChar c = true := by
  simp only [isName, Bool.and_eq_true, List.all_eq_true] at h
  exact h.1.1.2

theorem opensNothing_of_isName {shorthand : Bool} {t : Text} (h : isName shorthand t = true) :
    ∀ c ∈ t, OpensNothing c :=
  fun c hc => opensNothing_of rfl (isIdentChar_of_isName h c hc)

/-- What is marked is no name again. -/
theorem isName_marked (shorthand : Bool) (t : Text) : isName shorthand (marked t) = false := by
  rw [Bool.eq_false_iff]
  intro h
  have hmem : ':' ∈ marked t := by
    unfold marked
    exact List.mem_append_left _ (List.mem_append_left _ (by decide))
  exact absurd (isIdentChar_of_isName h ':' hmem) (by decide)

theorem marked_ne_nil (t : Text) : marked t ≠ [] :=
  List.append_ne_nil_of_right_ne_nil _ (List.cons_ne_nil _ _)

theorem run_marked {t : Text} (ht : ∀ c ∈ t, OpensNothing c) : outside.run (marked t) = outside := by
  have hopen : outside.run ":local(".toList = ⟨none, 1⟩ := by decide
  unfold marked
  rw [run_append, run_append, hopen, run_opensNothing ht]
  rfl

/-- A name that is no more than one word is one with its mark. -/
theorem holds_marked {t : Text} (hname : isName false t = true) (hold : outside.Holds isBreak t) :
    outside.Holds isBreak (marked t) := by
  have hword : ∀ c ∈ t, isBreak c = false := by
    intro c hc
    obtain ⟨a, b, rfl⟩ := List.append_of_mem hc
    have ha : outside.run a = outside :=
      run_opensNothing (fun d hd => opensNothing_of_isName hname d (List.mem_append_left _ hd)) 0
    have hnot := hold a c b rfl
    rw [ha] at hnot
    simpa [Nesting.separates] using hnot
  have hmarked : ∀ c ∈ marked t, isBreak c = false := by
    intro c hc
    unfold marked at hc
    rcases List.mem_append.mp hc with hc | hc
    · rcases List.mem_append.mp hc with hc | hc
      · have hall : ":local(".toList.all fun d => !isBreak d := by decide
        simpa using List.all_eq_true.mp hall c hc
      · exact hword c hc
    · rw [List.mem_singleton.mp hc]
      decide
  intro a c b h
  rw [Nesting.separates, hmarked c (by rw [h]; simp), Bool.and_false]

/-- The parts of a list are also parts when its names are marked. -/
theorem Lined.renameAll {n : Nesting} {ps : List Part} (h : Lined isBreak n ps)
    (hn : ∀ t qs, ps = .run t :: qs → n = outside) :
    Lined isBreak n (renameAll marked ps) := by
  induction h with
  | nil n => exact .nil n
  | separator hc _ ih => exact .separator hc (ih fun _ _ _ => (separates_iff.mp hc).1)
  | @run n t ps ht hold hstop hps ih =>
    obtain rfl := hn t ps rfl
    have hback := ih fun u qs e => absurd e (hstop u qs)
    have hstop' : ∀ u qs, Animation.renameAll marked ps ≠ .run u :: qs := by
      cases ps with
      | nil => exact nofun
      | cons p ps =>
        cases p with
        | run u => exact absurd rfl (hstop u ps)
        | separator c => exact nofun
    show Lined isBreak outside (.run (if isName false t then marked t else t) ::
      Animation.renameAll marked ps)
    by_cases hname : isName false t = true
    · have hopens := opensNothing_of_isName hname
      rw [if_pos hname]
      refine .run (marked_ne_nil t) (holds_marked hname hold) hstop' ?_
      rw [run_marked hopens]
      rwa [show outside.run t = outside from run_opensNothing hopens 0] at hback
    · rw [if_neg hname]
      exact .run ht hold hstop' hback

theorem renameAll_renameAll (ps : List Part) :
    renameAll marked (renameAll marked ps) = renameAll marked ps := by
  unfold renameAll
  rw [List.map_map]
  refine List.map_congr_left fun p _ => ?_
  cases p with
  | separator c => rfl
  | run t =>
    by_cases hname : isName false t = true
    · simp [hname, isName_marked]
    · simp [hname]

/-- In a list, marking a value marks the names among its words. -/
theorem mark_list (value : Text) :
    mark false value = text (renameAll marked (parts isBreak none 0 value)) := by
  rw [mark_eq_wrapping, marked_wrapping_false, text_renameAll]

theorem mark_mark (value : Text) : mark false (mark false value) = mark false value := by
  have hparts : parts isBreak none 0 (text (renameAll marked (parts isBreak none 0 value))) =
      renameAll marked (parts isBreak none 0 value) :=
    ((lined_value value).renameAll fun _ _ _ => rfl).parts_text isBreak_opensNothing
  rw [mark_list value, mark_list, hparts, renameAll_renameAll]

/-- **Marking a value puts marks around words of it and changes nothing else.** In a list these are
    the names among its words; in the shorthand, the first name between two commas. Marking a list
    that is marked changes nothing. -/
theorem mark_wraps (shorthand : Bool) (value : Text) :
    (∃ w : Wrapping, w.text = value ∧ mark shorthand value = w.marked ∧
      ∀ p : Occurrence, p ∈ w.words ↔ p.text = value ∧ WordAt outside p ∧
        isName shorthand p.word = true ∧ (shorthand = true → IsFirst p)) ∧
      mark false (mark false value) = mark false value := by
  refine ⟨⟨wrapping shorthand false (parts isBreak none 0 value), ?_, mark_eq_wrapping _ _,
    fun p => mem_words_parts⟩, mark_mark value⟩
  rw [text_wrapping, text_value]

/-- In the shorthand, a second name is marked when the value is marked again. -/
example : mark true (mark true "fade slide".toList) = ":local(fade) :local(slide)".toList := by
  decide +kernel

end StyleModules.Animation
