import Mathlib.Data.List.Infix
import StyleModules.Proofs.ClosedText
import StyleModules.Proofs.PrintBack

/-!
A well-formed tree that is written is read back as it was.

* Section 1 says which trees are well-formed: what may stand between nodes, what the words of a
  statement and of the head of a block look like, and which statement may lack its `;`. All of it
  can be computed.
* Section 2: the words of a statement are taken apart into what they were joined from
  (`AtHead.ofText_of_isWellFormed`, `Decl.ofText_print`).
* Section 3: one step of the reader takes in the blanks and the words of one node, and stops at the
  terminator that was written behind them (`step_statement`, `step_open`, `step_close`).
* Section 4: by induction over the tree, the reader comes out behind a node with this node read.
  Where a node stood in the text is not part of what is written, so trees are compared without it
  (`withoutSpans`).
-/

namespace StyleModules

/-! ## 1. Well-formed trees -/

/-- Whether a text can be the words of a statement or of the head of a block. -/
def Statement.isHead (t : Text) : Bool :=
  !t.isEmpty && isClosed t && !t.head?.any (fun c => Parser.isGap c || c == '\x7d') &&
    !"/*".toList.isPrefixOf t && !t.getLast?.any Text.isBlank

/-- Whether the words of an at-rule are where they belong. -/
def AtHead.isWellFormed (h : AtHead) : Bool :=
  Statement.isHead h.print && h.name.all isNameChar && h.gap.all Text.isBlank &&
    !h.params.head?.any fun c => Text.isBlank c || (h.gap.isEmpty && isNameChar c)

/-- Whether a text is an `!important` suffix. Blanks may stand in front of the `!` and around the
    word, and the letter case is free. -/
def Decl.isImportant (t : Text) : Bool :=
  match t.dropWhile Text.isBlank with
  | [] => false
  | c :: mark => c == '!' && Text.lower (Text.trim mark) == "important".toList

/-- Whether the words of a declaration are where they belong. A value may end like an `!important`
    suffix only in front of one. -/
def Decl.isWellFormed (d : Decl) (between : Text) : Bool :=
  Statement.isHead (d.print between) && !d.prop.isEmpty && d.prop.head? != some '@' &&
    d.prop.all (· != ':') && !d.prop.getLast?.any Text.isBlank &&
    Text.trim between == ":".toList &&
    !(d.value ++ d.important.getD []).head?.any Text.isBlank &&
    !d.value.getLast?.any Text.isBlank &&
    match d.important with
    | some suffix => isImportant suffix
    | none => !d.value.tails.any isImportant

/-- Whether a text can stand between the words of a statement and its `;`. Without a `;` there is
    nothing that it could stand in front of. -/
def Statement.isTrailing (terminate : Bool) (t : Text) : Bool :=
  t.all Text.isBlank && (terminate || t.isEmpty)

/-- Whether the end of a block fits its nodes: only a statement has a `;`, and behind a statement
    without one there is none that could be taken for it. -/
def Block.endFits (b : Block) : Bool :=
  b.after.all Parser.isGap &&
    if b.nodes.getLast?.any Node.isStatement then b.semicolon || b.after.all Text.isAsciiBlank
    else !b.semicolon

mutual

/-- Whether a node is well-formed, given whether it is terminated if it is a statement. -/
def Node.isWellFormed (terminate : Bool) : Node → Bool
  | .rule s l b ns =>
    Statement.isHead s && s.head? != some '@' && l.between.all Text.isBlank &&
      Block.endFits ⟨ns, l.after, b⟩ && allWellFormed b ns
  | .atBlock h l b ns =>
    h.isWellFormed && l.between.all Text.isBlank && Block.endFits ⟨ns, l.after, b⟩ &&
      allWellFormed b ns
  | .atStatement h l =>
    h.isWellFormed && Statement.isTrailing terminate l.between && l.after.isEmpty
  | .decl d l => d.isWellFormed l.between && Statement.isTrailing terminate l.after
  | .comment t l => !Text.contains "*/".toList t && l.between.isEmpty && l.after.isEmpty

/-- Whether the nodes of a block are well-formed, each behind its blanks. -/
def allWellFormed (semicolon : Bool) : List Node → Bool
  | [] => true
  | n :: ns =>
    n.before.all Parser.isGap && n.isWellFormed (!ns.isEmpty || semicolon) &&
      allWellFormed semicolon ns

end

/-- Whether a sheet is well-formed. -/
def Stylesheet.isWellFormed (sheet : Stylesheet) : Bool :=
  Block.endFits ⟨sheet.nodes, sheet.after, sheet.semicolon⟩ &&
    allWellFormed sheet.semicolon sheet.nodes

/-- A layout without the place that the node had in a text. -/
def Layout.withoutSpan (l : Layout) : Layout :=
  { l with span := none }

mutual

/-- A node without the places that it and the nodes in it had in a text. -/
def Node.withoutSpans : Node → Node
  | .rule s l b ns => .rule s l.withoutSpan b (withoutSpansAll ns)
  | .atBlock h l b ns => .atBlock h l.withoutSpan b (withoutSpansAll ns)
  | .atStatement h l => .atStatement h l.withoutSpan
  | .decl d l => .decl d l.withoutSpan
  | .comment t l => .comment t l.withoutSpan

/-- Nodes without the places that they had in a text. -/
def withoutSpansAll : List Node → List Node
  | [] => []
  | n :: ns => n.withoutSpans :: withoutSpansAll ns

end

/-! ## 2. The words of a statement -/

namespace Text

theorem trimEnd_of_getLast? {t : Text} (h : t.getLast?.any isBlank = false) : trimEnd t = t := by
  rcases List.eq_nil_or_concat t with rfl | ⟨u, c, rfl⟩
  · rfl
  · rw [List.concat_eq_append] at h ⊢
    rw [List.getLast?_concat] at h
    exact trimEnd_concat h u

theorem isBlank_of_isAsciiBlank {c : Char} (h : isAsciiBlank c = true) : isBlank c = true := by
  simp only [isAsciiBlank, Bool.or_eq_true, beq_iff_eq] at h
  rcases h with (((rfl | rfl) | rfl) | rfl) | rfl <;> rfl

/-- What is trimmed off at the end is what stands behind a text that has no blanks there. -/
theorem endBlanks_append {t b : Text} (h : t.getLast?.any isBlank = false)
    (hb : ∀ c ∈ b, isBlank c = true) : trimEnd (t ++ b) = t ∧ endBlanks (t ++ b) = b := by
  have htrim : trimEnd (t ++ b) = t := by rw [trimEnd_append_blanks hb, trimEnd_of_getLast? h]
  have hjoin := trimEnd_append_endBlanks (t ++ b)
  rw [htrim] at hjoin
  exact ⟨htrim, List.append_cancel_left hjoin⟩

/-- A text is cut where the first character of a class was put in. -/
theorem cutAt_append {p : Char → Bool} {c : Char} (hc : p c = true) (b : Text) :
    ∀ {a : Text}, (∀ d ∈ a, p d = false) → cutAt p (a ++ c :: b) = some (a, b)
  | [], _ => by rw [List.nil_append, cutAt, if_pos hc]
  | d :: a, h => by
    have hd := h d List.mem_cons_self
    rw [List.cons_append, cutAt, hd, cutAt_append hc b fun e he => h e (List.mem_cons_of_mem d he)]
    rfl

theorem cutAtLast_eq_none {p : Char → Bool} : ∀ {t : Text}, (∀ c ∈ t, p c = false) →
    cutAtLast p t = none
  | [], _ => rfl
  | c :: t, h => by
    rw [cutAtLast, cutAtLast_eq_none fun d hd => h d (List.mem_cons_of_mem c hd),
      h c List.mem_cons_self]
    rfl

/-- A text is cut where the last character of a class was put in. -/
theorem cutAtLast_append {p : Char → Bool} {c : Char} (hc : p c = true) {b : Text}
    (hb : ∀ d ∈ b, p d = false) : ∀ a : Text, cutAtLast p (a ++ c :: b) = some (a, b)
  | [] => by rw [List.nil_append, cutAtLast, cutAtLast_eq_none hb, if_pos hc]
  | d :: a => by rw [List.cons_append, cutAtLast, cutAtLast_append hc hb a]

/-- Trimming cuts blanks off at both ends. -/
theorem exists_blanks_around (t : Text) : ∃ a b, t = a ++ trim t ++ b ∧
    (∀ c ∈ a, isBlank c = true) ∧ ∀ c ∈ b, isBlank c = true := by
  refine ⟨(trimEnd t).takeWhile isBlank, endBlanks t, ?_, List.all_eq_true.mp List.all_takeWhile,
    isBlank_of_mem_endBlanks⟩
  have hsplit : (trimEnd t).takeWhile isBlank ++ trim t = trimEnd t :=
    List.takeWhile_append_dropWhile
  rw [hsplit, trimEnd_append_endBlanks]

/-- Characters that are not blank are not trimmed off. -/
theorem mem_trim {t : Text} {c : Char} (h : c ∈ t) (hc : isBlank c = false) : c ∈ trim t := by
  obtain ⟨a, b, ht, ha, hb⟩ := exists_blanks_around t
  rw [ht, List.mem_append, List.mem_append] at h
  rcases h with (h | h) | h
  · rw [ha c h] at hc
    cases hc
  · exact h
  · rw [hb c h] at hc
    cases hc

/-- Blanks in front of a text that begins without one. -/
theorem span_blanks {p : Char → Bool} {a t : Text} (ha : ∀ c ∈ a, p c = true)
    (ht : t.head?.any p = false) : (a ++ t).takeWhile p = a ∧ (a ++ t).dropWhile p = t := by
  have htake : t.takeWhile p = [] := by
    cases t with
    | nil => rfl
    | cons c t => exact List.takeWhile_cons_of_neg (by simpa using ht)
  have hdrop : t.dropWhile p = t := by
    cases t with
    | nil => rfl
    | cons c t => exact List.dropWhile_cons_of_neg (by simpa using ht)
  exact ⟨by rw [List.takeWhile_append_of_pos ha, htake, List.append_nil],
    by rw [List.dropWhile_append_of_pos ha, hdrop]⟩

end Text

namespace AtHead

/-- No blank is a character of a name: there are 25 of them. -/
theorem isNameChar_of_isBlank {c : Char} (h : Text.isBlank c = true) : isNameChar c = false := by
  have hmem : c.toNat ∈ [9, 10, 11, 12, 13, 32, 133, 160, 5760, 8192, 8193, 8194, 8195, 8196, 8197,
      8198, 8199, 8200, 8201, 8202, 8232, 8233, 8239, 8287, 12288] := by
    simp only [Text.isBlank, Bool.or_eq_true, Bool.and_eq_true, decide_eq_true_eq,
      beq_iff_eq] at h
    simp only [List.mem_cons, List.not_mem_nil, or_false]
    omega
  have hnone : ([9, 10, 11, 12, 13, 32, 133, 160, 5760, 8192, 8193, 8194, 8195, 8196, 8197,
      8198, 8199, 8200, 8201, 8202, 8232, 8233, 8239, 8287, 12288].all
        fun n => !isNameChar (Char.ofNat n)) = true := by decide +kernel
  have hc := List.all_eq_true.mp hnone c.toNat hmem
  rwa [Char.ofNat_toNat, Bool.not_eq_true'] at hc

/-- **The words of an at-rule are taken apart into what they were joined from.** -/
theorem ofText_of_isWellFormed {h : AtHead} (hwf : h.isWellFormed = true) :
    AtHead.ofText (h.name ++ h.gap ++ h.params) = h := by
  simp only [isWellFormed, Bool.and_eq_true, Bool.not_eq_true'] at hwf
  obtain ⟨⟨⟨_, hname⟩, hgap⟩, hparams⟩ := hwf
  have hblank : h.params.head?.any Text.isBlank = false := by
    cases hp : h.params.head? with
    | none => rfl
    | some c =>
      rw [hp] at hparams
      exact (Bool.or_eq_false_iff.mp hparams).1
  have hstop : (h.gap ++ h.params).head?.any isNameChar = false := by
    cases hg : h.gap with
    | nil =>
      rw [hg] at hparams
      cases hp : h.params.head? with
      | none => rw [List.nil_append, hp]; rfl
      | some c =>
        rw [hp] at hparams
        rw [List.nil_append, hp]
        exact (Bool.or_eq_false_iff.mp hparams).2
    | cons c gap =>
      rw [hg] at hgap
      exact isNameChar_of_isBlank (List.all_eq_true.mp hgap c List.mem_cons_self)
  obtain ⟨hn, hrest⟩ := Text.span_blanks (List.all_eq_true.mp hname) hstop
  obtain ⟨hg, hp⟩ := Text.span_blanks (List.all_eq_true.mp hgap) hblank
  rw [List.append_assoc, ofText, hn, hrest, hg, hp]

end AtHead

namespace Decl

/-- An `!important` suffix: blanks, the `!`, and a text without a second one. -/
theorem of_isImportant {t : Text} (h : isImportant t = true) :
    ∃ blanks mark, t = blanks ++ '!' :: mark ∧ (∀ c ∈ blanks, Text.isBlank c = true) ∧
      Text.lower (Text.trim mark) = "important".toList ∧ ∀ c ∈ mark, (c == '!') = false := by
  have hsplit : t.takeWhile Text.isBlank ++ t.dropWhile Text.isBlank = t :=
    List.takeWhile_append_dropWhile
  unfold isImportant at h
  split at h
  · cases h
  · next c mark hrest =>
    obtain ⟨hc, hword⟩ := Bool.and_eq_true_iff.mp h
    obtain rfl : c = '!' := eq_of_beq hc
    refine ⟨t.takeWhile Text.isBlank, mark, by rw [← hrest, hsplit],
      List.all_eq_true.mp List.all_takeWhile, eq_of_beq hword, fun c hmem => ?_⟩
    -- a second `!` would be part of the word
    refine beq_eq_false_iff_ne.mpr fun hbang => ?_
    subst hbang
    have hlower : '!' ∈ Text.lower (Text.trim mark) :=
      List.mem_map.mpr ⟨'!', Text.mem_trim hmem (by decide), by decide⟩
    rw [eq_of_beq hword] at hlower
    exact absurd hlower (by decide)

theorem isImportant_cons {mark : Text} (h : Text.lower (Text.trim mark) = "important".toList) :
    isImportant ('!' :: mark) = true := by
  have hdrop : ('!' :: mark).dropWhile Text.isBlank = '!' :: mark :=
    List.dropWhile_cons_of_neg (by decide)
  rw [isImportant, hdrop]
  simp only [beq_self_eq_true, Bool.true_and, beq_iff_eq]
  exact h

/-- A value that does not end in a suffix has none. -/
theorem splitImportant_of_not {value : Text} (h : value.tails.any isImportant = false) :
    splitImportant value = (value, none) := by
  unfold splitImportant
  split
  · rfl
  · next kept mark hcut =>
    obtain ⟨c, hc, hjoin⟩ := Text.append_of_cutAtLast hcut
    obtain rfl : c = '!' := eq_of_beq hc
    refine if_neg fun hword => ?_
    have htail : '!' :: mark ∈ value.tails := (List.mem_tails _ _).mpr ⟨kept, hjoin⟩
    exact List.any_eq_false.mp h _ htail (isImportant_cons hword)

/-- A suffix is found behind a value. -/
theorem splitImportant_append {value suffix : Text} (h : isImportant suffix = true)
    (hvalue : value.getLast?.any Text.isBlank = false) :
    splitImportant (value ++ suffix) = (value, some suffix) := by
  obtain ⟨blanks, mark, rfl, hblanks, hword, hbang⟩ := of_isImportant h
  obtain ⟨htrim, hend⟩ := Text.endBlanks_append hvalue hblanks
  unfold splitImportant
  rw [← List.append_assoc, Text.cutAtLast_append (by decide) hbang]
  simp only [if_pos hword, htrim, hend]

/-- **The words of a declaration are taken apart into what they were joined from.** -/
theorem ofText_print {d : Decl} {between : Text} (h : d.isWellFormed between = true) :
    ofText (d.print between) = .ok (d, between) := by
  simp only [isWellFormed, Bool.and_eq_true, Bool.not_eq_true', beq_iff_eq] at h
  obtain ⟨⟨⟨⟨⟨⟨⟨⟨_, hprop⟩, _⟩, hcolon⟩, hpropEnd⟩, hbetween⟩, hstart⟩, hvalueEnd⟩, himportant⟩ := h
  obtain ⟨a, b, hab, ha, hb⟩ := Text.exists_blanks_around between
  rw [hbetween] at hab
  have hsplit : splitImportant (d.value ++ d.important.getD []) = (d.value, d.important) := by
    cases hd : d.important with
    | none =>
      rw [hd] at himportant
      rw [Option.getD_none, List.append_nil]
      exact splitImportant_of_not (by simpa using himportant)
    | some suffix =>
      rw [hd] at himportant
      exact splitImportant_append himportant hvalueEnd
  have hfront : ∀ c ∈ d.prop ++ a, (c == ':') = false := by
    intro c hc
    rcases List.mem_append.mp hc with hc | hc
    · simpa using List.all_eq_true.mp hcolon c hc
    · refine beq_eq_false_iff_ne.mpr fun heq => ?_
      rw [heq] at hc
      exact absurd (ha ':' hc) (by decide)
  have hprint : d.print between =
      (d.prop ++ a) ++ ':' :: (b ++ (d.value ++ d.important.getD [])) := by
    rw [hab]
    simp [Decl.print]
  obtain ⟨htrim, hend⟩ := Text.endBlanks_append hpropEnd ha
  obtain ⟨htake, hdrop⟩ := Text.span_blanks hb hstart
  have hne : d.prop ≠ [] := by simpa using hprop
  rw [ofText, hprint, Text.cutAt_append (by decide) _ hfront]
  simp only [htrim, hend, htake, if_neg hne, Text.trimStart, Text.trimStartBy, hdrop, hsplit]
  rw [hab]
  simp

end Decl

/-! ## 3. One step -/

/-- What the words of a statement or of the head of a block look like. -/
structure Statement.Head (t : Text) : Prop where
  ne_nil : t ≠ []
  closed : isClosed t = true
  first : t.head?.any (fun c => Parser.isGap c || c == '\x7d') = false
  comment : "/*".toList.isPrefixOf t = false
  last : t.getLast?.any Text.isBlank = false

theorem Statement.head_of_isHead {t : Text} (h : isHead t = true) : Head t := by
  simp only [isHead, Bool.and_eq_true, Bool.not_eq_true'] at h
  obtain ⟨⟨⟨⟨hne, hclosed⟩, hfirst⟩, hcomment⟩, hlast⟩ := h
  exact ⟨by simpa using hne, hclosed, hfirst, hcomment, hlast⟩

theorem AtHead.head_print {h : AtHead} (hwf : h.isWellFormed = true) : Statement.Head h.print := by
  simp only [isWellFormed, Bool.and_eq_true] at hwf
  exact Statement.head_of_isHead hwf.1.1.1

theorem Decl.head_print {d : Decl} {between : Text} (hwf : d.isWellFormed between = true) :
    Statement.Head (d.print between) := by
  simp only [isWellFormed, Bool.and_eq_true] at hwf
  exact Statement.head_of_isHead hwf.1.1.1.1.1.1.1.1

namespace Parser

/-- Nothing more, or a terminator. -/
def Stops (rest : Text) : Prop :=
  rest = [] ∨ ∃ c t, rest = c :: t ∧ Statement.isTerminator c = true

/-- Neither a blank nor a terminator makes a comment of the character in front of it. -/
theorem head?_ne_star {trailing rest : Text} (hb : ∀ c ∈ trailing, Text.isBlank c = true)
    (hr : Stops rest) : (trailing ++ rest).head? ≠ some '*' := by
  cases trailing with
  | nil =>
    rcases hr with rfl | ⟨c, t, rfl, hc⟩
    · nofun
    · intro h
      rw [Option.some.inj h] at hc
      cases hc
  | cons c trailing =>
    intro h
    have hblank := hb c List.mem_cons_self
    rw [Option.some.inj h] at hblank
    cases hblank

/-- The step at the words of a node. -/
theorem step_words {before words more : Text} (hbefore : before.all isGap = true)
    (hwords : Statement.Head words) (hmore : more.head? ≠ some '*') (s : State) :
    step s (before ++ (words ++ more)) =
      stepWords s before (s.pos + Text.size before) (words ++ more) := by
  cases words with
  | nil => exact absurd rfl hwords.ne_nil
  | cons c words =>
    obtain ⟨hgap, hbrace⟩ := Bool.or_eq_false_iff.mp hwords.first
    obtain ⟨htake, hdrop⟩ := Text.span_blanks (t := c :: words ++ more)
      (List.all_eq_true.mp hbefore) hgap
    unfold step
    simp only [htake, hdrop]
    split
    · next h => cases h
    · next r h =>
      rw [List.cons_append, List.cons.injEq] at h
      rw [h.1] at hbrace
      cases hbrace
    · next inside h =>
      -- the words do not begin a comment, nor does a lone `/` with what follows it
      rw [List.cons_append, List.cons.injEq] at h
      obtain ⟨rfl, h⟩ := h
      cases words with
      | nil =>
        rw [List.nil_append] at h
        rw [h] at hmore
        exact absurd rfl hmore
      | cons d words =>
        rw [List.cons_append, List.cons.injEq] at h
        have hcomment := hwords.comment
        rw [h.1] at hcomment
        cases hcomment
    · rfl

/-- The node that is made of the words of an at-rule. -/
theorem statement_atHead {h : AtHead} (hwf : h.isWellFormed = true) (before trailing : Text)
    (start : Nat) : ∃ span, statement h.print before trailing start =
      .ok (.atStatement h ⟨before, trailing, [], span⟩) := by
  refine ⟨some ⟨start, start + Text.size h.print⟩, ?_⟩
  unfold statement
  simp only [AtHead.print, AtHead.ofText_of_isWellFormed hwf]

/-- The node that is made of the words of a declaration. -/
theorem statement_decl {d : Decl} {between : Text} (hwf : d.isWellFormed between = true)
    (before trailing : Text) (start : Nat) :
    ∃ span, statement (d.print between) before trailing start =
      .ok (.decl d ⟨before, between, trailing, span⟩) := by
  refine ⟨some ⟨start, start + Text.size (d.print between)⟩, ?_⟩
  unfold statement
  simp only
  split
  · next t ht =>
    -- the property does not begin with `@`
    simp only [Decl.isWellFormed, Bool.and_eq_true, Bool.not_eq_true', bne_iff_ne] at hwf
    obtain ⟨⟨⟨⟨⟨⟨⟨⟨_, hprop⟩, hat⟩, _⟩, _⟩, _⟩, _⟩, _⟩, _⟩ := hwf
    cases hp : d.prop with
    | nil =>
      rw [hp] at hprop
      cases hprop
    | cons c prop =>
      rw [Decl.print, hp, List.cons_append, List.cons_append, List.cons_append,
        List.cons.injEq] at ht
      rw [hp, ht.1] at hat
      exact absurd rfl hat
  · rw [Decl.ofText_print hwf]

/-- The words of a node are scanned up to the terminator behind the blanks that follow them. -/
theorem scan_words {words trailing rest : Text} (hwords : Statement.Head words)
    (hb : ∀ c ∈ trailing, Text.isBlank c = true) (hr : Stops rest) (pos : Nat) :
    Statement.scan .plain [] pos (words ++ (trailing ++ rest)) = .ok ⟨words ++ trailing, rest⟩ := by
  rw [Statement.scan_append hwords.closed pos (head?_ne_star hb hr), scan_blanks hb hr]
  rfl

/-- The step at the head of a block. -/
theorem step_open {before words between : Text} (hbefore : before.all isGap = true)
    (hwords : Statement.Head words) (hb : ∀ c ∈ between, Text.isBlank c = true) (s : State)
    (rest : Text) : ∃ start stop, step s (before ++ (words ++ (between ++ '\x7b' :: rest))) =
      .next ⟨⟨start, words, before, between, s.nodes⟩ :: s.pending, [], false, stop⟩ rest := by
  have hr : Stops ('\x7b' :: rest) := .inr ⟨_, rest, rfl, rfl⟩
  obtain ⟨htrim, hend⟩ := Text.endBlanks_append hwords.last hb
  rw [step_words hbefore hwords (head?_ne_star hb hr), stepWords, scan_words hwords hb hr]
  simp only [htrim, hend]
  exact ⟨_, _, rfl⟩

/-- The step at a statement and its `;`. -/
theorem step_terminated {before words trailing : Text} {n : Nat → Node}
    (hbefore : before.all isGap = true) (hwords : Statement.Head words)
    (hb : ∀ c ∈ trailing, Text.isBlank c = true)
    (hn : ∀ start, statement words before trailing start = .ok (n start)) (s : State)
    (rest : Text) : ∃ start stop, step s (before ++ (words ++ (trailing ++ ';' :: rest))) =
      .next ⟨s.pending, n start :: s.nodes, true, stop⟩ rest := by
  have hr : Stops (';' :: rest) := .inr ⟨_, rest, rfl, rfl⟩
  obtain ⟨htrim, hend⟩ := Text.endBlanks_append hwords.last hb
  rw [step_words hbefore hwords (head?_ne_star hb hr), stepWords, scan_words hwords hb hr]
  simp only [htrim, hend, hn]
  exact ⟨_, _, rfl⟩

/-- The step at a statement without a `;`, which stands where its block is closing. -/
theorem step_unterminated {before words rest : Text} {n : Nat → Node}
    (hbefore : before.all isGap = true) (hwords : Statement.Head words) (hrest : Closing rest)
    (hn : ∀ start, statement words before [] start = .ok (n start)) (s : State) :
    ∃ start stop, step s (before ++ (words ++ rest)) =
      .next ⟨s.pending, n start :: s.nodes, false, stop⟩ rest := by
  obtain ⟨blanks, r, rfl, hb, hr⟩ := hrest
  have hstops : Stops r := hr.imp_right fun ⟨t, ht⟩ => ⟨'\x7d', t, ht, rfl⟩
  obtain ⟨htrim, hend⟩ := Text.endBlanks_append hwords.last hb
  rw [step_words hbefore hwords (head?_ne_star hb hstops), stepWords, scan_words hwords hb hstops]
  simp only [htrim, hend, hn]
  rcases hr with rfl | ⟨t, rfl⟩
  · exact ⟨_, _, rfl⟩
  · exact ⟨_, _, rfl⟩

/-- The step at a statement. -/
theorem step_statement {before words trailing rest : Text} {terminate : Bool} {n : Nat → Node}
    (hbefore : before.all isGap = true) (hwords : Statement.Head words)
    (htrailing : Statement.isTrailing terminate trailing = true)
    (hrest : terminate = false → Closing rest)
    (hn : ∀ start, statement words before trailing start = .ok (n start)) (s : State) :
    ∃ start stop, step s (before ++ (words ++ (trailing ++ (terminator terminate ++ rest)))) =
      .next ⟨s.pending, n start :: s.nodes, terminate, stop⟩ rest := by
  obtain ⟨hb, hempty⟩ := Bool.and_eq_true_iff.mp htrailing
  cases terminate with
  | true => exact step_terminated hbefore hwords (List.all_eq_true.mp hb) hn s rest
  | false =>
    obtain rfl : trailing = [] := by simpa using hempty
    exact step_unterminated hbefore hwords (hrest rfl) hn s

/-- The step at the end of a block. -/
theorem step_close {after : Text} (hafter : after.all isGap = true) (s : State) (rest : Text) :
    ∃ start, step s (after ++ '\x7d' :: rest) = stepClose s after start rest := by
  obtain ⟨htake, hdrop⟩ := Text.span_blanks (t := '\x7d' :: rest) (List.all_eq_true.mp hafter) rfl
  unfold step
  simp only [htake, hdrop]
  exact ⟨_, rfl⟩

/-- The step at the end of the text. -/
theorem step_end {after : Text} (hafter : after.all isGap = true) (s : State) :
    step s after = stepEnd s after := by
  obtain ⟨htake, hdrop⟩ := Text.span_blanks (t := []) (List.all_eq_true.mp hafter) rfl
  rw [List.append_nil] at htake hdrop
  unfold step
  simp only [htake, hdrop]

/-- A comment ends where its end was written. -/
theorem cutComment_append {t : Text} (h : Text.contains "*/".toList t = false) (rest : Text) :
    Statement.cutComment (t ++ '*' :: '/' :: rest) = some (t, rest) := by
  induction t with
  | nil => rfl
  | cons c t ih =>
    have hpattern : "*/".toList.isPrefixOf? (c :: t) = none ∧
        Text.contains "*/".toList t = false := by
      rw [Text.contains, Text.cutOn] at h
      cases hp : "*/".toList.isPrefixOf? (c :: t) with
      | none =>
        rw [hp] at h
        exact ⟨rfl, by simpa [Text.contains] using h⟩
      | some u =>
        rw [hp] at h
        cases h
    rw [List.cons_append, Statement.cutComment, ih hpattern.2]
    · rfl
    · rintro u rfl hu
      -- the end would have to begin in the text
      cases t with
      | nil => cases hu
      | cons d t =>
        rw [List.cons_append, List.cons.injEq] at hu
        rw [hu.1] at hpattern
        cases hpattern.1

/-- The step at a comment. -/
theorem step_comment {before t : Text} (hbefore : before.all isGap = true)
    (ht : Text.contains "*/".toList t = false) (s : State) (rest : Text) :
    ∃ span stop, step s (before ++ ("/*".toList ++ t ++ "*/".toList ++ rest)) =
      .next ⟨s.pending, .comment t ⟨before, [], [], span⟩ :: s.nodes, false, stop⟩ rest := by
  have htext : "/*".toList ++ t ++ "*/".toList ++ rest =
      '/' :: '*' :: (t ++ '*' :: '/' :: rest) := by
    simp
  obtain ⟨htake, hdrop⟩ := Text.span_blanks (t := '/' :: '*' :: (t ++ '*' :: '/' :: rest))
    (List.all_eq_true.mp hbefore) rfl
  rw [htext]
  unfold step
  simp only [htake, hdrop, stepComment, cutComment_append ht]
  exact ⟨_, _, rfl⟩

/-! ## 4. The whole tree -/

theorem run_of_next {s s' : State} {input rest : Text} (h : step s input = .next s' rest) :
    run s input = run s' rest := by
  rw [run]
  split
  · next e he => rw [h] at he; cases he
  · next b hb => rw [h] at hb; cases hb
  · next t r hn =>
    rw [h] at hn
    cases hn
    rfl

theorem run_of_failed {s : State} {input : Text} {e : ParseError} (h : step s input = .failed e) :
    run s input = .error e := by
  rw [run]
  split
  · next e' he =>
    rw [h] at he
    cases he
    rfl
  · next b hb => rw [h] at hb; cases hb
  · next t r hn => rw [h] at hn; cases hn

theorem run_of_done {s : State} {input : Text} {b : Block} (h : step s input = .done b) :
    run s input = .ok b := by
  rw [run]
  split
  · next e he => rw [h] at he; cases he
  · next b' hb =>
    rw [h] at hb
    cases hb
    rfl
  · next t r hn => rw [h] at hn; cases hn

/-- Reading goes on behind a node, with this node read. -/
def NodeRead (n : Node) (terminate : Bool) : Prop :=
  ∀ (s : State) (rest : Text), (n.isStatement = true → terminate = false → Closing rest) →
    ∃ n' pos, n'.withoutSpans = n.withoutSpans ∧
      run s (n.before ++ n.print terminate ++ rest) =
        run ⟨s.pending, n' :: s.nodes, n.isStatement && terminate, pos⟩ rest

/-- Whether the latest node is a statement with its `;`, after those of a block. -/
def endedAfter (ended semicolon : Bool) (ns : List Node) : Bool :=
  match ns.getLast? with
  | none => ended
  | some n => n.isStatement && semicolon

/-- Reading goes on behind the nodes of a block, with these nodes read. -/
def NodesRead (ns : List Node) (semicolon : Bool) : Prop :=
  ∀ (s : State) (rest : Text),
    (ns.getLast?.any Node.isStatement = true → semicolon = false → Closing rest) →
    ∃ ns' pos, withoutSpansAll ns' = withoutSpansAll ns ∧
      run s (printAll semicolon ns ++ rest) =
        run ⟨s.pending, ns'.reverse ++ s.nodes, endedAfter s.ended semicolon ns, pos⟩ rest

theorem nodesRead_nil (semicolon : Bool) : NodesRead [] semicolon :=
  fun s _ _ => ⟨[], s.pos, rfl, rfl⟩

theorem NodeRead.cons {n : Node} {ns : List Node} {semicolon : Bool}
    (hn : NodeRead n (!ns.isEmpty || semicolon)) (hns : NodesRead ns semicolon) :
    NodesRead (n :: ns) semicolon := by
  intro s rest hrest
  have hnode : n.isStatement = true → (!ns.isEmpty || semicolon) = false →
      Closing (printAll semicolon ns ++ rest) := by
    intro hstatement hlast
    obtain ⟨hempty, hsemicolon⟩ := Bool.or_eq_false_iff.mp hlast
    obtain rfl : ns = [] := by simpa using hempty
    exact hrest hstatement hsemicolon
  have hnodes : ns.getLast?.any Node.isStatement = true → semicolon = false → Closing rest := by
    intro hstatement hsemicolon
    refine hrest ?_ hsemicolon
    cases ns with
    | nil => cases hstatement
    | cons m ns => rwa [List.getLast?_cons_cons]
  obtain ⟨n', pos, hspans, hrun⟩ := hn s (printAll semicolon ns ++ rest) hnode
  obtain ⟨ns', pos', hspans', hrun'⟩ := hns
    ⟨s.pending, n' :: s.nodes, n.isStatement && (!ns.isEmpty || semicolon), pos⟩ rest hnodes
  refine ⟨n' :: ns', pos', by rw [withoutSpansAll, withoutSpansAll, hspans, hspans'], ?_⟩
  have hended : endedAfter (n.isStatement && (!ns.isEmpty || semicolon)) semicolon ns =
      endedAfter s.ended semicolon (n :: ns) := by
    cases ns with
    | nil => rfl
    | cons m ns =>
      unfold endedAfter
      rw [List.getLast?_cons_cons, List.getLast?_eq_some_getLast (List.cons_ne_nil m ns)]
  rw [printAll, List.append_assoc, hrun, hrun', hended, List.reverse_cons, List.append_assoc]
  rfl

theorem nodeRead_atStatement {h : AtHead} {l : Layout} {terminate : Bool}
    (hbefore : l.before.all isGap = true)
    (hwf : (Node.atStatement h l).isWellFormed terminate = true) :
    NodeRead (.atStatement h l) terminate := by
  intro s rest hrest
  obtain ⟨before, between, after, span⟩ := l
  simp only [Node.isWellFormed, Bool.and_eq_true] at hwf
  obtain ⟨⟨hhead, htrailing⟩, hafter⟩ := hwf
  obtain rfl : after = [] := by simpa using hafter
  have hwords := AtHead.head_print hhead
  choose spanAt hn using statement_atHead hhead before between
  obtain ⟨start, stop, hstep⟩ := step_statement hbefore hwords htrailing (hrest rfl) hn s
  refine ⟨.atStatement h ⟨before, between, [], spanAt start⟩, stop, rfl, ?_⟩
  simp only [Node.print, Node.before, Node.layout, List.append_assoc]
  exact run_of_next hstep

theorem nodeRead_decl {d : Decl} {l : Layout} {terminate : Bool}
    (hbefore : l.before.all isGap = true) (hwf : (Node.decl d l).isWellFormed terminate = true) :
    NodeRead (.decl d l) terminate := by
  intro s rest hrest
  obtain ⟨before, between, after, span⟩ := l
  simp only [Node.isWellFormed, Bool.and_eq_true] at hwf
  obtain ⟨hdecl, htrailing⟩ := hwf
  have hwords := Decl.head_print hdecl
  choose spanAt hn using statement_decl hdecl before after
  obtain ⟨start, stop, hstep⟩ := step_statement hbefore hwords htrailing (hrest rfl) hn s
  refine ⟨.decl d ⟨before, between, after, spanAt start⟩, stop, rfl, ?_⟩
  simp only [Node.print, Node.before, Node.layout, List.append_assoc]
  exact run_of_next hstep

theorem nodeRead_comment {t : Text} {l : Layout} {terminate : Bool}
    (hbefore : l.before.all isGap = true) (hwf : (Node.comment t l).isWellFormed terminate = true) :
    NodeRead (.comment t l) terminate := by
  intro s rest _
  obtain ⟨before, between, after, span⟩ := l
  simp only [Node.isWellFormed, Bool.and_eq_true, Bool.not_eq_true', List.isEmpty_iff] at hwf
  obtain ⟨⟨ht, rfl⟩, rfl⟩ := hwf
  obtain ⟨span', stop, hstep⟩ := step_comment hbefore ht s rest
  refine ⟨.comment t ⟨before, [], [], span'⟩, stop, rfl, ?_⟩
  rw [Node.print, List.append_assoc]
  exact run_of_next hstep

/-- The node of a head that is a selector. -/
theorem close_selector {p : Pending} (hat : p.words.head? ≠ some '@') (body : Block) (stop : Nat) :
    p.close body stop = .rule p.words ⟨p.before, p.between, body.after, some ⟨p.start, stop⟩⟩
      body.semicolon body.nodes := by
  unfold Pending.close
  simp only
  split
  · next t ht =>
    rw [ht] at hat
    exact absurd rfl hat
  · rfl

/-- The node of a head that is that of an at-rule. -/
theorem close_atHead {h : AtHead} (hwf : h.isWellFormed = true) {p : Pending}
    (hp : p.words = h.print)
    (body : Block) (stop : Nat) :
    p.close body stop = .atBlock h ⟨p.before, p.between, body.after, some ⟨p.start, stop⟩⟩
      body.semicolon body.nodes := by
  unfold Pending.close
  simp only [hp, AtHead.print, AtHead.ofText_of_isWellFormed hwf]

/-- The flag of a block is what the reader finds at its end. -/
theorem endedAfter_of_endFits {b : Block} (h : b.endFits = true) :
    endedAfter false b.semicolon b.nodes = b.semicolon := by
  obtain ⟨_, hflag⟩ := Bool.and_eq_true_iff.mp h
  unfold endedAfter
  cases hlast : b.nodes.getLast? with
  | none =>
    rw [hlast] at hflag
    simpa using hflag
  | some n =>
    rw [hlast, Option.any_some] at hflag
    show (n.isStatement && b.semicolon) = b.semicolon
    cases hn : n.isStatement with
    | true => exact Bool.true_and _
    | false =>
      rw [hn] at hflag
      have hfalse : b.semicolon = false := by simpa using hflag
      rw [hfalse, Bool.false_and]

/-- Behind a statement without its `;` a block is closing. -/
theorem closing_of_endFits {b : Block} (h : b.endFits = true) {rest : Text}
    (hrest : rest = [] ∨ ∃ t, rest = '\x7d' :: t)
    (hlast : b.nodes.getLast?.any Node.isStatement = true) (hsemicolon : b.semicolon = false) :
    Closing (b.after ++ rest) := by
  obtain ⟨_, hflag⟩ := Bool.and_eq_true_iff.mp h
  rw [hlast, hsemicolon] at hflag
  refine ⟨b.after, rest, rfl, fun c hc => ?_, hrest⟩
  exact Text.isBlank_of_isAsciiBlank (List.all_eq_true.mp hflag c hc)

/-- A block is read with its head, if its nodes are. -/
theorem nodeRead_block {n : Node} {words between : Text} {b : Block} {terminate : Bool}
    (hbefore : n.before.all isGap = true) (hstatement : n.isStatement = false)
    (hprint : n.print terminate =
      words ++ (between ++ '\x7b' :: (printAll b.semicolon b.nodes ++ (b.after ++ ['\x7d']))))
    (hclose : ∀ ns' start stop siblings, withoutSpansAll ns' = withoutSpansAll b.nodes →
      (Pending.close ⟨start, words, n.before, between, siblings⟩ ⟨ns', b.after, b.semicolon⟩
        stop).withoutSpans = n.withoutSpans)
    (hwords : Statement.Head words) (hbetween : between.all Text.isBlank = true)
    (hend : b.endFits = true) (hnodes : NodesRead b.nodes b.semicolon) :
    NodeRead n terminate := by
  intro s rest _
  obtain ⟨start, pos, hopen⟩ := step_open hbefore hwords (List.all_eq_true.mp hbetween) s
    (printAll b.semicolon b.nodes ++ (b.after ++ '\x7d' :: rest))
  obtain ⟨ns', pos', hspans, hrun⟩ := hnodes
    ⟨⟨start, words, n.before, between, s.nodes⟩ :: s.pending, [], false, pos⟩
    (b.after ++ '\x7d' :: rest) fun hlast hsemicolon =>
      closing_of_endFits hend (.inr ⟨rest, rfl⟩) hlast hsemicolon
  obtain ⟨hgap, _⟩ := Bool.and_eq_true_iff.mp hend
  have hended := endedAfter_of_endFits hend
  rw [List.append_nil, hended] at hrun
  obtain ⟨stop, hstep⟩ := step_close hgap ⟨⟨start, words, n.before, between, s.nodes⟩ :: s.pending,
    ns'.reverse, b.semicolon, pos'⟩ rest
  refine ⟨_, stop + 1, hclose ns' start (stop + 1) s.nodes hspans, ?_⟩
  have hinput : n.before ++ n.print terminate ++ rest = n.before ++ (words ++ (between ++ '\x7b' ::
      (printAll b.semicolon b.nodes ++ (b.after ++ '\x7d' :: rest)))) := by
    rw [hprint]
    simp
  rw [hinput, run_of_next hopen, hrun, hstatement, Bool.false_and]
  refine run_of_next (hstep.trans ?_)
  rw [stepClose, List.reverse_reverse]

mutual

/-- **A well-formed node is read back.** -/
theorem nodeRead_of_isWellFormed (n : Node) (terminate : Bool)
    (hbefore : n.before.all isGap = true) (hwf : n.isWellFormed terminate = true) :
    NodeRead n terminate := by
  match n with
  | .rule s l b ns =>
    simp only [Node.isWellFormed, Bool.and_eq_true, bne_iff_ne] at hwf
    obtain ⟨⟨⟨⟨hhead, hat⟩, hbetween⟩, hend⟩, hall⟩ := hwf
    refine nodeRead_block (b := ⟨ns, l.after, b⟩) hbefore rfl (by simp [Node.print]) ?_
      (Statement.head_of_isHead hhead) hbetween hend (nodesRead_of_allWellFormed ns b hall)
    intro ns' start stop siblings hspans
    rw [close_selector hat, Node.withoutSpans, Node.withoutSpans, hspans]
    rfl
  | .atBlock h l b ns =>
    simp only [Node.isWellFormed, Bool.and_eq_true] at hwf
    obtain ⟨⟨⟨hhead, hbetween⟩, hend⟩, hall⟩ := hwf
    refine nodeRead_block (b := ⟨ns, l.after, b⟩) hbefore rfl (by simp [Node.print]) ?_
      (AtHead.head_print hhead) hbetween hend (nodesRead_of_allWellFormed ns b hall)
    intro ns' start stop siblings hspans
    rw [close_atHead hhead rfl, Node.withoutSpans, Node.withoutSpans, hspans]
    rfl
  | .atStatement h l => exact nodeRead_atStatement hbefore hwf
  | .decl d l => exact nodeRead_decl hbefore hwf
  | .comment t l => exact nodeRead_comment hbefore hwf

/-- **The well-formed nodes of a block are read back.** -/
theorem nodesRead_of_allWellFormed (ns : List Node) (semicolon : Bool)
    (hwf : allWellFormed semicolon ns = true) : NodesRead ns semicolon := by
  match ns with
  | [] => exact nodesRead_nil semicolon
  | n :: ns =>
    simp only [allWellFormed, Bool.and_eq_true] at hwf
    obtain ⟨⟨hbefore, hn⟩, hall⟩ := hwf
    exact (nodeRead_of_isWellFormed n _ hbefore hn).cons
      (nodesRead_of_allWellFormed ns semicolon hall)

end

end Parser

/-- **A well-formed sheet that is written is read back as it was**, its nodes nested to any depth,
    but for the places where they stand in the text. -/
theorem Stylesheet.parse_print (sheet : Stylesheet) (hwf : sheet.isWellFormed = true) :
    ∃ read, Stylesheet.parse sheet.print = .ok read ∧
      withoutSpansAll read.nodes = withoutSpansAll sheet.nodes ∧ read.after = sheet.after ∧
      read.semicolon = sheet.semicolon ∧ read.input = sheet.print := by
  obtain ⟨hend, hall⟩ := Bool.and_eq_true_iff.mp hwf
  obtain ⟨hgap, _⟩ := Bool.and_eq_true_iff.mp hend
  have hclosing : sheet.nodes.getLast?.any Node.isStatement = true → sheet.semicolon = false →
      Parser.Closing sheet.after := by
    intro hlast hsemicolon
    have hclosing := Parser.closing_of_endFits hend (.inl rfl) hlast hsemicolon
    rwa [List.append_nil] at hclosing
  obtain ⟨nodes, pos, hspans, hrun⟩ := Parser.nodesRead_of_allWellFormed sheet.nodes
    sheet.semicolon hall ⟨[], [], false, 0⟩ sheet.after hclosing
  have hended := Parser.endedAfter_of_endFits hend
  rw [List.append_nil, hended] at hrun
  have hdone := Parser.step_end hgap ⟨[], nodes.reverse, sheet.semicolon, pos⟩
  rw [Parser.stepEnd, List.reverse_reverse] at hdone
  refine ⟨⟨nodes, sheet.after, sheet.semicolon, sheet.print⟩, ?_, hspans, rfl, rfl, rfl⟩
  have hread : Parser.run ⟨[], [], false, 0⟩ sheet.print =
      .ok ⟨nodes, sheet.after, sheet.semicolon⟩ := hrun.trans (Parser.run_of_done hdone)
  rw [Stylesheet.parse, hread]
  rfl

/-- A sheet with nodes of every kind, a statement with its `;` and two without one, and terminators
    in a string, in a comment, in brackets and in an escape. -/
def Stylesheet.nestedPage : Stylesheet where
  nodes := [
    .atStatement ⟨"import".toList, " ".toList, "'a;\x7b'".toList⟩ ⟨";\n".toList, [], [], none⟩,
    .atBlock ⟨"m".toList, [], "(x;)".toList⟩ ⟨"\n;".toList, "\u00a0".toList, ";".toList, none⟩
      false [
      .rule ".a\\;/*\x7d*/ b".toList ⟨[], " ".toList, "\n".toList, none⟩ false [
        .decl ⟨"b".toList, "c!x".toList, some " ! Important".toList⟩
          ⟨[], " : ".toList, "\u00a0".toList, none⟩,
        .comment " ;*".toList ⟨" ".toList, [], [], none⟩,
        .decl ⟨"d".toList, [], none⟩ ⟨[], ":".toList, [], none⟩]],
    .atStatement ⟨"end".toList, [], []⟩ ⟨[], [], [], none⟩]
  after := " \t".toList
  semicolon := false
  input := []

theorem Stylesheet.parse_print_nested :
    Stylesheet.nestedPage.isWellFormed = true ∧
      ∃ read, Stylesheet.parse Stylesheet.nestedPage.print = .ok read ∧
        withoutSpansAll read.nodes = withoutSpansAll Stylesheet.nestedPage.nodes ∧
        read.after = " \t".toList ∧ read.semicolon = false ∧
        read.input = Stylesheet.nestedPage.print := by
  have hwf : Stylesheet.nestedPage.isWellFormed = true := by decide +kernel
  exact ⟨hwf, Stylesheet.parse_print Stylesheet.nestedPage hwf⟩

end StyleModules
