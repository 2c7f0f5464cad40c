import StyleModules.Sheet.Parser
import StyleModules.Sheet.Printer
import StyleModules.Proofs.Splitting

/-!
A style sheet that was read prints as the text it was read from.

* Section 1: the words of a statement, taken apart and joined again, are the statement.
* Section 2: `State.written` is what the reader has taken in so far, printed. A block that is still
  open counts with its head; its nodes so far count with all their `;`.
* Section 3: one step moves text from the rest to what was written and loses nothing
  (`step_written`). The only statement that may lack its `;` is one in front of a `}` or of the end
  (`Closing`), and behind it nothing more is read in its block (`stepWords_closing`).
* Section 4: so the whole run prints as the whole text.
-/

namespace StyleModules

/-! ## 1. The words of a statement -/

namespace Text

/-- What is cut at a character joins to the text again. -/
theorem append_of_cutAt {p : Char → Bool} : ∀ {t a b : Text}, cutAt p t = some (a, b) →
    ∃ c, p c = true ∧ a ++ c :: b = t
  | [], _, _, h => by cases h
  | c :: t, a, b, h => by
    unfold cutAt at h
    split at h
    · next hc => cases h; exact ⟨c, hc, rfl⟩
    · obtain ⟨⟨a', b'⟩, h', he⟩ := Option.map_eq_some_iff.mp h
      cases he
      obtain ⟨d, hd, e⟩ := append_of_cutAt h'
      exact ⟨d, hd, by rw [List.cons_append, e]⟩

/-- What is cut at the last character of a class joins to the text again. -/
theorem append_of_cutAtLast {p : Char → Bool} : ∀ {t a b : Text}, cutAtLast p t = some (a, b) →
    ∃ c, p c = true ∧ a ++ c :: b = t
  | [], _, _, h => by cases h
  | c :: t, a, b, h => by
    unfold cutAtLast at h
    split at h
    · next a' b' h' =>
      cases h
      obtain ⟨d, hd, e⟩ := append_of_cutAtLast h'
      exact ⟨d, hd, by rw [List.cons_append, e]⟩
    · split at h
      · next hc => cases h; exact ⟨c, hc, rfl⟩
      · cases h

end Text

/-- The words of an at-rule join to its text. -/
theorem AtHead.print_ofText (t : Text) : (AtHead.ofText t).print = '@' :: t := by
  simp only [AtHead.print, AtHead.ofText, List.append_assoc, List.takeWhile_append_dropWhile]

namespace Decl

/-- A value and its `!important` suffix join to the text they were taken from. -/
theorem append_splitImportant (t : Text) :
    (splitImportant t).1 ++ (splitImportant t).2.getD [] = t := by
  unfold splitImportant
  split
  · exact List.append_nil t
  · next kept mark h =>
    split
    · obtain ⟨c, hc, e⟩ := Text.append_of_cutAtLast h
      obtain rfl : c = '!' := by simpa using hc
      show Text.trimEnd kept ++ (Text.endBlanks kept ++ '!' :: mark) = t
      rw [← List.append_assoc, Text.trimEnd_append_endBlanks, e]
    · exact List.append_nil t

/-- A declaration prints as the words it was taken from. -/
theorem print_of_ofText {t between : Text} {d : Decl} (h : ofText t = .ok (d, between)) :
    d.print between = t := by
  unfold ofText at h
  split at h
  · cases h
  · next front back hcut =>
    split at h
    · cases h
    · obtain ⟨c, hc, e⟩ := Text.append_of_cutAt hcut
      obtain rfl : c = ':' := by simpa using hc
      simp only [Except.ok.injEq, Prod.mk.injEq] at h
      obtain ⟨rfl, rfl⟩ := h
      have hback : back.takeWhile Text.isBlank ++ Text.trimStart back = back :=
        List.takeWhile_append_dropWhile
      have hvalue := append_splitImportant (Text.trimStart back)
      unfold Decl.print
      simp only [List.append_assoc, List.cons_append, hvalue, hback]
      rw [← List.append_assoc, Text.trimEnd_append_endBlanks, e]

end Decl

/-! ## 2. What has been written so far -/

/-- Only a statement changes with its `;`. -/
theorem Node.print_of_not_statement {n : Node} (h : n.isStatement = false) (a b : Bool) :
    n.print a = n.print b := by
  cases n with
  | rule s l c ns => simp only [Node.print]
  | atBlock hd l c ns => simp only [Node.print]
  | atStatement hd l => cases h
  | decl d l => cases h
  | comment t l => simp only [Node.print]

/-- All nodes of a block but the last are terminated, whatever the block says. -/
theorem printAll_concat (b : Bool) : ∀ (ns : List Node) (n : Node),
    printAll b (ns ++ [n]) = printAll true ns ++ n.before ++ n.print b
  | [], n => by simp [printAll]
  | m :: ns, n => by
    have hlast : (ns ++ [n]).isEmpty = false := by simp
    rw [List.cons_append, printAll, printAll, printAll_concat b ns n, hlast]
    simp

/-- A block whose last node is no statement prints the same with any flag. -/
theorem printAll_concat_not_statement {n : Node} (h : n.isStatement = false) (ns : List Node)
    (a b : Bool) : printAll a (ns ++ [n]) = printAll b (ns ++ [n]) := by
  rw [printAll_concat, printAll_concat, Node.print_of_not_statement h a b]

namespace Parser

/-- The node of a statement is its words, the blanks behind them and its `;`. -/
theorem statement_print {words before trailing : Text} {start : Nat} {n : Node}
    (h : statement words before trailing start = .ok n) (terminate : Bool) :
    n.before = before ∧ n.print terminate = words ++ trailing ++ terminator terminate := by
  unfold statement at h
  simp only at h
  split at h
  · next t =>
    cases h
    exact ⟨rfl, by simp only [Node.print, AtHead.print_ofText]⟩
  · split at h
    · cases h
    · next d between hd =>
      cases h
      exact ⟨rfl, by simp only [Node.print, Decl.print_of_ofText hd]⟩

/-- A block that is closed is its head, its nodes and its brackets. -/
theorem Pending.print_close (p : Pending) (body : Block) (stop : Nat) (terminate : Bool) :
    (p.close body stop).before = p.before ∧ (p.close body stop).isStatement = false ∧
      (p.close body stop).print terminate =
        p.words ++ p.between ++ '\x7b' ::
          (printAll body.semicolon body.nodes ++ body.after ++ ['\x7d']) := by
  unfold close
  simp only
  split
  · next t e => exact ⟨rfl, rfl, by simp only [Node.print, AtHead.print_ofText, e]⟩
  · exact ⟨rfl, rfl, by simp only [Node.print]⟩

/-- The nodes in front of an open block, and its head. -/
def Pending.written (p : Pending) : Text :=
  printAll true p.siblings.reverse ++ p.before ++ p.words ++ p.between ++ ['\x7b']

/-- The heads of the open blocks, outermost first, each behind the nodes in front of it. -/
def writtenHeads : List Pending → Text
  | [] => []
  | p :: outer => writtenHeads outer ++ p.written

/-- The text that a state has taken in. -/
def State.written (s : State) : Text :=
  writtenHeads s.pending ++ printAll s.ended s.nodes.reverse

/-- Nothing but blanks up to a `}` or to the end. -/
def Closing (input : Text) : Prop :=
  ∃ blanks rest, input = blanks ++ rest ∧ (∀ c ∈ blanks, Text.isBlank c = true) ∧
    (rest = [] ∨ ∃ t, rest = '\x7d' :: t)

/-- The latest node is not a statement without its `;`. -/
def State.Terminated (s : State) : Prop :=
  s.ended = true ∨ ∀ n ∈ s.nodes.head?, n.isStatement = false

/-- The nodes of a terminated state can be printed with all their `;`. -/
theorem State.Terminated.printAll_eq {s : State} (h : s.Terminated) :
    printAll s.ended s.nodes.reverse = printAll true s.nodes.reverse := by
  rcases h with h | h
  · rw [h]
  · cases hn : s.nodes with
    | nil => rfl
    | cons n ns =>
      rw [hn] at h
      rw [List.reverse_cons]
      exact printAll_concat_not_statement (h n rfl) _ _ _

/-- A node behind those of a terminated state. -/
theorem State.Terminated.printAll_cons {s : State} (h : s.Terminated) (n : Node) (b : Bool) :
    printAll b (n :: s.nodes).reverse =
      printAll s.ended s.nodes.reverse ++ n.before ++ n.print b := by
  rw [List.reverse_cons, printAll_concat, h.printAll_eq]

/-! ## 3. One step -/

/-- A comment and what follows it make the text behind its opening. -/
theorem append_of_cutComment {t a b : Text} (h : Statement.cutComment t = some (a, b)) :
    a ++ "*/".toList ++ b = t := by
  fun_induction Statement.cutComment t generalizing a with
  | case1 => cases h
  | case2 t => cases h; rfl
  | case3 c t _ ih =>
    obtain ⟨⟨a', b'⟩, h', he⟩ := Option.map_eq_some_iff.mp h
    cases he
    rw [List.cons_append, List.cons_append, ih h']

/-- A statement ends at a terminator or with the text. -/
theorem scan_rest {mode : Statement.Mode} {brackets : List Nat} {pos : Nat} {t : Text}
    {cut : Statement.Cut} (h : Statement.scan mode brackets pos t = .ok cut) :
    cut.rest = [] ∨ ∃ c r, cut.rest = c :: r ∧ Statement.isTerminator c = true := by
  fun_induction Statement.scan mode brackets pos t generalizing cut with
  | case1 => cases h; exact .inl rfl
  | case2 => cases h
  | case3 => cases h
  | case4 => cases h
  | case8 _ _ c t _ _ _ hc =>
    cases h
    exact .inr ⟨c, t, rfl, (Bool.and_eq_true_iff.mp hc).1⟩
  | _ =>
    rename_i ih
    obtain ⟨inner, hi, rfl⟩ := Statement.map_eq_ok h
    have hrest := ih hi
    exact hrest

/-- A blank is none of the characters that a statement treats in a way of their own. -/
theorem blank_plain {c : Char} (h : Text.isBlank c = true) :
    c ≠ '\\' ∧ c ≠ '/' ∧ Text.isQuote c = false ∧ Statement.isTerminator c = false ∧
      ∀ brackets pos, Statement.openAfter brackets pos c = brackets := by
  have hne : ∀ d : Char, Text.isBlank d = false → c ≠ d := by
    rintro d hd rfl
    rw [h] at hd
    cases hd
  have hq : Text.isQuote c = false := by
    simp [Text.isQuote, hne '"' (by decide), hne '\'' (by decide)]
  have ht : Statement.isTerminator c = false := by
    simp [Statement.isTerminator, hne ';' (by decide), hne '\x7b' (by decide),
      hne '\x7d' (by decide)]
  refine ⟨hne _ (by decide), hne _ (by decide), hq, ht, fun brackets pos => ?_⟩
  simp [Statement.openAfter, hne '(' (by decide), hne '[' (by decide), hne ')' (by decide),
    hne ']' (by decide)]

/-- One more blank in front of a statement. -/
theorem scan_blank {c : Char} (h : Text.isBlank c = true) (pos : Nat) (t : Text) :
    Statement.scan .plain [] pos (c :: t) =
      (Statement.scan .plain [] (pos + c.utf8Size) t).map (Statement.Cut.push c) := by
  obtain ⟨hesc, hslash, hq, ht, ho⟩ := blank_plain h
  rw [Statement.scan]
  · rw [hq, ht, ho]; simp
  · intro d u hd; exact absurd hd hesc
  · intro u hu; exact absurd hu hslash

/-- Blanks up to a terminator or to the end are all the words of a statement. -/
theorem scan_blanks {blanks rest : Text} (hb : ∀ c ∈ blanks, Text.isBlank c = true)
    (hr : rest = [] ∨ ∃ c t, rest = c :: t ∧ Statement.isTerminator c = true) (pos : Nat) :
    Statement.scan .plain [] pos (blanks ++ rest) = .ok ⟨blanks, rest⟩ := by
  induction blanks generalizing pos with
  | nil =>
    rcases hr with rfl | ⟨c, t, rfl, hc⟩
    · rfl
    · simp only [Statement.isTerminator, Bool.or_eq_true, beq_iff_eq] at hc
      rcases hc with (rfl | rfl) | rfl
      · rfl
      · rfl
      · rfl
  | cons c blanks ih =>
    rw [List.cons_append, scan_blank (hb c List.mem_cons_self),
      ih (fun d hd => hb d (List.mem_cons_of_mem c hd))]
    rfl

/-- Where nothing but blanks stands in front of a `}` or the end, no statement is read. -/
theorem stepWords_closing {input : Text} (h : Closing input) (s : State) (before : Text)
    (start : Nat) : ∃ e, stepWords s before start input = .failed e := by
  obtain ⟨blanks, rest, rfl, hb, hr⟩ := h
  have hstatement : statement [] before [] start = .error ⟨.unknownWord [], start⟩ := rfl
  unfold stepWords
  rw [scan_blanks hb (hr.imp_right fun ⟨t, ht⟩ => ⟨'\x7d', t, ht, rfl⟩)]
  simp only [Text.trimEnd_blanks hb]
  rcases hr with rfl | ⟨t, rfl⟩
  · simp only [hstatement]; exact ⟨_, rfl⟩
  · simp only [hstatement]; exact ⟨_, rfl⟩

/-- Blanks that are skipped leave what was closing closing. -/
theorem Closing.dropGap {input : Text} (h : Closing input) : Closing (input.dropWhile isGap) := by
  obtain ⟨blanks, rest, rfl, hb, hr⟩ := h
  induction blanks with
  | nil =>
    refine ⟨[], rest, ?_, by simp, hr⟩
    rcases hr with rfl | ⟨t, rfl⟩
    · rfl
    · rfl
  | cons c blanks ih =>
    rw [List.cons_append, List.dropWhile_cons]
    split
    · exact ih fun d hd => hb d (List.mem_cons_of_mem c hd)
    · exact ⟨c :: blanks, rest, rfl, hb, hr⟩

/-- No comment begins where a block is closing. -/
theorem Closing.not_comment {t : Text} (h : Closing ('/' :: t)) : False := by
  obtain ⟨blanks, rest, e, hb, hr⟩ := h
  cases blanks with
  | nil =>
    rcases hr with rfl | ⟨u, rfl⟩
    · cases e
    · cases e
  | cons c blanks =>
    obtain ⟨rfl, -⟩ := List.cons.inj e
    exact absurd (hb '/' List.mem_cons_self) (by decide)

/-- What a state and the text still to be read have to do with each other: a statement without its
    `;` stands only where its block is closing. -/
def State.Fits (s : State) (input : Text) : Prop :=
  s.Terminated ∨ Closing input

/-- The step at a `}`: the block is closed, and its node is the latest of the block around it. -/
theorem stepClose_written {s s' : State} {before rest rest' : Text} {start : Nat}
    (h : stepClose s before start rest = .next s' rest') :
    s'.Terminated ∧ s'.written ++ rest' = s.written ++ before ++ '\x7d' :: rest := by
  unfold stepClose at h
  split at h
  · cases h
  · next p outer hp =>
    simp only [Step.next.injEq] at h
    obtain ⟨rfl, rfl⟩ := h
    obtain ⟨hb, hs, hprint⟩ := p.print_close ⟨s.nodes.reverse, before, s.ended⟩ (start + 1) false
    refine ⟨.inr ?_, ?_⟩
    · rintro n ⟨⟩
      exact hs
    · unfold State.written
      simp only [List.reverse_cons, printAll_concat, hb, hprint, hp, writtenHeads, Pending.written,
        List.append_assoc, List.cons_append, List.nil_append]

/-- The step at a comment. -/
theorem stepComment_written {s s' : State} {before inside rest : Text} {start : Nat}
    (ht : s.Terminated) (h : stepComment s before start inside = .next s' rest) :
    s'.Terminated ∧ s'.written ++ rest = s.written ++ before ++ '/' :: '*' :: inside := by
  unfold stepComment at h
  split at h
  · cases h
  · next text rest' hcut =>
    simp only [Step.next.injEq] at h
    obtain ⟨rfl, rfl⟩ := h
    refine ⟨.inr ?_, ?_⟩
    · rintro n ⟨⟩
      rfl
    · rw [← append_of_cutComment hcut]
      unfold State.written
      simp only [ht.printAll_cons, Node.before, Node.layout, Node.print, List.append_assoc]
      rfl

/-- The step at a statement or at the head of a block. -/
theorem stepWords_written {s s' : State} {before text rest : Text} {start : Nat}
    (ht : s.Terminated) (h : stepWords s before start text = .next s' rest) :
    s'.Fits rest ∧ s'.written ++ rest = s.written ++ before ++ text := by
  unfold stepWords at h
  split at h
  · cases h
  · next cut hcut =>
    have htext : Text.trimEnd cut.words ++ Text.endBlanks cut.words ++ cut.rest = text := by
      rw [Text.trimEnd_append_endBlanks, Statement.words_append_rest hcut]
    simp only at h
    split at h
    · next r hr =>
      -- the head of a block: the nodes so far go to the enclosing block
      simp only [Step.next.injEq] at h
      obtain ⟨rfl, rfl⟩ := h
      refine ⟨.inl (.inr (by rintro n ⟨⟩)), ?_⟩
      rw [← htext, hr]
      unfold State.written
      rw [ht.printAll_eq]
      simp only [writtenHeads, Pending.written, List.reverse_nil, printAll, List.append_assoc,
        List.append_nil, List.cons_append, List.nil_append]
    · next r hr =>
      split at h
      · cases h
      · next n hn =>
        obtain ⟨hb, hprint⟩ := statement_print hn true
        simp only [Step.next.injEq] at h
        obtain ⟨rfl, rfl⟩ := h
        refine ⟨.inl (.inl rfl), ?_⟩
        rw [← htext, hr]
        unfold State.written
        rw [ht.printAll_cons, hb, hprint]
        simp only [terminator, if_true, List.append_assoc, List.cons_append, List.nil_append]
    · next hopen hsemi =>
      split at h
      · cases h
      · next n hn =>
        obtain ⟨hb, hprint⟩ := statement_print hn false
        simp only [Step.next.injEq] at h
        obtain ⟨rfl, rfl⟩ := h
        refine ⟨.inr ⟨Text.endBlanks cut.words, cut.rest, rfl, ?_, ?_⟩, ?_⟩
        · exact Text.isBlank_of_mem_endBlanks
        · -- of the three terminators the other two went to the cases above
          rcases scan_rest hcut with he | ⟨c, r, he, hc⟩
          · exact .inl he
          · right
            simp only [Statement.isTerminator, Bool.or_eq_true, beq_iff_eq] at hc
            rcases hc with (rfl | rfl) | rfl
            · exact absurd he (hsemi r)
            · exact absurd he (hopen r)
            · exact ⟨r, he⟩
        · rw [← htext]
          unfold State.written
          rw [ht.printAll_cons, hb, hprint]
          simp only [terminator, Bool.false_eq_true, if_false, List.append_assoc, List.nil_append]

/-- **A step moves text from the rest to what was written and loses nothing.** -/
theorem step_written {s s' : State} {input rest : Text} (hs : s.Fits input)
    (h : step s input = .next s' rest) :
    s'.Fits rest ∧ s'.written ++ rest = s.written ++ input := by
  have hgap : input.takeWhile isGap ++ input.dropWhile isGap = input :=
    List.takeWhile_append_dropWhile
  have hclosing : ¬s.Terminated → Closing (input.dropWhile isGap) := fun hn =>
    (hs.resolve_left hn).dropGap
  unfold step at h
  simp only at h
  split at h
  · unfold stepEnd at h
    split at h
    · cases h
    · cases h
  · next r hr =>
    obtain ⟨ht, hw⟩ := stepClose_written h
    refine ⟨.inl ht, ?_⟩
    rw [hw, List.append_assoc, ← hr, hgap]
  · next inside hi =>
    have ht : s.Terminated := Classical.byContradiction fun hn =>
      (hi ▸ hclosing hn).not_comment
    obtain ⟨ht', hw⟩ := stepComment_written ht h
    refine ⟨.inl ht', ?_⟩
    rw [hw, List.append_assoc, ← hi, hgap]
  · have ht : s.Terminated := Classical.byContradiction fun hn => by
      obtain ⟨e, he⟩ := stepWords_closing (hclosing hn) s (input.takeWhile isGap)
        (s.pos + Text.size (input.takeWhile isGap))
      rw [he] at h
      cases h
    obtain ⟨hf, hw⟩ := stepWords_written ht h
    refine ⟨hf, ?_⟩
    rw [hw, List.append_assoc, hgap]

/-- The last step returns the nodes of the top block, and nothing but blanks is left. -/
theorem of_step_done {s : State} {input : Text} {b : Block} (h : step s input = .done b) :
    s.pending = [] ∧ input.all isGap = true ∧ b = ⟨s.nodes.reverse, input, s.ended⟩ := by
  have hgap : input.takeWhile isGap ++ input.dropWhile isGap = input :=
    List.takeWhile_append_dropWhile
  unfold step at h
  simp only at h
  split at h
  · next hend =>
    rw [hend, List.append_nil] at hgap
    unfold stepEnd at h
    split at h
    · next hp =>
      cases h
      have hall : (input.takeWhile isGap).all isGap = true := List.all_takeWhile
      rw [hgap] at hall
      exact ⟨hp, hall, by rw [hgap]⟩
    · cases h
  · unfold stepClose at h
    split at h
    · cases h
    · cases h
  · unfold stepComment at h
    split at h
    · cases h
    · cases h
  · unfold stepWords at h
    simp only at h
    split at h
    · cases h
    · split at h
      · cases h
      · split at h
        · cases h
        · cases h
      · split at h
        · cases h
        · cases h

/-- The last step leaves the blanks at the end to the sheet. -/
theorem step_done {s : State} {input : Text} {b : Block} (h : step s input = .done b) :
    printAll b.semicolon b.nodes ++ b.after = s.written ++ input := by
  obtain ⟨hp, -, rfl⟩ := of_step_done h
  simp only [State.written, hp, writtenHeads, List.nil_append]

/-! ## 4. The whole run -/

/-- What a run returns prints as what was written before it and the text it read. -/
theorem run_written {s : State} {input : Text} {b : Block} (hs : s.Fits input)
    (h : run s input = .ok b) :
    printAll b.semicolon b.nodes ++ b.after = s.written ++ input := by
  fun_induction run s input with
  | case1 s input e he => cases h
  | case2 s input block hd =>
    cases h
    exact step_done hd
  | case3 s input s' rest hn _ ih =>
    obtain ⟨hf, hw⟩ := step_written hs hn
    rw [ih hf h, hw]

end Parser

/-- **A sheet that was read prints as the text it was read from.** -/
theorem Stylesheet.print_of_parse {t : Text} {sheet : Stylesheet}
    (h : Stylesheet.parse t = .ok sheet) : sheet.print = t := by
  obtain ⟨b, hb, rfl⟩ := Statement.map_eq_ok h
  have hstart : (⟨[], [], false, 0⟩ : Parser.State).Fits t := .inl (.inr (by rintro n ⟨⟩))
  exact Parser.run_written hstart hb

theorem Stylesheet.print_of_parse_nested : ∃ sheet,
    Stylesheet.parse ";@m x\x7b .a\x7bb : c !Important\u00a0;/*x*/d:e \x7d \x7d;".toList =
        .ok sheet ∧
      sheet.print = ";@m x\x7b .a\x7bb : c !Important\u00a0;/*x*/d:e \x7d \x7d;".toList := by
  have hok : (Stylesheet.parse
      ";@m x\x7b .a\x7bb : c !Important\u00a0;/*x*/d:e \x7d \x7d;".toList).toOption.isSome =
        true := by decide +kernel
  cases h : Stylesheet.parse
      ";@m x\x7b .a\x7bb : c !Important\u00a0;/*x*/d:e \x7d \x7d;".toList with
  | ok sheet => exact ⟨sheet, rfl, Stylesheet.print_of_parse h⟩
  | error e => rw [h] at hok; cases hok

end StyleModules
