import StyleModules.Proofs.PlacedNodes
import StyleModules.Proofs.ReadBack

/-!
Reading does not look beyond what it has read.

* Section 1: a scanner that finds the end of a comment or of a statement finds it whatever follows
  (`cutComment_more`, `scan_more`).
* Section 2: neither does a step of the reader see what follows, unless it ends a statement at the
  end of the text (`step_more`). Behind such a statement there is nothing but blanks, so a sheet
  whose last statement has its `;` is not read in this way.
* Section 3: so a text that follows such a sheet is read from the state in which the sheet ended
  (`run_more`).
-/

namespace StyleModules

/-! ## 1. Scanning -/

namespace Statement

/-- The end of a comment is found whatever follows. -/
theorem cutComment_more {t a b : Text} (h : cutComment t = some (a, b)) (more : Text) :
    cutComment (t ++ more) = some (a, b ++ more) := by
  fun_induction cutComment t generalizing a with
  | case1 => cases h
  | case2 t => cases h; rfl
  | case3 c t hend ih =>
    obtain ⟨⟨a', b'⟩, h', he⟩ := Option.map_eq_some_iff.mp h
    cases he
    rw [List.cons_append, cutComment, ih h']
    · rfl
    · -- the end does not begin in the text and end behind it
      intro u hc hu
      cases t with
      | nil => cases h'
      | cons d t =>
        rw [List.cons_append, List.cons.injEq] at hu
        exact hend t hc (by rw [hu.1])

/-- What is cut off at the end of a text is all of it. -/
theorem ne_nil_of_rest {mode : Mode} {brackets : List Nat} {pos : Nat} {t : Text} {cut : Cut}
    (h : scan mode brackets pos t = .ok cut) (hrest : cut.rest ≠ []) : t ≠ [] := by
  intro ht
  have hjoin := words_append_rest h
  rw [ht] at hjoin
  exact hrest (List.append_eq_nil_iff.mp hjoin).2

/-- A character between words that is not the first of a pair. -/
theorem scan_plain_cons {c : Char} {t : Text} (hescape : ∀ d u, c = '\\' → t = d :: u → False)
    (hcomment : ∀ u, c = '/' → t = '*' :: u → False) (brackets : List Nat) (pos : Nat) :
    scan .plain brackets pos (c :: t) =
      if Text.isQuote c then (scan (.quoted c pos) brackets (pos + 1) t).map (Cut.push c)
      else if isTerminator c && brackets.isEmpty then .ok ⟨[], c :: t⟩
      else (scan .plain (openAfter brackets pos c) (pos + c.utf8Size) t).map (Cut.push c) := by
  rw [scan]
  · exact hescape
  · exact hcomment

/-- A text that is not empty begins as it did when more follows it. -/
theorem eq_cons_of_append {t more u : Text} {d : Char} (ht : t ≠ []) (h : t ++ more = d :: u) :
    ∃ v, t = d :: v := by
  cases t with
  | nil => exact absurd rfl ht
  | cons c t =>
    rw [List.cons_append, List.cons.injEq] at h
    exact ⟨t, by rw [h.1]⟩

/-- So no pair of characters begins in it that did not. -/
theorem no_pair_more {t : Text} {d : Char} {p : Prop} (ht : t ≠ [])
    (h : ∀ u, p → t = d :: u → False) (more : Text) : ∀ u, p → t ++ more = d :: u → False := by
  intro u hp hu
  obtain ⟨v, hv⟩ := eq_cons_of_append ht hu
  exact h v hp hv

/-- **A terminator is found whatever follows.** -/
theorem scan_more {mode : Mode} {brackets : List Nat} {pos : Nat} {t : Text} {cut : Cut}
    (h : scan mode brackets pos t = .ok cut) (hrest : cut.rest ≠ []) (more : Text) :
    scan mode brackets pos (t ++ more) = .ok ⟨cut.words, cut.rest ++ more⟩ := by
  fun_induction scan mode brackets pos t generalizing cut with
  | case1 =>
    cases h
    exact absurd rfl hrest
  | case2 => cases h
  | case3 => cases h
  | case4 => cases h
  | case5 brackets pos c t ih =>
    obtain ⟨inner, hi, rfl⟩ := map_eq_ok h
    rw [List.cons_append, List.cons_append, scan, ih hi hrest]
    rfl
  | case6 brackets pos t ih =>
    obtain ⟨inner, hi, rfl⟩ := map_eq_ok h
    rw [List.cons_append, List.cons_append, scan, ih hi hrest]
    rfl
  | case7 brackets pos c t hescape hcomment hquote ih =>
    obtain ⟨inner, hi, rfl⟩ := map_eq_ok h
    have ht := ne_nil_of_rest hi hrest
    rw [List.cons_append, scan_plain_cons _ _, if_pos hquote, ih hi hrest]
    · rfl
    · exact fun d => no_pair_more ht (hescape d) more
    · exact no_pair_more ht hcomment more
  | case8 brackets pos c t hescape hcomment hquote hend =>
    cases h
    have hplain : c ≠ '\\' ∧ c ≠ '/' := by
      obtain ⟨hc, -⟩ := Bool.and_eq_true_iff.mp hend
      constructor
      · intro e
        rw [e] at hc
        cases hc
      · intro e
        rw [e] at hc
        cases hc
    rw [List.cons_append, scan_plain_cons (fun d u hc _ => hplain.1 hc) (fun u hc _ => hplain.2 hc),
      if_neg hquote, if_pos hend]
  | case9 brackets pos c t hescape hcomment hquote hend ih =>
    obtain ⟨inner, hi, rfl⟩ := map_eq_ok h
    have ht := ne_nil_of_rest hi hrest
    rw [List.cons_append, scan_plain_cons _ _, if_neg hquote, if_neg hend, ih hi hrest]
    · rfl
    · exact fun d => no_pair_more ht (hescape d) more
    · exact no_pair_more ht hcomment more
  | case10 mark start brackets pos c t ih =>
    obtain ⟨inner, hi, rfl⟩ := map_eq_ok h
    rw [List.cons_append, List.cons_append, scan, ih hi hrest]
    rfl
  | case11 mark start brackets pos c t hescape ih =>
    obtain ⟨inner, hi, rfl⟩ := map_eq_ok h
    have ht := ne_nil_of_rest hi hrest
    rw [List.cons_append, scan, ih hi hrest]
    · rfl
    · exact fun d => no_pair_more ht (hescape d) more
  | case12 start brackets pos t ih =>
    obtain ⟨inner, hi, rfl⟩ := map_eq_ok h
    rw [List.cons_append, List.cons_append, scan, ih hi hrest]
    rfl
  | case13 start brackets pos c t hend ih =>
    obtain ⟨inner, hi, rfl⟩ := map_eq_ok h
    have ht := ne_nil_of_rest hi hrest
    rw [List.cons_append, scan, ih hi hrest]
    · rfl
    · exact no_pair_more ht hend more

end Statement

/-! ## 2. One step -/

namespace Parser

/-- What a step finds behind the blanks. -/
inductive Found : Text → Prop where
  | nothing : Found []
  | close (t : Text) : Found ('\x7d' :: t)
  | comment (t : Text) : Found ('/' :: '*' :: t)
  | words (text : Text) (hne : text ≠ []) (hclose : ∀ t, text ≠ '\x7d' :: t)
      (hcomment : ∀ t, text ≠ '/' :: '*' :: t) : Found text

theorem found (text : Text) : Found text := by
  by_cases hne : text = []
  · rw [hne]
    exact .nothing
  by_cases hclose : ∃ t, text = '\x7d' :: t
  · obtain ⟨t, rfl⟩ := hclose
    exact .close t
  by_cases hcomment : ∃ t, text = '/' :: '*' :: t
  · obtain ⟨t, rfl⟩ := hcomment
    exact .comment t
  exact .words text hne (fun t ht => hclose ⟨t, ht⟩) fun t ht => hcomment ⟨t, ht⟩

/-- The step at words. -/
theorem step_at_words {s : State} {input : Text} (hne : input.dropWhile isGap ≠ [])
    (hclose : ∀ t, input.dropWhile isGap ≠ '\x7d' :: t)
    (hcomment : ∀ t, input.dropWhile isGap ≠ '/' :: '*' :: t) :
    step s input = stepWords s (input.takeWhile isGap)
      (s.pos + Text.size (input.takeWhile isGap)) (input.dropWhile isGap) := by
  unfold step
  simp only

/-- What follows words changes nothing in the blanks in front of them. -/
theorem gap_append {input : Text} (h : input.dropWhile isGap ≠ []) (more : Text) :
    (input ++ more).takeWhile isGap = input.takeWhile isGap ∧
      (input ++ more).dropWhile isGap = input.dropWhile isGap ++ more := by
  have hdrop : (input ++ more).dropWhile isGap = input.dropWhile isGap ++ more := by
    rw [List.dropWhile_append, if_neg (by simpa using h)]
  have htake := List.takeWhile_append_dropWhile (p := isGap) (l := input ++ more)
  rw [hdrop, ← List.append_assoc] at htake
  have hinput := List.takeWhile_append_dropWhile (p := isGap) (l := input)
  have hjoin := htake.trans (congrArg (· ++ more) hinput.symm)
  exact ⟨List.append_cancel_right (List.append_cancel_right hjoin), hdrop⟩

/-- A statement is one. -/
theorem isStatement_of_statement {words before trailing : Text} {start : Nat} {n : Node}
    (h : statement words before trailing start = .ok n) : n.isStatement = true := by
  unfold statement at h
  simp only at h
  split at h
  · cases h
    rfl
  · split at h
    · cases h
    · cases h
      rfl

/-- A step at words does not see what follows, unless it ends a statement at the end of the text. -/
theorem stepWords_more {s s' : State} {before text rest : Text} {start : Nat}
    (h : stepWords s before start text = .next s' rest)
    (hend : s'.Terminated ∨ ∃ c ∈ rest, Text.isBlank c = false) (more : Text) :
    stepWords s before start (text ++ more) = .next s' (rest ++ more) := by
  unfold stepWords at h
  split at h
  · cases h
  · next cut hcut =>
    simp only at h
    split at h
    · next r hr =>
      have hscan := Statement.scan_more hcut (by rw [hr]; exact List.cons_ne_nil _ _) more
      simp only [Step.next.injEq] at h
      obtain ⟨rfl, rfl⟩ := h
      unfold stepWords
      rw [hscan]
      simp only [hr, List.cons_append]
    · next r hr =>
      have hscan := Statement.scan_more hcut (by rw [hr]; exact List.cons_ne_nil _ _) more
      split at h
      · cases h
      · next n hn =>
        simp only [Step.next.injEq] at h
        obtain ⟨rfl, rfl⟩ := h
        unfold stepWords
        rw [hscan]
        simp only [hr, List.cons_append, hn]
    · next hopen hsemi =>
      split at h
      · cases h
      · next n hn =>
        simp only [Step.next.injEq] at h
        obtain ⟨rfl, rfl⟩ := h
        -- the statement has no `;`, so a closing bracket follows
        have hnot : ¬(State.mk s.pending (n :: s.nodes) false
            (start + Text.size (Text.trimEnd cut.words))).Terminated := by
          intro ht
          rcases ht with ht | ht
          · cases ht
          · have hn' := ht n rfl
            rw [isStatement_of_statement hn] at hn'
            cases hn'
        obtain ⟨c, hc, hblank⟩ := hend.resolve_left hnot
        have hrest : cut.rest ≠ [] := by
          intro hnil
          rw [hnil, List.append_nil] at hc
          rw [Text.isBlank_of_mem_endBlanks c hc] at hblank
          cases hblank
        have hscan := Statement.scan_more hcut hrest more
        obtain ⟨d, r, hr, hd⟩ := (scan_rest hcut).resolve_left hrest
        have hclose : d = '\x7d' := by
          simp only [Statement.isTerminator, Bool.or_eq_true, beq_iff_eq] at hd
          rcases hd with (rfl | rfl) | rfl
          · exact absurd hr (hsemi r)
          · exact absurd hr (hopen r)
          · rfl
        unfold stepWords
        rw [hscan]
        simp only [hr, hclose, List.cons_append, List.append_assoc, hn]
        rfl

/-- **A step does not see what follows**, unless it ends a statement at the end of the text. -/
theorem step_more {s s' : State} {input rest : Text} (h : step s input = .next s' rest)
    (hend : s'.Terminated ∨ ∃ c ∈ rest, Text.isBlank c = false) (more : Text) :
    step s (input ++ more) = .next s' (rest ++ more) := by
  have hne : input.dropWhile isGap ≠ [] := by
    intro hnil
    unfold step at h
    simp only [hnil] at h
    unfold stepEnd at h
    split at h
    · cases h
    · cases h
  obtain ⟨htake, hdrop⟩ := gap_append hne more
  generalize htext : input.dropWhile isGap = text at hdrop hne
  cases found text with
  | nothing => exact absurd rfl hne
  | close t =>
    unfold step at h ⊢
    simp only [htext, htake, hdrop, List.cons_append] at h ⊢
    unfold stepClose at h ⊢
    split at h
    · cases h
    · cases h
      rfl
  | comment t =>
    unfold step at h ⊢
    simp only [htext, htake, hdrop, List.cons_append] at h ⊢
    unfold stepComment at h ⊢
    split at h
    · cases h
    · next a b hcut =>
      cases h
      rw [Statement.cutComment_more hcut]
  | words text hne hclose hcomment =>
    rw [step_at_words (by rwa [htext]) (by rwa [htext]) (by rwa [htext]), htext] at h
    have hnoclose : ∀ t, text ++ more ≠ '\x7d' :: t := by
      intro t ht
      obtain ⟨v, hv⟩ := Statement.eq_cons_of_append hne ht
      exact hclose v hv
    have hnocomment : ∀ t, text ++ more ≠ '/' :: '*' :: t := by
      intro t ht
      obtain ⟨v, rfl⟩ := Statement.eq_cons_of_append hne ht
      rw [List.cons_append, List.cons.injEq] at ht
      by_cases hv : v = []
      · -- a `/` alone is no statement
        have hfailed : ∀ before start, stepWords s before start ['/'] =
            .failed ⟨.unknownWord ['/'], start⟩ := fun before start => rfl
        rw [hv, hfailed] at h
        cases h
      · obtain ⟨v', rfl⟩ := Statement.eq_cons_of_append hv ht.2
        exact hcomment v' rfl
    rw [step_at_words (by rw [hdrop]; exact List.append_ne_nil_of_left_ne_nil hne more)
      (by rwa [hdrop]) (by rwa [hdrop]), htake, hdrop]
    exact stepWords_more h hend more

/-! ## 3. The whole run -/

end Parser

/-- The last node of a block is not a statement without its `;`. -/
def Block.Ended (b : Block) : Prop :=
  b.semicolon = true ∨ ∀ n ∈ b.nodes.getLast?, n.isStatement = false

namespace Parser

/-- A run through blanks returns what was read before them. -/
theorem run_blanks {s : State} {blanks : Text} {b : Block}
    (hblanks : ∀ c ∈ blanks, Text.isBlank c = true) (h : run s blanks = .ok b) :
    b = ⟨s.nodes.reverse, blanks, s.ended⟩ := by
  have hclosing : Closing (blanks.dropWhile isGap) :=
    Closing.dropGap ⟨blanks, [], (List.append_nil blanks).symm, hblanks, .inl rfl⟩
  have hnot : ∀ {c : Char} {t : Text}, blanks.dropWhile isGap = c :: t → Text.isBlank c = true := by
    intro c t ht
    exact hblanks c ((List.dropWhile_sublist isGap).subset (by rw [ht]; exact List.mem_cons_self))
  cases hstep : step s blanks with
  | failed e => rw [run_of_failed hstep] at h; cases h
  | done b' =>
    rw [run_of_done hstep] at h
    cases h
    exact (of_step_done hstep).2.2
  | next s' rest =>
    rcases step_cases hstep with ⟨t, ht, -⟩ | ⟨t, ht, -⟩ | hwords
    · cases hnot ht
    · cases hnot ht
    · obtain ⟨e, he⟩ := stepWords_closing hclosing s (blanks.takeWhile isGap)
        (s.pos + Text.size (blanks.takeWhile isGap))
      rw [he] at hwords
      cases hwords

/-- **A text behind a sheet is read from where the sheet ended**, if no statement that lacks its `;`
    stands there. -/
theorem run_more {s : State} {input : Text} {b : Block} (h : run s input = .ok b) (hb : b.Ended)
    (more : Text) :
    run s (input ++ more) =
      run ⟨[], b.nodes.reverse, b.semicolon, s.pos + Text.size input - Text.size b.after⟩
        (b.after ++ more) := by
  fun_induction run s input with
  | case1 s input e he => cases h
  | case2 s input block hd =>
    cases h
    obtain ⟨hpending, -, rfl⟩ := of_step_done hd
    rw [List.reverse_reverse, Nat.add_sub_cancel, ← hpending]
  | case3 s input s' rest hn _ ih =>
    have hend : s'.Terminated ∨ ∃ c ∈ rest, Text.isBlank c = false := by
      by_cases hblank : ∃ c ∈ rest, Text.isBlank c = false
      · exact .inr hblank
      · -- nothing but blanks is left, so the latest node is the last
        have hrest : ∀ c ∈ rest, Text.isBlank c = true := by
          intro c hc
          by_contra hne
          exact hblank ⟨c, hc, by simpa using hne⟩
        rw [run_blanks hrest h] at hb
        unfold Block.Ended at hb
        rw [List.getLast?_reverse] at hb
        exact .inl hb
    rw [run_of_next (step_more hn hend more), ih h, step_pos hn]

end Parser

end StyleModules
