import StyleModules.Sheet.Edit
import StyleModules.Proofs.Outcomes
import StyleModules.Proofs.PrintedMarks

/-!
The nodes of a sheet that was read stand in the text where their spans say.

* `Node.Placed`: a node that is printed from an offset on has a span that begins there and covers
  its extent, and so have all nodes in it.
* Section 2: the reader places every node it reads. What holds at every moment is that the offset
  reached is the size of what was written, that all nodes are placed in what was written, and that
  the head of an open block begins where it is written (`State.Tracked`). A step keeps this
  (`step_tracked`), so a run does.
* Section 3: with a node all nodes in it are placed in the text (`Node.Placed.placedIn`), so every
  node of a sheet that was read is, and its span cuts out its extent.
* Section 4: the marks of placed nodes by their spans alone (`PlacedAll.marks_eq`).
-/

namespace StyleModules

/-! ## 1. Placed nodes -/

mutual

/-- A node that is printed from an offset on stands there in the source, with all nodes in it. -/
def Node.Placed (start : Nat) : Node → Prop
  | .rule s l b ns =>
    l.span = some ⟨start, start + Text.size (Node.rule s l b ns).extent⟩ ∧
      PlacedAll (start + Text.size (Node.rule s l b ns).opening) ns
  | .atBlock h l b ns =>
    l.span = some ⟨start, start + Text.size (Node.atBlock h l b ns).extent⟩ ∧
      PlacedAll (start + Text.size (Node.atBlock h l b ns).opening) ns
  | .atStatement h l => l.span = some ⟨start, start + Text.size h.print⟩
  | .decl d l => l.span = some ⟨start, start + Text.size (d.print l.between)⟩
  | .comment t l => l.span = some ⟨start, start + Text.size (Node.comment t l).extent⟩

/-- The nodes of a block that is printed from an offset on stand there in the source. -/
def PlacedAll (start : Nat) : List Node → Prop
  | [] => True
  | n :: ns =>
    n.Placed (start + Text.size n.before) ∧
      PlacedAll (start + Text.size (n.before ++ n.print true)) ns

end

theorem Node.Placed.span {start : Nat} {n : Node} (h : n.Placed start) :
    n.span = some ⟨start, start + Text.size n.extent⟩ := by
  cases n with
  | rule s l b ns => rw [Node.Placed] at h; exact h.1
  | atBlock hd l b ns => rw [Node.Placed] at h; exact h.1
  | atStatement hd l => rw [Node.Placed] at h; exact h
  | decl d l => rw [Node.Placed] at h; exact h
  | comment t l => rw [Node.Placed] at h; exact h

/-- One more node behind those of a block. -/
theorem placedAll_concat (start : Nat) (ns : List Node) (n : Node) :
    PlacedAll start (ns ++ [n]) ↔
      PlacedAll start ns ∧ n.Placed (start + Text.size (printAll true ns) + Text.size n.before) := by
  induction ns generalizing start with
  | nil => simp [PlacedAll, printAll]
  | cons m ns ih =>
    have hlast : (!ns.isEmpty || true) = true := Bool.or_true _
    rw [List.cons_append, PlacedAll, PlacedAll, ih, printAll, hlast]
    simp only [Text.size_append, and_assoc, Nat.add_assoc]

/-! ## 2. The reader places nodes -/

namespace Parser

/-- The heads of open blocks begin where they are written, and the nodes in front of them are
    placed. -/
def HeadsPlaced : List Pending → Prop
  | [] => True
  | p :: outer =>
    HeadsPlaced outer ∧ PlacedAll (Text.size (writtenHeads outer)) p.siblings.reverse ∧
      p.start = Text.size (writtenHeads outer) + Text.size (printAll true p.siblings.reverse) +
        Text.size p.before

/-- What holds of the reader's state at every moment. -/
structure State.Tracked (s : State) : Prop where
  pos : s.pos = Text.size s.written
  heads : HeadsPlaced s.pending
  nodes : PlacedAll (Text.size (writtenHeads s.pending)) s.nodes.reverse

/-- The node of a statement is placed where the statement begins. -/
theorem statement_placed {words before trailing : Text} {start : Nat} {n : Node}
    (h : statement words before trailing start = .ok n) : n.Placed start := by
  unfold statement at h
  simp only at h
  split at h
  · next t =>
    cases h
    rw [Node.Placed, AtHead.print_ofText]
  · split at h
    · cases h
    · next d between hd =>
      cases h
      rw [Node.Placed]
      show some _ = some (Span.mk start (start + Text.size (d.print between)))
      rw [Decl.print_of_ofText hd]

/-- The node of a block is placed where its head begins, if its block is placed behind the head and
    it ends where it is said to. -/
theorem Pending.placed_close (p : Pending) (body : Block) (stop : Nat)
    (hbody : PlacedAll (p.start + Text.size (p.words ++ p.between ++ ['\x7b'])) body.nodes)
    (hstop : stop = p.start + Text.size ((p.close body stop).print true)) :
    (p.close body stop).Placed p.start := by
  unfold close at hstop ⊢
  simp only at hstop ⊢
  split at hstop
  · next t e =>
    rw [e] at hbody
    rw [Node.Placed, Node.extent, Node.opening, AtHead.print_ofText]
    exact ⟨by rw [← hstop], hbody⟩
  · rw [Node.Placed, Node.extent, Node.opening]
    exact ⟨by rw [← hstop], hbody⟩

/-- A step that goes on is one of three, behind the blanks in front of what it reads. -/
theorem step_cases {s s' : State} {input rest : Text} (h : step s input = .next s' rest) :
    (∃ t, input.dropWhile isGap = '\x7d' :: t ∧
      stepClose s (input.takeWhile isGap) (s.pos + Text.size (input.takeWhile isGap)) t =
        .next s' rest) ∨
    (∃ t, input.dropWhile isGap = '/' :: '*' :: t ∧
      stepComment s (input.takeWhile isGap) (s.pos + Text.size (input.takeWhile isGap)) t =
        .next s' rest) ∨
    stepWords s (input.takeWhile isGap) (s.pos + Text.size (input.takeWhile isGap))
      (input.dropWhile isGap) = .next s' rest := by
  unfold step at h
  simp only at h
  split at h
  · unfold stepEnd at h
    split at h
    · cases h
    · cases h
  · next t ht => exact .inl ⟨t, ht, h⟩
  · next t ht => exact .inr (.inl ⟨t, ht, h⟩)
  · exact .inr (.inr h)

/-- A step at words either opens a block, or ends a statement with or without its `;`. -/
theorem stepWords_cases {s s' : State} {before text rest : Text} {start : Nat}
    (h : stepWords s before start text = .next s' rest) :
    ∃ words trailing, (∃ t, words ++ trailing ++ '\x7b' :: t = text ∧ rest = t ∧
        s' = ⟨⟨start, words, before, trailing, s.nodes⟩ :: s.pending, [], false,
          start + Text.size (words ++ trailing) + 1⟩) ∨
      (∃ t n, words ++ trailing ++ ';' :: t = text ∧ rest = t ∧
        statement words before trailing start = .ok n ∧
        s' = ⟨s.pending, n :: s.nodes, true, start + Text.size (words ++ trailing) + 1⟩) ∨
      (∃ t n, words ++ trailing ++ t = text ∧ rest = trailing ++ t ∧
        statement words before [] start = .ok n ∧
        s' = ⟨s.pending, n :: s.nodes, false, start + Text.size words⟩) := by
  unfold stepWords at h
  split at h
  · cases h
  · next cut hcut =>
    have hwords : Text.trimEnd cut.words ++ Text.endBlanks cut.words = cut.words :=
      Text.trimEnd_append_endBlanks cut.words
    have htext := Statement.words_append_rest hcut
    refine ⟨Text.trimEnd cut.words, Text.endBlanks cut.words, ?_⟩
    rw [hwords]
    simp only at h
    split at h
    · next t ht =>
      rw [ht] at htext
      simp only [Step.next.injEq] at h
      exact .inl ⟨t, htext, h.2.symm, h.1.symm⟩
    · next t ht =>
      rw [ht] at htext
      split at h
      · cases h
      · next n hn =>
        simp only [Step.next.injEq] at h
        exact .inr (.inl ⟨t, n, htext, h.2.symm, hn, h.1.symm⟩)
    · split at h
      · cases h
      · next n hn =>
        simp only [Step.next.injEq] at h
        exact .inr (.inr ⟨cut.rest, n, htext, h.2.symm, hn, h.1.symm⟩)

/-- The offset moves on by what was read. -/
theorem step_pos {s s' : State} {input rest : Text} (h : step s input = .next s' rest) :
    s'.pos + Text.size rest = s.pos + Text.size input := by
  have hinput := congrArg Text.size
    (List.takeWhile_append_dropWhile (p := isGap) (l := input))
  rw [Text.size_append] at hinput
  rcases step_cases h with ⟨t, ht, h⟩ | ⟨t, ht, h⟩ | h
  · have hone : Text.size ('\x7d' :: t) = 1 + Text.size t := rfl
    rw [ht, hone] at hinput
    unfold stepClose at h
    split at h
    · cases h
    · simp only [Step.next.injEq] at h
      obtain ⟨rfl, rfl⟩ := h
      simp only
      omega
  · have htwo : Text.size ('/' :: '*' :: t) = 2 + Text.size t := by
      simp only [Text.size_cons, ← Nat.add_assoc]
      rfl
    rw [ht, htwo] at hinput
    unfold stepComment at h
    split at h
    · cases h
    · next text rest' hcut =>
      have hcomment := congrArg Text.size (append_of_cutComment hcut)
      have hclose : Text.size "*/".toList = 2 := rfl
      rw [Text.size_append, Text.size_append, hclose] at hcomment
      simp only [Step.next.injEq] at h
      obtain ⟨rfl, rfl⟩ := h
      simp only
      omega
  · obtain ⟨words, trailing, hcase⟩ := stepWords_cases h
    rcases hcase with ⟨t, ht, rfl, rfl⟩ | ⟨t, n, ht, rfl, -, rfl⟩ | ⟨t, n, ht, rfl, -, rfl⟩
    · have htext := congrArg Text.size ht
      have hone : Text.size ('\x7b' :: rest) = 1 + Text.size rest := rfl
      rw [Text.size_append, hone] at htext
      simp only
      omega
    · have htext := congrArg Text.size ht
      have hone : Text.size (';' :: rest) = 1 + Text.size rest := rfl
      rw [Text.size_append, hone] at htext
      simp only
      omega
    · have htext := congrArg Text.size ht
      simp only [Text.size_append] at htext ⊢
      omega

/-- A comment is read only behind a statement that has its `;`. -/
theorem State.Fits.terminated_of_comment {s : State} {input t : Text} (hs : s.Fits input)
    (h : input.dropWhile isGap = '/' :: '*' :: t) : s.Terminated := by
  refine hs.resolve_right fun hclosing => ?_
  have hgap := hclosing.dropGap
  rw [h] at hgap
  exact hgap.not_comment

/-- So are words. -/
theorem State.Fits.terminated_of_words {s s' : State} {input before rest : Text} {start : Nat}
    (hs : s.Fits input) (h : stepWords s before start (input.dropWhile isGap) = .next s' rest) :
    s.Terminated := by
  refine hs.resolve_right fun hclosing => ?_
  obtain ⟨e, he⟩ := stepWords_closing hclosing.dropGap s before start
  rw [he] at h
  cases h

/-- Where the next node of a terminated state stands. -/
theorem State.Tracked.start {s : State} (hs : s.Tracked) (ht : s.Terminated) (before : Text) :
    s.pos + Text.size before = Text.size (writtenHeads s.pending) +
      Text.size (printAll true s.nodes.reverse) + Text.size before := by
  rw [hs.pos, State.written, Text.size_append, ht.printAll_eq]

/-- A node that is placed behind those of a terminated state. -/
theorem State.Tracked.placedAll_cons {s : State} (hs : s.Tracked) (ht : s.Terminated) {n : Node}
    (hn : n.Placed (s.pos + Text.size n.before)) :
    PlacedAll (Text.size (writtenHeads s.pending)) (n :: s.nodes).reverse := by
  rw [hs.start ht] at hn
  rw [List.reverse_cons, placedAll_concat]
  exact ⟨hs.nodes, hn⟩

/-- A block that is closed is placed among the nodes around it. -/
theorem stepClose_tracked {s s' : State} {before rest rest' : Text} (hs : s.Tracked)
    (h : stepClose s before (s.pos + Text.size before) rest = .next s' rest') :
    HeadsPlaced s'.pending ∧
      PlacedAll (Text.size (writtenHeads s'.pending)) s'.nodes.reverse := by
  unfold stepClose at h
  split at h
  · cases h
  · next p outer hp =>
    simp only [Step.next.injEq] at h
    obtain ⟨rfl, rfl⟩ := h
    have hheads := hs.heads
    rw [hp, HeadsPlaced] at hheads
    obtain ⟨houter, hsiblings, hstart⟩ := hheads
    have hopening : Text.size (writtenHeads s.pending) =
        p.start + Text.size (p.words ++ p.between ++ ['\x7b']) := by
      rw [hp, hstart]
      simp only [writtenHeads, Pending.written, Text.size_append]
      omega
    have hbody := hs.nodes
    rw [hopening] at hbody
    obtain ⟨hbefore, -, hprint⟩ := p.print_close ⟨s.nodes.reverse, before, s.ended⟩
      (s.pos + Text.size before + 1) true
    have hstop : s.pos + Text.size before + 1 = p.start + Text.size
        ((p.close ⟨s.nodes.reverse, before, s.ended⟩ (s.pos + Text.size before + 1)).print
          true) := by
      have hbrace : '\x7d'.utf8Size = 1 := rfl
      rw [hprint, hs.pos, State.written, Text.size_append, hopening]
      simp only [Text.size_append, Text.size_cons, Text.size_nil]
      omega
    have hplaced := p.placed_close ⟨s.nodes.reverse, before, s.ended⟩ _ hbody hstop
    refine ⟨houter, ?_⟩
    rw [List.reverse_cons, placedAll_concat, hbefore, ← hstart]
    exact ⟨hsiblings, hplaced⟩

/-- **A step keeps every node in its place.** -/
theorem step_tracked {s s' : State} {input rest : Text} (hf : s.Fits input) (hs : s.Tracked)
    (h : step s input = .next s' rest) : s'.Tracked := by
  have hpos : s'.pos = Text.size s'.written := by
    have hmoved := step_pos h
    have hwritten := congrArg Text.size (step_written hf h).2
    rw [Text.size_append, Text.size_append, ← hs.pos] at hwritten
    omega
  suffices hplaced : HeadsPlaced s'.pending ∧
      PlacedAll (Text.size (writtenHeads s'.pending)) s'.nodes.reverse from
    ⟨hpos, hplaced.1, hplaced.2⟩
  rcases step_cases h with ⟨t, ht, h⟩ | ⟨t, ht, h⟩ | h
  · exact stepClose_tracked hs h
  · have hterminated := hf.terminated_of_comment ht
    unfold stepComment at h
    split at h
    · cases h
    · next text rest' hcut =>
      simp only [Step.next.injEq] at h
      obtain ⟨rfl, rfl⟩ := h
      refine ⟨hs.heads, hs.placedAll_cons hterminated ?_⟩
      have hopen : Text.size "/*".toList = 2 := rfl
      have hclose : Text.size "*/".toList = 2 := rfl
      rw [Node.Placed, Node.extent, Node.print, Text.size_append, Text.size_append, hopen, hclose]
      simp only [Node.before, Node.layout, Option.some.injEq, Span.mk.injEq, true_and]
      omega
  · have hterminated := hf.terminated_of_words h
    obtain ⟨words, trailing, hcase⟩ := stepWords_cases h
    rcases hcase with ⟨t, -, -, rfl⟩ | ⟨t, n, -, -, hn, rfl⟩ | ⟨t, n, -, -, hn, rfl⟩
    · refine ⟨⟨hs.heads, hs.nodes, hs.start hterminated _⟩, trivial⟩
    · refine ⟨hs.heads, hs.placedAll_cons hterminated ?_⟩
      rw [(statement_print hn true).1]
      exact statement_placed hn
    · refine ⟨hs.heads, hs.placedAll_cons hterminated ?_⟩
      rw [(statement_print hn true).1]
      exact statement_placed hn

/-- A run returns nodes that are placed in the text it read. -/
theorem run_placed {s : State} {input : Text} {b : Block} (hf : s.Fits input) (hs : s.Tracked)
    (h : run s input = .ok b) : PlacedAll 0 b.nodes := by
  fun_induction run s input with
  | case1 s input e he => cases h
  | case2 s input block hd =>
    cases h
    obtain ⟨hpending, -, hblock⟩ := of_step_done hd
    have hplaced := hs.nodes
    rw [hpending] at hplaced
    rw [hblock]
    exact hplaced
  | case3 s input s' rest hn _ ih => exact ih (step_written hf hn).1 (step_tracked hf hs hn) h

end Parser

/-- **The nodes of a sheet that was read are placed in the text**, which the sheet prints as. -/
theorem Stylesheet.placed_of_parse {t : Text} {sheet : Stylesheet}
    (h : Stylesheet.parse t = .ok sheet) :
    PlacedAll 0 sheet.nodes ∧ sheet.print = t ∧ sheet.input = t := by
  obtain ⟨b, hb, rfl⟩ := Statement.map_eq_ok h
  have hstart : (⟨[], [], false, 0⟩ : Parser.State).Fits t := .inl (.inr fun n hn => by cases hn)
  exact ⟨Parser.run_placed hstart ⟨rfl, trivial, trivial⟩ hb, Parser.run_written hstart hb, rfl⟩

/-! ## 3. Spans cut out extents -/

/-- A node is its extent and what follows the last word of a statement. -/
theorem Node.exists_print (n : Node) (terminate : Bool) :
    ∃ w, n.print terminate = n.extent ++ w := by
  cases n with
  | rule s l b ns => exact ⟨[], by simp only [Node.extent, Node.print, List.append_nil]⟩
  | atBlock h l b ns => exact ⟨[], by simp only [Node.extent, Node.print, List.append_nil]⟩
  | atStatement h l =>
    exact ⟨l.between ++ terminator terminate, by
      simp only [Node.extent, Node.print, List.append_assoc]⟩
  | decl d l =>
    exact ⟨l.after ++ terminator terminate, by
      simp only [Node.extent, Node.print, List.append_assoc]⟩
  | comment t l => exact ⟨[], by simp only [Node.extent, Node.print, List.append_nil]⟩

/-- The extent of a node stands in a text where the span of the node says. -/
def Node.StandsIn (n : Node) (t : Text) : Prop :=
  ∃ u w, t = u ++ n.extent ++ w ∧ n.span = some ⟨Text.size u, Text.size u + Text.size n.extent⟩

/-- The extent of a node stands in a text, and the node is placed there. -/
def Node.PlacedIn (n : Node) (t : Text) : Prop :=
  ∃ u w, t = u ++ n.extent ++ w ∧ n.Placed (Text.size u)

mutual

/-- A placed node and all nodes in it are placed in the text, whatever is printed around. -/
theorem Node.Placed.placedIn (pre post : Text) (terminate : Bool) (n : Node)
    (h : n.Placed (Text.size pre)) :
    ∀ m ∈ n.preorder, m.PlacedIn (pre ++ n.print terminate ++ post) := by
  have hself : n.PlacedIn (pre ++ n.print terminate ++ post) := by
    obtain ⟨w, hw⟩ := n.exists_print terminate
    exact ⟨pre, w ++ post, by rw [hw]; simp only [List.append_assoc], h⟩
  match n with
  | .rule s l b ns =>
    intro m hm
    rcases List.mem_cons.mp hm with rfl | hm
    · exact hself
    · rw [Node.Placed] at h
      have hns := h.2
      rw [← Text.size_append] at hns
      have hblock := PlacedAll.placedIn _ (l.after ++ '\x7d' :: post) b ns hns m hm
      simpa only [Node.print, Node.opening, List.append_assoc, List.cons_append,
        List.nil_append] using hblock
  | .atBlock hd l b ns =>
    intro m hm
    rcases List.mem_cons.mp hm with rfl | hm
    · exact hself
    · rw [Node.Placed] at h
      have hns := h.2
      rw [← Text.size_append] at hns
      have hblock := PlacedAll.placedIn _ (l.after ++ '\x7d' :: post) b ns hns m hm
      simpa only [Node.print, Node.opening, List.append_assoc, List.cons_append,
        List.nil_append] using hblock
  | .atStatement hd l =>
    intro m hm
    rw [List.mem_singleton.mp hm]
    exact hself
  | .decl d l =>
    intro m hm
    rw [List.mem_singleton.mp hm]
    exact hself
  | .comment t l =>
    intro m hm
    rw [List.mem_singleton.mp hm]
    exact hself

/-- The nodes of a placed block are placed in the text. -/
theorem PlacedAll.placedIn (pre post : Text) (semicolon : Bool) (ns : List Node)
    (h : PlacedAll (Text.size pre) ns) :
    ∀ m ∈ preorderAll ns, m.PlacedIn (pre ++ printAll semicolon ns ++ post) := by
  match ns with
  | [] =>
    intro m hm
    cases hm
  | n :: ns =>
    intro m hm
    rw [PlacedAll, ← Text.size_append, ← Text.size_append] at h
    rw [printAll]
    rcases List.mem_append.mp hm with hm | hm
    · have hnode := Node.Placed.placedIn _ (printAll semicolon ns ++ post)
        (!ns.isEmpty || semicolon) n h.1 m hm
      simpa only [List.append_assoc] using hnode
    · -- a node with another behind it is printed with its `;`
      have hmore : (!ns.isEmpty || semicolon) = true := by
        cases ns with
        | nil => cases hm
        | cons _ _ => rfl
      have hrest := PlacedAll.placedIn _ post semicolon ns h.2 m hm
      rw [hmore]
      simpa only [List.append_assoc] using hrest

end

/-- **Every node of a sheet that was read is placed in the text.** -/
theorem Stylesheet.placedIn_of_parse {t : Text} {sheet : Stylesheet}
    (h : Stylesheet.parse t = .ok sheet) : ∀ n ∈ sheet.preorder, n.PlacedIn t := by
  obtain ⟨hplaced, hprint, -⟩ := Stylesheet.placed_of_parse h
  rw [← hprint]
  exact PlacedAll.placedIn [] sheet.after sheet.semicolon sheet.nodes hplaced

/-- The span of every node of a sheet that was read cuts out the extent of the node. -/
theorem Stylesheet.standsIn_of_parse {t : Text} {sheet : Stylesheet}
    (h : Stylesheet.parse t = .ok sheet) : ∀ n ∈ sheet.preorder, n.StandsIn t := by
  intro n hn
  obtain ⟨u, w, ht, hplaced⟩ := Stylesheet.placedIn_of_parse h n hn
  exact ⟨u, w, ht, hplaced.span⟩

/-! ## 4. Marks of placed nodes -/

/-- The marks of a node whose start is marked where it stands in the source and whose end a stretch
    of text behind it, around those of its block. -/
def Layout.sourceMarks (l : Layout) (overrun : Text) (inner : List Mark) : List Mark :=
  (l.span.map fun s => Mark.mk s.start s.start).toList ++ inner ++
    (l.span.map fun s => Mark.mk (s.stop + Text.size overrun) s.stop).toList

mutual

/-- The marks of a node that stands where its span says. -/
def Node.sourceMarks : Node → List Mark
  | .rule s l b ns => l.sourceMarks (Node.rule s l b ns).overrun (sourceMarksAll ns)
  | .atBlock h l b ns => l.sourceMarks (Node.atBlock h l b ns).overrun (sourceMarksAll ns)
  | .atStatement h l => l.sourceMarks (Node.atStatement h l).overrun []
  | .decl d l => l.sourceMarks (Node.decl d l).overrun []
  | .comment t l => l.sourceMarks (Node.comment t l).overrun []

/-- The marks of nodes that stand where their spans say. -/
def sourceMarksAll : List Node → List Mark
  | [] => []
  | n :: ns => n.sourceMarks ++ sourceMarksAll ns

end

/-- The marks of a sheet whose nodes stand where their spans say. -/
def Stylesheet.sourceMarks (sheet : Stylesheet) : List Mark :=
  sourceMarksAll sheet.nodes

theorem Layout.marks_of_span {l : Layout} {start stop : Nat} (overrun : Text) (inner : List Mark)
    (h : l.span = some ⟨start, stop⟩) :
    l.marks start (stop + Text.size overrun) inner = l.sourceMarks overrun inner := by
  rw [Layout.marks, Layout.sourceMarks, h]
  rfl

mutual

/-- The marks of a placed node. -/
theorem Node.Placed.marks_eq (start : Nat) (n : Node) (h : n.Placed start) :
    n.marks start = n.sourceMarks := by
  match n with
  | .rule s l b ns =>
    rw [Node.Placed] at h
    rw [Node.marks, PlacedAll.marks_eq _ b ns h.2]
    exact Layout.marks_of_span [] _ h.1
  | .atBlock hd l b ns =>
    rw [Node.Placed] at h
    rw [Node.marks, PlacedAll.marks_eq _ b ns h.2]
    exact Layout.marks_of_span [] _ h.1
  | .atStatement hd l => exact Layout.marks_of_span l.between [] h
  | .decl d l => exact Layout.marks_of_span [] [] h
  | .comment t l => exact Layout.marks_of_span [] [] h

/-- The marks of a placed block. -/
theorem PlacedAll.marks_eq (start : Nat) (semicolon : Bool) (ns : List Node)
    (h : PlacedAll start ns) : marksAll start semicolon ns = sourceMarksAll ns := by
  match ns with
  | [] => rfl
  | n :: ns =>
    rw [PlacedAll] at h
    rw [marksAll, sourceMarksAll, Node.Placed.marks_eq _ n h.1]
    cases ns with
    | nil => rfl
    | cons m ns => exact congrArg (n.sourceMarks ++ ·) (PlacedAll.marks_eq _ semicolon (m :: ns) h.2)

end

end StyleModules
