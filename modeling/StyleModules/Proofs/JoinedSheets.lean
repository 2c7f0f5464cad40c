import StyleModules.Sheet.Edit
import StyleModules.Proofs.ReadFurther

/-!
A text that is put together from two is read as two sheets, one behind the other.

* Section 1: `Stylesheet.concat` puts one sheet behind another. The spans of the second are shifted,
  and its first node gets the blanks at the end of the first sheet.
* Section 2: the reader knows offsets only by what it has counted, so from a later offset it reads
  the same with all offsets shifted (`scan_shift`, `statement_moved`).
* Section 3: `Front` is what was read before the second text. `Front.state` puts the front below a
  state that is reached without it. A step from the one is a step from the other
  (`Front.step_state`), so a run is a run (`Front.run_state`), also one that fails.
* Section 4: with `Parser.run_more` this is the whole sheet.
-/

namespace StyleModules

/-! ## 1. One sheet behind another -/

/-- A range further on in a text. -/
def Span.shift (k : Nat) (s : Span) : Span :=
  ⟨s.start + k, s.stop + k⟩

/-- A layout whose node stands further on. -/
def Layout.shift (k : Nat) (l : Layout) : Layout :=
  { l with span := l.span.map (Span.shift k) }

/-- A node and all nodes in it, further on in a text. -/
def Node.shift (k : Nat) (n : Node) : Node :=
  n.mapNodes fun m => m.withLayout (m.layout.shift k)

/-- More blanks in front of the first of some nodes. -/
def leadBy (gap : Text) : List Node → List Node
  | [] => []
  | n :: ns => n.withBefore (gap ++ n.before) :: ns

/-- An error that is reported further on. -/
def ParseError.shift (k : Nat) (e : ParseError) : ParseError :=
  { e with offset := e.offset + k }

/-- Two sheets as one. -/
def Stylesheet.concat (a b : Stylesheet) : Stylesheet where
  nodes := a.nodes ++ leadBy a.after (b.nodes.map (Node.shift (Text.size a.input)))
  after := if b.nodes.isEmpty then a.after ++ b.after else b.after
  semicolon := if b.nodes.isEmpty then a.semicolon else b.semicolon
  input := a.input ++ b.input

theorem mapAllNodes_eq_map (f : Node → Node) (ns : List Node) :
    mapAllNodes f ns = ns.map (Node.mapNodes f) := by
  induction ns with
  | nil => rfl
  | cons n ns ih => rw [mapAllNodes, ih, List.map_cons]

namespace Node

/-- A node further on in a text and behind more blanks. -/
def moved (lead : Text) (k : Nat) (n : Node) : Node :=
  (n.shift k).withBefore (lead ++ (n.shift k).before)

theorem moved_nil (k : Nat) (n : Node) : n.moved [] k = n.shift k := by
  cases n with
  | rule s l b ns => rfl
  | atBlock h l b ns => rfl
  | atStatement h l => rfl
  | decl d l => rfl
  | comment t l => rfl

end Node

/-! ## 2. Offsets -/

namespace Statement

/-- A mode that was entered further on. -/
def Mode.shift (k : Nat) : Mode → Mode
  | plain => plain
  | quoted mark start => quoted mark (start + k)
  | comment start => comment (start + k)

theorem openAfter_shift (k : Nat) (brackets : List Nat) (pos : Nat) (c : Char) :
    openAfter (brackets.map (· + k)) (pos + k) c = (openAfter brackets pos c).map (· + k) := by
  unfold openAfter
  split
  · rfl
  · split
    · rw [List.map_tail]
    · rfl

theorem mapError_map {ε ε' α β : Type} (g : ε → ε') (f : α → β) (x : Except ε α) :
    (x.map f).mapError g = (x.mapError g).map f := by
  cases x with
  | error e => rfl
  | ok a => rfl

/-- **Scanning from a later offset shifts what is reported**, and finds the same words. -/
theorem scan_shift (k : Nat) (mode : Mode) (brackets : List Nat) (pos : Nat) (t : Text) :
    scan (mode.shift k) (brackets.map (· + k)) (pos + k) t =
      (scan mode brackets pos t).mapError (ParseError.shift k) := by
  fun_induction scan mode brackets pos t with
  | case1 => rfl
  | case2 => rfl
  | case3 => rfl
  | case4 => rfl
  | case5 brackets pos c t ih =>
    rw [mapError_map, ← ih, Mode.shift, scan,
      show pos + k + 1 + c.utf8Size = pos + 1 + c.utf8Size + k by omega]
  | case6 brackets pos t ih =>
    rw [mapError_map, ← ih, Mode.shift, scan, show pos + k + 2 = pos + 2 + k by omega]
    rfl
  | case7 brackets pos c t hescape hcomment hquote ih =>
    rw [mapError_map, ← ih, Mode.shift, scan_plain_cons hescape hcomment, if_pos hquote,
      show pos + k + 1 = pos + 1 + k by omega]
    rfl
  | case8 brackets pos c t hescape hcomment hquote hend =>
    rw [Mode.shift, scan_plain_cons hescape hcomment, if_neg hquote, List.isEmpty_map, if_pos hend]
    rfl
  | case9 brackets pos c t hescape hcomment hquote hend ih =>
    rw [mapError_map, ← ih, Mode.shift, scan_plain_cons hescape hcomment, if_neg hquote,
      List.isEmpty_map, if_neg hend, openAfter_shift,
      show pos + k + c.utf8Size = pos + c.utf8Size + k by omega]
  | case10 mark start brackets pos c t ih =>
    rw [mapError_map, ← ih, Mode.shift, scan,
      show pos + k + 1 + c.utf8Size = pos + 1 + c.utf8Size + k by omega]
  | case11 mark start brackets pos c t hescape ih =>
    have hmode : (if c == mark then Mode.plain else .quoted mark start).shift k =
        if c == mark then .plain else .quoted mark (start + k) := by
      split
      · rfl
      · rfl
    rw [mapError_map, ← ih, hmode, Mode.shift, scan,
      show pos + k + c.utf8Size = pos + c.utf8Size + k by omega]
    exact hescape
  | case12 start brackets pos t ih =>
    rw [mapError_map, ← ih, show pos + 2 + k = pos + k + 2 by omega]
    rfl
  | case13 start brackets pos c t hend ih =>
    rw [mapError_map, ← ih, Mode.shift, scan,
      show pos + k + c.utf8Size = pos + c.utf8Size + k by omega]
    exact hend

end Statement

namespace Parser

/-- A statement that begins further on and behind more blanks. -/
theorem statement_moved (lead : Text) (k : Nat) (words before trailing : Text) (start : Nat) :
    statement words (lead ++ before) trailing (start + k) =
      ((statement words before trailing start).map (Node.moved lead k)).mapError
        (ParseError.shift k) := by
  have hspan : some (Span.mk (start + k) (start + k + Text.size words)) =
      (some (Span.mk start (start + Text.size words))).map (Span.shift k) := by
    simp only [Option.map_some, Span.shift, Option.some.injEq, Span.mk.injEq, true_and]
    omega
  unfold statement
  simp only [hspan]
  split
  · rfl
  · cases hdecl : Decl.ofText words with
    | error fault => rfl
    | ok r => rfl

/-- So is the node of a block. -/
theorem close_moved (lead : Text) (k : Nat) (p : Pending) (body : Block) (stop : Nat)
    (siblings : List Node) :
    Pending.close ⟨p.start + k, p.words, lead ++ p.before, p.between, siblings⟩
        ⟨body.nodes.map (Node.shift k), body.after, body.semicolon⟩ (stop + k) =
      (p.close body stop).moved lead k := by
  have hnodes : body.nodes.map (Node.shift k) =
      mapAllNodes (fun m => m.withLayout (m.layout.shift k)) body.nodes :=
    (mapAllNodes_eq_map _ _).symm
  unfold Pending.close
  simp only [hnodes]
  split
  · rfl
  · rfl

/-! ## 3. What was read before -/

/-- What was read before a text: the nodes of the top block, latest first, whether the latest is a
    statement with its `;`, the blanks behind it and the number of bytes. -/
structure Front where
  nodes : List Node
  ended : Bool
  gap : Text
  size : Nat
  gap_all : gap.all isGap = true
  gap_le : Text.size gap ≤ size

namespace Front

/-- The blanks that are still to be read: those of the front, as long as nothing else was read. -/
def lead (f : Front) : List Pending → List Node → Text
  | [], [] => f.gap
  | _, _ => []

/-- The nodes of a block, latest first, behind a front. In the top block the nodes of the front
    stand below them. -/
def onto (f : Front) (outer : List Pending) : List Node → List Node
  | [] => if outer.isEmpty then f.nodes else []
  | n :: ns => n.moved (f.lead outer ns) f.size :: f.onto outer ns

/-- The open blocks behind a front. -/
def ontoPending (f : Front) : List Pending → List Pending
  | [] => []
  | p :: outer =>
    ⟨p.start + f.size, p.words, f.lead outer p.siblings ++ p.before, p.between,
      f.onto outer p.siblings⟩ :: f.ontoPending outer

/-- A state behind a front. -/
def state (f : Front) (s : State) : State where
  pending := f.ontoPending s.pending
  nodes := f.onto s.pending s.nodes
  ended := if s.pending.isEmpty && s.nodes.isEmpty then f.ended else s.ended
  pos := s.pos + f.size - Text.size (f.lead s.pending s.nodes)

/-- The top block behind a front. -/
def block (f : Front) (b : Block) : Block where
  nodes := (f.onto [] b.nodes.reverse).reverse
  after := f.lead [] b.nodes.reverse ++ b.after
  semicolon := if b.nodes.isEmpty then f.ended else b.semicolon

/-- The outcome of a step behind a front. -/
def outcome (f : Front) : Step → Step
  | .failed e => .failed (e.shift f.size)
  | .done b => .done (f.block b)
  | .next s rest => .next (f.state s) (f.lead s.pending s.nodes ++ rest)

variable (f : Front)

theorem lead_cons (outer : List Pending) (n : Node) (ns : List Node) :
    f.lead outer (n :: ns) = [] := by
  cases outer with
  | nil => rfl
  | cons p outer => rfl

theorem lead_inner (p : Pending) (outer : List Pending) (ns : List Node) :
    f.lead (p :: outer) ns = [] :=
  rfl

theorem lead_all (outer : List Pending) (ns : List Node) :
    ∀ c ∈ f.lead outer ns, isGap c = true := by
  unfold lead
  split
  · exact List.all_eq_true.mp f.gap_all
  · exact List.forall_mem_nil _

theorem lead_le (outer : List Pending) (ns : List Node) :
    Text.size (f.lead outer ns) ≤ f.size := by
  unfold lead
  split
  · exact f.gap_le
  · exact Nat.zero_le _

/-- Within a block nothing is seen of the front but its size. -/
theorem onto_inner (p : Pending) (outer : List Pending) (ns : List Node) :
    f.onto (p :: outer) ns = ns.map (Node.shift f.size) := by
  induction ns with
  | nil => rfl
  | cons n ns ih => rw [onto, ih, lead_inner, Node.moved_nil, List.map_cons]

theorem lead_append (outer : List Pending) (ns : List Node) (n : Node) :
    f.lead outer (ns ++ [n]) = [] := by
  cases ns with
  | nil => exact f.lead_cons outer n []
  | cons m ns => exact f.lead_cons outer m (ns ++ [n])

/-- At the top the first node stands behind the blanks of the front. -/
theorem onto_top (ns : List Node) (n : Node) :
    f.onto [] (ns ++ [n]) = ns.map (Node.shift f.size) ++ n.moved f.gap f.size :: f.nodes := by
  induction ns with
  | nil => rfl
  | cons m ns ih =>
    rw [List.cons_append, onto, lead_append, Node.moved_nil, ih, List.map_cons, List.cons_append]

/-- The first node of the top block stands behind the blanks of the front. -/
theorem nodes_block (b : Block) :
    (f.block b).nodes = f.nodes.reverse ++ leadBy f.gap (b.nodes.map (Node.shift f.size)) := by
  obtain ⟨ns, after, semicolon⟩ := b
  cases ns with
  | nil => exact (List.append_nil _).symm
  | cons n ns =>
    have hreverse : (n :: ns).reverse = ns.reverse ++ [n] := List.reverse_cons
    simp only [block, hreverse, onto_top, List.reverse_append, List.reverse_cons, List.map_reverse,
      List.reverse_reverse, List.append_assoc, List.cons_append, List.nil_append]
    rfl

/-- If there is none, these blanks stand at the end of the sheet. -/
theorem after_block (b : Block) :
    (f.block b).after = if b.nodes.isEmpty then f.gap ++ b.after else b.after := by
  obtain ⟨ns, after, semicolon⟩ := b
  cases ns with
  | nil => rfl
  | cons n ns =>
    have hlead : f.lead [] (n :: ns).reverse = [] := by
      rw [List.reverse_cons]
      exact f.lead_append [] ns.reverse n
    simp only [block, hlead, List.nil_append, List.isEmpty_cons, Bool.false_eq_true, if_false]

theorem state_cons (outer : List Pending) (n : Node) (ns : List Node) (ended : Bool) (pos : Nat) :
    f.state ⟨outer, n :: ns, ended, pos⟩ =
      ⟨f.ontoPending outer, n.moved (f.lead outer ns) f.size :: f.onto outer ns, ended,
        pos + f.size⟩ := by
  simp only [state, onto, lead_cons, List.isEmpty_cons, Bool.and_false, Bool.false_eq_true,
    if_false]
  rfl

theorem stepEnd_state (s : State) (before : Text) :
    stepEnd (f.state s) (f.lead s.pending s.nodes ++ before) = f.outcome (stepEnd s before) := by
  obtain ⟨pending, ns, ended, pos⟩ := s
  cases pending with
  | nil =>
    simp only [stepEnd, state, ontoPending, outcome, block, List.reverse_reverse,
      List.isEmpty_nil, Bool.true_and, List.isEmpty_reverse]
  | cons p outer => rfl

theorem stepClose_state (s : State) (before : Text) (start : Nat) (rest : Text) :
    stepClose (f.state s) (f.lead s.pending s.nodes ++ before) (start + f.size) rest =
      f.outcome (stepClose s before start rest) := by
  obtain ⟨pending, ns, ended, pos⟩ := s
  cases pending with
  | nil => rfl
  | cons p outer =>
    simp only [stepClose, outcome, state_cons, lead_cons, List.nil_append]
    -- the closed block may be the first node of the sheet, its nodes never are
    rw [← close_moved _ _ _ _ _ (f.onto outer p.siblings)]
    simp only [state, ontoPending, onto_inner, List.map_reverse, lead_inner, List.nil_append,
      List.isEmpty_cons, Bool.false_and, Bool.false_eq_true, if_false,
      Nat.add_right_comm start 1 f.size]

theorem stepComment_state (s : State) (before : Text) (start : Nat) (inside : Text) :
    stepComment (f.state s) (f.lead s.pending s.nodes ++ before) (start + f.size) inside =
      f.outcome (stepComment s before start inside) := by
  unfold stepComment
  cases Statement.cutComment inside with
  | none => rfl
  | some cut =>
    obtain ⟨text, rest⟩ := cut
    have hstop : start + f.size + 4 + Text.size text = start + 4 + Text.size text + f.size := by
      omega
    simp only [outcome, state_cons, lead_cons, List.nil_append, hstop]
    rfl

theorem stepWords_state (s : State) (before : Text) (start : Nat) (text : Text) :
    stepWords (f.state s) (f.lead s.pending s.nodes ++ before) (start + f.size) text =
      f.outcome (stepWords s before start text) := by
  have hscan : Statement.scan .plain [] (start + f.size) text =
      (Statement.scan .plain [] start text).mapError (ParseError.shift f.size) :=
    Statement.scan_shift f.size .plain [] start text
  have hstatement := statement_moved (f.lead s.pending s.nodes) f.size
  unfold stepWords
  rw [hscan]
  cases Statement.scan .plain [] start text with
  | error e => rfl
  | ok cut =>
    have hstop : ∀ k, start + f.size + k = start + k + f.size := fun k =>
      Nat.add_right_comm start f.size k
    have hnext : ∀ k, start + k + f.size + 1 = start + k + 1 + f.size := fun k =>
      Nat.add_right_comm (start + k) f.size 1
    simp only [Except.mapError, hstatement, hstop, hnext]
    split
    · rfl
    · cases statement (Text.trimEnd cut.words) before (Text.endBlanks cut.words) start with
      | error e => rfl
      | ok node =>
        simp only [Except.map, outcome, state_cons, lead_cons, List.nil_append]
        rfl
    · cases statement (Text.trimEnd cut.words) before [] start with
      | error e => rfl
      | ok node =>
        simp only [Except.map, outcome, state_cons, lead_cons, List.nil_append]
        rfl

/-- **A step behind a front is the step without it.** -/
theorem step_state (s : State) (input : Text) :
    step (f.state s) (f.lead s.pending s.nodes ++ input) = f.outcome (step s input) := by
  have hall := f.lead_all s.pending s.nodes
  have hpos : (f.state s).pos + Text.size (f.lead s.pending s.nodes ++ input.takeWhile isGap) =
      s.pos + Text.size (input.takeWhile isGap) + f.size := by
    have hle := f.lead_le s.pending s.nodes
    simp only [Text.size_append, state]
    omega
  unfold step
  simp only [List.takeWhile_append_of_pos hall, List.dropWhile_append_of_pos hall, hpos]
  split
  · exact f.stepEnd_state s _
  · exact f.stepClose_state s _ _ _
  · exact f.stepComment_state s _ _ _
  · exact f.stepWords_state s _ _ _

/-- **So is a run**, also one that fails. -/
theorem run_state (s : State) (input : Text) :
    run (f.state s) (f.lead s.pending s.nodes ++ input) =
      ((run s input).map f.block).mapError (ParseError.shift f.size) := by
  fun_induction run s input with
  | case1 s input e he => exact run_of_failed (by rw [step_state, he]; rfl)
  | case2 s input b hd => exact run_of_done (by rw [step_state, hd]; rfl)
  | case3 s input s' rest hn _ ih => rw [← ih, run_of_next (by rw [step_state, hn]; rfl)]

end Front

end Parser

/-! ## 4. The whole sheet -/

/-- What a run has left behind the last node are blanks. -/
theorem Parser.after_all {s : State} {input : Text} {b : Block} (h : run s input = .ok b) :
    b.after.all isGap = true := by
  fun_induction run s input with
  | case1 s input e he => cases h
  | case2 s input block hd =>
    cases h
    obtain ⟨-, hall, rfl⟩ := of_step_done hd
    exact hall
  | case3 s input s' rest hn _ ih => exact ih h

/-- **Reading respects that texts are put together.** Behind a sheet that does not end in a
    statement without its `;`, a text is read as it is read alone: as the same nodes further on, or
    with the same error further on. -/
theorem Stylesheet.parse_append {s : Text} {a : Stylesheet} (h : parse s = .ok a)
    (hend : a.semicolon = true ∨ ∀ n ∈ a.nodes.getLast?, n.isStatement = false) (t : Text) :
    (∀ b, parse t = .ok b → parse (s ++ t) = .ok (a.concat b)) ∧
      ∀ e, parse t = .error e →
        parse (s ++ t) = .error { e with offset := e.offset + Text.size s } := by
  have hprint := print_of_parse h
  obtain ⟨front, hrun, rfl⟩ := Statement.map_eq_ok h
  have hle : Text.size front.after ≤ Text.size s := by
    rw [← hprint, print, Text.size_append]
    exact Nat.le_add_left _ _
  let f : Parser.Front :=
    ⟨front.nodes.reverse, front.semicolon, front.after, Text.size s, Parser.after_all hrun, hle⟩
  have hjoin : Parser.run ⟨[], [], false, 0⟩ (s ++ t) =
      ((Parser.run ⟨[], [], false, 0⟩ t).map f.block).mapError
        (ParseError.shift (Text.size s)) := by
    rw [Parser.run_more hrun hend]
    exact f.run_state ⟨[], [], false, 0⟩ t
  unfold parse
  rw [hjoin]
  constructor
  · intro b hb
    obtain ⟨back, hback, rfl⟩ := Statement.map_eq_ok hb
    have hnodes := f.nodes_block back
    rw [List.reverse_reverse] at hnodes
    rw [hback]
    simp only [Except.map, Except.mapError, hnodes, f.after_block back]
    rfl
  · intro e he
    cases hback : Parser.run ⟨[], [], false, 0⟩ t with
    | ok back => rw [hback] at he; cases he
    | error e' =>
      rw [hback] at he
      cases he
      rfl

theorem Stylesheet.parse_append_rule : ∃ a b,
    Stylesheet.parse ".a\x7bb:c\x7d ;".toList = .ok a ∧
      Stylesheet.parse " d:é;".toList = .ok b ∧
      Stylesheet.parse ".a\x7bb:c\x7d ; d:é;".toList = .ok (a.concat b) ∧
      Stylesheet.parse ".b\x7bd(".toList = .error ⟨.unclosedBracket, 4⟩ ∧
      Stylesheet.parse ".a\x7bb:c\x7d ;.b\x7bd(".toList = .error ⟨.unclosedBracket, 13⟩ := by
  obtain ⟨a, ha, hend⟩ := exists_ok_of_map
    (x := Stylesheet.parse ".a\x7bb:c\x7d ;".toList)
    (f := fun a => a.nodes.getLast?.all fun n => !n.isStatement) (b := true) (by decide +kernel)
  obtain ⟨b, hb, -⟩ := exists_ok_of_map
    (x := Stylesheet.parse " d:é;".toList) (f := fun _ => true) (b := true) (by decide +kernel)
  have he : Stylesheet.parse ".b\x7bd(".toList = .error ⟨.unclosedBracket, 4⟩ :=
    error_of_map (f := fun _ => ()) (by decide +kernel)
  have hlast : ∀ n ∈ a.nodes.getLast?, n.isStatement = false := by
    intro n hn
    rw [Option.mem_def.mp hn] at hend
    exact (Bool.not_eq_true' _).mp hend
  exact ⟨a, b, ha, hb, (Stylesheet.parse_append ha (.inr hlast) _).1 b hb, he,
    (Stylesheet.parse_append ha (.inr hlast) _).2 _ he⟩

end StyleModules
