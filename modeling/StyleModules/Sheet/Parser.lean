import StyleModules.Sheet.Statement

/-!
Reading a style sheet.

The reader keeps the blocks that are still open on a stack and takes one step at a time. A step
reads the blanks in front of a node and then one of: a comment, a whole statement, the head of a
block up to its `{`, or the `}` that closes the innermost block. Every step makes the remaining
text shorter (`Step.next_lt`), so reading ends.

Blanks and `;` between nodes belong to the node that follows, or to the block if none does.
-/

namespace StyleModules

/-- What a block holds. -/
structure Block where
  nodes : List Node
  after : Text
  semicolon : Bool
  deriving Repr

namespace Parser

/-- Characters between nodes: the blanks of the grammar and `;`. -/
def isGap (c : Char) : Bool :=
  Text.isAsciiBlank c || c == ';'

/-- The head of a block whose `}` has not been read yet, with the nodes that stand in front of
    it in the enclosing block, latest first. -/
structure Pending where
  start : Nat
  words : Text
  before : Text
  between : Text
  siblings : List Node
  deriving Repr

/-- The reader's state: the open blocks, innermost first, the nodes of the innermost one,
    latest first, whether the latest is a statement with its `;`, and the offset reached. -/
structure State where
  pending : List Pending
  nodes : List Node
  ended : Bool
  pos : Nat
  deriving Repr

/-- The outcome of one step. -/
inductive Step where
  | failed (error : ParseError)
  | done (block : Block)
  | next (state : State) (rest : Text)
  deriving Repr

/-- The node of a head and its block. -/
def Pending.close (p : Pending) (body : Block) (stop : Nat) : Node :=
  let layout := ⟨p.before, p.between, body.after, some ⟨p.start, stop⟩⟩
  match p.words with
  | '@' :: t => .atBlock (.ofText t) layout body.semicolon body.nodes
  | w => .rule w layout body.semicolon body.nodes

/-- The node of a statement; `trailing` are the blanks before its `;`. -/
def statement (words before trailing : Text) (start : Nat) : Except ParseError Node :=
  let span := some ⟨start, start + Text.size words⟩
  match words with
  | '@' :: t => .ok (.atStatement (.ofText t) ⟨before, trailing, [], span⟩)
  | w =>
    match Decl.ofText w with
    | .error fault => .error ⟨fault, start⟩
    | .ok (d, between) => .ok (.decl d ⟨before, between, trailing, span⟩)

/-- The step at the end of the text. -/
def stepEnd (s : State) (before : Text) : Step :=
  match s.pending with
  | [] => .done ⟨s.nodes.reverse, before, s.ended⟩
  | p :: _ => .failed ⟨.unclosedBlock, p.start⟩

/-- The step at a `}` with the given offset. -/
def stepClose (s : State) (before : Text) (start : Nat) (rest : Text) : Step :=
  match s.pending with
  | [] => .failed ⟨.unexpectedBrace, start⟩
  | p :: outer =>
    let node := p.close ⟨s.nodes.reverse, before, s.ended⟩ (start + 1)
    .next ⟨outer, node :: p.siblings, false, start + 1⟩ rest

/-- The step at a comment; `inside` is the text after its opening. -/
def stepComment (s : State) (before : Text) (start : Nat) (inside : Text) : Step :=
  match Statement.cutComment inside with
  | none => .failed ⟨.unclosedComment, start⟩
  | some (text, rest) =>
    let stop := start + 4 + Text.size text
    .next ⟨s.pending, .comment text ⟨before, [], [], some ⟨start, stop⟩⟩ :: s.nodes, false, stop⟩
      rest

/-- The step at a statement or at the head of a block. A statement without `;` leaves the blanks
    behind it to the block. -/
def stepWords (s : State) (before : Text) (start : Nat) (text : Text) : Step :=
  match Statement.scan .plain [] start text with
  | .error e => .failed e
  | .ok cut =>
    let words := Text.trimEnd cut.words
    let trailing := Text.endBlanks cut.words
    let stop := start + Text.size cut.words
    match cut.rest with
    | '\x7b' :: rest =>
      .next ⟨⟨start, words, before, trailing, s.nodes⟩ :: s.pending, [], false, stop + 1⟩ rest
    | ';' :: rest =>
      match statement words before trailing start with
      | .error e => .failed e
      | .ok node => .next ⟨s.pending, node :: s.nodes, true, stop + 1⟩ rest
    | rest =>
      match statement words before [] start with
      | .error e => .failed e
      | .ok node =>
        .next ⟨s.pending, node :: s.nodes, false, start + Text.size words⟩ (trailing ++ rest)

/-- One step of the reader. -/
def step (s : State) (input : Text) : Step :=
  let before := input.takeWhile isGap
  let start := s.pos + Text.size before
  match input.dropWhile isGap with
  | [] => stepEnd s before
  | '\x7d' :: rest => stepClose s before start rest
  | '/' :: '*' :: inside => stepComment s before start inside
  | text => stepWords s before start text

/-! ## Every step shortens the text -/

/-- What follows a comment is shorter than what follows its opening. -/
theorem cutComment_length {t a b : Text} (h : Statement.cutComment t = some (a, b)) :
    b.length < t.length := by
  fun_induction Statement.cutComment t generalizing a with
  | case1 => cases h
  | case2 t => cases h; simp only [List.length_cons]; omega
  | case3 c t _ ih =>
    obtain ⟨⟨a', b'⟩, h', he⟩ := Option.map_eq_some_iff.mp h
    cases he
    have := ih h'
    simp only [List.length_cons]; omega

/-- A statement has words. -/
theorem statement_words {words before trailing : Text} {start : Nat} {n : Node}
    (h : statement words before trailing start = .ok n) : words ≠ [] := by
  rintro rfl
  simp [statement, Decl.ofText, Text.cutAt] at h

theorem stepWords_lt {s s' : State} {before text rest : Text} {start : Nat}
    (h : stepWords s before start text = .next s' rest) : rest.length < text.length := by
  unfold stepWords at h
  split at h
  · cases h
  · next cut hcut =>
    have hlen := congrArg List.length (Statement.words_append_rest hcut)
    have htrim := congrArg List.length (Text.trimEndBy_append_endRunBy Text.isBlank cut.words)
    simp only [List.length_append] at hlen htrim
    simp only at h
    split at h
    · next r hr => rw [hr] at hlen; cases h; simp only [List.length_cons] at hlen; omega
    · next r hr =>
      split at h
      · cases h
      · cases h; rw [hr] at hlen; simp only [List.length_cons] at hlen; omega
    · split at h
      · cases h
      · next n hn =>
        cases h
        have hpos := List.length_pos_iff.mpr (statement_words hn)
        simp only [List.length_append, Text.trimEnd, Text.endBlanks] at hpos ⊢
        omega

/-- The text left after a step is shorter. -/
theorem Step.next_lt {s s' : State} {input rest : Text}
    (h : step s input = .next s' rest) : rest.length < input.length := by
  have hsuffix : (input.dropWhile isGap).length ≤ input.length :=
    (List.dropWhile_suffix isGap).length_le
  unfold step at h
  simp only at h
  split at h
  · unfold stepEnd at h; split at h <;> cases h
  · next r hr =>
    rw [hr] at hsuffix
    unfold stepClose at h
    split at h
    · cases h
    · cases h; simp only [List.length_cons] at hsuffix; omega
  · next r hr =>
    rw [hr] at hsuffix
    unfold stepComment at h
    split at h
    · cases h
    · next hc =>
      cases h
      have := cutComment_length hc
      simp only [List.length_cons] at hsuffix; omega
  · exact Nat.lt_of_lt_of_le (stepWords_lt h) hsuffix

/-! ## Reading -/

/-- Read on from a state until the text ends. -/
def run (s : State) (input : Text) : Except ParseError Block :=
  match h : step s input with
  | .failed e => .error e
  | .done block => .ok block
  | .next s' rest =>
    have := Step.next_lt h
    run s' rest
termination_by input.length

end Parser

/-- Read a style sheet. -/
def Stylesheet.parse (input : Text) : Except ParseError Stylesheet :=
  (Parser.run ⟨[], [], false, 0⟩ input).map fun b => ⟨b.nodes, b.after, b.semicolon, input⟩

end StyleModules
