import StyleModules.Sheet.Parser
import StyleModules.Text.Utf8

/-!
Reading a style sheet by its bytes.

The reader of `Sheet/Parser` goes from character to character. This one has the bytes of the text
and an offset.

* It looks at one byte at a time and goes on by one, behind a backslash by two. So it may come to
  stand inside a character.
* Whatever it takes out of the text is cut out between two offsets. A cut inside a character or
  beyond the end cannot be made, and the result is then `none`.

The blocks that are open and the nodes that were read are kept as in `Parser.State`.
-/

namespace StyleModules

/-! ## 1. Offsets of what is looked for -/

namespace Text

/-- The offset of the first character of a class. -/
def offsetOf? (p : Char → Bool) (t : Text) : Option Nat :=
  (cutAt p t).map fun (front, _) => size front

/-- The offset of the last character of a class. -/
def lastOffsetOf? (p : Char → Bool) (t : Text) : Option Nat :=
  (cutAtLast p t).map fun (front, _) => size front

/-- The offset of the first occurrence of a pattern. -/
def offsetOn? (pattern t : Text) : Option Nat :=
  (cutOn pattern t).map fun (front, _) => size front

end Text

/-- The words of an at-rule, with its `@`, cut apart at offsets. -/
def AtHead.cutOut (t : Text) : Option AtHead := do
  let body ← t.dropBytes 1
  let nameSize := (body.offsetOf? fun c => !isNameChar c).getD (Text.size body)
  let rest ← body.dropBytes nameSize
  let params := Text.trimStart rest
  let gap ← rest.takeBytes (Text.size rest - Text.size params)
  let name ← body.takeBytes nameSize
  return ⟨name, gap, params⟩

namespace Decl

/-- A value and its `!important` suffix, cut apart at offsets. -/
def cutImportant (value : Text) : Option (Text × Option Text) :=
  match value.lastOffsetOf? (· == '!') with
  | none => some (value, none)
  | some bang => do
    let mark ← value.dropBytes (bang + 1)
    if Text.lower (Text.trim mark) = "important".toList then
      let kept := Text.trimEnd (← value.takeBytes bang)
      let important ← value.dropBytes (Text.size kept)
      return (kept, some important)
    else return (value, none)

/-- The words of a declaration, cut apart at offsets. -/
def cutOut (t : Text) : Option (Except Fault (Decl × Text)) :=
  match t.offsetOf? (· == ':') with
  | none => some (.error (.unknownWord ((Text.words t).headD t)))
  | some colon => do
    let prop := Text.trimEnd (← t.takeBytes colon)
    if prop = [] then return .error .missingProperty
    else
      let rest ← t.dropBytes (colon + 1)
      let valueStart := Text.size rest - Text.size (Text.trimStart rest)
      let front ← t.slice? (Text.size prop) colon
      let back ← rest.takeBytes valueStart
      let (value, important) ← cutImportant (← rest.dropBytes valueStart)
      return .ok (⟨prop, value, important⟩, front ++ ':' :: back)

end Decl

/-! ## 2. The extent of a statement -/

/-- What ends a statement. -/
inductive Terminator where
  | semicolon
  | openBrace
  | closeBrace
  | eof
  deriving DecidableEq, Repr

/-- The terminator that a byte is. -/
def Terminator.ofByte? (b : UInt8) : Option Terminator :=
  if b == ';'.toUInt8 then some semicolon
  else if b == '\x7b'.toUInt8 then some openBrace
  else if b == '\x7d'.toUInt8 then some closeBrace
  else none

/-- The offset at which a statement ends, and what ends it. -/
structure Extent where
  stop : Nat
  terminator : Terminator
  deriving DecidableEq, Repr

/-- A text with the bytes of its UTF-8 form. -/
structure Source where
  text : Text
  bytes : Array UInt8
  spelled : bytes = text.utf8.toArray

namespace Source

/-- A text with its bytes. -/
def ofText (t : Text) : Source :=
  ⟨t, t.utf8.toArray, rfl⟩

/-- A fault and its offset, which is never beyond the end. -/
def fault (s : Source) (f : Fault) (offset : Nat) : ParseError :=
  ⟨f, min offset s.bytes.size⟩

/-- Look for the end of a string from an offset on: the offset behind its quotation mark. -/
def seekMark (s : Source) (mark : UInt8) (start idx : Nat) : Except ParseError Nat :=
  if h : idx < s.bytes.size then
    if s.bytes[idx] == '\\'.toUInt8 then s.seekMark mark start (min (idx + 2) s.bytes.size)
    else if s.bytes[idx] == mark then .ok (idx + 1)
    else s.seekMark mark start (idx + 1)
  else .error (s.fault .unclosedString start)
termination_by s.bytes.size - idx

/-- The offset behind the string that begins at an offset. -/
def skipString (s : Source) (start : Nat) (h : start < s.bytes.size) : Except ParseError Nat :=
  s.seekMark s.bytes[start] start (start + 1)

/-- The offset behind the comment that begins at an offset. -/
def skipComment (s : Source) (start : Nat) : Option (Except ParseError Nat) := do
  let inside ← s.text.dropBytes (start + 2)
  match Text.offsetOn? "*/".toList inside with
  | none => return .error (s.fault .unclosedComment start)
  | some size => return .ok (start + 2 + size + 2)

theorem lt_of_seekMark {s : Source} {mark : UInt8} {start idx next : Nat}
    (h : s.seekMark mark start idx = .ok next) : idx < next := by
  fun_induction seekMark s mark start idx with
  | case1 idx hidx hescape ih =>
    have := ih h
    omega
  | case2 idx hidx hescape hmark =>
    cases h
    omega
  | case3 idx hidx hescape hmark ih =>
    have := ih h
    omega
  | case4 => cases h

theorem lt_of_skipString {s : Source} {start next : Nat} {hstart : start < s.bytes.size}
    (h : s.skipString start hstart = .ok next) : start < next :=
  Nat.lt_of_succ_lt (lt_of_seekMark h)

theorem lt_of_skipComment {s : Source} {start next : Nat}
    (h : s.skipComment start = some (.ok next)) : start < next := by
  obtain ⟨inside, -, h⟩ := Option.bind_eq_some_iff.mp h
  cases hsize : Text.offsetOn? "*/".toList inside with
  | none =>
    rw [hsize] at h
    cases h
  | some size =>
    rw [hsize] at h
    cases h
    omega

/-- Find the first terminator outside strings, comments, escapes and brackets, or the end.
    `brackets` are the offsets of the open brackets, innermost first. -/
def scan (s : Source) (brackets : List Nat) (idx : Nat) : Option (Except ParseError Extent) :=
  if h : idx < s.bytes.size then
    let b := s.bytes[idx]
    if b == '"'.toUInt8 || b == '\''.toUInt8 then
      match hnext : s.skipString idx h with
      | .error e => some (.error e)
      | .ok next =>
        have := lt_of_skipString hnext
        s.scan brackets next
    else if b == '/'.toUInt8 && s.bytes[idx + 1]? == some '*'.toUInt8 then
      match hnext : s.skipComment idx with
      | none => none
      | some (.error e) => some (.error e)
      | some (.ok next) =>
        have := lt_of_skipComment hnext
        s.scan brackets next
    else if b == '\\'.toUInt8 then s.scan brackets (min (idx + 2) s.bytes.size)
    else if b == '('.toUInt8 || b == '['.toUInt8 then s.scan (idx :: brackets) (idx + 1)
    else if b == ')'.toUInt8 || b == ']'.toUInt8 then s.scan brackets.tail (idx + 1)
    else
      match brackets, Terminator.ofByte? b with
      | [], some terminator => some (.ok ⟨idx, terminator⟩)
      | _, _ => s.scan brackets (idx + 1)
  else
    match brackets with
    | [] => some (.ok ⟨idx, .eof⟩)
    | start :: _ => some (.error (s.fault .unclosedBracket start))
termination_by s.bytes.size - idx

/-- A statement ends where it begins or later. -/
theorem le_of_scan {s : Source} {brackets : List Nat} {idx : Nat} {extent : Extent}
    (h : s.scan brackets idx = some (.ok extent)) : idx ≤ extent.stop := by
  fun_induction scan s brackets idx with
  | case1 _ _ _ _ _ e he => cases h
  | case2 _ idx _ _ _ next hnext hlt ih => exact Nat.le_trans (Nat.le_of_lt hlt) (ih h)
  | case3 => cases h
  | case4 => cases h
  | case5 _ idx _ _ _ _ next hnext hlt ih => exact Nat.le_trans (Nat.le_of_lt hlt) (ih h)
  | case6 _ idx _ _ _ _ _ ih =>
    have := ih h
    omega
  | case7 _ _ _ _ _ _ _ _ ih => exact Nat.le_of_succ_le (ih h)
  | case8 _ _ _ _ _ _ _ _ _ ih => exact Nat.le_of_succ_le (ih h)
  | case9 =>
    cases h
    exact Nat.le_refl _
  | case10 _ _ _ _ _ _ _ _ _ _ ih => exact Nat.le_of_succ_le (ih h)
  | case11 =>
    cases h
    exact Nat.le_refl _
  | case12 => cases h

/-! ## 3. Reading -/

open StyleModules.Parser (State Pending)

/-- The outcome of one step. -/
inductive Move where
  | failed (error : ParseError)
  | done (block : Block)
  | next (state : State)
  deriving Repr

/-- Bytes between nodes: the blanks of the grammar and `;`. -/
def isGapByte (b : UInt8) : Bool :=
  b == ' '.toUInt8 || b == '\t'.toUInt8 || b == '\n'.toUInt8 || b == '\x0c'.toUInt8 ||
    b == '\r'.toUInt8 || b == ';'.toUInt8

/-- The offset behind what stands between nodes. -/
def skipGap (s : Source) (idx : Nat) : Nat :=
  if h : idx < s.bytes.size then
    if isGapByte s.bytes[idx] then s.skipGap (idx + 1) else idx
  else idx
termination_by s.bytes.size - idx

/-- The node of a head and its block. -/
def closeBlock (p : Pending) (body : Block) (stop : Nat) : Option Node :=
  let layout := ⟨p.before, p.between, body.after, some ⟨p.start, stop⟩⟩
  if p.words.head? = some '@' then do
    return .atBlock (← AtHead.cutOut p.words) layout body.semicolon body.nodes
  else some (.rule p.words layout body.semicolon body.nodes)

/-- The node of a statement; `trailing` are the blanks before its `;`. -/
def statement (s : Source) (words before trailing : Text) (start : Nat) :
    Option (Except ParseError Node) :=
  let span := some ⟨start, start + Text.size words⟩
  if words.head? = some '@' then do
    return .ok (.atStatement (← AtHead.cutOut words) ⟨before, trailing, [], span⟩)
  else do
    match ← Decl.cutOut words with
    | .error f => return .error (s.fault f start)
    | .ok (d, between) => return .ok (.decl d ⟨before, between, trailing, span⟩)

/-- The step at the end of the text. -/
def stepEnd (s : Source) (st : State) (before : Text) : Move :=
  match st.pending with
  | [] => .done ⟨st.nodes.reverse, before, st.ended⟩
  | p :: _ => .failed (s.fault .unclosedBlock p.start)

/-- The step at a `}` with the given offset. -/
def stepClose (s : Source) (st : State) (before : Text) (start : Nat) : Option Move :=
  match st.pending with
  | [] => some (.failed (s.fault .unexpectedBrace start))
  | p :: outer => do
    let node ← closeBlock p ⟨st.nodes.reverse, before, st.ended⟩ (start + 1)
    return .next ⟨outer, node :: p.siblings, false, start + 1⟩

/-- The step at a comment with the given offset. -/
def stepComment (s : Source) (st : State) (before : Text) (start : Nat) : Option Move := do
  match ← s.skipComment start with
  | .error e => return .failed e
  | .ok stop =>
    let text ← s.text.slice? (start + 2) (stop - 2)
    let node := .comment text ⟨before, [], [], some ⟨start, stop⟩⟩
    return .next ⟨st.pending, node :: st.nodes, false, stop⟩

/-- The step at a statement or at the head of a block. A statement without `;` leaves the blanks
    behind it to the block. -/
def stepWords (s : Source) (st : State) (before : Text) (start : Nat) : Option Move := do
  match ← s.scan [] start with
  | .error e => return .failed e
  | .ok extent =>
    let text ← s.text.slice? start extent.stop
    let words := Text.trimEnd text
    let trailing ← text.dropBytes (Text.size words)
    match extent.terminator with
    | .openBrace =>
      let p := ⟨start, words, before, trailing, st.nodes⟩
      return .next ⟨p :: st.pending, [], false, extent.stop + 1⟩
    | .semicolon =>
      match ← s.statement words before trailing start with
      | .error e => return .failed e
      | .ok node => return .next ⟨st.pending, node :: st.nodes, true, extent.stop + 1⟩
    | _ =>
      match ← s.statement words before [] start with
      | .error e => return .failed e
      | .ok node => return .next ⟨st.pending, node :: st.nodes, false, start + Text.size words⟩

/-- One step of the reader. -/
def step (s : Source) (st : State) : Option Move := do
  let start := s.skipGap st.pos
  let before ← s.text.slice? st.pos start
  match s.bytes[start]? with
  | none => return s.stepEnd st before
  | some b =>
    if b == '\x7d'.toUInt8 then s.stepClose st before start
    else if b == '/'.toUInt8 && s.bytes[start + 1]? == some '*'.toUInt8 then
      s.stepComment st before start
    else s.stepWords st before start

theorem le_skipGap (s : Source) (idx : Nat) : idx ≤ s.skipGap idx := by
  fun_induction skipGap s idx with
  | case1 idx _ _ ih => exact Nat.le_of_succ_le ih
  | case2 => exact Nat.le_refl _
  | case3 => exact Nat.le_refl _

/-- A statement has words. -/
theorem words_of_statement {s : Source} {words before trailing : Text} {start : Nat} {n : Node}
    (h : s.statement words before trailing start = some (.ok n)) : words ≠ [] := by
  rintro rfl
  cases h

theorem stepClose_lt {s : Source} {st st' : State} {before : Text} {start : Nat}
    (h : s.stepClose st before start = some (.next st')) : start < st'.pos := by
  unfold stepClose at h
  split at h
  · cases h
  · obtain ⟨node, -, h⟩ := Option.bind_eq_some_iff.mp h
    cases h
    exact Nat.lt_succ_self start

theorem stepComment_lt {s : Source} {st st' : State} {before : Text} {start : Nat}
    (h : s.stepComment st before start = some (.next st')) : start < st'.pos := by
  unfold stepComment at h
  obtain ⟨skipped, hskipped, h⟩ := Option.bind_eq_some_iff.mp h
  cases skipped with
  | error e => cases h
  | ok stop =>
    obtain ⟨text, -, h⟩ := Option.bind_eq_some_iff.mp h
    cases h
    exact lt_of_skipComment hskipped

theorem stepWords_lt {s : Source} {st st' : State} {before : Text} {start : Nat}
    (h : s.stepWords st before start = some (.next st')) : start < st'.pos := by
  unfold stepWords at h
  obtain ⟨scanned, hscanned, h⟩ := Option.bind_eq_some_iff.mp h
  cases scanned with
  | error e => cases h
  | ok extent =>
    have hle := le_of_scan hscanned
    obtain ⟨text, -, h⟩ := Option.bind_eq_some_iff.mp h
    obtain ⟨trailing, -, h⟩ := Option.bind_eq_some_iff.mp h
    split at h
    · cases h
      exact Nat.lt_succ_of_le hle
    · obtain ⟨made, -, h⟩ := Option.bind_eq_some_iff.mp h
      cases made with
      | error e => cases h
      | ok node =>
        cases h
        exact Nat.lt_succ_of_le hle
    · obtain ⟨made, hmade, h⟩ := Option.bind_eq_some_iff.mp h
      cases made with
      | error e => cases h
      | ok node =>
        cases h
        obtain ⟨c, t, hwords⟩ := List.exists_cons_of_ne_nil (words_of_statement hmade)
        have hpos := c.utf8Size_pos
        show start < start + Text.size (Text.trimEnd text)
        rw [hwords, Text.size_cons]
        omega

/-- Every step that goes on leaves fewer bytes. -/
theorem step_lt {s : Source} {st st' : State} (h : s.step st = some (.next st')) :
    s.bytes.size - st'.pos < s.bytes.size - st.pos := by
  have hgap := s.le_skipGap st.pos
  unfold step at h
  obtain ⟨before, -, h⟩ := Option.bind_eq_some_iff.mp h
  split at h
  · unfold stepEnd at h
    split at h
    · cases h
    · cases h
  · next b hb =>
    obtain ⟨hstart, -⟩ := Array.getElem?_eq_some_iff.mp hb
    have hlt : s.skipGap st.pos < st'.pos := by
      split at h
      · exact stepClose_lt h
      · split at h
        · exact stepComment_lt h
        · exact stepWords_lt h
    omega

/-- Read on from a state until the text ends. -/
def run (s : Source) (st : State) : Option (Except ParseError Block) :=
  match h : s.step st with
  | none => none
  | some (.failed e) => some (.error e)
  | some (.done block) => some (.ok block)
  | some (.next st') =>
    have := step_lt h
    s.run st'
termination_by s.bytes.size - st.pos

end Source

/-- Read a style sheet by its bytes. -/
def Stylesheet.parseBytes (input : Text) : Option (Except ParseError Stylesheet) := do
  let block ← (Source.ofText input).run ⟨[], [], false, 0⟩
  return block.map fun b => ⟨b.nodes, b.after, b.semicolon, input⟩

end StyleModules
