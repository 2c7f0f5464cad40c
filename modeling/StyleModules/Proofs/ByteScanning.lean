import StyleModules.Proofs.ByteOffsets
import StyleModules.Proofs.ReadFurther

/-!
A statement ends at the same offset for who looks at bytes and for who looks at characters.

* Section 1: one look of the byte scanner. At a character it does what the character calls for
  (`scan_cons`, `seekMark_cons`); at a byte beyond ASCII it goes on by one (`scan_high`,
  `seekMark_high`).
* Section 2: so whatever was not the end is left behind as a whole, also where two bytes are skipped
  behind a backslash and the scanner comes to stand inside a character (`scan_past`, `scan_escape`).
* Section 3: `resume` is the byte scanner in each mode of the character scanner. The two agree
  (`resume_eq`), by induction along the characters.
-/

namespace StyleModules

/-- What ends a statement, by the text that follows its words. -/
def Terminator.ofRest (rest : Text) : Terminator :=
  if rest.head? == some ';' then .semicolon
  else if rest.head? == some '\x7b' then .openBrace
  else if rest.head? == some '\x7d' then .closeBrace
  else .eof

/-- The extent of a statement that begins at an offset, by where its text was cut. -/
def Extent.ofCut (start : Nat) (cut : Statement.Cut) : Extent :=
  ⟨start + Text.size cut.words, .ofRest cut.rest⟩

namespace Source

variable {s : Source} {pos : Nat} {t : Text} {c : Char}

/-! ## 1. One look -/

/-- Go on scanning behind what was skipped. -/
def onward (s : Source) (brackets : List Nat) :
    Except ParseError Nat → Option (Except ParseError Extent)
  | .error e => some (.error e)
  | .ok next => s.scan brackets next

theorem isTerminator_cases (h : Statement.isTerminator c = true) :
    c = ';' ∨ c = '\x7b' ∨ c = '\x7d' := by
  unfold Statement.isTerminator at h
  simpa only [Bool.or_eq_true, beq_iff_eq, or_assoc] using h

theorem ofByte?_of_high {b : UInt8} (hb : 128 ≤ b.toNat) : Terminator.ofByte? b = none := by
  unfold Terminator.ofByte?
  simp (disch := decide) [beq_of_high hb]

theorem At.ofByte? (h : s.At pos (c :: t)) (hlt : pos < s.bytes.size) :
    Terminator.ofByte? s.bytes[pos] =
      if Statement.isTerminator c then some (.ofRest (c :: t)) else none := by
  unfold Terminator.ofByte?
  simp (disch := decide) only [h.beq]
  by_cases hc : Statement.isTerminator c = true
  · rcases isTerminator_cases hc with rfl | rfl | rfl <;> rfl
  · rw [if_neg hc]
    simp only [Statement.isTerminator, Bool.not_eq_true, Bool.or_eq_false_iff] at hc
    obtain ⟨⟨hsemicolon, hopen⟩, hclose⟩ := hc
    rw [hsemicolon, hopen, hclose]
    rfl

/-- The two bytes that open a comment are its two characters. -/
theorem At.opening (h : s.At pos (c :: t)) :
    (c == '/' && s.bytes[pos + 1]? == some '*'.toUInt8) = (c == '/' && t.head? == some '*') := by
  by_cases hc : c = '/'
  · subst hc
    have hnext : s.At (pos + 1) t := h.tail
    rw [hnext.getElem?_beq (by decide)]
  · rw [beq_eq_false_iff_ne.mpr hc, Bool.false_and, Bool.false_and]

theorem not_opening (h : ∀ u, c = '/' → t = '*' :: u → False) :
    (c == '/' && t.head? == some '*') = false := by
  rw [← Bool.not_eq_true]
  intro hpair
  obtain ⟨hc, ht⟩ := Bool.and_eq_true_iff.mp hpair
  obtain ⟨u, hu⟩ := List.head?_eq_some_iff.mp (beq_iff_eq.mp ht)
  exact h u (beq_iff_eq.mp hc) hu

theorem scan_high {idx : Nat} {b : UInt8} (hidx : s.bytes[idx]? = some b) (hb : 128 ≤ b.toNat)
    (brackets : List Nat) : s.scan brackets idx = s.scan brackets (idx + 1) := by
  obtain ⟨hlt, rfl⟩ := Array.getElem?_eq_some_iff.mp hidx
  conv => lhs; unfold scan
  rw [dif_pos hlt]
  simp (disch := decide) only [beq_of_high hb, ofByte?_of_high hb, Bool.or_false, Bool.false_and]
  cases brackets <;> rfl

/-- The scanner does what the character at its offset calls for. -/
theorem scan_cons (h : s.At pos (c :: t)) (brackets : List Nat) :
    s.scan brackets pos =
      if Text.isQuote c then s.onward brackets (s.skipString pos h.lt)
      else if c == '/' && t.head? == some '*' then (s.skipComment pos).bind (s.onward brackets)
      else if c == '\\' then s.scan brackets (min (pos + 2) s.bytes.size)
      else if Statement.isTerminator c && brackets.isEmpty then
        some (.ok ⟨pos, .ofRest (c :: t)⟩)
      else s.scan (Statement.openAfter brackets pos c) (pos + 1) := by
  conv => lhs; unfold scan
  rw [dif_pos h.lt]
  simp (disch := decide) only [h.beq, h.ofByte?]
  refine ite_congr rfl (fun _ => ?_) fun _ =>
    ite_congr (congrArg (· = true) h.opening) (fun _ => ?_) fun _ =>
      ite_congr rfl (fun _ => rfl) fun _ => ?_
  · split
    · next e he =>
      rw [he]
      rfl
    · next next hnext =>
      rw [hnext]
      rfl
  · split
    · next hnone =>
      rw [hnone]
      rfl
    · next e he =>
      rw [he]
      rfl
    · next next hnext =>
      rw [hnext]
      rfl
  · by_cases hend : Statement.isTerminator c = true
    · rcases isTerminator_cases hend with rfl | rfl | rfl <;> cases brackets <;> rfl
    · unfold Statement.openAfter
      rw [if_neg hend, Bool.not_eq_true _ |>.mp hend, Bool.false_and]
      split
      · rfl
      · split
        · rfl
        · cases brackets <;> rfl

theorem seekMark_high {idx : Nat} {b : UInt8} (hidx : s.bytes[idx]? = some b) (hb : 128 ≤ b.toNat)
    {mark : Char} (hmark : mark.toNat < 128) (start : Nat) :
    s.seekMark mark.toUInt8 start idx = s.seekMark mark.toUInt8 start (idx + 1) := by
  obtain ⟨hlt, rfl⟩ := Array.getElem?_eq_some_iff.mp hidx
  conv => lhs; unfold seekMark
  rw [dif_pos hlt, beq_of_high hb (by decide), beq_of_high hb hmark]
  rfl

/-- A string goes on or ends as the character at the offset has it. -/
theorem seekMark_cons (h : s.At pos (c :: t)) {mark : Char} (hmark : mark.toNat < 128)
    (start : Nat) :
    s.seekMark mark.toUInt8 start pos =
      if c == '\\' then s.seekMark mark.toUInt8 start (min (pos + 2) s.bytes.size)
      else if c == mark then .ok (pos + 1)
      else s.seekMark mark.toUInt8 start (pos + 1) := by
  conv => lhs; unfold seekMark
  rw [dif_pos h.lt, h.beq (by decide), h.beq hmark]

/-! ## 2. One character -/

/-- Two bytes behind a backslash the scanner stands behind the first byte of what it skips. -/
theorem At.min_escape (h : s.At pos ('\\' :: c :: t)) :
    min (pos + 2) s.bytes.size = pos + 1 + 1 := by
  have hnext : s.At (pos + 1) (c :: t) := h.tail
  exact Nat.min_eq_left hnext.lt

/-- Behind a backslash at the end there is nothing to skip. -/
theorem At.min_end (h : s.At pos ['\\']) : min (pos + 2) s.bytes.size = pos + 1 := by
  have hsize : s.bytes.size = pos + 1 := h.size_eq
  rw [hsize]
  exact Nat.min_eq_right (Nat.le_succ _)

theorem scan_past (h : s.At pos (c :: t)) (brackets : List Nat) :
    s.scan brackets (pos + 1) = s.scan brackets (pos + c.utf8Size) :=
  h.resync (f := s.scan brackets) fun _ _ hidx hb => scan_high hidx hb brackets

theorem seekMark_past (h : s.At pos (c :: t)) {mark : Char} (hmark : mark.toNat < 128)
    (start : Nat) :
    s.seekMark mark.toUInt8 start (pos + 1) = s.seekMark mark.toUInt8 start (pos + c.utf8Size) :=
  h.resync (f := s.seekMark mark.toUInt8 start) fun _ _ hidx hb => seekMark_high hidx hb hmark start

/-- **A backslash skips exactly one character.** -/
theorem scan_escape (h : s.At pos ('\\' :: c :: t)) (brackets : List Nat) :
    s.scan brackets pos = s.scan brackets (pos + 1 + c.utf8Size) := by
  have hnext : s.At (pos + 1) (c :: t) := h.tail
  rw [scan_cons h]
  show s.scan brackets (min (pos + 2) s.bytes.size) = _
  rw [h.min_escape, scan_past hnext]

theorem seekMark_escape (h : s.At pos ('\\' :: c :: t)) {mark : Char} (hmark : mark.toNat < 128)
    (start : Nat) :
    s.seekMark mark.toUInt8 start pos = s.seekMark mark.toUInt8 start (pos + 1 + c.utf8Size) := by
  have hnext : s.At (pos + 1) (c :: t) := h.tail
  rw [seekMark_cons h hmark]
  show s.seekMark mark.toUInt8 start (min (pos + 2) s.bytes.size) = _
  rw [h.min_escape, seekMark_past hnext hmark]

theorem scan_nil (h : s.At pos []) : s.scan [] pos = some (.ok ⟨pos, .eof⟩) := by
  unfold scan
  rw [dif_neg h.not_lt]

theorem scan_nil_open (h : s.At pos []) (start : Nat) (brackets : List Nat) :
    s.scan (start :: brackets) pos = some (.error (s.fault .unclosedBracket start)) := by
  unfold scan
  rw [dif_neg h.not_lt]

theorem seekMark_nil (h : s.At pos []) (mark : UInt8) (start : Nat) :
    s.seekMark mark start pos = .error (s.fault .unclosedString start) := by
  unfold seekMark
  rw [dif_neg h.not_lt]

/-- Quotation marks are ASCII characters. -/
theorem ascii_of_isQuote (h : Text.isQuote c = true) : c.toNat < 128 := by
  unfold Text.isQuote at h
  rcases Bool.or_eq_true_iff.mp h with h | h
  · rw [beq_iff_eq.mp h]
    decide
  · rw [beq_iff_eq.mp h]
    decide

theorem scan_quote (h : s.At pos (c :: t)) (hc : Text.isQuote c = true) (brackets : List Nat) :
    s.scan brackets pos = s.onward brackets (s.seekMark c.toUInt8 pos (pos + 1)) := by
  have hbyte := h.beq (ascii_of_isQuote hc) h.lt
  rw [beq_self_eq_true, beq_iff_eq] at hbyte
  rw [scan_cons h, if_pos hc, skipString, hbyte]

/-- The offset behind a comment, by the text behind its opening. -/
def commentEnd (s : Source) (start pos : Nat) (inside : Text) : Except ParseError Nat :=
  match Statement.cutComment inside with
  | none => .error (s.fault .unclosedComment start)
  | some (text, _) => .ok (pos + Text.size text + 2)

theorem commentEnd_cons (hend : ∀ u, c = '*' → t = '/' :: u → False) (start pos : Nat) :
    s.commentEnd start pos (c :: t) = s.commentEnd start (pos + c.utf8Size) t := by
  unfold commentEnd
  rw [Statement.cutComment]
  · cases Statement.cutComment t with
    | none => rfl
    | some cut =>
      show Except.ok (pos + (c.utf8Size + Text.size cut.1) + 2) = _
      rw [← Nat.add_assoc]
  · exact hend

/-- A comment is cut off at the first occurrence of its end. -/
theorem cutComment_eq_cutOn (t : Text) : Statement.cutComment t = Text.cutOn "*/".toList t := by
  fun_induction Statement.cutComment t with
  | case1 => rfl
  | case2 t => rfl
  | case3 c t hend ih =>
    have hpattern : "*/".toList.isPrefixOf? (c :: t) = none := by
      show List.isPrefixOf? ['*', '/'] (c :: t) = none
      rw [Text.isPrefixOf?_cons]
      by_cases hc : c = '*'
      · cases t with
        | nil =>
          rw [hc]
          rfl
        | cons d t =>
          rw [hc, beq_self_eq_true, if_pos rfl, Text.isPrefixOf?_cons, if_neg]
          intro hd
          exact hend t hc (by rw [← beq_iff_eq.mp hd])
      · rw [if_neg]
        intro hstar
        exact hc (beq_iff_eq.mp hstar).symm
    rw [ih, Text.cutOn, hpattern]

theorem skipComment_at (h : s.At pos ('/' :: '*' :: t)) :
    s.skipComment pos = some (s.commentEnd pos (pos + 2) t) := by
  have hinside : s.At (pos + 2) t := h.tail.tail
  unfold skipComment commentEnd Text.offsetOn?
  simp only [hinside.dropBytes, Option.bind_eq_bind, Option.bind_some, cutComment_eq_cutOn]
  cases Text.cutOn "*/".toList t <;> rfl

theorem scan_comment (h : s.At pos ('/' :: '*' :: t)) (brackets : List Nat) :
    s.scan brackets pos = s.onward brackets (s.commentEnd pos (pos + 2) t) := by
  have hskip := skipComment_at h
  rw [scan_cons h]
  show (s.skipComment pos).bind (s.onward brackets) = _
  rw [hskip, Option.bind_some]

/-- What is neither the first of a pair nor a quotation mark nor the end is left behind. -/
theorem scan_other (h : s.At pos (c :: t)) (hescape : ∀ d u, c = '\\' → t = d :: u → False)
    (hcomment : ∀ u, c = '/' → t = '*' :: u → False) (hquote : ¬Text.isQuote c = true)
    {brackets : List Nat} (hend : ¬(Statement.isTerminator c && brackets.isEmpty) = true) :
    s.scan brackets pos = s.scan (Statement.openAfter brackets pos c) (pos + c.utf8Size) := by
  rw [scan_cons h, if_neg hquote, not_opening hcomment, if_neg Bool.false_ne_true]
  by_cases hc : c = '\\'
  · -- a backslash at the end is left behind like any other character
    subst hc
    cases t with
    | nil => exact congrArg (s.scan brackets) h.min_end
    | cons d u => exact (hescape d u rfl rfl).elim
  · rw [if_neg (by rw [beq_iff_eq]; exact hc), if_neg hend, scan_past h]

/-- A statement ends at a terminator if no bracket is open. -/
theorem scan_terminator (h : s.At pos (c :: t)) (hquote : ¬Text.isQuote c = true)
    {brackets : List Nat} (hend : (Statement.isTerminator c && brackets.isEmpty) = true) :
    s.scan brackets pos = some (.ok ⟨pos, .ofRest (c :: t)⟩) := by
  have hplain : (c == '/') = false ∧ (c == '\\') = false := by
    rcases isTerminator_cases (Bool.and_eq_true_iff.mp hend).1 with rfl | rfl | rfl <;> decide
  rw [scan_cons h, if_neg hquote, hplain.1, hplain.2, if_pos hend]
  rfl

/-- A character of a string that is not the first of a pair is left behind, or ends the string. -/
theorem seekMark_other (h : s.At pos (c :: t)) (hescape : ∀ d u, c = '\\' → t = d :: u → False)
    {mark : Char} (hmark : Text.isQuote mark = true) (start : Nat) :
    s.seekMark mark.toUInt8 start pos =
      if c == mark then .ok (pos + c.utf8Size)
      else s.seekMark mark.toUInt8 start (pos + c.utf8Size) := by
  have hascii := ascii_of_isQuote hmark
  rw [seekMark_cons h hascii]
  by_cases hc : c = '\\'
  · subst hc
    cases t with
    | nil =>
      have hne : ¬('\\' == mark) = true := by
        intro e
        rw [← beq_iff_eq.mp e] at hmark
        cases hmark
      rw [if_pos (beq_self_eq_true _), h.min_end, if_neg hne]
      rfl
    | cons d u => exact (hescape d u rfl rfl).elim
  · rw [if_neg (by rw [beq_iff_eq]; exact hc), seekMark_past h hascii]
    by_cases he : c = mark
    · have hsize : c.utf8Size = 1 := utf8Size_eq_one.mpr (he ▸ hascii)
      rw [hsize]
    · rw [if_neg (by rw [beq_iff_eq]; exact he), if_neg (by rw [beq_iff_eq]; exact he)]

/-! ## 3. All characters -/

/-- The byte scanner where the character scanner is in a mode, with a text before it. -/
def resume (s : Source) (brackets : List Nat) (pos : Nat) (t : Text) :
    Statement.Mode → Option (Except ParseError Extent)
  | .plain => s.scan brackets pos
  | .quoted mark start => s.onward brackets (s.seekMark mark.toUInt8 start pos)
  | .comment start => s.onward brackets (s.commentEnd start pos t)

/-- The string or comment that a mode is in began in the text, a string with a quotation mark. -/
def Began (s : Source) : Statement.Mode → Prop
  | .plain => True
  | .quoted mark start => Text.isQuote mark = true ∧ start ≤ s.bytes.size
  | .comment start => start ≤ s.bytes.size

theorem fault_eq {offset : Nat} (h : offset ≤ s.bytes.size) (f : Fault) :
    s.fault f offset = ⟨f, offset⟩ := by
  rw [fault, Nat.min_eq_left h]

/-- A character more in front of the words ends them where it did. -/
theorem map_ofCut_push (x : Except ParseError Statement.Cut) (pos : Nat) (c : Char) :
    (x.map (Statement.Cut.push c)).map (Extent.ofCut pos) =
      x.map (Extent.ofCut (pos + c.utf8Size)) := by
  cases x with
  | error e => rfl
  | ok cut =>
    show Except.ok (Extent.mk (pos + (c.utf8Size + Text.size cut.words)) _) = _
    rw [← Nat.add_assoc]
    rfl

theorem map_push_push (x : Except ParseError Statement.Cut) (c d : Char) :
    x.map (Statement.Cut.push c ∘ Statement.Cut.push d) =
      (x.map (Statement.Cut.push d)).map (Statement.Cut.push c) := by
  cases x <;> rfl

theorem began_openAfter {brackets : List Nat} (h : s.At pos (c :: t))
    (hbrackets : ∀ start ∈ brackets, start ≤ s.bytes.size) :
    ∀ start ∈ Statement.openAfter brackets pos c, start ≤ s.bytes.size := by
  intro start hstart
  unfold Statement.openAfter at hstart
  split at hstart
  · rcases List.mem_cons.mp hstart with rfl | hstart
    · exact Nat.le_of_lt h.lt
    · exact hbrackets start hstart
  · split at hstart
    · exact hbrackets start (List.mem_of_mem_tail hstart)
    · exact hbrackets start hstart

/-- **The byte scanner does in every mode what the character scanner does.** -/
theorem resume_eq (mode : Statement.Mode) {brackets : List Nat} (h : s.At pos t)
    (hmode : s.Began mode) (hbrackets : ∀ start ∈ brackets, start ≤ s.bytes.size) :
    s.resume brackets pos t mode =
      some ((Statement.scan mode brackets pos t).map (Extent.ofCut pos)) := by
  fun_induction Statement.scan mode brackets pos t with
  | case1 pos => exact scan_nil h
  | case2 pos start brackets =>
    rw [resume, scan_nil_open h, fault_eq (hbrackets start List.mem_cons_self)]
    rfl
  | case3 mark start brackets pos =>
    rw [resume, seekMark_nil h, fault_eq hmode.2]
    rfl
  | case4 start brackets pos =>
    show s.onward brackets (.error (s.fault .unclosedComment start)) = _
    rw [fault_eq hmode]
    rfl
  | case5 brackets pos c t ih =>
    have hnext : s.At (pos + 1 + c.utf8Size) t := h.tail.tail
    rw [map_push_push, map_ofCut_push, map_ofCut_push]
    exact (scan_escape h brackets).trans (ih hnext trivial hbrackets)
  | case6 brackets pos t ih =>
    have hinside : s.At (pos + 2) t := h.tail.tail
    rw [map_push_push, map_ofCut_push, map_ofCut_push]
    exact (scan_comment h brackets).trans (ih hinside (Nat.le_of_lt h.lt) hbrackets)
  | case7 brackets pos c t hescape hcomment hquote ih =>
    have hsize : c.utf8Size = 1 := utf8Size_eq_one.mpr (ascii_of_isQuote hquote)
    have hinside : s.At (pos + 1) t := hsize ▸ h.tail
    rw [map_ofCut_push, hsize]
    exact (scan_quote h hquote brackets).trans
      (ih hinside ⟨hquote, Nat.le_of_lt h.lt⟩ hbrackets)
  | case8 brackets pos c t hescape hcomment hquote hend => exact scan_terminator h hquote hend
  | case9 brackets pos c t hescape hcomment hquote hend ih =>
    rw [map_ofCut_push]
    exact (scan_other h hescape hcomment hquote hend).trans
      (ih h.tail trivial (began_openAfter h hbrackets))
  | case10 mark start brackets pos c t ih =>
    have hnext : s.At (pos + 1 + c.utf8Size) t := h.tail.tail
    rw [map_push_push, map_ofCut_push, map_ofCut_push, resume,
      seekMark_escape h (ascii_of_isQuote hmode.1)]
    exact ih hnext hmode hbrackets
  | case11 mark start brackets pos c t hescape ih =>
    rw [map_ofCut_push, resume, seekMark_other h hescape hmode.1]
    by_cases hc : (c == mark) = true
    · rw [if_pos hc] at ih
      rw [if_pos hc, if_pos hc]
      exact ih h.tail trivial hbrackets
    · rw [if_neg hc] at ih
      rw [if_neg hc, if_neg hc]
      exact ih h.tail hmode hbrackets
  | case12 start brackets pos t ih =>
    have hnext : s.At (pos + 2) t := h.tail.tail
    rw [map_push_push, map_ofCut_push, map_ofCut_push]
    exact ih hnext trivial hbrackets
  | case13 start brackets pos c t hend ih =>
    rw [map_ofCut_push, ← ih h.tail hmode hbrackets, resume, resume, commentEnd_cons hend]

/-- A statement ends where the character scanner finds its end, or is refused as it is there. -/
theorem scan_eq (h : s.At pos t) :
    s.scan [] pos = some ((Statement.scan .plain [] pos t).map (Extent.ofCut pos)) :=
  resume_eq .plain h trivial fun _ hstart => by cases hstart

end Source

end StyleModules
