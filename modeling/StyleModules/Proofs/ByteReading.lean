import StyleModules.Proofs.ByteScanning

/-!
A style sheet is read by its bytes as it is read by its characters.

* Section 1: what is cut apart at offsets are the words of a statement (`AtHead.cutOut_eq`,
  `Decl.cutOut_eq`).
* Section 2: one lemma for each kind of step. The byte reader makes the step of the character reader
  (`stepWords_eq` and its neighbours), and no cut fails.
* Section 3: what holds at every moment is that the offset of the byte reader is where the character
  reader has its text, and that all open blocks began in the text (`Reads`). With it the two
  take the same step (`Reads.step_eq`), and a step keeps it (`Reads.next`), so the runs agree.
* Section 4: `Stylesheet.bytes_as_characters`.
-/

namespace StyleModules

/-! ## 1. The words of a statement -/

namespace Text

theorem dropBytes_behind (u : Text) {c : Char} (hc : c.utf8Size = 1) (v : Text) :
    dropBytes (u ++ c :: v) (size u + 1) = some v := by
  have h := dropBytes_append (u ++ [c]) v
  rwa [size_append, size_cons, size_nil, hc, List.append_assoc] at h

/-- The blanks at the end of a text are behind what is left without them. -/
theorem dropBytes_trimEnd (t rest : Text) :
    dropBytes (t ++ rest) (size (trimEnd t)) = some (endBlanks t ++ rest) := by
  have h := dropBytes_append (trimEnd t) (endBlanks t ++ rest)
  rwa [← List.append_assoc, trimEnd_append_endBlanks] at h

theorem dropBytes_takeWhile (p : Char → Bool) (t : Text) :
    t.dropBytes (size (t.takeWhile p)) = some (t.dropWhile p) := by
  have h := dropBytes_append (t.takeWhile p) (t.dropWhile p)
  rwa [List.takeWhile_append_dropWhile] at h

theorem takeBytes_takeWhile (p : Char → Bool) (t : Text) :
    t.takeBytes (size (t.takeWhile p)) = some (t.takeWhile p) := by
  have h := takeBytes_append (t.takeWhile p) (t.dropWhile p)
  rwa [List.takeWhile_append_dropWhile] at h

/-- The blanks in front of a text, by what is left without them. -/
theorem size_sub_trimStart (t : Text) :
    size t - size (trimStart t) = size (t.takeWhile isBlank) := by
  have h := size_append (t.takeWhile isBlank) (t.dropWhile isBlank)
  rw [List.takeWhile_append_dropWhile] at h
  rw [h]
  exact Nat.add_sub_cancel _ _

theorem offsetOf?_cons (p : Char → Bool) (c : Char) (t : Text) :
    offsetOf? p (c :: t) = if p c then some 0 else (offsetOf? p t).map (c.utf8Size + ·) := by
  unfold offsetOf?
  rw [cutAt]
  split
  · rfl
  · cases cutAt p t <;> rfl

/-- The characters of a class in front of a text reach to the first that is not of it, or to the
    end. -/
theorem offsetOf?_getD (p : Char → Bool) (t : Text) :
    (t.offsetOf? fun c => !p c).getD (size t) = size (t.takeWhile p) := by
  induction t with
  | nil => rfl
  | cons c t ih =>
    rw [offsetOf?_cons, List.takeWhile_cons]
    cases hc : p c with
    | false => rfl
    | true =>
      show ((offsetOf? _ t).map (c.utf8Size + ·)).getD (c.utf8Size + size t) =
        c.utf8Size + size (t.takeWhile p)
      rw [← ih]
      cases offsetOf? (fun c => !p c) t <;> rfl

end Text

theorem AtHead.cutOut_eq (t : Text) : AtHead.cutOut ('@' :: t) = some (AtHead.ofText t) := by
  have hbody : Text.dropBytes ('@' :: t) 1 = some t := Text.dropBytes_behind [] rfl t
  unfold AtHead.cutOut AtHead.ofText
  simp only [hbody, Option.bind_eq_bind, Option.bind_some, Text.offsetOf?_getD,
    Text.dropBytes_takeWhile, Text.takeBytes_takeWhile, Text.size_sub_trimStart]
  rfl

namespace Decl

theorem cutImportant_eq (value : Text) : cutImportant value = some (splitImportant value) := by
  unfold cutImportant splitImportant Text.lastOffsetOf?
  cases hcut : Text.cutAtLast (· == '!') value with
  | none => rfl
  | some cut =>
    obtain ⟨kept, mark⟩ := cut
    obtain ⟨c, hc, rfl⟩ := Text.append_of_cutAtLast hcut
    obtain rfl : c = '!' := beq_iff_eq.mp hc
    have hmark := Text.dropBytes_behind kept (c := '!') rfl mark
    simp only [Option.map_some, hmark, Text.takeBytes_append, Text.dropBytes_trimEnd,
      Option.bind_eq_bind, Option.bind_some]
    split <;> rfl

theorem cutOut_eq (t : Text) : cutOut t = some (ofText t) := by
  unfold cutOut ofText Text.offsetOf?
  cases hcut : Text.cutAt (· == ':') t with
  | none => rfl
  | some cut =>
    obtain ⟨front, back⟩ := cut
    obtain ⟨c, hc, rfl⟩ := Text.append_of_cutAt hcut
    obtain rfl : c = ':' := beq_iff_eq.mp hc
    have hback := Text.dropBytes_behind front (c := ':') rfl back
    have hblanks : Text.slice? (front ++ ':' :: back) (Text.size (Text.trimEnd front))
        (Text.size front) = some (Text.endBlanks front) := by
      have h := Text.slice?_append (Text.trimEnd front) (Text.endBlanks front) (':' :: back)
      rwa [← Text.size_append, Text.trimEnd_append_endBlanks] at h
    simp only [Option.map_some, Text.takeBytes_append, hback, hblanks, Option.bind_eq_bind,
      Option.bind_some, Text.size_sub_trimStart, Text.takeBytes_takeWhile, Text.dropBytes_takeWhile,
      cutImportant_eq]
    split <;> rfl

end Decl

/-! ## 2. One step -/

namespace Source

open StyleModules.Parser (State Pending)

variable {s : Source} {st : State} {before : Text} {start : Nat}

/-- A step of the character reader, without the text that it leaves. -/
def Move.ofStep : Parser.Step → Move
  | .failed e => .failed e
  | .done block => .done block
  | .next st _ => .next st

theorem closeBlock_eq (p : Pending) (body : Block) (stop : Nat) :
    closeBlock p body stop = some (p.close body stop) := by
  unfold closeBlock Pending.close
  simp only
  by_cases hat : p.words.head? = some '@'
  · obtain ⟨t, ht⟩ := List.head?_eq_some_iff.mp hat
    rw [if_pos hat, ht, AtHead.cutOut_eq]
    rfl
  · rw [if_neg hat]
    split
    · next t ht => exact absurd (congrArg List.head? ht) hat
    · rfl

theorem statement_eq (hstart : start ≤ s.bytes.size) (words before trailing : Text) :
    s.statement words before trailing start =
      some (Parser.statement words before trailing start) := by
  unfold statement Parser.statement
  simp only
  by_cases hat : words.head? = some '@'
  · obtain ⟨t, rfl⟩ := List.head?_eq_some_iff.mp hat
    rw [if_pos hat, AtHead.cutOut_eq]
    rfl
  · rw [if_neg hat, Decl.cutOut_eq]
    split
    · exact absurd rfl hat
    · cases Decl.ofText words with
      | error f =>
        simp only [fault_eq hstart]
        rfl
      | ok d => rfl

theorem stepEnd_eq (hstarts : ∀ p ∈ st.pending, p.start ≤ s.bytes.size) (before : Text) :
    s.stepEnd st before = .ofStep (Parser.stepEnd st before) := by
  unfold stepEnd Parser.stepEnd
  cases hp : st.pending with
  | nil => rfl
  | cons p outer =>
    rw [hp] at hstarts
    simp only [fault_eq (hstarts p List.mem_cons_self)]
    rfl

theorem stepClose_eq (hstart : start ≤ s.bytes.size) (before rest : Text) :
    s.stepClose st before start = some (.ofStep (Parser.stepClose st before start rest)) := by
  unfold stepClose Parser.stepClose
  cases st.pending with
  | nil =>
    simp only [fault_eq hstart]
    rfl
  | cons p outer =>
    simp only [closeBlock_eq]
    rfl

theorem stepComment_eq {inside : Text} (h : s.At start ('/' :: '*' :: inside)) (before : Text) :
    s.stepComment st before start = some (.ofStep (Parser.stepComment st before start inside)) := by
  have hinside : s.At (start + 2) inside := h.tail.tail
  unfold stepComment Parser.stepComment
  simp only [skipComment_at h, Option.bind_eq_bind, Option.bind_some, commentEnd]
  cases hcut : Statement.cutComment inside with
  | none =>
    simp only [fault_eq (Nat.le_of_lt h.lt)]
    rfl
  | some cut =>
    obtain ⟨text, rest⟩ := cut
    rw [← Parser.append_of_cutComment hcut, List.append_assoc] at hinside
    have hstop : start + 2 + Text.size text + 2 = start + 4 + Text.size text := by omega
    simp only [Nat.add_sub_cancel, hinside.slice?, Option.bind_some]
    rw [hstop]
    rfl

theorem stepWords_eq {text : Text} (h : s.At start text) (before : Text) :
    s.stepWords st before start = some (.ofStep (Parser.stepWords st before start text)) := by
  unfold stepWords Parser.stepWords
  simp only [scan_eq h, Option.bind_eq_bind, Option.bind_some]
  cases hcut : Statement.scan .plain [] start text with
  | error e => rfl
  | ok cut =>
    have hat : s.At start (cut.words ++ cut.rest) := Statement.words_append_rest hcut ▸ h
    have htrailing := Text.dropBytes_trimEnd cut.words []
    rw [List.append_nil, List.append_nil] at htrailing
    simp only [Except.map, Extent.ofCut, hat.slice?, htrailing, Option.bind_some,
      statement_eq h.le]
    rcases Parser.scan_rest hcut with hrest | ⟨c, r, hrest, hc⟩
    · rw [hrest]
      cases Parser.statement (Text.trimEnd cut.words) before [] start <;> rfl
    · rcases isTerminator_cases hc with rfl | rfl | rfl
      · rw [hrest]
        cases Parser.statement (Text.trimEnd cut.words) before (Text.endBlanks cut.words) start <;>
          rfl
      · rw [hrest]
        rfl
      · rw [hrest]
        cases Parser.statement (Text.trimEnd cut.words) before [] start <;> rfl

/-- The bytes between nodes are the characters between nodes. -/
theorem At.isGapByte {pos : Nat} {c : Char} {t : Text} (h : s.At pos (c :: t))
    (hlt : pos < s.bytes.size) : isGapByte s.bytes[pos] = Parser.isGap c := by
  unfold Source.isGapByte Parser.isGap Text.isAsciiBlank
  simp (disch := decide) only [h.beq]

theorem ascii_of_isGap {c : Char} (h : Parser.isGap c = true) : c.toNat < 128 := by
  unfold Parser.isGap Text.isAsciiBlank at h
  simp only [Bool.or_eq_true, beq_iff_eq] at h
  rcases h with ((((rfl | rfl) | rfl) | rfl) | rfl) | rfl <;> decide

/-- What stands between nodes is gone through byte by byte. -/
theorem skipGap_eq {pos : Nat} {t : Text} (h : s.At pos t) :
    s.skipGap pos = pos + Text.size (t.takeWhile Parser.isGap) := by
  induction t generalizing pos with
  | nil =>
    unfold skipGap
    rw [dif_neg h.not_lt]
    rfl
  | cons c t ih =>
    unfold skipGap
    rw [dif_pos h.lt, h.isGapByte, List.takeWhile_cons]
    by_cases hc : Parser.isGap c = true
    · have hsize : c.utf8Size = 1 := utf8Size_eq_one.mpr (ascii_of_isGap hc)
      have hnext : s.At (pos + 1) t := hsize ▸ h.tail
      rw [if_pos hc, if_pos hc, ih hnext, Text.size_cons, hsize, Nat.add_assoc]
    · rw [if_neg hc, if_neg hc]
      rfl

/-! ## 3. All steps -/

/-- The byte reader stands where the character reader has a text before it, and all open blocks
    began before. -/
structure Reads (s : Source) (st : State) (t : Text) : Prop where
  here : s.At st.pos t
  starts : ∀ p ∈ st.pending, p.start ≤ s.bytes.size

namespace Reads

variable {t : Text}

theorem gap (h : s.Reads st t) :
    s.At st.pos (t.takeWhile Parser.isGap ++ t.dropWhile Parser.isGap) := by
  rw [List.takeWhile_append_dropWhile]
  exact h.here

/-- Behind the blanks in front of it stands a node, or the end of a block. -/
theorem behind (h : s.Reads st t) :
    s.At (st.pos + Text.size (t.takeWhile Parser.isGap)) (t.dropWhile Parser.isGap) :=
  h.gap.append

/-- **The byte reader takes the step that the character reader takes.** -/
theorem step_eq (h : s.Reads st t) : s.step st = some (.ofStep (Parser.step st t)) := by
  have hat := h.behind
  unfold step Parser.step
  simp only [skipGap_eq h.here, h.gap.slice?, Option.bind_eq_bind, Option.bind_some]
  generalize st.pos + Text.size (t.takeWhile Parser.isGap) = start at hat ⊢
  generalize t.takeWhile Parser.isGap = before
  generalize t.dropWhile Parser.isGap = text at hat ⊢
  cases Parser.found text with
  | nothing =>
    rw [hat.getElem?_nil]
    exact congrArg some (stepEnd_eq h.starts before)
  | close rest =>
    simp only [Array.getElem?_eq_getElem hat.lt, hat.beq (d := '\x7d') (by decide)]
    exact stepClose_eq (Nat.le_of_lt hat.lt) before rest
  | comment inside =>
    have hstar : s.At (start + 1) ('*' :: inside) := hat.tail
    simp (disch := decide) only [Array.getElem?_eq_getElem hat.lt, hat.beq, hstar.getElem?_beq]
    exact stepComment_eq hat before
  | words text hne hclose hcomment =>
    obtain ⟨c, u, rfl⟩ := List.exists_cons_of_ne_nil hne
    have hbrace : (c == '\x7d') = false := by
      rw [beq_eq_false_iff_ne]
      intro hc
      exact hclose u (by rw [hc])
    have hpair : (c == '/' && u.head? == some '*') = false :=
      not_opening fun v hc hu => hcomment v (by rw [hc, hu])
    simp (disch := decide) only [Array.getElem?_eq_getElem hat.lt, hat.beq, hat.opening, hbrace,
      hpair]
    rw [if_neg Bool.false_ne_true, if_neg Bool.false_ne_true]
    split
    · next hnil => cases hnil
    · next rest hrest => exact absurd hrest (hclose rest)
    · next inside hinside => exact absurd hinside (hcomment inside)
    · exact stepWords_eq hat before

/-- A step leaves the two readers at the same place. -/
theorem next (h : s.Reads st t) {st' : State} {rest : Text}
    (hstep : Parser.step st t = .next st' rest) : s.Reads st' rest := by
  have hat := h.behind
  rcases Parser.step_cases hstep with ⟨u, hu, hclose⟩ | ⟨u, hu, hcomment⟩ | hwords
  · rw [hu] at hat
    unfold Parser.stepClose at hclose
    split at hclose
    · cases hclose
    · next p outer hpending =>
      cases hclose
      refine ⟨hat.tail, fun q hq => h.starts q ?_⟩
      rw [hpending]
      exact List.mem_cons_of_mem p hq
  · rw [hu] at hat
    unfold Parser.stepComment at hcomment
    split at hcomment
    · cases hcomment
    · next text rest' hcut =>
      cases hcomment
      have hinside : s.At (st.pos + Text.size (t.takeWhile Parser.isGap) + 2) u := hat.tail.tail
      rw [← Parser.append_of_cutComment hcut] at hinside
      have hsize : 2 + Text.size (text ++ "*/".toList) = 4 + Text.size text := by
        rw [Text.size_append]
        show 2 + (Text.size text + 2) = 4 + Text.size text
        omega
      have hend := hinside.append
      rw [Nat.add_assoc, hsize, ← Nat.add_assoc] at hend
      exact ⟨hend, h.starts⟩
  · obtain ⟨words, trailing, hcase⟩ := Parser.stepWords_cases hwords
    rcases hcase with ⟨u, hu, rfl, rfl⟩ | ⟨u, n, hu, rfl, -, rfl⟩ | ⟨u, n, hu, rfl, -, rfl⟩
    · rw [← hu] at hat
      refine ⟨hat.append.tail, fun q hq => ?_⟩
      rcases List.mem_cons.mp hq with rfl | hq
      · exact h.behind.le
      · exact h.starts q hq
    · rw [← hu] at hat
      exact ⟨hat.append.tail, h.starts⟩
    · rw [← hu, List.append_assoc] at hat
      exact ⟨hat.append, h.starts⟩

end Reads

/-- What follows a step. -/
def follow (s : Source) : Move → Option (Except ParseError Block)
  | .failed e => some (.error e)
  | .done block => some (.ok block)
  | .next st => s.run st

theorem run_of_step {move : Move} (h : s.step st = some move) : s.run st = s.follow move := by
  unfold run
  split
  · next hnone =>
    rw [h] at hnone
    cases hnone
  · next e he =>
    rw [h] at he
    cases he
    rfl
  · next block hdone =>
    rw [h] at hdone
    cases hdone
    rfl
  · next st' hnext =>
    rw [h] at hnext
    cases hnext
    rfl

/-- **So does a run**, and it ends in the same way. -/
theorem run_eq {t : Text} (h : s.Reads st t) : s.run st = some (Parser.run st t) := by
  fun_induction Parser.run st t with
  | case1 st t e he =>
    rw [run_of_step h.step_eq, he]
    rfl
  | case2 st t block hdone =>
    rw [run_of_step h.step_eq, hdone]
    rfl
  | case3 st t st' rest hnext _ ih =>
    rw [run_of_step h.step_eq, hnext]
    exact ih (h.next hnext)

end Source

/-! ## 4. The whole sheet -/

theorem Stylesheet.parseBytes_eq (t : Text) :
    Stylesheet.parseBytes t = some (Stylesheet.parse t) := by
  have hreads : (Source.ofText t).Reads ⟨[], [], false, 0⟩ t :=
    ⟨⟨[], rfl, rfl⟩, fun p hp => by cases hp⟩
  unfold parseBytes parse
  rw [Source.run_eq hreads]
  rfl

/-- A statement that begins on a boundary ends on one. -/
theorem Source.boundary_of_scan {s : Source} {pos : Nat} {t : Text} (h : s.At pos t)
    {extent : Extent} (hscan : s.scan [] pos = some (.ok extent)) :
    pos ≤ extent.stop ∧ s.Boundary extent.stop := by
  rw [scan_eq h, Option.some.injEq] at hscan
  obtain ⟨cut, hcut, rfl⟩ := Statement.map_eq_ok hscan
  obtain ⟨front, htext, rfl⟩ := h
  refine ⟨Nat.le_add_right _ _, boundary_iff.mpr ⟨front ++ cut.words, cut.rest, ?_, ?_⟩⟩
  · rw [htext, ← Statement.words_append_rest hcut, List.append_assoc]
  · exact Text.size_append front cut.words

/-- **Bytes are read as the characters they spell.**

    * From every boundary on, the scanner by bytes finds the end that the scanner by characters finds:
      the same offset and terminator, or the same error. The end is on a boundary.
    * A cut can be made exactly at the boundaries.
    * The reader by bytes can make all its cuts, and it reads every text as the reader by characters
      does. -/
theorem Stylesheet.bytes_as_characters (t : Text) :
    (∀ start, (Source.ofText t).Boundary start → ∃ rest, t.dropBytes start = some rest ∧
      (Source.ofText t).scan [] start =
        some ((Statement.scan .plain [] start rest).map (Extent.ofCut start)) ∧
      ∀ extent, (Source.ofText t).scan [] start = some (.ok extent) →
        start ≤ extent.stop ∧ (Source.ofText t).Boundary extent.stop) ∧
    (∀ (u : Text) (start stop : Nat),
      ((u.dropBytes start).isSome ↔ (Source.ofText u).Boundary start) ∧
      ((u.takeBytes stop).isSome ↔ (Source.ofText u).Boundary stop) ∧
      ((u.slice? start stop).isSome ↔
        start ≤ stop ∧ (Source.ofText u).Boundary start ∧ (Source.ofText u).Boundary stop)) ∧
    Stylesheet.parseBytes t = some (Stylesheet.parse t) := by
  refine ⟨?_, ?_, Stylesheet.parseBytes_eq t⟩
  · intro start hstart
    obtain ⟨front, rest, rfl, rfl⟩ := Source.boundary_iff.mp hstart
    have hat := Source.ofText_at front rest
    exact ⟨rest, hat.dropBytes, Source.scan_eq hat, fun _ => Source.boundary_of_scan hat⟩
  · intro u start stop
    simp only [Source.boundary_iff]
    exact ⟨Text.dropBytes_isSome, Text.takeBytes_isSome, Text.slice?_isSome⟩

/-- Behind the second backslash the scanner comes to stand inside a character, at offset 11. -/
theorem Stylesheet.bytes_as_characters_escaped :
    (Source.ofText ".a\\é\x7bb:\"\\€\"\x7d".toList).Boundary 6 ∧
      ¬(Source.ofText ".a\\é\x7bb:\"\\€\"\x7d".toList).Boundary 11 ∧
      (Source.ofText ".a\\é\x7bb:\"\\€\"\x7d".toList).scan [] 6 = some (.ok ⟨14, .closeBrace⟩) ∧
      ∃ sheet, Stylesheet.parseBytes ".a\\é\x7bb:\"\\€\"\x7d".toList = some (.ok sheet) ∧
        sheet.preorder.map Node.span = [some ⟨0, 15⟩, some ⟨6, 14⟩] := by
  have hstart : (Source.ofText ".a\\é\x7bb:\"\\€\"\x7d".toList).Boundary 6 := by decide
  obtain ⟨hscans, -, hread⟩ := Stylesheet.bytes_as_characters ".a\\é\x7bb:\"\\€\"\x7d".toList
  obtain ⟨rest, hrest, hscan, -⟩ := hscans 6 hstart
  cases hrest
  obtain ⟨sheet, hsheet, hspans⟩ := exists_ok_of_map
    (show ((Stylesheet.parse ".a\\é\x7bb:\"\\€\"\x7d".toList).toOption.map fun sheet =>
      sheet.preorder.map Node.span) = some [some ⟨0, 15⟩, some ⟨6, 14⟩] by decide +kernel)
  exact ⟨hstart, by decide, hscan, sheet, by rw [hread, hsheet], hspans⟩

end StyleModules
