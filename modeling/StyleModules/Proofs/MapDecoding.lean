import StyleModules.SourceMap.Mappings
import StyleModules.Proofs.Splitting

/-!
Reading the mappings of a source map.

* `Base64.integers` reads a text of digits as the integers it was written for.
* `SourceMap.decode` reads mappings as the third version of the format has it: lines end at `;`,
  segments at `,`; a segment has one, four or five numbers. The printed column is counted from the
  one before it on the same line; the number of the source, the line and column in it and the number
  of a name are counted from the last ones anywhere in the map.
* `SourceMap.decode_mappings`: what was written for segments is read as these segments, if their
  printed lines do not go back.
-/

namespace StyleModules

/-! ## 1. Integers in digits -/

namespace Base64

/-- The value of a character of the alphabet. -/
def value? (c : Char) : Option Nat :=
  alphabet.idxOf? c

/-- The integer that a number stands for: its lowest bit is the sign. -/
def signed (n : Nat) : Int :=
  if n % 2 = 1 then -((n / 2 : Nat) : Int) else ((n / 2 : Nat) : Int)

/-- The integers of a text of digits, of the first of which `sum` has been read and the next digit
    counts `scale`. None if there is another character or the last integer has no end. -/
def integersFrom (sum scale : Nat) : Text → Option (List Int)
  | [] => if scale = 1 then some [] else none
  | c :: t =>
    (value? c).bind fun v =>
      if v < 32 then (integersFrom 0 1 t).map (signed (sum + v * scale) :: ·)
      else integersFrom (sum + (v - 32) * scale) (scale * 32) t

/-- The integers of a text of digits. -/
def integers (t : Text) : Option (List Int) :=
  integersFrom 0 1 t

theorem value?_digit {n : Nat} (h : n < 64) : value? (digit n) = some n := by
  have hall : ∀ n < 64, value? (digit n) = some n := by decide +kernel
  exact hall n h

theorem lt_of_mem_vlqDigits {n d : Nat} (h : d ∈ vlqDigits n) : d < 64 := by
  fun_induction vlqDigits n with
  | case1 n hlt =>
    rw [List.mem_singleton.mp h]
    omega
  | case2 n hge ih =>
    rcases List.mem_cons.mp h with rfl | h
    · omega
    · exact ih h

/-- A number is read from its digits, whatever follows. -/
theorem integersFrom_digits (n sum scale : Nat) (t : Text) :
    integersFrom sum scale ((vlqDigits n).map digit ++ t) =
      (integers t).map (signed (sum + n * scale) :: ·) := by
  fun_induction vlqDigits n generalizing sum scale with
  | case1 n hlt =>
    show integersFrom sum scale (digit n :: t) = _
    rw [integersFrom, value?_digit (by omega), Option.bind_some, if_pos hlt]
    rfl
  | case2 n hge ih =>
    have hvalue : n % 32 + 32 - 32 = n % 32 := by omega
    have hsum : sum + n % 32 * scale + n / 32 * (scale * 32) = sum + n * scale := by
      rw [Nat.mul_comm scale, ← Nat.mul_assoc, Nat.add_assoc, ← Nat.add_mul, Nat.mul_comm (n / 32),
        Nat.mod_add_div]
    rw [List.map_cons, List.cons_append, integersFrom, value?_digit (by omega), Option.bind_some,
      if_neg (by omega), hvalue, ih, hsum]

theorem signed_vlqNumber (i : Int) : signed (vlqNumber i) = i := by
  unfold signed vlqNumber
  by_cases hi : i < 0
  · rw [if_pos hi, if_pos (by omega)]
    omega
  · rw [if_neg hi, if_neg (by omega)]
    omega

/-- **An integer is read from the text it was written as**, whatever follows. -/
theorem integers_vlq (i : Int) (t : Text) : integers (vlq i ++ t) = (integers t).map (i :: ·) := by
  rw [vlq, integers, integersFrom_digits, Nat.zero_add, Nat.mul_one, signed_vlqNumber]

theorem vlq_ne_nil (i : Int) : vlq i ≠ [] := by
  rw [vlq, vlqDigits]
  by_cases h : vlqNumber i < 32
  · rw [if_pos h]
    exact List.cons_ne_nil _ _
  · rw [if_neg h]
    exact List.cons_ne_nil _ _

/-- Integers are written without `,` and `;`. -/
theorem ne_of_mem_vlq {i : Int} {c : Char} (h : c ∈ vlq i) : c ≠ ',' ∧ c ≠ ';' := by
  have hall : ∀ n < 64, digit n ≠ ',' ∧ digit n ≠ ';' := by decide +kernel
  obtain ⟨d, hd, rfl⟩ := List.mem_map.mp h
  exact hall d (lt_of_mem_vlqDigits hd)

end Base64

/-! ## 2. Lines and segments -/

/-- What has no separator joins the first piece of what follows. -/
theorem Text.splitBy_append_of_forall {p : Char → Bool} {s t w : Text} {ws : List Text}
    (hs : ∀ c ∈ s, p c = false) (ht : splitBy p t = w :: ws) :
    splitBy p (s ++ t) = (s ++ w) :: ws := by
  induction s with
  | nil => exact ht
  | cons c s ih =>
    rw [List.cons_append, splitBy, ih fun d hd => hs d (List.mem_cons_of_mem c hd),
      if_neg (by rw [hs c List.mem_cons_self]; exact Bool.false_ne_true)]
    rfl

namespace SourceMap

/-- A place in a source, and a name for it if there is one. -/
structure Original where
  source : Int
  line : Int
  column : Int
  name : Option Int
  deriving DecidableEq, Repr

/-- A printed place and where it came from. -/
structure Mapping where
  line : Nat
  column : Int
  original : Option Original
  deriving DecidableEq, Repr

/-- The numbers that the next segment is counted from. -/
structure Running where
  column : Int
  source : Int
  sourceLine : Int
  sourceColumn : Int
  name : Int
  deriving DecidableEq, Repr

/-- The numbers at the start of a map. -/
def Running.zero : Running :=
  ⟨0, 0, 0, 0, 0⟩

/-- A segment on a line, from its numbers. -/
def decodeNumbers (line : Nat) (r : Running) : List Int → Option (Mapping × Running)
  | [column] =>
    let r := { r with column := r.column + column }
    some (⟨line, r.column, none⟩, r)
  | [column, source, sourceLine, sourceColumn] =>
    let r := ⟨r.column + column, r.source + source, r.sourceLine + sourceLine,
      r.sourceColumn + sourceColumn, r.name⟩
    some (⟨line, r.column, some ⟨r.source, r.sourceLine, r.sourceColumn, none⟩⟩, r)
  | [column, source, sourceLine, sourceColumn, name] =>
    let r := ⟨r.column + column, r.source + source, r.sourceLine + sourceLine,
      r.sourceColumn + sourceColumn, r.name + name⟩
    some (⟨line, r.column, some ⟨r.source, r.sourceLine, r.sourceColumn, some r.name⟩⟩, r)
  | _ => none

/-- A segment on a line. -/
def decodeSegment (line : Nat) (r : Running) (t : Text) : Option (Mapping × Running) :=
  (Base64.integers t).bind (decodeNumbers line r)

/-- The segments of a line; empty ones are passed over. -/
def decodeSegments (line : Nat) (r : Running) : List Text → Option (List Mapping × Running)
  | [] => some ([], r)
  | t :: ts =>
    if t.isEmpty then decodeSegments line r ts
    else
      (decodeSegment line r t).bind fun (m, r) =>
        (decodeSegments line r ts).map fun (ms, r) => (m :: ms, r)

/-- The lines of a map from a line on. -/
def decodeLines (line : Nat) (r : Running) : List Text → Option (List Mapping)
  | [] => some []
  | t :: ts =>
    (decodeSegments line r (Text.splitBy (· == ',') t)).bind fun (ms, r) =>
      (decodeLines (line + 1) { r with column := 0 } ts).map (ms ++ ·)

/-- Read mappings. -/
def decode (t : Text) : Option (List Mapping) :=
  decodeLines 0 .zero (Text.splitBy (· == ';') t)

/-! ## 3. What was written is read -/

/-- The mapping that a segment is read as. -/
def Segment.mapping (s : Segment) : Mapping :=
  ⟨s.printed.line, s.printed.column, some ⟨0, s.source.line, s.source.column, none⟩⟩

/-- The numbers that the writer counts from. -/
def Reached.running (r : Reached) : Running :=
  ⟨r.column, 0, r.source.line, r.source.column, 0⟩

theorem fields_ne_nil (column : Nat) (source : Position) (s : Segment) :
    fields column source s ≠ [] := by
  intro h
  simp only [fields, List.append_eq_nil_iff] at h
  exact Base64.vlq_ne_nil _ h.1.1.1

theorem ne_of_mem_fields {column : Nat} {source : Position} {s : Segment} {c : Char}
    (h : c ∈ fields column source s) : c ≠ ',' ∧ c ≠ ';' := by
  simp only [fields, difference, List.mem_append] at h
  rcases h with ((h | h) | h) | h
  · exact Base64.ne_of_mem_vlq h
  · exact Base64.ne_of_mem_vlq h
  · exact Base64.ne_of_mem_vlq h
  · exact Base64.ne_of_mem_vlq h

/-- A segment is read from the differences it was written as. -/
theorem decodeSegment_fields (line column : Nat) (source : Position) (s : Segment) :
    decodeSegment line ⟨column, 0, source.line, source.column, 0⟩ (fields column source s) =
      some (⟨line, s.printed.column, some ⟨0, s.source.line, s.source.column, none⟩⟩,
        ⟨s.printed.column, 0, s.source.line, s.source.column, 0⟩) := by
  have hread : Base64.integers (fields column source s) =
      some [(s.printed.column : Int) - column, 0, (s.source.line : Int) - source.line,
        (s.source.column : Int) - source.column] := by
    have hend := Base64.integers_vlq ((s.source.column : Int) - source.column) []
    rw [List.append_nil] at hend
    simp only [fields, difference, List.append_assoc, Base64.integers_vlq, hend]
    rfl
  have hback : ∀ a b : Int, a + (b - a) = b := fun a b => by omega
  rw [decodeSegment, hread, Option.bind_some, decodeNumbers]
  simp only [hback, Int.add_zero]

/-- A segment at the start of what is left of a line, behind it nothing or a comma. -/
theorem decodeSegments_append {line : Nat} {r r' : Running} {m : Mapping} {t rest : Text}
    (hne : t ≠ []) (ht : ∀ c ∈ t, c ≠ ',') (hrest : rest = [] ∨ ∃ u, rest = ',' :: u)
    (h : decodeSegment line r t = some (m, r')) :
    decodeSegments line r (Text.splitBy (· == ',') (t ++ rest)) =
      (decodeSegments line r' (Text.splitBy (· == ',') rest)).map fun (ms, r) => (m :: ms, r) := by
  have hsplit : Text.splitBy (· == ',') t = [t] :=
    Text.splitBy_of_forall fun c hc => beq_eq_false_iff_ne.mpr (ht c hc)
  have hempty : ¬t.isEmpty = true := by simpa using hne
  rcases hrest with rfl | ⟨u, rfl⟩
  · rw [List.append_nil, hsplit, decodeSegments, if_neg hempty, h]
    rfl
  · rw [Text.splitBy_append_cons rfl, hsplit, List.singleton_append, decodeSegments, if_neg hempty,
      h]
    rfl

/-- A comma in front of what is left of a line changes nothing. -/
theorem decodeLines_comma (line : Nat) (r : Running) (t : Text) :
    decodeLines line r (Text.splitBy (· == ';') (',' :: t)) =
      decodeLines line r (Text.splitBy (· == ';') t) := by
  obtain ⟨w, ws, hsplit⟩ := List.exists_cons_of_ne_nil (Text.splitBy_ne_nil (· == ';') t)
  have hcomma : Text.splitBy (· == ';') (',' :: t) = (',' :: w) :: ws :=
    Text.splitBy_append_of_forall (s := [',']) (by simp) hsplit
  have hsegments : Text.splitBy (· == ',') (',' :: w) = [] :: Text.splitBy (· == ',') w := rfl
  rw [hcomma, hsplit, decodeLines, decodeLines, hsegments, decodeSegments]
  rfl

/-- Line ends in front of a map go on to a later line. -/
theorem decodeLines_lineEnds (count line : Nat) (r : Running) (t : Text) :
    decodeLines line r (Text.splitBy (· == ';') (List.replicate (count + 1) ';' ++ t)) =
      decodeLines (line + (count + 1)) { r with column := 0 } (Text.splitBy (· == ';') t) := by
  have hone : ∀ (line : Nat) (r : Running) (t : Text),
      decodeLines line r (Text.splitBy (· == ';') (';' :: t)) =
        decodeLines (line + 1) { r with column := 0 } (Text.splitBy (· == ';') t) := by
    intro line r t
    show decodeLines line r ([] :: Text.splitBy (· == ';') t) = _
    rw [decodeLines]
    show Option.map ([] ++ ·) _ = _
    simp
  induction count generalizing line r with
  | zero => exact hone line r t
  | succ count ih =>
    rw [List.replicate_succ, List.cons_append, hone, ih, Nat.add_assoc, Nat.add_comm 1]

/-- Behind a segment a line ends or goes on with a comma. -/
theorem exists_head_mappingsFrom {r : Reached} (h : r.inLine = true) (ss : List Segment) :
    ∃ head tail, Text.splitBy (· == ';') (mappingsFrom r ss) = head :: tail ∧
      (head = [] ∨ ∃ u, head = ',' :: u) := by
  cases ss with
  | nil => exact ⟨[], [], rfl, .inl rfl⟩
  | cons s ss =>
    rw [mappingsFrom]
    by_cases hline : s.printed.line - r.line = 0
    · simp only [if_pos hline, h, if_true, List.append_assoc]
      obtain ⟨w, ws, hsplit⟩ := List.exists_cons_of_ne_nil (Text.splitBy_ne_nil (· == ';')
        (fields r.column r.source s ++
          mappingsFrom ⟨s.printed.line, s.printed.column, true, s.source⟩ ss))
      exact ⟨',' :: w, ws, Text.splitBy_append_of_forall (s := [',']) (by simp) hsplit, .inr ⟨w, rfl⟩⟩
    · obtain ⟨count, hcount⟩ := Nat.exists_eq_succ_of_ne_zero hline
      simp only [hcount, List.replicate_succ, List.cons_append]
      exact ⟨[], _, rfl, .inl rfl⟩

/-- A segment and all behind it are read, if all behind it is. -/
theorem decodeLines_fields (column : Nat) (source : Position) {s : Segment} {ss : List Segment}
    {ms : List Mapping}
    (h : decodeLines s.printed.line ⟨s.printed.column, 0, s.source.line, s.source.column, 0⟩
      (Text.splitBy (· == ';')
        (mappingsFrom ⟨s.printed.line, s.printed.column, true, s.source⟩ ss)) = some ms) :
    decodeLines s.printed.line ⟨column, 0, source.line, source.column, 0⟩
      (Text.splitBy (· == ';') (fields column source s ++
        mappingsFrom ⟨s.printed.line, s.printed.column, true, s.source⟩ ss)) =
      some (s.mapping :: ms) := by
  obtain ⟨head, tail, hsplit, hhead⟩ := exists_head_mappingsFrom
    (r := ⟨s.printed.line, s.printed.column, true, s.source⟩) rfl ss
  have hfields : Text.splitBy (· == ';') (fields column source s ++
      mappingsFrom ⟨s.printed.line, s.printed.column, true, s.source⟩ ss) =
        (fields column source s ++ head) :: tail :=
    Text.splitBy_append_of_forall
      (fun c hc => beq_eq_false_iff_ne.mpr (ne_of_mem_fields hc).2) hsplit
  rw [hsplit, decodeLines] at h
  obtain ⟨⟨ms', r'⟩, hsegments, hrest⟩ := Option.bind_eq_some_iff.mp h
  obtain ⟨ms'', hlines, rfl⟩ := Option.map_eq_some_iff.mp hrest
  rw [hfields, decodeLines,
    decodeSegments_append (fields_ne_nil _ _ _) (fun c hc => (ne_of_mem_fields hc).1) hhead
      (decodeSegment_fields _ _ _ _), hsegments]
  show Option.map _ (decodeLines (s.printed.line + 1) { r' with column := 0 } tail) = _
  rw [hlines]
  rfl

/-- Segments are read as they were written, from whatever was reached. -/
theorem decodeLines_mappingsFrom (r : Reached) (ss : List Segment)
    (h : List.Pairwise (· ≤ ·) (r.line :: ss.map fun s => s.printed.line)) :
    decodeLines r.line r.running (Text.splitBy (· == ';') (mappingsFrom r ss)) =
      some (ss.map Segment.mapping) := by
  induction ss generalizing r with
  | nil => rfl
  | cons s ss ih =>
    obtain ⟨hfirst, h⟩ := List.pairwise_cons.mp h
    have hle : r.line ≤ s.printed.line := hfirst _ List.mem_cons_self
    have hrest := fun column source => decodeLines_fields column source
      (ih ⟨s.printed.line, s.printed.column, true, s.source⟩ h)
    rw [mappingsFrom, List.map_cons]
    by_cases hline : s.printed.line - r.line = 0
    · have heq : r.line = s.printed.line := by omega
      simp only [if_pos hline, List.append_assoc]
      by_cases hin : r.inLine = true
      · rw [if_pos hin, List.singleton_append, decodeLines_comma, heq]
        exact hrest _ _
      · rw [if_neg hin, List.nil_append, heq]
        exact hrest _ _
    · obtain ⟨count, hcount⟩ := Nat.exists_eq_succ_of_ne_zero hline
      have heq : r.line + (count + 1) = s.printed.line := by omega
      rw [if_neg hline, hcount, List.append_assoc, decodeLines_lineEnds, heq]
      exact hrest _ _

/-- **What was written for segments is read as these segments**, if their printed lines do not go
    back. -/
theorem decode_mappings {ss : List Segment}
    (h : List.Pairwise (· ≤ ·) (ss.map fun s => s.printed.line)) :
    decode (mappings ss) = some (ss.map Segment.mapping) :=
  decodeLines_mappingsFrom ⟨0, 0, false, .origin⟩ ss
    (List.pairwise_cons.mpr ⟨fun _ _ => Nat.zero_le _, h⟩)

end SourceMap

end StyleModules
