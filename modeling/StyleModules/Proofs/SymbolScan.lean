import StyleModules.Symbol.Splice
import StyleModules.Proofs.LineIndex
import StyleModules.Proofs.SymbolFusion

/-!
Reading a text and replacing its symbols is taking it apart, looking up each token and putting all
together again.

* `Spaced.parts_eq`: a text falls apart in one way only.
* `Draft.Covers` relates what has been written to what has been read. It is kept where nothing is
  replaced (`Covers.read`) and where a token is (`Covers.put`), and no cut by bytes fails.
* `splice_takes_apart`: so splicing never fails. Every token is looked up once, in order; what is put
  in its place is not looked at again.
-/

namespace StyleModules.Symbol

/-! ## 1. A text falls apart in one way -/

/-- The parts that a text can fall apart into are those it does fall apart into. -/
theorem Spaced.parts_eq {ps : List Part} (h : Spaced ps) : parts (ps.flatMap Part.text) = ps := by
  induction h with
  | nil => rfl
  | @gap c ps hc _ ih =>
    show parts (c :: ps.flatMap Part.text) = _
    rw [parts_cons_of_gap hc, ih]
  | @token w ps hw hstops _ ih =>
    show parts (w ++ ps.flatMap Part.text) = _
    rw [parts_append w hstops, parts_of_isToken hw, ih]
    rfl

theorem spaced_iff {value : Text} {ps : List Part} :
    Spaced ps ∧ ps.flatMap Part.text = value ↔ ps = parts value := by
  constructor
  · rintro ⟨h, rfl⟩
    exact h.parts_eq.symm
  · rintro rfl
    exact ⟨spaced_parts value, flatMap_text_parts value⟩

/-! ## 2. What has been written -/

/-- A draft that, with what was not copied yet, reads `image` where the text reads `front`. -/
def Draft.Covers (front image : Text) (d : Draft) : Prop :=
  ∃ copied rest, front = copied ++ rest ∧ d.copied = Text.size copied ∧
    image = d.written.getD [] ++ rest ∧ (d.written = none → copied = [])

namespace Draft

theorem covers_blank : blank.Covers [] [] :=
  ⟨[], [], rfl, rfl, rfl, fun _ => rfl⟩

namespace Covers

variable {front image : Text} {d : Draft}

/-- Reading on changes nothing. -/
theorem read (h : d.Covers front image) (t : Text) : d.Covers (front ++ t) (image ++ t) := by
  obtain ⟨copied, rest, rfl, hsize, rfl, hnone⟩ := h
  exact ⟨copied, rest ++ t, List.append_assoc .., hsize, List.append_assoc .., hnone⟩

/-- The answer to a token is put behind what was not copied yet; without one, the token is read. -/
theorem put (h : d.Covers front image) (word after : Text) (answer : Option Text) :
    ∃ d', d.put (front ++ (word ++ after)) (Text.size front) (Text.size front + Text.size word)
      answer = some d' ∧ d'.Covers (front ++ word) (image ++ answer.getD word) := by
  cases answer with
  | none => exact ⟨d, rfl, h.read word⟩
  | some text =>
    obtain ⟨copied, rest, rfl, hsize, rfl, hnone⟩ := h
    have hslice : Text.slice? (copied ++ rest ++ (word ++ after)) d.copied
        (Text.size (copied ++ rest)) = some rest := by
      rw [hsize, Text.size_append, Text.slice?_append]
    refine ⟨⟨some (d.written.getD [] ++ rest ++ text), Text.size (copied ++ rest) + Text.size word⟩,
      by simp only [Draft.put, hslice]; rfl, copied ++ rest ++ word, [], ?_, ?_, ?_, nofun⟩
    · rw [List.append_nil]
    · rw [Text.size_append _ word]
    · rw [List.append_nil]
      rfl

/-- In the end the draft is the image of the text. -/
theorem finish (h : d.Covers front image) : d.finish front = some image := by
  obtain ⟨copied, rest, rfl, hsize, rfl, hnone⟩ := h
  unfold Draft.finish
  cases hwritten : d.written with
  | none =>
    -- nothing was copied either, so the text itself is the image
    rw [hnone hwritten]
    rfl
  | some written =>
    rw [hsize, Text.dropBytes_append]
    rfl

end Covers

end Draft

/-! ## 3. One token after another -/

section WriteAll

variable {σ : Type} (lookup : Text → StateM σ (Option Text))

/-- The token that a part is, if it is one. -/
def Part.token? : Part → Option Text
  | .token w => some w
  | .gap _ => none

/-- A part as it is written, with a lookup if it is a token. -/
def Part.writeM : Part → StateM σ Text
  | .token w => do return (← lookup w).getD w
  | .gap c => return [c]

/-- Parts written one after another. -/
def writeAll (ps : List Part) : StateM σ Text := do
  return (← ps.mapM (Part.writeM lookup)).flatten

variable {lookup}

theorem writeAll_nil (s : σ) : (writeAll lookup []).run s = ([], s) := rfl

theorem writeAll_gap (c : Char) (ps : List Part) (s : σ) :
    (writeAll lookup (.gap c :: ps)).run s =
      (c :: ((writeAll lookup ps).run s).1, ((writeAll lookup ps).run s).2) := by
  unfold writeAll
  rw [List.mapM_cons]
  rfl

theorem writeAll_token (w : Text) (ps : List Part) (s : σ) :
    (writeAll lookup (.token w :: ps)).run s =
      (((lookup w).run s).1.getD w ++ ((writeAll lookup ps).run ((lookup w).run s).2).1,
        ((writeAll lookup ps).run ((lookup w).run s).2).2) := by
  unfold writeAll
  rw [List.mapM_cons]
  rfl

/-- A lookup that records is asked for the tokens in order, and answers as it would without. -/
theorem writeAll_recording (ps : List Part) (s : σ) (asked : List Text) :
    (writeAll (recording lookup) ps).run (s, asked) =
      (((writeAll lookup ps).run s).1, ((writeAll lookup ps).run s).2,
        asked ++ ps.filterMap Part.token?) := by
  induction ps generalizing s asked with
  | nil =>
    rw [writeAll_nil, writeAll_nil, List.filterMap_nil, List.append_nil]
  | cons p ps ih =>
    cases p with
    | gap c =>
      rw [writeAll_gap, writeAll_gap, ih]
      rfl
    | token w =>
      have hask : (recording lookup w).run (s, asked) =
          (((lookup w).run s).1, ((lookup w).run s).2, asked ++ [w]) := rfl
      rw [writeAll_token, writeAll_token, hask, ih, List.append_assoc]
      rfl

/-- A lookup without a state gives what replacing gives. -/
theorem writeAll_pure (lookup : Text → Option Text) (ps : List Part) (s : σ) :
    (writeAll (fun w => pure (lookup w)) ps).run s = (ps.flatMap (Part.write lookup), s) := by
  induction ps with
  | nil => rfl
  | cons p ps ih =>
    cases p with
    | gap c =>
      rw [writeAll_gap, ih]
      rfl
    | token w =>
      have hask : (pure (lookup w) : StateM σ (Option Text)).run s = (lookup w, s) := rfl
      rw [writeAll_token, hask, ih]
      rfl

/-! ## 4. Reading on -/

theorem takeWhile_of_stops {w rest : Text} (hw : w.all Text.isIdentChar = true)
    (hrest : stops rest = true) : (w ++ rest).takeWhile Text.isIdentChar = w := by
  rw [List.takeWhile_append_of_pos (List.all_eq_true.mp hw)]
  cases rest with
  | nil => exact List.append_nil w
  | cons d rest => simp_all [stops]

theorem dropWhile_of_stops {w rest : Text} (hw : w.all Text.isIdentChar = true)
    (hrest : stops rest = true) : (w ++ rest).dropWhile Text.isIdentChar = rest := by
  rw [List.dropWhile_append_of_pos (List.all_eq_true.mp hw)]
  cases rest with
  | nil => rfl
  | cons d rest => simp_all [stops]

/-- A character between tokens is passed over. -/
theorem scan_gap {c : Char} (hc : startsToken c = false) (value : Text) (start : Nat) (rest : Text)
    (d : Draft) (s : σ) :
    scan lookup value start (c :: rest) d s = scan lookup value (start + c.utf8Size) rest d s := by
  rw [scan, hc, if_neg Bool.false_ne_true]

/-- A token is looked up, and replaced if there is an answer. -/
theorem scan_token {w : Text} (hw : isToken w = true) {rest : Text} (hrest : stops rest = true)
    (front : Text) (d : Draft) (s : σ) :
    scan lookup (front ++ (w ++ rest)) (Text.size front) (w ++ rest) d s =
      (d.put (front ++ (w ++ rest)) (Text.size front) (Text.size front + Text.size w)
        ((lookup w).run s).1).bind fun d =>
          scan lookup (front ++ (w ++ rest)) (Text.size front + Text.size w) rest d
            ((lookup w).run s).2 := by
  cases w with
  | nil => cases hw
  | cons c w =>
    obtain ⟨hc, hall⟩ := Bool.and_eq_true_iff.mp hw
    have hstop : Text.size front + c.utf8Size + Text.size w =
        Text.size front + Text.size (c :: w) := by
      rw [Text.size_cons, Nat.add_assoc]
    have hslice : Text.slice? (front ++ (c :: w ++ rest)) (Text.size front)
        (Text.size front + Text.size (c :: w)) = some (c :: w) := by
      rw [← List.append_assoc, Text.slice?_append]
    rw [List.cons_append, scan, if_pos hc, takeWhile_of_stops hall hrest,
      dropWhile_of_stops hall hrest, hstop, ← List.cons_append]
    simp only [hslice, Option.bind_eq_bind, Option.bind_some]
    rfl

/-- **Reading on writes the parts of what is read.** -/
theorem scan_spaced {ps : List Part} (h : Spaced ps) {front image : Text} {d : Draft}
    (hd : d.Covers front image) (s : σ) :
    ∃ d', scan lookup (front ++ ps.flatMap Part.text) (Text.size front) (ps.flatMap Part.text) d s =
        some (d', ((writeAll lookup ps).run s).2) ∧
      d'.Covers (front ++ ps.flatMap Part.text) (image ++ ((writeAll lookup ps).run s).1) := by
  -- on the parts that are left; what was read before them is covered by the draft
  induction h generalizing front image d s with
  | nil =>
    refine ⟨d, by rw [List.flatMap_nil, scan, writeAll_nil], ?_⟩
    rw [writeAll_nil]
    exact hd.read []
  | @gap c ps hc _ ih =>
    obtain ⟨d', hscan, hcovers⟩ := ih (hd.read [c]) s
    have hsize : Text.size (front ++ [c]) = Text.size front + c.utf8Size := by simp
    rw [List.append_assoc, hsize] at hscan
    rw [List.append_assoc, List.append_assoc] at hcovers
    rw [writeAll_gap]
    exact ⟨d', (scan_gap hc _ _ _ _ _).trans hscan, hcovers⟩
  | @token w ps hw hstops _ ih =>
    rw [List.flatMap_cons, Part.text, scan_token hw hstops, writeAll_token]
    obtain ⟨d₁, hput, hcovers₁⟩ := hd.put w (ps.flatMap Part.text) ((lookup w).run s).1
    obtain ⟨d', hscan, hcovers⟩ := ih hcovers₁ ((lookup w).run s).2
    rw [List.append_assoc, Text.size_append] at hscan
    rw [List.append_assoc, List.append_assoc] at hcovers
    rw [hput]
    exact ⟨d', hscan, hcovers⟩

/-- Splicing writes the parts of a text. -/
theorem splice_eq (value : Text) (s : σ) :
    splice lookup value s = some ((writeAll lookup (parts value)).run s) := by
  obtain ⟨d, hscan, hcovers⟩ :=
    @scan_spaced σ lookup _ (spaced_parts value) _ _ _ Draft.covers_blank s
  rw [flatMap_text_parts] at hscan hcovers
  have hscan' : scan lookup value 0 value .blank s =
      some (d, ((writeAll lookup (parts value)).run s).2) := hscan
  have hfinish : d.finish value = some ((writeAll lookup (parts value)).run s).1 := hcovers.finish
  rw [splice, hscan']
  simp only [Option.bind_eq_bind, Option.bind_some, hfinish]
  rfl

theorem splice_pure (lookup : Text → Option Text) (value : Text) (s : σ) :
    splice (fun w => pure (lookup w)) value s = some (replace lookup value, s) := by
  rw [splice_eq, writeAll_pure]
  rfl

end WriteAll

/-- **Splicing takes a text apart, looks up its tokens and puts all together.** A text falls apart in
    one way. Whatever state a lookup has, there is a result: each part written as it stands, or the
    answer in its place. The lookup is asked once for each token, from left to right, and for nothing
    else. Without a state, this is `replace`. -/
theorem splice_takes_apart (value : Text) :
    ∃ ps, (∀ qs, Spaced qs ∧ qs.flatMap Part.text = value ↔ qs = ps) ∧
      (∀ (σ : Type) (lookup : Text → StateM σ (Option Text)) (s : σ),
        splice lookup value s = some ((writeAll lookup ps).run s) ∧
        ∀ asked, splice (recording lookup) value (s, asked) =
          some (((writeAll lookup ps).run s).1, ((writeAll lookup ps).run s).2,
            asked ++ ps.filterMap Part.token?)) ∧
      ∀ (σ : Type) (lookup : Text → Option Text) (s : σ),
        splice (fun w => pure (lookup w)) value s = some (replace lookup value, s) := by
  refine ⟨parts value, fun qs => spaced_iff, fun σ lookup s => ⟨splice_eq value s, ?_⟩,
    fun σ lookup s => splice_pure lookup value s⟩
  intro asked
  rw [splice_eq, writeAll_recording]

end StyleModules.Symbol
