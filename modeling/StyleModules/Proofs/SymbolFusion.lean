import StyleModules.Symbol

/-!
Symbols of a text that was put together, and one replacement after another.

* `Symbol.Spaced` says which parts a text can fall apart into. Behind a token stands nothing that
  would go on with it, so a text that ends in front of no name character can be taken apart by
  itself (`Symbol.parts_append`).
* `Symbol.replace_replace`: if the names that are replaced first are plain words, then what is put
  in their place grows together with nothing around it. Two replacements in a row are then one,
  which puts in the place of each name the text for it with the second replacement carried out.
-/

namespace StyleModules.Symbol

/-! ## 1. Tokens and their surroundings -/

/-- Whether a text is a token. -/
def isToken : Text → Bool
  | [] => false
  | c :: t => startsToken c && t.all Text.isIdentChar

/-- Whether a text can stand behind a token and leave it as it is. -/
def stops : Text → Bool
  | [] => true
  | c :: _ => !Text.isIdentChar c

/-- Parts that a text can fall apart into. -/
inductive Spaced : List Part → Prop
  | nil : Spaced []
  | gap {c : Char} {ps : List Part} (hc : startsToken c = false) (hps : Spaced ps) :
      Spaced (.gap c :: ps)
  | token {w : Text} {ps : List Part} (hw : isToken w = true)
      (hstops : stops (ps.flatMap Part.text) = true) (hps : Spaced ps) : Spaced (.token w :: ps)

theorem startsToken_of_isIdentChar {c : Char} (h : Text.isIdentChar c = true) :
    startsToken c = true := by
  rw [startsToken, h]
  rfl

theorem stops_cons_of_startsToken {c : Char} (h : startsToken c = false) (t : Text) :
    stops (c :: t) = true := by
  obtain ⟨hc, _⟩ := Bool.or_eq_false_iff.mp h
  rw [stops, hc]
  rfl

theorem attach_of_gap {c : Char} (h : startsToken c = false) (ps : List Part) :
    attach c ps = .gap c :: ps := by
  unfold attach
  rw [h]
  rfl

/-- A character in front of what does not go on with it is a part of its own. -/
theorem attach_of_stops (c : Char) {ps : List Part} (h : stops (ps.flatMap Part.text) = true) :
    attach c ps = (if startsToken c then .token [c] else .gap c) :: ps := by
  unfold attach
  split
  · split
    · next d t qs =>
      have hd : Text.isIdentChar d = false := by simpa [stops, Part.text] using h
      simp [hd]
    · rfl
  · rfl

theorem Spaced.attach {ps : List Part} (h : Spaced ps) (c : Char) : Spaced (attach c ps) := by
  by_cases hc : startsToken c = true
  · have hsingle : isToken [c] = true := by simp [isToken, hc]
    -- a token that goes on with a name character takes the new one in
    cases h with
    | nil =>
      rw [attach_of_stops c rfl, if_pos hc]
      exact .token hsingle rfl .nil
    | @gap d ps hd hps =>
      have hstops : stops ((Part.gap d :: ps).flatMap Part.text) = true :=
        stops_cons_of_startsToken hd _
      rw [attach_of_stops c hstops, if_pos hc]
      exact .token hsingle hstops (.gap hd hps)
    | @token w ps hw hstops hps =>
      cases w with
      | nil => cases hw
      | cons d w =>
        by_cases hd : Text.isIdentChar d = true
        · rw [Symbol.attach, if_pos hc]
          simp only [hd, if_true]
          obtain ⟨_, hrest⟩ := Bool.and_eq_true_iff.mp hw
          exact .token (by simp only [isToken, hc, List.all_cons, hd, hrest, Bool.and_self])
            hstops hps
        · have hfirst : stops ((Part.token (d :: w) :: ps).flatMap Part.text) = true := by
            simp [stops, Part.text, hd]
          rw [attach_of_stops c hfirst, if_pos hc]
          exact .token hsingle hfirst (.token hw hstops hps)
  · have hgap := Bool.eq_false_iff.mpr hc
    rw [attach_of_gap hgap]
    exact .gap hgap h

theorem spaced_parts (t : Text) : Spaced (parts t) := by
  induction t with
  | nil => exact .nil
  | cons c t ih => exact ih.attach c

/-! ## 2. Taking a text apart piece by piece -/

theorem parts_cons_of_gap {c : Char} (h : startsToken c = false) (t : Text) :
    parts (c :: t) = .gap c :: parts t :=
  attach_of_gap h (parts t)

/-- A token falls apart into itself. -/
theorem parts_of_isToken {w : Text} (h : isToken w = true) : parts w = [.token w] := by
  induction w with
  | nil => cases h
  | cons c w ih =>
    obtain ⟨hc, hw⟩ := Bool.and_eq_true_iff.mp h
    show attach c (parts w) = _
    cases w with
    | nil => rw [attach_of_stops c rfl, if_pos hc]; rfl
    | cons d w =>
      obtain ⟨hd, hrest⟩ := Bool.and_eq_true_iff.mp hw
      have htoken : isToken (d :: w) = true :=
        Bool.and_eq_true_iff.mpr ⟨startsToken_of_isIdentChar hd, hrest⟩
      rw [ih htoken, attach, if_pos hc]
      simp only [hd, if_true]

/-- **A text falls apart in front of a character that goes on with no token.** -/
theorem parts_append (u : Text) {v : Text} (h : stops v = true) :
    parts (u ++ v) = parts u ++ parts v := by
  have hv : stops ((parts v).flatMap Part.text) = true := by rwa [flatMap_text_parts]
  induction u with
  | nil => rfl
  | cons c u ih =>
    show attach c (parts (u ++ v)) = attach c (parts u) ++ parts v
    rw [ih]
    cases parts u with
    | nil =>
      rw [List.nil_append, attach_of_stops c hv, attach_of_stops c rfl]
      rfl
    | cons p ps =>
      unfold attach
      by_cases hc : startsToken c = true
      · rw [if_pos hc, if_pos hc]
        match p with
        | .gap d => rfl
        | .token [] => rfl
        | .token (d :: w) =>
          by_cases hd : Text.isIdentChar d = true
          · simp [hd]
          · simp [hd]
      · rw [if_neg hc, if_neg hc]
        rfl

section Replace

variable {lookup : Text → Option Text}

theorem replace_cons_of_gap {c : Char} (h : startsToken c = false) (t : Text) :
    replace lookup (c :: t) = c :: replace lookup t := by
  rw [replace, parts_cons_of_gap h]
  rfl

theorem replace_of_isToken {w : Text} (h : isToken w = true) :
    replace lookup w = (lookup w).getD w := by
  rw [replace, parts_of_isToken h, List.flatMap_singleton]
  rfl

theorem replace_append (u : Text) {v : Text} (h : stops v = true) :
    replace lookup (u ++ v) = replace lookup u ++ replace lookup v := by
  rw [replace, parts_append u h, List.flatMap_append]
  rfl

/-- The two sides of a character that belongs to no token are replaced each by itself. -/
theorem replace_append_gap (u : Text) {c : Char} (h : startsToken c = false) (v : Text) :
    replace lookup (u ++ c :: v) = replace lookup u ++ c :: replace lookup v := by
  rw [replace_append u (stops_cons_of_startsToken h v), replace_cons_of_gap h]

end Replace

/-! ## 3. One replacement after another -/

section Fusion

variable {first second : Text → Option Text}

/-- If only plain words are replaced, then what stands behind a token still leaves it alone. -/
theorem Spaced.stops_write (hwords : ∀ w, (first w).isSome → w.all Text.isIdentChar = true)
    {ps : List Part} (h : Spaced ps) (hstops : stops (ps.flatMap Part.text) = true) :
    stops (ps.flatMap (Part.write first)) = true := by
  cases h with
  | nil => rfl
  | gap hc hps => exact stops_cons_of_startsToken hc _
  | @token w ps hw _ hps =>
    cases w with
    | nil => cases hw
    | cons d w =>
      have hd : Text.isIdentChar d = false := by simpa [stops, Part.text] using hstops
      -- the token has a `$` in front, and no plain word has
      have hnone : first (d :: w) = none := by
        cases hfirst : first (d :: w) with
        | none => rfl
        | some text =>
          have hall := hwords (d :: w) (by rw [hfirst]; rfl)
          rw [List.all_cons, hd] at hall
          cases hall
      simp [stops, Part.write, hnone, hd]

theorem Spaced.replace_write (hwords : ∀ w, (first w).isSome → w.all Text.isIdentChar = true)
    {ps : List Part} (h : Spaced ps)
    (hfree : ∀ w, .token w ∈ ps → first w = none → second w = none) :
    replace second (ps.flatMap (Part.write first)) =
      ps.flatMap (Part.write fun w => (first w).map (replace second)) := by
  induction h with
  | nil => rfl
  | @gap c ps hc _ ih =>
    have hrest := ih fun w hw => hfree w (List.mem_cons_of_mem _ hw)
    rw [List.flatMap_cons, List.flatMap_cons, ← hrest]
    exact replace_cons_of_gap hc _
  | @token w ps hw hstops hps ih =>
    have hrest := ih fun w' hw' => hfree w' (List.mem_cons_of_mem _ hw')
    have hword : replace second (Part.write first (.token w)) =
        Part.write (fun w => (first w).map (replace second)) (.token w) := by
      simp only [Part.write]
      cases hfirst : first w with
      | some text => rfl
      | none =>
        have hsecond := hfree w List.mem_cons_self hfirst
        rw [Option.getD_none, replace_of_isToken hw, hsecond]
        rfl
    rw [List.flatMap_cons, List.flatMap_cons, replace_append _ (hps.stops_write hwords hstops),
      hword, hrest]

theorem mem_tokens_iff {w t : Text} : w ∈ tokens t ↔ .token w ∈ parts t := by
  unfold tokens
  rw [List.mem_filterMap]
  constructor
  · rintro ⟨p, hp, hw⟩
    cases p with
    | token v =>
      cases hw
      exact hp
    | gap c => cases hw
  · exact fun h => ⟨.token w, h, rfl⟩

/-- **Two replacements in a row are one**, if only plain words are replaced first, and nothing is
    replaced in the second place that was passed over in the first. -/
theorem replace_replace (hwords : ∀ w, (first w).isSome → w.all Text.isIdentChar = true) {t : Text}
    (hfree : ∀ w ∈ tokens t, first w = none → second w = none) :
    replace second (replace first t) = replace (fun w => (first w).map (replace second)) t :=
  (spaced_parts t).replace_write hwords fun w hw => hfree w (mem_tokens_iff.mpr hw)

/-- With another name than a plain word, what is put in its place may grow together with what stands
    in front. -/
example : replace (fun w => if w = "xb".toList then some "y".toList else none)
    (replace (fun w => if w = "$a".toList then some "b".toList else none) "x$a".toList) =
      "y".toList := by
  decide +kernel

end Fusion

end StyleModules.Symbol
