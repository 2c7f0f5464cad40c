import StyleModules.Proofs.RestyledSheet
import StyleModules.Proofs.ScopingSteps

/-!
Animations and where they are used.

An animation is named by an at-rule and used by declarations. The at-rule is marked as a whole, and
its name is taken from the mark; in a declaration, names are looked for among words, and marks are
looked for again when the value is scoped. Both ways lead to the same scoped name.

* `Animation.Words` is a list of words and blanks, `Animation.print` a value in which such lists
  stand between commas.
* `Animation.substitute_mark_print`: marking and scoping such a value write the names in it as the
  generator wants them, and leave the rest.
* `ScopedNames.Exported` is kept by every step of scoping.
* `ScopedNames.animations_linked`: in a sheet that was marked and scoped, all this holds of every
  at-rule and every declaration, except in import and export blocks.
  `ScopedNames.animation_left_in_unwrapped_block` is why these count as they are after marking.
-/

namespace StyleModules

namespace Animation

/-! ## 1. Values -/

/-- A word: a name without blanks. There are blanks beyond ASCII, which names may have. -/
structure IsWord (t : Text) : Prop where
  name : Selector.isName t = true
  blank : ∀ c ∈ t, Text.isBlank c = false

namespace IsWord

variable {t : Text}

theorem of_all (h : (Selector.isName t && t.all fun c => !Text.isBlank c) = true) : IsWord t := by
  obtain ⟨hname, hblank⟩ := Bool.and_eq_true_iff.mp h
  exact ⟨hname, fun c hc => by simpa using List.all_eq_true.mp hblank c hc⟩

theorem ne_nil (h : IsWord t) : t ≠ [] :=
  (Selector.isName_iff.mp h.name).1

theorem isIdentChar (h : IsWord t) {c : Char} (hc : c ∈ t) : Text.isIdentChar c = true :=
  (Selector.isName_iff.mp h.name).2 c hc

theorem trim_eq (h : IsWord t) : Text.trim t = t :=
  Text.trim_of_words (Text.words_of_forall h.ne_nil h.blank)

end IsWord

/-- Words with blanks between them. -/
inductive Words : List Part → Prop where
  | nil : Words []
  | blank {c : Char} {ps : List Part} (hc : Text.isBlank c = true) (h : Words ps) :
      Words (.separator c :: ps)
  | last {t : Text} (ht : IsWord t) : Words [.run t]
  | word {t : Text} {c : Char} {ps : List Part} (ht : IsWord t) (h : Words (.separator c :: ps)) :
      Words (.run t :: .separator c :: ps)

/-- The text of parts. -/
def text (ps : List Part) : Text :=
  ps.flatMap Part.text

/-- A value whose parts stand between commas. -/
def print (value : List (List Part)) : Text :=
  Text.join [','] (value.map text)

/-- Every name among parts written by `f`. -/
def renameAll (f : Text → Text) (ps : List Part) : List Part :=
  ps.map fun
    | .run t => .run (if isName false t then f t else t)
    | .separator c => .separator c

/-- The first name among parts written by `f`. -/
def renameFirst (f : Text → Text) : List Part → List Part
  | [] => []
  | .run t :: ps => if isName true t then .run (f t) :: ps else .run t :: renameFirst f ps
  | .separator c :: ps => .separator c :: renameFirst f ps

/-- The names among parts written by `f`: the first in the shorthand, else all. -/
def rename (f : Text → Text) (shorthand : Bool) (ps : List Part) : List Part :=
  if shorthand then renameFirst f ps else renameAll f ps

/-- The property whose values name animations. -/
def property (shorthand : Bool) : Text :=
  if shorthand then "animation".toList else "animation-name".toList

/-! ## 2. Marking a value -/

section Cutting

variable {isSeparator : Char → Bool}

/-- Characters that open nothing. -/
def OpensNothing (c : Char) : Prop :=
  Text.isQuote c = false ∧ c ≠ '(' ∧ c ≠ ')'

theorem opensNothing_of {p : Char → Bool} (hp : ['"', '\'', '(', ')'].all fun d => !p d) {c : Char}
    (h : p c = true) : OpensNothing c := by
  have hne : ∀ d ∈ ['"', '\'', '(', ')'], c ≠ d := by
    intro d hd hc
    have hd' := List.all_eq_true.mp hp d hd
    rw [← hc, h] at hd'
    cases hd'
  refine ⟨?_, hne '(' (by simp), hne ')' (by simp)⟩
  simp [Text.isQuote, hne '"' (by simp), hne '\'' (by simp)]

theorem parts_separator {c : Char} (hloose : OpensNothing c) (hc : isSeparator c = true)
    (t : Text) :
    parts isSeparator none 0 (c :: t) = .separator c :: parts isSeparator none 0 t := by
  rw [parts, hloose.1, if_neg Bool.false_ne_true, if_neg hloose.2.1, if_neg hloose.2.2, hc]
  rfl

theorem parts_attach {c : Char} (hloose : OpensNothing c) (hc : isSeparator c = false) (t : Text) :
    parts isSeparator none 0 (c :: t) = attach c (parts isSeparator none 0 t) := by
  rw [parts, hloose.1, if_neg Bool.false_ne_true, if_neg hloose.2.1, if_neg hloose.2.2, hc]
  rfl

/-- Characters without a separator make a run, if none follows that would join it. -/
theorem parts_run {t : Text} (hne : t ≠ [])
    (ht : ∀ c ∈ t, OpensNothing c ∧ isSeparator c = false) {rest : Text}
    (hrest : ∀ u ps, parts isSeparator none 0 rest ≠ .run u :: ps) :
    parts isSeparator none 0 (t ++ rest) = .run t :: parts isSeparator none 0 rest := by
  induction t with
  | nil => exact absurd rfl hne
  | cons c t ih =>
    obtain ⟨hloose, hc⟩ := ht c List.mem_cons_self
    rw [List.cons_append, parts_attach hloose hc]
    cases t with
    | nil =>
      rw [List.nil_append]
      cases hparts : parts isSeparator none 0 rest with
      | nil => rfl
      | cons p ps =>
        cases p with
        | run u => exact absurd hparts (hrest u ps)
        | separator d => rfl
    | cons d t =>
      rw [ih (List.cons_ne_nil d t) fun e he => ht e (List.mem_cons_of_mem c he)]
      rfl

end Cutting

/-- Words and blanks are found as they were written. -/
theorem Words.parts_text {ps : List Part} (h : Words ps) :
    parts Text.isBlank none 0 (text ps) = ps := by
  have hrun : ∀ {t : Text}, IsWord t → ∀ c ∈ t, OpensNothing c ∧ Text.isBlank c = false :=
    fun ht c hc => ⟨opensNothing_of rfl (ht.isIdentChar hc), ht.blank c hc⟩
  induction h with
  | nil => rfl
  | @blank c ps hc _ ih =>
    show parts Text.isBlank none 0 (c :: text ps) = _
    rw [parts_separator (opensNothing_of rfl hc) hc, ih]
  | @last t ht =>
    show parts Text.isBlank none 0 (t ++ []) = _
    rw [parts_run ht.ne_nil (hrun ht) fun _ _ => by rw [parts]; exact nofun]
    rfl
  | @word t c ps ht _ ih =>
    show parts Text.isBlank none 0 (t ++ text (.separator c :: ps)) = _
    rw [parts_run ht.ne_nil (hrun ht) fun _ _ => by rw [ih]; exact nofun, ih]

/-- The characters of words and blanks. -/
theorem Words.mem_text {ps : List Part} (h : Words ps) {c : Char} (hc : c ∈ text ps) :
    Text.isBlank c = true ∨ Text.isIdentChar c = true := by
  induction h with
  | nil => cases hc
  | blank hblank _ ih =>
    rcases List.mem_cons.mp hc with rfl | hc
    · exact .inl hblank
    · exact ih hc
  | last ht =>
    rcases List.mem_append.mp hc with hc | hc
    · exact .inr (ht.isIdentChar hc)
    · cases hc
  | word ht _ ih =>
    rcases List.mem_append.mp hc with hc | hc
    · exact .inr (ht.isIdentChar hc)
    · exact ih hc

/-- A part of a text, runs written by `f`. -/
def Part.write (f : Text → Text) : Part → Text
  | .run t => f t
  | .separator c => [c]

theorem markAll_eq (ps : List Part) :
    markAll ps = ps.flatMap (Part.write fun t => if isName false t then marked t else t) := by
  unfold markAll
  refine congrArg (ps.flatMap ·) (funext fun p => ?_)
  cases p <;> rfl

theorem mark_eq (shorthand : Bool) (value : Text) :
    mark shorthand value =
      (parts (· == ',') none 0 value).flatMap (Part.write (markPart shorthand)) := by
  unfold mark
  refine congrArg ((parts (· == ',') none 0 value).flatMap ·) (funext fun p => ?_)
  cases p <;> rfl

/-- A text is a run between commas, or it is empty and there is none. -/
theorem flatMap_parts_append {f : Text → Text} (hf : f [] = []) {t rest : Text}
    (ht : ∀ c ∈ t, OpensNothing c ∧ (c == ',') = false)
    (hrest : ∀ u ps, parts (· == ',') none 0 rest ≠ .run u :: ps) :
    (parts (· == ',') none 0 (t ++ rest)).flatMap (Part.write f) =
      f t ++ (parts (· == ',') none 0 rest).flatMap (Part.write f) := by
  cases t with
  | nil => rw [hf, List.nil_append, List.nil_append]
  | cons c t =>
    rw [parts_run (List.cons_ne_nil c t) ht hrest, List.flatMap_cons]
    rfl

/-- What stands between commas is found as it was written. -/
theorem flatMap_parts_join {f : Text → Text} (hf : f [] = []) {ts : List Text}
    (ht : ∀ t ∈ ts, ∀ c ∈ t, OpensNothing c ∧ (c == ',') = false) :
    (parts (· == ',') none 0 (Text.join [','] ts)).flatMap (Part.write f) =
      Text.join [','] (ts.map f) := by
  induction ts with
  | nil => rfl
  | cons t ts ih =>
    have ht' := List.forall_mem_cons.mp ht
    cases ts with
    | nil =>
      have hnil : ∀ u ps, parts (· == ',') none 0 [] ≠ .run u :: ps := by
        rw [parts]
        exact fun _ _ => nofun
      have hlast := flatMap_parts_append hf ht'.1 hnil
      rw [List.append_nil] at hlast
      rw [List.map_singleton, Text.join_singleton, Text.join_singleton, hlast]
      exact List.append_nil _
    | cons t' ts =>
      have hcomma : parts (· == ',') none 0 (',' :: Text.join [','] (t' :: ts)) =
          .separator ',' :: parts (· == ',') none 0 (Text.join [','] (t' :: ts)) :=
        parts_separator ⟨rfl, by decide, by decide⟩ rfl _
      have hrest : ∀ u ps,
          parts (· == ',') none 0 (',' :: Text.join [','] (t' :: ts)) ≠ .run u :: ps := by
        rw [hcomma]
        exact fun _ _ => nofun
      rw [Text.join_cons_cons, List.append_assoc, List.singleton_append,
        flatMap_parts_append hf ht'.1 hrest, hcomma, List.flatMap_cons, ih ht'.2, List.map_cons,
        List.map_cons, List.map_cons, Text.join_cons_cons, List.append_assoc]
      rfl

theorem text_renameAll (ps : List Part) : text (renameAll marked ps) = markAll ps := by
  unfold text renameAll
  rw [List.flatMap_map, markAll_eq]
  refine congrArg (ps.flatMap ·) (funext fun p => ?_)
  cases p <;> rfl

theorem text_renameFirst (ps : List Part) : text (renameFirst marked ps) = markFirst ps := by
  induction ps with
  | nil => rfl
  | cons p ps ih =>
    cases p with
    | run t =>
      rw [renameFirst, markFirst]
      split
      · rfl
      · exact congrArg (t ++ ·) ih
    | separator c => exact congrArg (c :: ·) ih

/-- Marking a part of a value marks its names. -/
theorem Words.markPart_text {ps : List Part} (h : Words ps) (shorthand : Bool) :
    markPart shorthand (text ps) = text (rename marked shorthand ps) := by
  unfold markPart rename
  rw [h.parts_text]
  cases shorthand with
  | true => exact (text_renameFirst ps).symm
  | false => exact (text_renameAll ps).symm

/-- **Marking a value marks the names of its parts.** -/
theorem mark_print {value : List (List Part)} (h : ∀ ps ∈ value, Words ps) (shorthand : Bool) :
    mark shorthand (print value) = print (value.map (rename marked shorthand)) := by
  have hchars : ∀ t ∈ value.map text, ∀ c ∈ t, OpensNothing c ∧ (c == ',') = false := by
    intro t ht c hc
    obtain ⟨ps, hps, rfl⟩ := List.mem_map.mp ht
    have hcomma : ∀ p : Char → Bool, p ',' = false → p c = true → (c == ',') = false := by
      intro p hp hpc
      rw [beq_eq_false_iff_ne]
      intro heq
      rw [heq, hp] at hpc
      cases hpc
    rcases (h ps hps).mem_text hc with hblank | hident
    · exact ⟨opensNothing_of rfl hblank, hcomma _ rfl hblank⟩
    · exact ⟨opensNothing_of rfl hident, hcomma _ rfl hident⟩
  have hempty : markPart shorthand [] = [] := by
    cases shorthand <;> rfl
  have hjoin := flatMap_parts_join hempty hchars
  unfold print
  rw [mark_eq, List.map_map]
  rw [List.map_map] at hjoin
  refine hjoin.trans (congrArg (Text.join [',']) (List.map_congr_left fun ps hps => ?_))
  exact (h ps hps).markPart_text shorthand

/-! ## 3. Scoping a marked value -/

section Substitution

variable {g : Text → Text}

/-- A marked word is written as the generator wants it. -/
theorem substitute_marked {t : Text} (ht : IsWord t) (rest : Text) :
    LocalMark.substitute g (marked t ++ rest) = g t ++ LocalMark.substitute g rest := by
  have hinside : LocalMark.inside t = [.name t] := by
    have hid : Selector.isIdentifier t = true := by
      have hnil : Selector.identifier (t ++ []) = (t, []) :=
        Selector.identifier_of_isName ht.name rfl
      rw [List.append_nil] at hnil
      rw [Selector.isIdentifier, hnil]
      simpa using ht.ne_nil
    rw [LocalMark.inside, ht.trim_eq]
    exact if_pos hid
  have hclose : LocalMark.cutClose 0 (t ++ ')' :: rest) = some (t, rest) := by
    refine LocalMark.cutClose_of_forall (fun c hc => ?_) rest
    exact (opensNothing_of rfl (ht.isIdentChar hc)).2
  have htext : marked t ++ rest = ":local(".toList ++ (t ++ ')' :: rest) := by
    unfold marked
    simp only [List.append_assoc, List.singleton_append]
  rw [htext, LocalMark.substitute,
    LocalMark.parts_of_opening (Text.isPrefixOf?_append _ _) hclose, hinside, List.flatMap_append]
  exact congrArg (· ++ LocalMark.substitute g rest) (List.append_nil (g t))

/-- A character that is no colon is copied. -/
theorem substitute_char {c : Char} (hc : c ≠ ':') (rest : Text) :
    LocalMark.substitute g (c :: rest) = c :: LocalMark.substitute g rest :=
  LocalMark.substitute_of_loose fun heq => absurd heq hc

theorem ne_colon_of_isBlank {c : Char} (h : Text.isBlank c = true) : c ≠ ':' := by
  intro hc
  rw [hc] at h
  cases h

theorem substitute_word {t : Text} (ht : IsWord t) (rest : Text) :
    LocalMark.substitute g (t ++ rest) = t ++ LocalMark.substitute g rest :=
  LocalMark.substitute_name ht.name rest

/-- A word is written as the generator wants it if it was marked, and copied if not. -/
theorem substitute_if {t : Text} (ht : IsWord t) (b : Bool) (rest : Text) :
    LocalMark.substitute g ((if b then marked t else t) ++ rest) =
      (if b then g t else t) ++ LocalMark.substitute g rest := by
  cases b with
  | true => exact substitute_marked ht rest
  | false => exact substitute_word ht rest

/-- A part that is a word or a blank. -/
def Part.Plain : Part → Prop
  | .run t => IsWord t
  | .separator c => Text.isBlank c = true

theorem Words.plain {ps : List Part} (h : Words ps) : ∀ p ∈ ps, p.Plain := by
  induction h with
  | nil => exact fun p hp => by cases hp
  | blank hc _ ih => exact List.forall_mem_cons.mpr ⟨hc, ih⟩
  | last ht => exact List.forall_mem_cons.mpr ⟨ht, fun p hp => by cases hp⟩
  | word ht _ ih => exact List.forall_mem_cons.mpr ⟨ht, ih⟩

theorem text_cons (p : Part) (ps : List Part) (rest : Text) :
    text (p :: ps) ++ rest = p.text ++ (text ps ++ rest) :=
  List.append_assoc _ _ _

theorem substitute_text {ps : List Part} (h : ∀ p ∈ ps, p.Plain) (rest : Text) :
    LocalMark.substitute g (text ps ++ rest) = text ps ++ LocalMark.substitute g rest := by
  induction ps with
  | nil => rfl
  | cons p ps ih =>
    obtain ⟨hp, hps⟩ := List.forall_mem_cons.mp h
    rw [text_cons, text_cons, ← ih hps]
    cases p with
    | run t => exact substitute_word hp _
    | separator c => exact substitute_char (ne_colon_of_isBlank hp) _

theorem substitute_renameAll {ps : List Part} (h : ∀ p ∈ ps, p.Plain) (rest : Text) :
    LocalMark.substitute g (text (renameAll marked ps) ++ rest) =
      text (renameAll g ps) ++ LocalMark.substitute g rest := by
  induction ps with
  | nil => rfl
  | cons p ps ih =>
    obtain ⟨hp, hps⟩ := List.forall_mem_cons.mp h
    rw [renameAll, renameAll, List.map_cons, List.map_cons, text_cons, text_cons]
    refine Eq.trans ?_ (congrArg (_ ++ ·) (ih hps))
    cases p with
    | run t => exact substitute_if hp _ _
    | separator c => exact substitute_char (ne_colon_of_isBlank hp) _

theorem substitute_renameFirst {ps : List Part} (h : ∀ p ∈ ps, p.Plain) (rest : Text) :
    LocalMark.substitute g (text (renameFirst marked ps) ++ rest) =
      text (renameFirst g ps) ++ LocalMark.substitute g rest := by
  induction ps with
  | nil => rfl
  | cons p ps ih =>
    obtain ⟨hp, hps⟩ := List.forall_mem_cons.mp h
    cases p with
    | run t =>
      rw [renameFirst, renameFirst]
      split
      · rw [text_cons, text_cons, ← substitute_text hps]
        exact substitute_marked hp _
      · rw [text_cons, text_cons, ← ih hps]
        exact substitute_word hp _
    | separator c =>
      rw [renameFirst, renameFirst, text_cons, text_cons, ← ih hps]
      exact substitute_char (ne_colon_of_isBlank hp) _

theorem substitute_rename {ps : List Part} (h : ∀ p ∈ ps, p.Plain) (shorthand : Bool)
    (rest : Text) :
    LocalMark.substitute g (text (rename marked shorthand ps) ++ rest) =
      text (rename g shorthand ps) ++ LocalMark.substitute g rest := by
  cases shorthand with
  | true => exact substitute_renameFirst h rest
  | false => exact substitute_renameAll h rest

/-- **Marking and scoping a value** write its names as the generator wants them, and leave the rest
    of it. -/
theorem substitute_mark_print {value : List (List Part)} (h : ∀ ps ∈ value, Words ps)
    (shorthand : Bool) :
    LocalMark.substitute g (mark shorthand (print value)) =
      print (value.map (rename g shorthand)) := by
  rw [mark_print h]
  induction value with
  | nil => exact LocalMark.substitute_nil
  | cons ps value ih =>
    obtain ⟨hps, hvalue⟩ := List.forall_mem_cons.mp h
    cases value with
    | nil =>
      have hlast := substitute_rename (g := g) hps.plain shorthand []
      rw [List.append_nil, LocalMark.substitute_nil, List.append_nil] at hlast
      simpa only [print, List.map_cons, List.map_nil, Text.join_singleton] using hlast
    | cons ps' value =>
      have hrest := ih hvalue
      simp only [print, List.map_cons, Text.join_cons_cons, List.append_assoc,
        List.singleton_append] at hrest ⊢
      rw [substitute_rename hps.plain, substitute_char (by decide), hrest]

end Substitution

/-! ## 4. The name of an animation -/

section Keyframes

variable {k : Text}

theorem isWord_of_isName (hk : isName true k = true) (hblank : ∀ c ∈ k, Text.isBlank c = false) :
    IsWord k := by
  simp only [isName, Bool.and_eq_true, Bool.not_eq_true', List.isEmpty_eq_false_iff,
    List.all_eq_true] at hk
  exact ⟨Selector.isName_iff.mpr ⟨hk.1.1.1.1, hk.1.1.2⟩, hblank⟩

/-- No word begins with a colon. -/
theorem isPrefixOf_of_isWord (hk : IsWord k) (pattern : Text) :
    (':' :: pattern).isPrefixOf? k = none ∧ (':' :: pattern).isPrefixOf k = false := by
  cases k with
  | nil => exact absurd rfl hk.ne_nil
  | cons c k =>
    have hc : ':' ≠ c := by
      intro heq
      have hident := hk.isIdentChar List.mem_cons_self
      rw [← heq] at hident
      cases hident
    constructor
    · rw [Text.isPrefixOf?_cons, beq_false_of_ne hc]
      rfl
    · rw [List.isPrefixOf_cons_cons, beq_false_of_ne hc]
      rfl

theorem markKeyframes_of_isWord (hk : IsWord k) {params : Text} (h : Text.trim params = k) :
    markKeyframes params = marked k := by
  have hglobal : ":global(".toList.isPrefixOf? k = none := (isPrefixOf_of_isWord hk _).1
  have hlocal : ":local(".toList.isPrefixOf k = false := (isPrefixOf_of_isWord hk _).2
  have hempty : k.isEmpty = false := List.isEmpty_eq_false_iff.mpr hk.ne_nil
  unfold markKeyframes
  simp only [h, hglobal, Option.bind_none, hempty, hlocal]
  rfl

theorem argument?_marked (hk : IsWord k) :
    ScopedNames.scopeKeyframes.argument? (Text.trim (marked k)) = some k := by
  have htrim : Text.trim (marked k) = ":local(".toList ++ (k ++ ")".toList) := by
    show Text.trim (':' :: ("local(".toList ++ k ++ [')'])) = _
    rw [Text.trim_cons rfl, Text.trimEnd_concat rfl, List.append_assoc]
    rfl
  rw [htrim, ScopedNames.scopeKeyframes.argument?, Text.isPrefixOf?_append, Option.bind_some,
    Text.isSuffixOf?_append]
  simp only [hk.trim_eq, List.isEmpty_eq_false_iff.mpr hk.ne_nil]
  rfl

end Keyframes

end Animation

/-- The name that an at-rule gives to an animation. -/
structure AtHead.Names (h : AtHead) (k : Text) : Prop where
  keyframes : AtHead.isKeyframes h.name = true
  params : Text.trim h.params = k
  name : Animation.isName true k = true
  blank : ∀ c ∈ k, Text.isBlank c = false

theorem AtHead.Names.isWord {h : AtHead} {k : Text} (hk : h.Names k) : Animation.IsWord k :=
  Animation.isWord_of_isName hk.name hk.blank

namespace ScopedNames

variable {g : Text → Text} {ctx : Context} {s s₁ : ScopedNames}

/-- Marking and scoping an at-rule give its animation the name that the generator wants. -/
theorem scopeKeyframes_of_names {h : AtHead} {k : Text} (hk : h.Names k) (rule : Text) :
    scopeKeyframes ctx rule (LocalNames.atHead h) s =
      .ok { h with params := ctx.generate k rule } (enter ctx rule s k) := by
  have hhead : LocalNames.atHead h = { h with params := Animation.marked k } := by
    rw [LocalNames.atHead, if_pos hk.keyframes,
      Animation.markKeyframes_of_isWord hk.isWord hk.params]
  rw [hhead, scopeKeyframes, if_pos hk.keyframes]
  simp only [Animation.argument?_marked hk.isWord]
  rfl

/-! ## 5. Exports -/

/-- Whether a local name is exported with its scoped name. -/
def Exported (g : Text → Text) (s : ScopedNames) (k : Text) : Prop :=
  ∃ list, s.exports.get? k = some list ∧ g k ∈ list

theorem exported_upsert {k name : Text} {f : Option (List Text) → List Text}
    (hf : ∀ list, ∀ x ∈ list, x ∈ f (some list)) (h : Exported g s k) (calls : List (Text × Text)) :
    Exported g ⟨s.exports.upsert name f, calls⟩ k := by
  obtain ⟨list, hlist, hmem⟩ := h
  unfold Exported
  rw [Table.get?_upsert]
  split
  · next heq =>
    rw [← heq, hlist]
    exact ⟨_, rfl, hf list _ hmem⟩
  · exact ⟨list, hlist, hmem⟩

/-- **No step takes a name out of the exports.** -/
theorem Takes.exported {step : Step} (h : Takes ctx s step s₁) {k : Text} (hk : Exported g s k) :
    Exported g s₁ k := by
  cases h with
  | enter name rule =>
    refine exported_upsert (fun list x hx => ?_) hk _
    rw [addName, Option.getD_some]
    split
    · exact hx
    · exact List.mem_append_left _ hx
  | compose hlist =>
    refine exported_upsert (fun list x hx => ?_) hk _
    rw [Option.getD_some]
    exact List.mem_append_left _ hx

theorem Run.exported {steps : List Step} (h : Run ctx s steps s₁) {k : Text}
    (hk : Exported g s k) : Exported g s₁ k := by
  induction h with
  | nil s => exact hk
  | cons hstep _ ih => exact ih (hstep.exported hk)

/-- A name that is entered is exported. -/
theorem exported_enter (hctx : ∀ name rule, ctx.generate name rule = g name) (rule k : Text)
    (s : ScopedNames) : Exported g (enter ctx rule s k) k := by
  refine ⟨_, (Table.get?_upsert _ _ _ _).trans (if_pos rfl), ?_⟩
  rw [hctx, addName]
  split
  · next hmem => exact List.contains_iff_mem.mp hmem
  · exact List.mem_append_right _ List.mem_cons_self

end ScopedNames

/-! ## 6. Sheets -/

/-- What becomes of an at-rule that names an animation: it gets the scoped name, and the name is
    exported. -/
def AtHead.Linked (g : Text → Text) (exported : Text → Prop) (h h' : AtHead) : Prop :=
  ∀ k, h.Names k → h' = { h with params := g k } ∧ exported k

/-- What becomes of the value of a declaration that uses animations. -/
def Decl.Linked (g : Text → Text) (d : Decl) (value : Text) : Prop :=
  ∀ shorthand, Text.lower d.prop = Animation.property shorthand →
    ∀ parts, (∀ ps ∈ parts, Animation.Words ps) → d.value = Animation.print parts →
      value = Animation.print (parts.map (Animation.rename g shorthand))

mutual

/-- What becomes of a node that stands in at-rules of the given names: all animations in it are
    linked, but for import and export blocks. -/
def Node.Linked (g : Text → Text) (exported : Text → Prop) (around : List Text) :
    Node → Node → Prop
  | .rule sel l b ns, n' => ∃ sel' ns', n' = .rule sel' l b ns' ∧
    (Interface.isInterface (LocalNames.selector around sel) = false →
      LinkedAll g exported around true ns ns')
  | .atBlock h l b ns, n' => ∃ h' ns', n' = .atBlock h' l b ns' ∧ h.Linked g exported h' ∧
    LinkedAll g exported (around ++ [h.name]) false ns ns'
  | .atStatement h l, n' => ∃ h', n' = .atStatement h' l ∧ h.Linked g exported h'
  | .decl d l, n' => ∃ value, n' = .decl { d with value } l ∧ d.Linked g value
  | .comment t l, n' => n' = .comment t l

/-- What becomes of the nodes of a block: as many, in the same order, but for the compositions in a
    rule. -/
def LinkedAll (g : Text → Text) (exported : Text → Prop) (around : List Text) (inRule : Bool) :
    List Node → List Node → Prop
  | [], ns' => ns' = []
  | n :: ns, ns' =>
    if inRule && ScopedNames.isCompositionNode n then LinkedAll g exported around inRule ns ns'
    else ∃ m ms, ns' = m :: ms ∧ n.Linked g exported around m ∧
      LinkedAll g exported around inRule ns ms

end

namespace ScopedNames

section Sheets

variable {g : Text → Text} {ctx : Context}

theorem linked_head (hctx : ∀ name rule, ctx.generate name rule = g name) {P : Text → Prop}
    {rule : Text} {h h' : AtHead} {s s₁ : ScopedNames}
    (hscope : scopeKeyframes ctx rule (LocalNames.atHead h) s = .ok h' s₁)
    (hP : ∀ k, Exported g s₁ k → P k) : h.Linked g P h' := by
  intro k hk
  rw [scopeKeyframes_of_names hk] at hscope
  cases hscope
  refine ⟨?_, hP k (exported_enter hctx rule k s)⟩
  rw [hctx]

theorem linked_decl (d : Decl) :
    d.Linked g (LocalMark.substitute g (LocalNames.decl d).value) := by
  intro shorthand hprop parts hparts hvalue
  rw [← Animation.substitute_mark_print hparts, ← hvalue]
  cases shorthand with
  | true =>
    have hanimation : Text.lower d.prop = "animation".toList := hprop
    simp only [LocalNames.decl, if_pos hanimation]
  | false =>
    have hlist : Text.lower d.prop = "animation-name".toList := hprop
    have hnot : Text.lower d.prop ≠ "animation".toList := by
      rw [hlist]
      decide
    simp only [LocalNames.decl, if_neg hnot, if_pos hlist]

mutual

/-- In a node that was marked and scoped, animations are linked. What is exported by then is known
    by `P`, which looks at the end of the sheet: nothing is taken out of the exports. -/
theorem scopeNode_linked (hctx : ∀ name rule, ctx.generate name rule = g name) {P : Text → Prop}
    (rule : Text) (around : List Text) (n : Node) {n' : Node} {s s₁ : ScopedNames}
    (h : scopeNode ctx rule (n.marked around) s = .ok n' s₁) (hP : ∀ k, Exported g s₁ k → P k) :
    n.Linked g P around n' := by
  match n with
  | .rule sel l b ns =>
    by_cases hblock : Interface.isImport (LocalNames.selector around sel) ||
        Interface.isExport (LocalNames.selector around sel)
    · obtain ⟨rfl, -⟩ := of_scopeNode_block hblock h
      refine ⟨_, _, rfl, fun hplain => ?_⟩
      rw [Interface.isInterface, hblock] at hplain
      cases hplain
    · obtain ⟨s', ns', -, hns, rfl⟩ := of_scopeNode_rule hblock h
      exact ⟨_, _, rfl, fun _ => scopeNodes_linked hctx _ around true ns hns hP⟩
  | .atBlock head l b ns =>
    obtain ⟨head', s', ns', hhead, hns, rfl⟩ := of_scopeNode_atBlock h
    have hkeep : ∀ k, Exported g s' k → P k :=
      fun k hk => hP k ((scopeNodes_run _ _ _ hns).exported hk)
    exact ⟨_, _, rfl, linked_head hctx hhead hkeep,
      scopeNodes_linked hctx _ (around ++ [head.name]) false ns hns hP⟩
  | .atStatement head l =>
    obtain ⟨head', hhead, rfl⟩ := of_scopeNode_atStatement h
    exact ⟨_, rfl, linked_head hctx hhead hP⟩
  | .decl d l =>
    obtain ⟨rfl, -⟩ := of_scopeNode_decl h
    have hgenerate : (fun name => ctx.generate name rule) = g := funext fun name => hctx name rule
    obtain ⟨value, hdecl, -⟩ := LocalNames.decl_eq d
    refine ⟨_, ?_, linked_decl d⟩
    rw [hgenerate, hdecl]
  | .comment t l =>
    cases h
    rfl

/-- **In a block that was marked and scoped, animations are linked.** -/
theorem scopeNodes_linked (hctx : ∀ name rule, ctx.generate name rule = g name) {P : Text → Prop}
    (rule : Text) (around : List Text) (inRule : Bool) (ns : List Node) {ns' : List Node}
    {s s₁ : ScopedNames} (h : scopeNodes ctx rule inRule (markedAll around ns) s = .ok ns' s₁)
    (hP : ∀ k, Exported g s₁ k → P k) : LinkedAll g P around inRule ns ns' := by
  match ns with
  | [] =>
    cases h
    rfl
  | n :: ns =>
    have hmarked : scopeNodes ctx rule inRule (n.marked around :: markedAll around ns) s =
        .ok ns' s₁ := h
    unfold LinkedAll
    rcases of_scopeNodes_cons hmarked with ⟨hskip, hns⟩ | ⟨hskip, m, s', ms, hn, hns, rfl⟩
    · rw [isCompositionNode_marked] at hskip
      rw [if_pos hskip]
      exact scopeNodes_linked hctx rule around inRule ns hns hP
    · rw [isCompositionNode_marked] at hskip
      rw [hskip, if_neg Bool.false_ne_true]
      have hkeep : ∀ k, Exported g s' k → P k :=
        fun k hk => hP k ((scopeNodes_run _ _ _ hns).exported hk)
      exact ⟨m, ms, rfl, scopeNode_linked hctx rule around n hn hkeep,
        scopeNodes_linked hctx rule around inRule ns hns hP⟩

end

end Sheets

/-- **Animations and where they are used stay linked.** Of a sheet that is marked, and then scoped
    by a generator that looks at names only:
    * an at-rule that names an animation has the scoped name of it, which is declared for the name in
      the export block behind the nodes,
    * in an `animation-name` every name is scoped, in each part of an `animation` the first one, and
      all else in these values stays as it is,

    except in import and export blocks, as they are after marking. -/
theorem animations_linked {g : Text → Text} {sheet full : Stylesheet}
    (h : run (fun name _ => g name) (LocalNames.run sheet) = .ok full) :
    ∃ (nodes behind : List Node) (lists : Table (List Text)),
      full = (if lists.isEmpty then { sheet with nodes }
        else { sheet with nodes }.append (exportBlock lists)) ∧
      full = { sheet with nodes := nodes ++ behind } ∧ ExportsLists lists.entries behind ∧
      LinkedAll g (fun k => ∃ list, (k, list) ∈ lists.entries ∧ g k ∈ list ∧ Declares behind k list)
        [] false sheet.nodes nodes := by
  obtain ⟨nodes, s, hnodes, hfull⟩ := run_ok h
  obtain ⟨behind, hbelow, hbehind⟩ := exists_exportsLists { sheet with nodes } s.exports
  refine ⟨nodes, behind, s.exports, hfull, hfull.trans hbelow, hbehind,
    scopeNodes_linked (fun _ _ => rfl) _ [] false sheet.nodes hnodes fun k hk => ?_⟩
  obtain ⟨list, hlist, hmem⟩ := hk
  have hentry := Table.mem_of_findEntry hlist
  exact ⟨list, hentry, hmem, hbehind.declares hentry⟩

/-- A page with an animation that is used in its own steps and in a rule. -/
def animatedPage : Stylesheet where
  nodes := [
    .atBlock ⟨"-webkit-keyframes".toList, " ".toList, "k".toList⟩ ⟨[], [], [], none⟩ false
      [.ofRule "from".toList [.ofDecl "animation-name".toList "none , k".toList]],
    .ofRule ".a".toList [.ofDecl "Animation".toList "1s k j,ease j".toList]]
  after := []
  semicolon := false
  input := []

theorem animations_linked_page :
    ∃ full, run (fun name _ => '_' :: name) (LocalNames.run animatedPage) = .ok full ∧
      ((full.nodes.drop 2).flatMap fun n => Interface.pairs n.children) =
        [("k".toList, "_k".toList), ("a".toList, "_a".toList), ("j".toList, "_j".toList)] ∧
      ∃ (sel : Text) (steps behind : List Node) (lists : Table (List Text)),
        let nodes := [
          .atBlock ⟨"-webkit-keyframes".toList, " ".toList, "_k".toList⟩ ⟨[], [], [], none⟩ false
            steps,
          .ofRule sel [.ofDecl "Animation".toList "1s _k j,ease _j".toList]]
        full = (if lists.isEmpty then { animatedPage with nodes }
          else { animatedPage with nodes }.append (exportBlock lists)) ∧
        full = { animatedPage with nodes := nodes ++ behind } ∧
        ∃ list, ("k".toList, list) ∈ lists.entries ∧ "_k".toList ∈ list ∧
          Declares behind "k".toList list := by
  obtain ⟨full, hrun, hpairs⟩ := exists_ok_of_map
    (x := run (fun name _ => '_' :: name) (LocalNames.run animatedPage))
    (f := fun full => (full.nodes.drop 2).flatMap fun n => Interface.pairs n.children)
    (b := [("k".toList, "_k".toList), ("a".toList, "_a".toList), ("j".toList, "_j".toList)])
    (by decide +kernel)
  obtain ⟨nodes, behind, lists, hfull, hbelow, -, hlinked⟩ := animations_linked hrun
  obtain ⟨_, _, rfl, ⟨head, steps, rfl, hhead, -⟩, _, _, rfl, ⟨sel, block, rfl, hblock⟩, rfl⟩ :=
    hlinked
  obtain ⟨rfl, hexported⟩ := hhead "k".toList ⟨rfl, rfl, rfl, by simp; decide⟩
  obtain ⟨_, _, rfl, ⟨value, rfl, hvalue⟩, rfl⟩ := hblock (by decide +kernel)
  have hparts : ∀ ps ∈ [
      [.run "1s".toList, .separator ' ', .run "k".toList, .separator ' ', .run "j".toList],
      [.run "ease".toList, .separator ' ', .run "j".toList]], Animation.Words ps := by
    simp only [List.forall_mem_cons]
    have hlast : Animation.Words [.separator ' ', .run "j".toList] :=
      .blank rfl (.last (.of_all rfl))
    exact ⟨.word (.of_all rfl) (.blank rfl (.word (.of_all rfl) hlast)),
      .word (.of_all rfl) hlast, nofun⟩
  obtain rfl := hvalue true rfl _ hparts rfl
  exact ⟨full, hrun, hpairs, sel, steps, behind, lists, hfull, hbelow, hexported⟩

/-- A rule that is an export block only when it is marked is left alone after that, with the mark
    in it. -/
theorem animation_left_in_unwrapped_block :
    Interface.isInterface ":global(:export)".toList = false ∧
    let css := "@keyframes k\x7b\x7d:global(:export)\x7banimation:k\x7d".toList
    let linked := "@keyframes _k\x7b\x7d:export\x7banimation::local(k)\x7d".toList
    ((Stylesheet.parse css).toOption.bind fun sheet =>
      (run (fun name _ => '_' :: name) (LocalNames.run sheet)).toOption.map Stylesheet.print) =
    some (linked ++ ":export \x7b\n  k: _k;\n\x7d".toList) := by
  decide +kernel

end ScopedNames

end StyleModules
