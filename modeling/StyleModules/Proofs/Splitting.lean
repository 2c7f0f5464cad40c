import StyleModules.Text.Basic

/-!
Texts in pieces: splitting at the characters of a class, and joining with one of them.

Everything follows from `splitBy_append_cons`: a separator splits a text into the pieces in front of
it and those behind it. Joining with a separator therefore puts the pieces of the parts one after
the other (`splitBy_join`), and `fields` are what is left of the pieces without the empty ones. The
other sections are about what is cut off at the ends of a text, patterns and the characters of a
class, and about words, which are the fields between blanks.
-/

namespace StyleModules.Text

/-! ## 1. Pieces -/

/-- There is always a piece, though it may be empty. -/
theorem splitBy_ne_nil (p : Char → Bool) : ∀ t : Text, splitBy p t ≠ []
  | [] => by simp [splitBy]
  | c :: t => by
    unfold splitBy
    split
    · simp
    · split
      · simp
      · simp

/-- A separator splits a text into the pieces in front of it and those behind it. -/
theorem splitBy_append_cons {p : Char → Bool} {c : Char} (hc : p c = true) (t : Text) :
    ∀ s : Text, splitBy p (s ++ c :: t) = splitBy p s ++ splitBy p t
  | [] => by simp [splitBy, hc]
  | d :: s => by
    have ih := splitBy_append_cons hc t s
    rw [List.cons_append, splitBy, splitBy]
    split
    · rw [ih, List.cons_append]
    · rw [ih]
      cases hs : splitBy p s with
      | nil => exact absurd hs (splitBy_ne_nil p s)
      | cons w ws => rfl

/-- A text without separators is one piece. -/
theorem splitBy_of_forall {p : Char → Bool} : ∀ {t : Text}, (∀ c ∈ t, p c = false) →
    splitBy p t = [t]
  | [], _ => rfl
  | c :: t, h => by
    have ih := splitBy_of_forall fun d hd => h d (List.mem_cons_of_mem c hd)
    rw [splitBy, h c List.mem_cons_self, ih]
    rfl

/-- No piece holds a separator. -/
theorem of_mem_splitBy {p : Char → Bool} : ∀ {t piece : Text}, piece ∈ splitBy p t →
    ∀ c ∈ piece, p c = false
  | [], piece, h => by
    obtain rfl := List.mem_singleton.mp h
    simp
  | c :: t, piece, h => by
    rw [splitBy] at h
    split at h
    · rcases List.mem_cons.mp h with rfl | h
      · simp
      · exact of_mem_splitBy h
    · next hc =>
      have hpc : p c = false := by simpa using hc
      cases hs : splitBy p t with
      | nil => exact absurd hs (splitBy_ne_nil p t)
      | cons w ws =>
        have hw : ∀ d ∈ w, p d = false := of_mem_splitBy (hs ▸ List.mem_cons_self)
        rw [hs] at h
        rcases List.mem_cons.mp h with rfl | h
        · intro d hd
          rcases List.mem_cons.mp hd with rfl | hd
          · exact hpc
          · exact hw d hd
        · exact of_mem_splitBy (hs ▸ List.mem_cons_of_mem w h)

/-- Pieces are made of characters of the text. -/
theorem mem_of_mem_splitBy {p : Char → Bool} {t piece : Text} (h : piece ∈ splitBy p t) {c : Char}
    (hc : c ∈ piece) : c ∈ t := by
  induction t generalizing piece with
  | nil =>
    obtain rfl := List.mem_singleton.mp h
    exact hc
  | cons d t ih =>
    rw [splitBy] at h
    split at h
    · rcases List.mem_cons.mp h with rfl | h
      · cases hc
      · exact List.mem_cons_of_mem d (ih h hc)
    · cases hs : splitBy p t with
      | nil => exact absurd hs (splitBy_ne_nil p t)
      | cons w ws =>
        rw [hs] at h ih
        rcases List.mem_cons.mp h with rfl | h
        · rcases List.mem_cons.mp hc with rfl | hc
          · exact List.mem_cons_self
          · exact List.mem_cons_of_mem d (ih List.mem_cons_self hc)
        · exact List.mem_cons_of_mem d (ih (List.mem_cons_of_mem w h) hc)

/-! ## 2. Joining -/

@[simp] theorem join_nil (separator : Text) : join separator [] = [] := rfl

@[simp] theorem join_singleton (separator t : Text) : join separator [t] = t := by
  simp [join, List.intercalate]

theorem join_cons_cons (separator a b : Text) (rest : List Text) :
    join separator (a :: b :: rest) = a ++ separator ++ join separator (b :: rest) := by
  simp [join, List.intercalate]

/-- What stands in a joined text stands in the separator or in a part. -/
theorem of_mem_join {separator : Text} {parts : List Text} {c : Char}
    (h : c ∈ join separator parts) : c ∈ separator ∨ ∃ part ∈ parts, c ∈ part := by
  induction parts with
  | nil => cases h
  | cons a rest ih =>
    cases rest with
    | nil =>
      rw [join_singleton] at h
      exact .inr ⟨a, List.mem_cons_self, h⟩
    | cons b rest =>
      rw [join_cons_cons, List.mem_append, List.mem_append] at h
      rcases h with (h | h) | h
      · exact .inr ⟨a, List.mem_cons_self, h⟩
      · exact .inl h
      · rcases ih h with h | ⟨part, hpart, hc⟩
        · exact .inl h
        · exact .inr ⟨part, List.mem_cons_of_mem a hpart, hc⟩

theorem join_ne_nil {separator a : Text} (ha : a ≠ []) (rest : List Text) :
    join separator (a :: rest) ≠ [] := by
  cases rest with
  | nil => rwa [join_singleton]
  | cons b rest => simp [join_cons_cons, ha]

/-- A joined text begins with a character of a part. -/
theorem of_mem_head?_join {separator : Text} {parts : List Text} (h : ∀ part ∈ parts, part ≠ [])
    {c : Char} (hc : c ∈ (join separator parts).head?) : ∃ part ∈ parts, c ∈ part := by
  cases parts with
  | nil => cases hc
  | cons a rest =>
    refine ⟨a, List.mem_cons_self, ?_⟩
    cases a with
    | nil => exact absurd rfl (h [] List.mem_cons_self)
    | cons d a =>
      have hd : (join separator ((d :: a) :: rest)).head? = some d := by
        cases rest with
        | nil => rw [join_singleton]; rfl
        | cons b rest => rw [join_cons_cons]; rfl
      rw [hd] at hc
      exact Option.some.inj hc ▸ List.mem_cons_self

/-- A joined text ends with a character of a part. -/
theorem of_mem_getLast?_join {separator : Text} {parts : List Text}
    (h : ∀ part ∈ parts, part ≠ []) {c : Char} (hc : c ∈ (join separator parts).getLast?) :
    ∃ part ∈ parts, c ∈ part := by
  induction parts with
  | nil => cases hc
  | cons a rest ih =>
    cases rest with
    | nil =>
      rw [join_singleton] at hc
      exact ⟨a, List.mem_cons_self, List.mem_of_getLast? hc⟩
    | cons b rest =>
      have hne : join separator (b :: rest) ≠ [] :=
        join_ne_nil (h b (List.mem_cons_of_mem a List.mem_cons_self)) rest
      have hlast : (join separator (a :: b :: rest)).getLast? =
          (join separator (b :: rest)).getLast? := by
        rw [join_cons_cons, List.getLast?_append, List.getLast?_eq_some_getLast hne, Option.some_or]
      rw [hlast] at hc
      obtain ⟨part, hpart, hmem⟩ := ih (fun part hp => h part (List.mem_cons_of_mem a hp)) hc
      exact ⟨part, List.mem_cons_of_mem a hpart, hmem⟩

/-- The pieces of joined parts are the pieces of the parts. -/
theorem splitBy_join {p : Char → Bool} {c : Char} (hc : p c = true) :
    ∀ {parts : List Text}, parts ≠ [] → splitBy p (join [c] parts) = parts.flatMap (splitBy p)
  | [], h => absurd rfl h
  | [a], _ => by simp
  | a :: b :: rest, _ => by
    have ih := splitBy_join hc (List.cons_ne_nil b rest)
    rw [join_cons_cons, List.append_assoc, List.singleton_append, splitBy_append_cons hc, ih]
    rfl

/-- Parts without separators are the pieces of the text they are joined to. -/
theorem splitBy_join_of_forall {p : Char → Bool} {c : Char} (hc : p c = true) {parts : List Text}
    (hne : parts ≠ []) (h : ∀ part ∈ parts, ∀ d ∈ part, p d = false) :
    splitBy p (join [c] parts) = parts := by
  rw [splitBy_join hc hne]
  clear hne
  induction parts with
  | nil => rfl
  | cons a rest ih =>
    rw [List.flatMap_cons, splitBy_of_forall (h a List.mem_cons_self),
      ih fun part hpart => h part (List.mem_cons_of_mem a hpart)]
    rfl

/-- A text is its pieces, joined by what stands between them. -/
theorem join_splitBy (c : Char) : ∀ t : Text, join [c] (splitBy (· == c) t) = t
  | [] => rfl
  | d :: t => by
    have ih := join_splitBy c t
    cases hs : splitBy (· == c) t with
    | nil => exact absurd hs (splitBy_ne_nil _ t)
    | cons w ws =>
      rw [hs] at ih
      rw [splitBy, hs]
      split
      · next hd =>
        rw [join_cons_cons, ih, beq_iff_eq.mp hd]
        rfl
      · cases ws with
        | nil => rw [join_singleton] at ih ⊢; rw [ih]
        | cons v ws =>
          rw [join_cons_cons] at ih ⊢
          rw [← ih]
          rfl

/-! ## 3. The ends of a text -/

/-- A pattern in front of a text is found there. -/
theorem isPrefixOf?_append (pattern t : Text) : pattern.isPrefixOf? (pattern ++ t) = some t := by
  induction pattern with
  | nil => rfl
  | cons c p ih => rw [List.cons_append, isPrefixOf?_cons, beq_self_eq_true, if_pos rfl, ih]

/-- A pattern behind a text is found there. -/
theorem isSuffixOf?_append (pattern t : Text) : pattern.isSuffixOf? (t ++ pattern) = some t := by
  show (pattern.reverse.isPrefixOf? (t ++ pattern).reverse).map List.reverse = some t
  rw [List.reverse_append, isPrefixOf?_append, Option.map_some, List.reverse_reverse]

/-- What is left in front of a pattern at the end makes the text with it. -/
theorem append_of_isSuffixOf? {pattern t rest : Text} (h : pattern.isSuffixOf? t = some rest) :
    rest ++ pattern = t := by
  obtain ⟨u, hu, rfl⟩ := Option.map_eq_some_iff.mp h
  have ht := congrArg List.reverse (append_of_isPrefixOf? hu)
  rwa [List.reverse_append, List.reverse_reverse, List.reverse_reverse] at ht

/-- Trimming at the end cuts the blanks off. -/
theorem trimEnd_append_endBlanks (t : Text) : trimEnd t ++ endBlanks t = t :=
  trimEndBy_append_endRunBy isBlank t

/-- What trimming at the end cuts off is blanks. -/
theorem isBlank_of_mem_endBlanks {t : Text} : ∀ c ∈ endBlanks t, isBlank c = true := by
  unfold endBlanks endRunBy
  induction t with
  | nil => simp [trimEndBy]
  | cons c t ih =>
    intro d hd
    rw [trimEndBy] at hd
    split at hd
    · next hrest =>
      rw [hrest] at ih
      split at hd
      · next hc =>
        rcases List.mem_cons.mp hd with rfl | hd
        · exact hc
        · exact ih d hd
      · exact ih d hd
    · exact ih d hd

/-- Nothing is left of a text that is cut off as a whole. -/
theorem trimEndBy_of_forall {p : Char → Bool} {t : Text} (h : ∀ c ∈ t, p c = true) :
    trimEndBy p t = [] := by
  induction t with
  | nil => rfl
  | cons c t ih =>
    have hrest := ih fun d hd => h d (List.mem_cons_of_mem c hd)
    have hc := h c List.mem_cons_self
    simp [trimEndBy, hrest, hc]

theorem trimEndBy_append_of_forall {p : Char → Bool} {b : Text} (hb : ∀ c ∈ b, p c = true) :
    ∀ t : Text, trimEndBy p (t ++ b) = trimEndBy p t
  | [] => trimEndBy_of_forall hb
  | c :: t => by
    have ih := trimEndBy_append_of_forall hb t
    rw [List.cons_append, trimEndBy, trimEndBy, ih]

/-- A text whose last character stays is not trimmed at its end. -/
theorem trimEndBy_of_getLast? {p : Char → Bool} {t : Text}
    (h : ∀ c ∈ t.getLast?, p c = false) : trimEndBy p t = t := by
  induction t with
  | nil => rfl
  | cons c t ih =>
    cases t with
    | nil =>
      have hc := h c rfl
      simp [trimEndBy, hc]
    | cons d t =>
      have hrest := ih (by rwa [List.getLast?_cons_cons] at h)
      rw [trimEndBy, hrest]

/-- What is left between the characters of a class at both ends. -/
theorem trimBy_between {p : Char → Bool} {a w b : Text} (ha : ∀ c ∈ a, p c = true)
    (hb : ∀ c ∈ b, p c = true) (hhead : ∀ c ∈ w.head?, p c = false)
    (hlast : ∀ c ∈ w.getLast?, p c = false) :
    trimStartBy p (trimEndBy p (a ++ w ++ b)) = w := by
  rw [trimEndBy_append_of_forall hb]
  cases w with
  | nil => rw [List.append_nil, trimEndBy_of_forall ha]; rfl
  | cons c w =>
    have hend : trimEndBy p (a ++ c :: w) = a ++ c :: w := by
      refine trimEndBy_of_getLast? fun d hd => hlast d ?_
      rwa [List.getLast?_append, List.getLast?_eq_some_getLast (List.cons_ne_nil c w),
        Option.some_or, ← List.getLast?_eq_some_getLast] at hd
    rw [hend, trimStartBy, List.dropWhile_append_of_pos ha]
    exact List.dropWhile_cons_of_neg (by simp [hhead c rfl])

/-- Nothing is left of blanks. -/
theorem trimEnd_blanks {t : Text} (h : ∀ c ∈ t, isBlank c = true) : trimEnd t = [] :=
  trimEndBy_of_forall h

theorem trimEnd_append_blanks {b : Text} (hb : ∀ c ∈ b, isBlank c = true) (t : Text) :
    trimEnd (t ++ b) = trimEnd t :=
  trimEndBy_append_of_forall hb t

/-- What does not end in a blank is not trimmed at its end. -/
theorem trimEnd_concat {c : Char} (hc : isBlank c = false) (t : Text) :
    trimEnd (t ++ [c]) = t ++ [c] :=
  trimEndBy_of_getLast? (by simpa using hc)

/-- What begins without a blank is trimmed at its end only. -/
theorem trim_cons {c : Char} (hc : isBlank c = false) (t : Text) :
    trim (c :: t) = c :: trimEnd t := by
  have hend : trimEnd (c :: t) = c :: trimEnd t := by
    unfold trimEnd
    rw [trimEndBy]
    split
    · next h => rw [if_neg (by simp [hc]), h]
    · rfl
  rw [trim, hend]
  exact List.dropWhile_cons_of_neg (by simp [hc])

/-- A word is what is left of it between blanks. -/
theorem trim_between {a w b : Text} (ha : ∀ c ∈ a, isBlank c = true)
    (hw : ∀ c ∈ w, isBlank c = false) (hb : ∀ c ∈ b, isBlank c = true) :
    trim (a ++ w ++ b) = w :=
  trimBy_between ha hb (fun c hc => hw c (List.mem_of_mem_head? hc))
    fun c hc => hw c (List.mem_of_getLast? hc)

/-! ## 4. Fields -/

/-- The pieces between the characters of a class, empty ones left out. -/
def fields (p : Char → Bool) (t : Text) : List Text :=
  (splitBy p t).filter fun w => !w.isEmpty

section Fields

variable {p : Char → Bool}

/-- A separator separates fields. -/
theorem fields_append_cons {c : Char} (hc : p c = true) (s t : Text) :
    fields p (s ++ c :: t) = fields p s ++ fields p t := by
  unfold fields
  rw [splitBy_append_cons hc, List.filter_append]

/-- A text without separators is one field. -/
theorem fields_of_forall {t : Text} (hne : t ≠ []) (h : ∀ c ∈ t, p c = false) :
    fields p t = [t] := by
  unfold fields
  rw [splitBy_of_forall h]
  simp [hne]

/-- A field is not empty and holds no separator. -/
theorem of_mem_fields {t w : Text} (h : w ∈ fields p t) : w ≠ [] ∧ ∀ c ∈ w, p c = false := by
  obtain ⟨hw, hne⟩ := List.mem_filter.mp h
  exact ⟨by simpa using hne, of_mem_splitBy hw⟩

/-- Separators at the start of a text add no field. -/
theorem fields_append_of_forall {a : Text} (ha : ∀ c ∈ a, p c = true) (t : Text) :
    fields p (a ++ t) = fields p t := by
  induction a with
  | nil => rfl
  | cons c a ih =>
    have hcons : fields p (c :: (a ++ t)) = fields p (a ++ t) :=
      fields_append_cons (ha c List.mem_cons_self) [] _
    rw [List.cons_append, hcons, ih fun d hd => ha d (List.mem_cons_of_mem c hd)]

/-- A field in front of a separator, or alone. -/
theorem fields_append_of_head? {w b : Text} (hne : w ≠ []) (hw : ∀ c ∈ w, p c = false)
    (hb : ∀ c ∈ b.head?, p c = true) : fields p (w ++ b) = w :: fields p b := by
  cases b with
  | nil =>
    rw [List.append_nil, fields_of_forall hne hw]
    rfl
  | cons c b =>
    have hc := hb c rfl
    have hcons : fields p (c :: b) = fields p b := fields_append_cons hc [] b
    rw [fields_append_cons hc, fields_of_forall hne hw, hcons]
    rfl

/-- Fields joined with a separator are the fields of the text. -/
theorem fields_join {c : Char} (hc : p c = true) {parts : List Text}
    (h : ∀ w ∈ parts, w ≠ [] ∧ ∀ d ∈ w, p d = false) : fields p (join [c] parts) = parts := by
  cases parts with
  | nil => rfl
  | cons a rest =>
    unfold fields
    rw [splitBy_join_of_forall hc (List.cons_ne_nil a rest) fun w hw => (h w hw).2]
    exact List.filter_eq_self.mpr fun w hw => by simpa using (h w hw).1

end Fields

/-! ## 5. Words -/

/-- A blank separates words. -/
theorem words_append_cons {c : Char} (hc : isBlank c = true) (s t : Text) :
    words (s ++ c :: t) = words s ++ words t :=
  fields_append_cons hc s t

/-- A text without blanks is one word. -/
theorem words_of_forall {t : Text} (hne : t ≠ []) (h : ∀ c ∈ t, isBlank c = false) :
    words t = [t] :=
  fields_of_forall hne h

/-- A word is not empty and holds no blank. -/
theorem of_mem_words {t w : Text} (h : w ∈ words t) : w ≠ [] ∧ ∀ c ∈ w, isBlank c = false :=
  of_mem_fields h

/-- A character that is not blank stands in a word. -/
theorem exists_word_of_mem {t : Text} {c : Char} (h : c ∈ t) (hc : isBlank c = false) :
    ∃ w ∈ words t, c ∈ w := by
  obtain ⟨u, v, rfl⟩ := List.append_of_mem h
  have hpieces : ∀ u : Text, ∃ w ∈ splitBy isBlank (u ++ c :: v), c ∈ w := by
    intro u
    induction u with
    | nil =>
      rw [List.nil_append, splitBy, hc, if_neg Bool.false_ne_true]
      split <;> simp
    | cons d u ih =>
      obtain ⟨w, hw, hmem⟩ := ih
      rw [List.cons_append, splitBy]
      split
      · exact ⟨w, List.mem_cons_of_mem _ hw, hmem⟩
      · split
        · next heq => exact absurd heq (splitBy_ne_nil _ _)
        · next first rest heq =>
          rw [heq] at hw
          rcases List.mem_cons.mp hw with rfl | hw
          · exact ⟨_, List.mem_cons_self, List.mem_cons_of_mem _ hmem⟩
          · exact ⟨w, List.mem_cons_of_mem _ hw, hmem⟩
  obtain ⟨w, hw, hmem⟩ := hpieces u
  refine ⟨w, List.mem_filter.mpr ⟨hw, ?_⟩, hmem⟩
  cases w with
  | nil => cases hmem
  | cons _ _ => rfl

/-- Words joined with a blank are the words of the text. -/
theorem words_join {parts : List Text} (h : ∀ w ∈ parts, w ≠ [] ∧ ∀ c ∈ w, isBlank c = false) :
    words (join " ".toList parts) = parts :=
  fields_join (by decide) h

theorem words_cons_blank {c : Char} (hc : isBlank c = true) (t : Text) :
    words (c :: t) = words t :=
  words_append_cons hc [] t

/-- Blanks at the start of a text add no word. -/
theorem words_blanks_append {b : Text} (hb : ∀ c ∈ b, isBlank c = true) (t : Text) :
    words (b ++ t) = words t :=
  fields_append_of_forall hb t

/-- There are no words in blanks. -/
theorem words_blanks {b : Text} (hb : ∀ c ∈ b, isBlank c = true) : words b = [] := by
  have h := words_blanks_append hb []
  rwa [List.append_nil] at h

/-- Blanks at the end of a text add no word. -/
theorem words_append_blanks {b : Text} (hb : ∀ c ∈ b, isBlank c = true) (t : Text) :
    words (t ++ b) = words t := by
  cases b with
  | nil => rw [List.append_nil]
  | cons c b =>
    rw [words_append_cons (hb c List.mem_cons_self),
      words_blanks fun d hd => hb d (List.mem_cons_of_mem c hd), List.append_nil]

/-- Trimming takes no word away. -/
theorem words_trim (t : Text) : words (trim t) = words t := by
  have hend : words (trimEnd t) = words t := by
    have h := words_append_blanks (isBlank_of_mem_endBlanks (t := t)) (trimEnd t)
    rwa [trimEnd_append_endBlanks, eq_comm] at h
  have hstart : ∀ u, words (trimStart u) = words u := by
    intro u
    induction u with
    | nil => rfl
    | cons c u ih =>
      unfold trimStart trimStartBy at ih ⊢
      by_cases hc : isBlank c
      · rw [List.dropWhile_cons_of_pos hc, words_cons_blank hc, ih]
      · rw [List.dropWhile_cons_of_neg hc]
  rw [trim, hstart, hend]

/-- A text that ends in a blank falls apart into words by itself. -/
theorem words_append_of_getLast {a : Text} (ha : ∃ c, a.getLast? = some c ∧ isBlank c = true)
    (b : Text) : words (a ++ b) = words a ++ words b := by
  obtain ⟨c, hlast, hc⟩ := ha
  obtain ⟨u, rfl⟩ := List.getLast?_eq_some_iff.mp hlast
  have hblank : ∀ d ∈ [c], isBlank d = true := by simpa using hc
  rw [words_append_blanks hblank, List.append_assoc, List.singleton_append, words_append_cons hc]

/-- A word in front of a blank, or alone. -/
theorem words_append_of_head {w b : Text} (hne : w ≠ []) (hw : ∀ c ∈ w, isBlank c = false)
    (hb : ∀ c ∈ b.head?, isBlank c = true) : words (w ++ b) = w :: words b :=
  fields_append_of_head? hne hw hb

/-- A text begins with its first word, but for blanks. -/
theorem exists_of_words_eq_cons {t w : Text} {ws : List Text} (h : words t = w :: ws) :
    ∃ a b, t = a ++ w ++ b ∧ (∀ c ∈ a, isBlank c = true) ∧ words b = ws ∧
      ∀ c ∈ b.head?, isBlank c = true := by
  induction t with
  | nil => cases h
  | cons c t ih =>
    by_cases hc : isBlank c
    · rw [words_cons_blank hc] at h
      obtain ⟨a, b, rfl, ha, hb, hhead⟩ := ih h
      refine ⟨c :: a, b, rfl, ?_, hb, hhead⟩
      intro d hd
      rcases List.mem_cons.mp hd with rfl | hd
      · exact hc
      · exact ha d hd
    · have htext : (c :: t).takeWhile (!isBlank ·) ++ (c :: t).dropWhile (!isBlank ·) = c :: t :=
        List.takeWhile_append_dropWhile
      have hne : (c :: t).takeWhile (!isBlank ·) ≠ [] := by
        rw [List.takeWhile_cons_of_pos (by simpa using hc)]
        exact List.cons_ne_nil _ _
      have hword : ∀ d ∈ (c :: t).takeWhile (!isBlank ·), isBlank d = false := by
        intro d hd
        simpa using List.all_eq_true.mp List.all_takeWhile d hd
      have hhead : ∀ d ∈ ((c :: t).dropWhile (!isBlank ·)).head?, isBlank d = true := by
        intro d hd
        have hnot := List.head?_dropWhile_not (!isBlank ·) (c :: t)
        rw [Option.mem_def.mp hd] at hnot
        simpa using hnot
      rw [← htext, words_append_of_head hne hword hhead] at h
      obtain ⟨hw, hws⟩ := List.cons.inj h
      exact ⟨[], _, by rw [List.nil_append, ← hw, htext], by simp, hws, hhead⟩

/-- A text around one of its words. -/
theorem exists_of_words_eq_append_cons {t w : Text} {us vs : List Text}
    (h : words t = us ++ w :: vs) :
    ∃ a b, t = a ++ w ++ b ∧ words a = us ∧ words b = vs ∧
      (∀ c ∈ a.getLast?, isBlank c = true) ∧ ∀ c ∈ b.head?, isBlank c = true := by
  induction us generalizing t with
  | nil =>
    obtain ⟨a, b, rfl, ha, hb, hhead⟩ := exists_of_words_eq_cons h
    exact ⟨a, b, rfl, words_blanks ha, hb, fun c hc => ha c (List.mem_of_getLast? hc), hhead⟩
  | cons u us ih =>
    have hw := of_mem_words (show w ∈ words t by simp [h])
    have hu := of_mem_words (show u ∈ words t by simp [h])
    obtain ⟨a₀, b₀, rfl, ha₀, hb₀, hhead₀⟩ := exists_of_words_eq_cons h
    obtain ⟨a, b, rfl, ha, hb, hlast, hhead⟩ := ih hb₀
    -- a blank stands between the first word and the one looked for
    have hane : a ≠ [] := by
      rintro rfl
      cases w with
      | nil => exact hw.1 rfl
      | cons c w =>
        have hblank := hhead₀ c rfl
        rw [hw.2 c List.mem_cons_self] at hblank
        cases hblank
    have hahead : ∀ c ∈ a.head?, isBlank c = true := by
      cases a with
      | nil => exact absurd rfl hane
      | cons c a => exact hhead₀
    refine ⟨a₀ ++ u ++ a, b, by simp, ?_, hb, ?_, hhead⟩
    · rw [List.append_assoc, words_blanks_append ha₀, words_append_of_head hu.1 hu.2 hahead, ha]
    · rw [List.getLast?_eq_some_getLast hane] at hlast
      rw [List.getLast?_append, List.getLast?_eq_some_getLast hane]
      exact hlast

/-- A text with no words holds blanks only. -/
theorem isBlank_of_words_eq_nil {t : Text} (h : words t = []) : ∀ c ∈ t, isBlank c = true := by
  induction t with
  | nil => simp
  | cons c t ih =>
    by_cases hc : isBlank c
    · rw [words_cons_blank hc] at h
      intro d hd
      rcases List.mem_cons.mp hd with rfl | hd
      · exact hc
      · exact ih h d hd
    · rw [words, splitBy, if_neg hc] at h
      split at h <;> simp at h

/-- A text with one word is, trimmed, that word. -/
theorem trim_of_words {t w : Text} (h : words t = [w]) : trim t = w := by
  have hw := of_mem_words (show w ∈ words t by simp [h])
  obtain ⟨a, b, rfl, ha, hb, _⟩ := exists_of_words_eq_cons h
  exact trim_between ha hw.2 (isBlank_of_words_eq_nil hb)

end StyleModules.Text
