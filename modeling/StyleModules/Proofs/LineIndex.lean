import StyleModules.SourceMap.Position
import StyleModules.Proofs.PrintBack

/-!
Positions by byte offset.

`LineIndex` keeps the offsets at which the lines of a text begin. A position is read off it in two
steps: the lines that begin at or before the offset give the line, and what stands between the start
of that line and the offset gives the column. `LineIndex.position?_append`: wherever a text is cut
between two characters, this is the position at which its first part ends.

Section 1 has the laws of cutting by bytes that this rests on.
-/

namespace StyleModules

/-! ## 1. Cutting by bytes -/

namespace Text

theorem size_eq_zero {t : Text} : size t = 0 ↔ t = [] := by
  cases t with
  | nil => exact iff_of_true rfl rfl
  | cons c t =>
    have hpos := c.utf8Size_pos
    exact iff_of_false (by rw [size_cons]; omega) (List.cons_ne_nil c t)

theorem dropBytes_append (u v : Text) : dropBytes (u ++ v) (size u) = some v := by
  induction u with
  | nil => cases v <;> rfl
  | cons c u ih =>
    have hpos := c.utf8Size_pos
    obtain ⟨n, hn⟩ : ∃ n, size (c :: u) = n + 1 := ⟨size (c :: u) - 1, by rw [size_cons]; omega⟩
    have hrest : n + 1 - c.utf8Size = size u := by rw [size_cons] at hn; omega
    rw [hn, List.cons_append, dropBytes, if_pos (by rw [← hn, size_cons]; omega), hrest, ih]

theorem takeBytes_append (u v : Text) : takeBytes (u ++ v) (size u) = some u := by
  induction u with
  | nil => cases v <;> rfl
  | cons c u ih =>
    have hpos := c.utf8Size_pos
    obtain ⟨n, hn⟩ : ∃ n, size (c :: u) = n + 1 := ⟨size (c :: u) - 1, by rw [size_cons]; omega⟩
    have hrest : n + 1 - c.utf8Size = size u := by rw [size_cons] at hn; omega
    rw [hn, List.cons_append, takeBytes, if_pos (by rw [← hn, size_cons]; omega), hrest, ih]
    rfl

/-- A text cut at two places is sliced between them. -/
theorem slice?_append (u v w : Text) :
    slice? (u ++ v ++ w) (size u) (size u + size v) = some v := by
  rw [slice?, if_pos (Nat.le_add_right _ _), List.append_assoc, dropBytes_append, Option.bind_some,
    Nat.add_sub_cancel_left, takeBytes_append]

theorem exists_of_dropBytes {t v : Text} {n : Nat} (h : dropBytes t n = some v) :
    ∃ u, t = u ++ v ∧ n = size u := by
  fun_induction dropBytes t n with
  | case1 t => cases h; exact ⟨[], rfl, rfl⟩
  | case2 => cases h
  | case3 c t n hle ih =>
    obtain ⟨u, rfl, hn⟩ := ih h
    exact ⟨c :: u, rfl, by rw [size_cons]; omega⟩
  | case4 => cases h

theorem exists_of_takeBytes {t u : Text} {n : Nat} (h : takeBytes t n = some u) :
    ∃ v, t = u ++ v ∧ n = size u := by
  fun_induction takeBytes t n generalizing u with
  | case1 t => cases h; exact ⟨t, rfl, rfl⟩
  | case2 => cases h
  | case3 c t n hle ih =>
    obtain ⟨u', hu, rfl⟩ := Option.map_eq_some_iff.mp h
    obtain ⟨v, rfl, hn⟩ := ih hu
    exact ⟨v, rfl, by rw [size_cons]; omega⟩
  | case4 => cases h

/-- A slice stands between two places at which the text is cut. -/
theorem exists_of_slice? {t v : Text} {start stop : Nat} (h : slice? t start stop = some v) :
    ∃ u w, t = u ++ v ++ w ∧ start = size u ∧ stop = size u + size v := by
  rw [slice?] at h
  by_cases hle : start ≤ stop
  · rw [if_pos hle] at h
    obtain ⟨rest, hdrop, htake⟩ := Option.bind_eq_some_iff.mp h
    obtain ⟨u, rfl, hstart⟩ := exists_of_dropBytes hdrop
    obtain ⟨w, rfl, hstop⟩ := exists_of_takeBytes htake
    exact ⟨u, w, (List.append_assoc u v w).symm, hstart, by omega⟩
  · rw [if_neg hle] at h
    cases h

end Text

/-! ## 2. The last line -/

namespace Position

/-- Behind the last line feed there is none. -/
theorem count_of_cutAtLast_eq_some {t a b : Text}
    (h : Text.cutAtLast (· == '\n') t = some (a, b)) : b.count '\n' = 0 := by
  induction t generalizing a with
  | nil => cases h
  | cons c t ih =>
    rw [Text.cutAtLast] at h
    cases hcut : Text.cutAtLast (· == '\n') t with
    | some ab =>
      rw [hcut] at h
      cases h
      exact ih hcut
    | none =>
      rw [hcut] at h
      by_cases hc : (c == '\n') = true
      · rw [if_pos hc] at h
        cases h
        exact count_of_cutAtLast_eq_none hcut
      · rw [if_neg hc] at h
        cases h

/-- The position of an offset at which the text is cut is where the first part ends. -/
theorem ofOffset_append (u v : Text) : ofOffset (u ++ v) (Text.size u) = ofText u := by
  rw [ofOffset, Text.takeBytes_append, Option.getD_some]

theorem ofText_append (u v : Text) : ofText (u ++ v) = (ofText u).through v := by
  rw [← through_origin, ← through_origin]
  exact List.foldl_append

/-- More text ends at another position: on a later line, or further on in the same one. -/
theorem ofText_append_ne (u : Text) {v : Text} (h : v ≠ []) : ofText (u ++ v) ≠ ofText u := by
  rw [ofText_append, through_eq]
  cases hcut : Text.cutAtLast (· == '\n') v with
  | some ab =>
    obtain ⟨a, b⟩ := ab
    obtain ⟨c, hc, rfl⟩ := Text.append_of_cutAtLast hcut
    have hcount : 0 < (a ++ c :: b).count '\n' := by
      rw [List.count_pos_iff]
      simp only [beq_iff_eq] at hc
      simp [hc]
    intro heq
    have hline := congrArg Position.line heq
    simp only at hline
    omega
  | none =>
    have hunits : 0 < Text.units v := by
      cases v with
      | nil => exact absurd rfl h
      | cons c v => rw [Text.units]; split <;> omega
    intro heq
    have hcolumn := congrArg Position.column heq
    simp only at hcolumn
    omega

/-- Two places at which a text is cut have one position only if they are the same. -/
theorem ofOffset_injective {t u v u' v' : Text} (h : t = u ++ v) (h' : t = u' ++ v')
    (heq : ofOffset t (Text.size u) = ofOffset t (Text.size u')) : Text.size u = Text.size u' := by
  have hu : ofOffset t (Text.size u) = ofText u := by rw [h, ofOffset_append]
  have hu' : ofOffset t (Text.size u') = ofText u' := by rw [h', ofOffset_append]
  rw [hu, hu'] at heq
  rcases List.append_eq_append_iff.mp (h.symm.trans h') with ⟨w, rfl, -⟩ | ⟨w, rfl, -⟩
  · by_cases hw : w = []
    · rw [hw, List.append_nil]
    · exact absurd heq.symm (ofText_append_ne u hw)
  · by_cases hw : w = []
    · rw [hw, List.append_nil]
    · exact absurd heq (ofText_append_ne u' hw)

end Position

/-! ## 3. The starts of lines -/

/-- The offsets behind the line feeds of a text that begins at an offset. -/
def lineStarts (offset : Nat) : Text → List Nat
  | [] => []
  | c :: t =>
    if c = '\n' then (offset + 1) :: lineStarts (offset + 1) t
    else lineStarts (offset + c.utf8Size) t

theorem lineStarts_append (offset : Nat) (u v : Text) :
    lineStarts offset (u ++ v) = lineStarts offset u ++ lineStarts (offset + Text.size u) v := by
  induction u generalizing offset with
  | nil => rfl
  | cons c u ih =>
    rw [List.cons_append, lineStarts, lineStarts]
    by_cases hc : c = '\n'
    · have hsize : Text.size (c :: u) = 1 + Text.size u := by rw [hc]; rfl
      rw [if_pos hc, if_pos hc, ih, List.cons_append, hsize, Nat.add_assoc]
    · rw [if_neg hc, if_neg hc, ih, Text.size_cons, Nat.add_assoc]

theorem length_lineStarts (offset : Nat) (t : Text) :
    (lineStarts offset t).length = t.count '\n' := by
  induction t generalizing offset with
  | nil => rfl
  | cons c t ih =>
    rw [lineStarts]
    by_cases hc : c = '\n'
    · rw [if_pos hc, List.length_cons, ih, hc, List.count_cons_self]
    · rw [if_neg hc, ih, List.count_cons_of_ne hc]

/-- Lines begin behind the offset of the text, and not behind its end. -/
theorem of_mem_lineStarts {offset n : Nat} {t : Text} (h : n ∈ lineStarts offset t) :
    offset < n ∧ n ≤ offset + Text.size t := by
  induction t generalizing offset with
  | nil => cases h
  | cons c t ih =>
    have hpos := c.utf8Size_pos
    rw [lineStarts] at h
    rw [Text.size_cons]
    by_cases hc : c = '\n'
    · have hone : c.utf8Size = 1 := by rw [hc]; rfl
      rw [if_pos hc] at h
      rcases List.mem_cons.mp h with rfl | h
      · omega
      · have := ih h
        omega
    · rw [if_neg hc] at h
      have := ih h
      omega

/-- A text with the offsets at which its lines begin. -/
structure LineIndex where
  text : Text
  starts : List Nat
  deriving DecidableEq, Repr

namespace LineIndex

/-- The lines of a text. -/
def ofText (t : Text) : LineIndex :=
  ⟨t, 0 :: lineStarts 0 t⟩

/-- The position of an offset: the number of the last line that begins at or before it, and the
    units from there on. None if the line cannot be cut at the offset. -/
def position? (lines : LineIndex) (offset : Nat) : Option Position :=
  let line := (lines.starts.takeWhile (· ≤ offset)).length - 1
  let start := lines.starts.getD line 0
  (Text.slice? lines.text start (min offset (Text.size lines.text))).map fun t =>
    ⟨line, Text.units t⟩

/-- The starts of lines up to a place at which the text is cut are those of the first part. -/
theorem takeWhile_starts (u v : Text) :
    (ofText (u ++ v)).starts.takeWhile (· ≤ Text.size u) = 0 :: lineStarts 0 u := by
  have hfirst : ∀ n ∈ 0 :: lineStarts 0 u, decide (n ≤ Text.size u) = true := by
    intro n hn
    rcases List.mem_cons.mp hn with rfl | hn
    · exact decide_eq_true (Nat.zero_le _)
    · have := (of_mem_lineStarts hn).2
      exact decide_eq_true (by omega)
  have hsecond : (lineStarts (0 + Text.size u) v).takeWhile (· ≤ Text.size u) = [] := by
    cases hstarts : lineStarts (0 + Text.size u) v with
    | nil => rfl
    | cons n rest =>
      have hn := (of_mem_lineStarts (hstarts ▸ List.mem_cons_self : n ∈ lineStarts _ v)).1
      rw [List.takeWhile_cons, if_neg (by simpa using by omega)]
  rw [ofText, lineStarts_append, ← List.cons_append, List.takeWhile_append_of_pos hfirst, hsecond,
    List.append_nil]

/-- The last line of a text begins where the last start says. -/
theorem exists_lastLine (t : Text) : ∃ a, t = a ++ Position.lastLine t ∧
    (0 :: lineStarts 0 t)[t.count '\n']? = some (Text.size a) := by
  cases hcut : Text.cutAtLast (· == '\n') t with
  | none =>
    refine ⟨[], by rw [Position.lastLine, hcut]; rfl, ?_⟩
    rw [Position.count_of_cutAtLast_eq_none hcut]
    rfl
  | some ab =>
    obtain ⟨a, b⟩ := ab
    have hb := Position.count_of_cutAtLast_eq_some hcut
    obtain ⟨c, hc, rfl⟩ := Text.append_of_cutAtLast hcut
    obtain rfl : c = '\n' := by simpa using hc
    have hlast : Position.lastLine (a ++ '\n' :: b) = b := by rw [Position.lastLine, hcut]
    have hnone : ∀ offset, lineStarts offset b = [] := fun offset =>
      List.length_eq_zero_iff.mp (by rw [length_lineStarts, hb])
    have hsize : Text.size (a ++ ['\n']) = Text.size a + 1 := Text.size_append a ['\n']
    refine ⟨a ++ ['\n'], by rw [hlast, List.append_assoc]; rfl, ?_⟩
    rw [lineStarts_append, lineStarts, if_pos rfl, hnone, List.count_append, List.count_cons_self,
      hb, ← length_lineStarts 0 a, hsize, ← List.cons_append,
      List.getElem?_append_right (by simp)]
    simp

/-- **The position of an offset at which a text is cut is where its first part ends.** -/
theorem position?_append (u v : Text) :
    (ofText (u ++ v)).position? (Text.size u) = some (Position.ofText u) := by
  obtain ⟨a, ha, hstart⟩ := exists_lastLine u
  have hline : ((ofText (u ++ v)).starts.takeWhile (· ≤ Text.size u)).length - 1 =
      u.count '\n' := by
    rw [takeWhile_starts, List.length_cons, length_lineStarts, Nat.add_sub_cancel]
  have hat : (ofText (u ++ v)).starts.getD (u.count '\n') 0 = Text.size a := by
    have hlt : u.count '\n' < (0 :: lineStarts 0 u).length := by
      rw [List.length_cons, length_lineStarts]
      omega
    rw [ofText, lineStarts_append, ← List.cons_append, List.getD_eq_getElem?_getD,
      List.getElem?_append_left hlt, hstart, Option.getD_some]
  have hstop : min (Text.size u) (Text.size (u ++ v)) =
      Text.size a + Text.size (Position.lastLine u) := by
    have hsize := congrArg Text.size ha
    rw [Text.size_append] at hsize ⊢
    omega
  have hslice : Text.slice? (u ++ v) (Text.size a) (Text.size a + Text.size (Position.lastLine u)) =
      some (Position.lastLine u) := by
    have hcut := Text.slice?_append a (Position.lastLine u) v
    rwa [← ha] at hcut
  rw [position?]
  simp only [hline, hat]
  show Option.map _ (Text.slice? (u ++ v) _ (min (Text.size u) (Text.size (u ++ v)))) = _
  rw [hstop, hslice]
  rfl

end LineIndex

end StyleModules
