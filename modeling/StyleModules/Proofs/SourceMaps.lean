import Mathlib.Data.List.Forall2
import StyleModules.Proofs.MapDecoding
import StyleModules.Proofs.PlacedNodes

/-!
What the source map of a sheet says.

* `SourceMap.decode_printWithMap`: read back, the map of a sheet has two mappings for every node with
  a span, one for its start and one for its end, and each gives the position of the mark in the
  printed text and that of the span's end in the source. All that is asked of the sheet is that its
  spans can be cut out of its source, as they can in a sheet that was read, however it was edited.
* `SourceMap.ofSheet_untouched`: the map of a sheet that was read and not edited takes every position
  to itself, save for the end of an at-rule without a block that has blanks in front of its `;`,
  which is marked behind these blanks. `SourceMap.ofSheet_blank_end` is such a sheet.
-/

namespace StyleModules

/-! ## 1. The nodes that marks belong to -/

/-- A mark that a node has when it stands where its span says. -/
def Node.HasMark (n : Node) (m : Mark) : Prop :=
  ∃ s, n.span = some s ∧
    (m = ⟨s.start, s.start⟩ ∨ m = ⟨s.stop + Text.size n.overrun, s.stop⟩)

theorem Layout.mem_sourceMarks {l : Layout} {overrun : Text} {inner : List Mark} {m : Mark} :
    m ∈ l.sourceMarks overrun inner ↔
      (∃ s, l.span = some s ∧
        (m = ⟨s.start, s.start⟩ ∨ m = ⟨s.stop + Text.size overrun, s.stop⟩)) ∨ m ∈ inner := by
  rw [Layout.sourceMarks]
  cases l.span with
  | none => simp
  | some s =>
    simp only [Option.map_some, Option.toList_some, List.mem_append, List.mem_singleton,
      Option.some.injEq, exists_eq_left']
    grind

mutual

/-- The marks of a node are its own and those of the nodes in it. -/
theorem Node.mem_sourceMarks (m : Mark) (n : Node) :
    m ∈ n.sourceMarks ↔ ∃ k ∈ n.preorder, k.HasMark m := by
  match n with
  | .rule s l b ns =>
    rw [Node.sourceMarks, Layout.mem_sourceMarks, mem_sourceMarksAll m ns, Node.preorder]
    simp only [List.mem_cons, exists_eq_or_imp]
    rfl
  | .atBlock h l b ns =>
    rw [Node.sourceMarks, Layout.mem_sourceMarks, mem_sourceMarksAll m ns, Node.preorder]
    simp only [List.mem_cons, exists_eq_or_imp]
    rfl
  | .atStatement h l =>
    change _ ↔ ∃ k ∈ [Node.atStatement h l], k.HasMark m
    simp only [Node.sourceMarks, Layout.mem_sourceMarks, List.mem_singleton, exists_eq_left,
      List.not_mem_nil, or_false]
    rfl
  | .decl d l =>
    change _ ↔ ∃ k ∈ [Node.decl d l], k.HasMark m
    simp only [Node.sourceMarks, Layout.mem_sourceMarks, List.mem_singleton, exists_eq_left,
      List.not_mem_nil, or_false]
    rfl
  | .comment t l =>
    change _ ↔ ∃ k ∈ [Node.comment t l], k.HasMark m
    simp only [Node.sourceMarks, Layout.mem_sourceMarks, List.mem_singleton, exists_eq_left,
      List.not_mem_nil, or_false]
    rfl

theorem mem_sourceMarksAll (m : Mark) (ns : List Node) :
    m ∈ sourceMarksAll ns ↔ ∃ k ∈ preorderAll ns, k.HasMark m := by
  match ns with
  | [] => simp [sourceMarksAll, preorderAll]
  | n :: ns =>
    rw [sourceMarksAll, preorderAll, List.mem_append, Node.mem_sourceMarks m n,
      mem_sourceMarksAll m ns]
    simp only [List.mem_append, or_and_right, exists_or]

end

mutual

/-- A mark is for the same offset of the source wherever it is printed. -/
theorem Node.map_source_marks (start : Nat) (n : Node) :
    (n.marks start).map Mark.source = n.sourceMarks.map Mark.source := by
  have hlayout : ∀ (l : Layout) (stop : Nat) (overrun : Text) (inner inner' : List Mark),
      inner.map Mark.source = inner'.map Mark.source →
        (l.marks start stop inner).map Mark.source =
          (l.sourceMarks overrun inner').map Mark.source := by
    intro l stop overrun inner inner' h
    rw [Layout.marks, Layout.sourceMarks]
    cases l.span <;> simp [h]
  match n with
  | .rule s l b ns =>
    rw [Node.marks, Node.sourceMarks]
    exact hlayout _ _ _ _ _ (map_source_marksAll _ b ns)
  | .atBlock h l b ns =>
    rw [Node.marks, Node.sourceMarks]
    exact hlayout _ _ _ _ _ (map_source_marksAll _ b ns)
  | .atStatement h l => exact hlayout _ _ _ _ _ rfl
  | .decl d l => exact hlayout _ _ _ _ _ rfl
  | .comment t l => exact hlayout _ _ _ _ _ rfl

theorem map_source_marksAll (start : Nat) (semicolon : Bool) (ns : List Node) :
    (marksAll start semicolon ns).map Mark.source = (sourceMarksAll ns).map Mark.source := by
  match ns with
  | [] => rfl
  | n :: ns =>
    rw [marksAll, sourceMarksAll, List.map_append, List.map_append, Node.map_source_marks _ n,
      map_source_marksAll _ semicolon ns]

end

/-! ## 2. Spans that can be cut out -/

namespace Stylesheet

/-- Every span of a node is a range of the sheet's source between two characters. -/
def Anchored (sheet : Stylesheet) : Prop :=
  ∀ n ∈ sheet.preorder, ∀ s, n.span = some s →
    (Text.slice? sheet.input s.start s.stop).isSome = true

/-- What a sheet may become by edits: words may be changed at will, nodes taken away, moved, or put
    in without a span. -/
def EditOf (edited sheet : Stylesheet) : Prop :=
  edited.input = sheet.input ∧
    ∀ n ∈ edited.preorder, n.span = none ∨ ∃ m ∈ sheet.preorder, m.span = n.span

instance (edited sheet : Stylesheet) : Decidable (edited.EditOf sheet) :=
  inferInstanceAs (Decidable (_ ∧ _))

theorem anchored_of_parse {t : Text} {sheet : Stylesheet} (h : Stylesheet.parse t = .ok sheet) :
    sheet.Anchored := by
  intro n hn s hs
  obtain ⟨u, w, ht, hspan⟩ := standsIn_of_parse h n hn
  obtain rfl := Option.some.inj (hs.symm.trans hspan)
  rw [(placed_of_parse h).2.2, ht, Text.slice?_append]
  rfl

theorem EditOf.anchored {edited sheet : Stylesheet} (h : edited.EditOf sheet)
    (hsheet : sheet.Anchored) : edited.Anchored := by
  intro n hn s hs
  rcases h.2 n hn with hnone | ⟨m, hm, hspan⟩
  · rw [hnone] at hs
    cases hs
  · rw [h.1]
    exact hsheet m hm s (hspan.trans hs)

/-- In a source that spans can be cut out of, the offset of every mark is between two characters. -/
theorem Anchored.exists_source {sheet : Stylesheet} (h : sheet.Anchored) {m : Mark} {source : Nat}
    (hm : ∃ k ∈ sheet.preorder, k.HasMark m) (hsource : source = m.source) :
    ∃ u v, sheet.input = u ++ v ∧ source = Text.size u := by
  obtain ⟨n, hn, s, hs, hmark⟩ := hm
  obtain ⟨v, hv⟩ := Option.isSome_iff_exists.mp (h n hn s hs)
  obtain ⟨u, w, hinput, hstart, hstop⟩ := Text.exists_of_slice? hv
  rcases hmark with rfl | rfl
  · exact ⟨u, v ++ w, by rw [hinput, List.append_assoc], hsource.trans hstart⟩
  · exact ⟨u ++ v, w, hinput, by rw [hsource, Text.size_append]; exact hstop⟩

/-- Every mark stands where the printed text can be cut. -/
theorem exists_reached {sheet : Stylesheet} {m : Mark} (h : m ∈ sheet.marks) :
    ∃ u v, sheet.print = u ++ v ∧ m.reached = Text.size u := by
  rw [← marks_pieces] at h
  obtain ⟨u, v, hprint, hreached⟩ :=
    Piece.exists_of_mem_marks (show m ∈ Piece.marks (Text.size []) _ from h)
  exact ⟨u, v, by rw [← join_pieces]; exact hprint, hreached⟩

theorem exists_source_of_mem_marks {sheet : Stylesheet} (hsheet : sheet.Anchored) {m : Mark}
    (h : m ∈ sheet.marks) : ∃ u v, sheet.input = u ++ v ∧ m.source = Text.size u := by
  have hmem := List.mem_map_of_mem (f := Mark.source) h
  rw [marks, map_source_marksAll] at hmem
  obtain ⟨m', hm', hsource⟩ := List.mem_map.mp hmem
  exact hsheet.exists_source ((mem_sourceMarksAll m' sheet.nodes).mp hm') hsource.symm

end Stylesheet

/-! ## 3. The map of any sheet -/

namespace SourceMap

/-- A mapping gives the position of a mark in the printed text and that of its offset in the
    source, which is the only one. -/
def Locates (sheet : Stylesheet) (m : Mark) (mapping : Mapping) : Prop :=
  ∃ p q, (LineIndex.ofText sheet.print).position? m.reached = some p ∧
    (LineIndex.ofText sheet.input).position? m.source = some q ∧
      mapping = ⟨p.line, p.column, some ⟨0, q.line, q.column, none⟩⟩

/-- **The map of a sheet, read back, gives the true positions of all nodes with spans**, whatever
    edits the sheet has gone through since it was read. -/
theorem decode_printWithMap (sheet : Stylesheet) (source : Text)
    (h : sheet.Anchored ∨ ∃ t read, Stylesheet.parse t = .ok read ∧ sheet.EditOf read) :
    Piece.join sheet.pieces = sheet.print ∧ Piece.marks 0 sheet.pieces = sheet.marks ∧
      ∃ members mappings decoded,
        sheet.printWithMap source =
          sheet.print ++ "\n/*# sourceMappingURL=data:application/json;base64,".toList ++
            Base64.encode (Text.utf8 (Json.obj members).compact) ++ " */".toList ∧
        members.lookup "mappings".toList = some (.str mappings) ∧
        decode mappings = some decoded ∧ List.Forall₂ (Locates sheet) sheet.marks decoded := by
  have hsheet : sheet.Anchored := by
    rcases h with h | ⟨t, read, hread, hedit⟩
    · exact h
    · exact hedit.anchored (Stylesheet.anchored_of_parse hread)
  have hdecode := decode_mappings (pairwise_line_segments sheet.input .origin sheet.pieces)
  refine ⟨sheet.join_pieces, sheet.marks_pieces, _, _, _, rfl, rfl, hdecode, ?_⟩
  rw [← ofSheet, ofSheet_eq, List.map_map, List.forall₂_map_right_iff, List.forall₂_same]
  intro m hm
  obtain ⟨u, v, hprint, hreached⟩ := Stylesheet.exists_reached hm
  obtain ⟨u', v', hinput, hsource⟩ := Stylesheet.exists_source_of_mem_marks hsheet hm
  refine ⟨.ofText u, .ofText u', ?_, ?_, ?_⟩
  · rw [hprint, hreached, LineIndex.position?_append]
  · rw [hinput, hsource, LineIndex.position?_append]
  · rw [Function.comp_apply, Segment.mapping, hprint, hreached, hinput, hsource,
      Position.ofOffset_append, Position.ofOffset_append]

/-- An edit of a sheet: a line in front of every selector, and a comment at the end. -/
def editedSheet (read : Stylesheet) : Stylesheet :=
  (read.mapSelectors fun _ s => "i,\n".toList ++ s).append (.ofComment "e".toList)

/-- The edited sheet as it is written, its map included. -/
def editedText : Text :=
  "/*é*/\ni,\n.a\x7bb: 😀 ;\n@c d ;\x7d\n/*e*/".toList ++
    "\n/*# sourceMappingURL=data:application/json;base64,".toList ++
    "eyJ2ZXJzaW9uIjozLCJzb3VyY2VzIjpbInguY3NzIl0sIm5hbWVzIjpbXSwibWFwcGluZ3MiOiJB".toList ++
    "QUFBLEtBQUs7QUFDTDtHQUFHLEtBQUs7QUFDUixLQUFJLEVBQUciLCJmaWxlIjoieC5jc3MiLCJz".toList ++
    "b3VyY2VzQ29udGVudCI6WyIvKsOpKi9cbi5he2I6IPCfmIAgO1xuQGMgZCA7fSJdfQ==".toList ++
    " */".toList

theorem decode_printWithMap_edited :
    ∃ read, Stylesheet.parse "/*é*/\n.a\x7bb: 😀 ;\n@c d ;\x7d".toList = .ok read ∧
      (editedSheet read).EditOf read ∧
      (editedSheet read).marks =
        [⟨0, 0⟩, ⟨6, 6⟩, ⟨7, 7⟩, ⟨13, 10⟩, ⟨20, 17⟩, ⟨23, 20⟩, ⟨28, 24⟩, ⟨30, 27⟩] ∧
      (editedSheet read).printWithMap "x.css".toList = editedText ∧
      ∃ members mappings decoded,
        editedText = (editedSheet read).print ++
          "\n/*# sourceMappingURL=data:application/json;base64,".toList ++
            Base64.encode (Text.utf8 (Json.obj members).compact) ++ " */".toList ∧
        members.lookup "mappings".toList = some (.str mappings) ∧
        decode mappings = some decoded ∧
        List.Forall₂ (Locates (editedSheet read)) (editedSheet read).marks decoded := by
  obtain ⟨read, hread, hsheet⟩ := exists_ok_of_map
    (show ((Stylesheet.parse "/*é*/\n.a\x7bb: 😀 ;\n@c d ;\x7d".toList).toOption.map fun read =>
      decide ((editedSheet read).EditOf read ∧ (editedSheet read).marks =
        [⟨0, 0⟩, ⟨6, 6⟩, ⟨7, 7⟩, ⟨13, 10⟩, ⟨20, 17⟩, ⟨23, 20⟩, ⟨28, 24⟩, ⟨30, 27⟩] ∧
          (editedSheet read).printWithMap "x.css".toList = editedText)) =
            some true by decide +kernel)
  obtain ⟨hedit, hmarks, htext⟩ := of_decide_eq_true hsheet
  have hmap := (decode_printWithMap _ "x.css".toList (.inr ⟨_, read, hread, hedit⟩)).2.2
  rw [htext] at hmap
  exact ⟨read, hread, hedit, hmarks, htext, hmap⟩

/-! ## 4. The map of an untouched sheet -/

/-- In a sheet that was read, two places of the text that a mark joins have one position only if
    they are the same. -/
theorem printed_eq_source_iff {t : Text} {sheet : Stylesheet} (h : Stylesheet.parse t = .ok sheet)
    {m : Mark} (hm : m ∈ sheet.marks) :
    Position.ofOffset t m.reached = Position.ofOffset t m.source ↔ m.reached = m.source := by
  obtain ⟨-, hprint, hinput⟩ := Stylesheet.placed_of_parse h
  obtain ⟨u, v, ht, hreached⟩ := Stylesheet.exists_reached hm
  obtain ⟨u', v', ht', hsource⟩ :=
    Stylesheet.exists_source_of_mem_marks (Stylesheet.anchored_of_parse h) hm
  constructor
  · intro heq
    rw [hreached, hsource] at heq ⊢
    exact Position.ofOffset_injective (hprint ▸ ht) (hinput ▸ ht') heq
  · intro heq
    rw [heq]

/-- The marks of a sheet that was read are all in their places exactly if no node is printed beyond
    its span before its end is marked. -/
theorem reached_eq_source_iff {t : Text} {sheet : Stylesheet} (h : Stylesheet.parse t = .ok sheet) :
    (∀ m ∈ sheet.sourceMarks, m.reached = m.source) ↔
      ∀ n ∈ sheet.preorder, Text.size n.overrun = 0 := by
  constructor
  · intro hmarks n hn
    obtain ⟨u, w, -, hspan⟩ := Stylesheet.standsIn_of_parse h n hn
    have hend := hmarks _ ((mem_sourceMarksAll _ sheet.nodes).mpr ⟨n, hn, _, hspan, .inr rfl⟩)
    simp only at hend
    omega
  · intro hnodes m hm
    obtain ⟨n, hn, s, -, rfl | rfl⟩ := (mem_sourceMarksAll m sheet.nodes).mp hm
    · rfl
    · rw [hnodes n hn]
      rfl

/-- Only an at-rule without a block can be printed beyond its span before its end is marked. -/
theorem forall_overrun_iff (ns : List Node) :
    (∀ n ∈ ns, Text.size n.overrun = 0) ↔
      ∀ head layout, Node.atStatement head layout ∈ ns → layout.between = [] := by
  constructor
  · intro h head layout hmem
    exact Text.size_eq_zero.mp (h _ hmem)
  · intro h n hn
    cases n with
    | atStatement head layout => exact Text.size_eq_zero.mpr (h head layout hn)
    | rule _ _ _ _ => rfl
    | atBlock _ _ _ _ => rfl
    | decl _ _ => rfl
    | comment _ _ => rfl

/-- **The map of a sheet that was read takes the positions of the text to themselves**, but for the
    ends of at-rules without a block: they are marked behind the blanks in front of the `;`. -/
theorem ofSheet_untouched {t : Text} {sheet : Stylesheet} (h : Stylesheet.parse t = .ok sheet) :
    Piece.marks 0 sheet.pieces = sheet.sourceMarks ∧
      ofSheet sheet =
        sheet.sourceMarks.map (fun m => ⟨.ofOffset t m.reached, .ofOffset t m.source⟩) ∧
      ((∀ s ∈ ofSheet sheet, s.printed = s.source) ↔
        ∀ head layout, Node.atStatement head layout ∈ sheet.preorder → layout.between = []) := by
  obtain ⟨hplaced, hprint, hinput⟩ := Stylesheet.placed_of_parse h
  have hmarks : sheet.marks = sheet.sourceMarks :=
    PlacedAll.marks_eq 0 sheet.semicolon sheet.nodes hplaced
  have hsegments := ofSheet_eq sheet
  rw [hmarks, hprint, hinput] at hsegments
  refine ⟨sheet.marks_pieces.trans hmarks, hsegments, ?_⟩
  calc (∀ s ∈ ofSheet sheet, s.printed = s.source)
      ↔ ∀ m ∈ sheet.sourceMarks, Position.ofOffset t m.reached = Position.ofOffset t m.source := by
        rw [hsegments, List.forall_mem_map]
    _ ↔ ∀ m ∈ sheet.sourceMarks, m.reached = m.source :=
        forall₂_congr fun m hm => printed_eq_source_iff h (hmarks ▸ hm)
    _ ↔ ∀ n ∈ sheet.preorder, Text.size n.overrun = 0 := reached_eq_source_iff h
    _ ↔ _ := forall_overrun_iff sheet.preorder

theorem ofSheet_untouched_lines :
    ∃ sheet, Stylesheet.parse "@é 😀;\n.a\x7bb: c ;\n/*d*/\x7d".toList = .ok sheet ∧
      (∀ head layout, Node.atStatement head layout ∈ sheet.preorder → layout.between = []) ∧
      (ofSheet sheet).length = 8 ∧ ∀ s ∈ ofSheet sheet, s.printed = s.source := by
  obtain ⟨sheet, hread, hsheet⟩ := exists_ok_of_map
    (show ((Stylesheet.parse "@é 😀;\n.a\x7bb: c ;\n/*d*/\x7d".toList).toOption.map fun sheet =>
      decide ((∀ n ∈ sheet.preorder, Text.size n.overrun = 0) ∧ (ofSheet sheet).length = 8)) =
        some true by decide +kernel)
  obtain ⟨hall, hlength⟩ := of_decide_eq_true hsheet
  have hblanks := (forall_overrun_iff sheet.preorder).mp hall
  exact ⟨sheet, hread, hblanks, hlength, (ofSheet_untouched hread).2.2.mpr hblanks⟩

/-- The end of the at-rule stands in column 2, in front of the blank, and is marked in column 3. -/
theorem ofSheet_blank_end :
    ∃ sheet, Stylesheet.parse "@a ;".toList = .ok sheet ∧
      sheet.preorder.map Node.span = [some ⟨0, 2⟩] ∧
      ofSheet sheet = [⟨⟨0, 0⟩, ⟨0, 0⟩⟩, ⟨⟨0, 3⟩, ⟨0, 2⟩⟩] := by
  obtain ⟨sheet, hread, hsheet⟩ := exists_ok_of_map
    (show ((Stylesheet.parse "@a ;".toList).toOption.map fun sheet =>
      (sheet.preorder.map Node.span, ofSheet sheet)) =
        some ([some ⟨0, 2⟩], [⟨⟨0, 0⟩, ⟨0, 0⟩⟩, ⟨⟨0, 3⟩, ⟨0, 2⟩⟩]) by decide +kernel)
  obtain ⟨hspans, hsegments⟩ := Prod.mk.inj hsheet
  exact ⟨sheet, hread, hspans, hsegments⟩

end SourceMap

end StyleModules
