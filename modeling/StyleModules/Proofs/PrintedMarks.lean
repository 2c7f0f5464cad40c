import StyleModules.SourceMap.Mappings
import StyleModules.Proofs.LineIndex

/-!
Where the marks of a printed sheet stand.

* `Node.extent` is what the span of a node covers when the node is read: all of it but the `;` of a
  statement and the blanks in front of that. The end of a node is marked there, save that of an
  at-rule without a block, which is marked behind its blanks (`Node.overrun`).
* `Stylesheet.marks` gives every mark with the number of bytes printed in front of it, read off the
  tree: a mark for the start of each node that has a span, those of its block, one for its end.
* `Piece.marks` gives the same, read off the printed pieces (`Stylesheet.marks_pieces`), and the
  segments of the source map are the positions of these marks (`SourceMap.ofSheet_eq`).
-/

namespace StyleModules

/-! ## 1. Marks -/

/-- A mark: the bytes printed in front of it, and the offset of the source that it is for. -/
structure Mark where
  reached : Nat
  source : Nat
  deriving DecidableEq, Repr

/-- The marks of a node that is printed between two offsets, around those of its block. -/
def Layout.marks (l : Layout) (start stop : Nat) (inner : List Mark) : List Mark :=
  (l.span.map fun s => Mark.mk start s.start).toList ++ inner ++
    (l.span.map fun s => Mark.mk stop s.stop).toList

namespace Node

/-- What the span of a node covers. -/
def extent : Node → Text
  | rule s l b ns => (rule s l b ns).print true
  | atBlock h l b ns => (atBlock h l b ns).print true
  | atStatement h _ => h.print
  | decl d l => d.print l.between
  | comment t l => (comment t l).print true

/-- What is printed between the last word of a node and the mark for its end. -/
def overrun : Node → Text
  | atStatement _ l => l.between
  | _ => []

/-- What is printed of a node in front of its block. -/
def opening : Node → Text
  | rule s l _ _ => s ++ l.between ++ ['\x7b']
  | atBlock h l _ _ => h.print ++ l.between ++ ['\x7b']
  | _ => []

end Node

mutual

/-- The marks of a node that is printed from an offset on. -/
def Node.marks (start : Nat) : Node → List Mark
  | .rule s l b ns =>
    l.marks start (start + Text.size (Node.rule s l b ns).extent)
      (marksAll (start + Text.size (Node.rule s l b ns).opening) b ns)
  | .atBlock h l b ns =>
    l.marks start (start + Text.size (Node.atBlock h l b ns).extent)
      (marksAll (start + Text.size (Node.atBlock h l b ns).opening) b ns)
  | .atStatement h l => l.marks start (start + Text.size h.print + Text.size l.between) []
  | .decl d l => l.marks start (start + Text.size (d.print l.between)) []
  | .comment t l => l.marks start (start + Text.size (Node.comment t l).extent) []

/-- The marks of a block that is printed from an offset on. -/
def marksAll (start : Nat) (semicolon : Bool) : List Node → List Mark
  | [] => []
  | n :: ns =>
    n.marks (start + Text.size n.before) ++
      marksAll (start + Text.size (n.before ++ n.print (!ns.isEmpty || semicolon))) semicolon ns

end

/-- The marks of a sheet. -/
def Stylesheet.marks (sheet : Stylesheet) : List Mark :=
  marksAll 0 sheet.semicolon sheet.nodes

/-! ## 2. Marks among pieces -/

namespace Piece

/-- The marks among pieces that are printed from an offset on. -/
def marks (reached : Nat) : List Piece → List Mark
  | [] => []
  | .text t :: ps => marks (reached + Text.size t) ps
  | .mark source :: ps => ⟨reached, source⟩ :: marks reached ps

theorem marks_append (reached : Nat) (ps qs : List Piece) :
    marks reached (ps ++ qs) =
      marks reached ps ++ marks (reached + Text.size (join ps)) qs := by
  induction ps generalizing reached with
  | nil => rfl
  | cons p ps ih =>
    cases p with
    | text t =>
      rw [List.cons_append, marks, marks, ih, join, Text.size_append, Nat.add_assoc]
    | mark source =>
      rw [List.cons_append, marks, marks, ih, join, List.cons_append]

@[simp] theorem marks_startMark (reached : Nat) (l : Layout) :
    marks reached l.startMark = (l.span.map fun s => Mark.mk reached s.start).toList := by
  unfold Layout.startMark
  cases l.span <;> rfl

@[simp] theorem marks_stopMark (reached : Nat) (l : Layout) :
    marks reached l.stopMark = (l.span.map fun s => Mark.mk reached s.stop).toList := by
  unfold Layout.stopMark
  cases l.span <;> rfl

/-- Every mark stands where the printed text can be cut. -/
theorem exists_of_mem_marks {pre : Text} {ps : List Piece} {m : Mark}
    (h : m ∈ marks (Text.size pre) ps) :
    ∃ u v, pre ++ join ps = u ++ v ∧ m.reached = Text.size u := by
  induction ps generalizing pre with
  | nil => cases h
  | cons p ps ih =>
    cases p with
    | text t =>
      rw [marks, ← Text.size_append] at h
      rw [join, ← List.append_assoc]
      exact ih h
    | mark source =>
      rcases List.mem_cons.mp h with rfl | h
      · exact ⟨pre, join ps, rfl, rfl⟩
      · exact ih h

end Piece

mutual

/-- The marks of a node are those among its pieces. -/
theorem Node.marks_pieces (start : Nat) (terminate : Bool) (n : Node) :
    Piece.marks start (n.pieces terminate) = n.marks start := by
  match n with
  | .rule s l b ns =>
    simp [Node.pieces, Node.marks, Node.extent, Node.opening, Node.print, Layout.marks,
      Piece.marks_append, Piece.marks, join_piecesAll b ns, marks_piecesAll _ b ns, Nat.add_assoc]
  | .atBlock h l b ns =>
    simp [Node.pieces, Node.marks, Node.extent, Node.opening, Node.print, Layout.marks,
      Piece.marks_append, Piece.marks, join_piecesAll b ns, marks_piecesAll _ b ns, Nat.add_assoc]
  | .atStatement h l =>
    simp [Node.pieces, Node.marks, Layout.marks, Piece.marks_append, Piece.marks, Nat.add_assoc]
  | .decl d l =>
    simp [Node.pieces, Node.marks, Layout.marks, Piece.marks_append, Piece.marks]
  | .comment t l =>
    simp [Node.pieces, Node.marks, Node.extent, Node.print, Layout.marks, Piece.marks_append,
      Piece.marks]

/-- The marks of a block are those among its pieces. -/
theorem marks_piecesAll (start : Nat) (semicolon : Bool) (ns : List Node) :
    Piece.marks start (piecesAll semicolon ns) = marksAll start semicolon ns := by
  match ns with
  | [] => rfl
  | n :: ns =>
    rw [piecesAll, List.cons_append, Piece.marks, Piece.marks_append, Node.marks_pieces _ _ n,
      Node.join_pieces, marks_piecesAll _ semicolon ns, marksAll, Text.size_append, Nat.add_assoc]

end

/-- **The marks of a sheet are those among its pieces.** -/
theorem Stylesheet.marks_pieces (sheet : Stylesheet) :
    Piece.marks 0 sheet.pieces = sheet.marks := by
  rw [pieces, Piece.marks_append, marks_piecesAll]
  exact List.append_nil _

/-! ## 3. Positions of marks -/

namespace Position

theorem line_through (p : Position) (t : Text) : (p.through t).line = p.line + t.count '\n' := by
  rw [through_eq]
  cases hcut : Text.cutAtLast (· == '\n') t with
  | some ab => rfl
  | none => rw [count_of_cutAtLast_eq_none hcut]; rfl

end Position

namespace SourceMap

/-- The segments of pieces are the positions of the marks among them; `pre` was printed before. -/
theorem segments_eq (input pre : Text) (ps : List Piece) :
    segments input (.ofText pre) ps = (Piece.marks (Text.size pre) ps).map fun m =>
      ⟨.ofOffset (pre ++ Piece.join ps) m.reached, .ofOffset input m.source⟩ := by
  induction ps generalizing pre with
  | nil => rfl
  | cons p ps ih =>
    cases p with
    | text t =>
      rw [segments, Piece.marks, Piece.join, ← Position.ofText_append, ih, Text.size_append,
        List.append_assoc]
    | mark source =>
      rw [segments, Piece.marks, Piece.join, ih, List.map_cons, Position.ofOffset_append]

/-- **The segments of a sheet are the positions of its marks.** -/
theorem ofSheet_eq (sheet : Stylesheet) :
    ofSheet sheet = sheet.marks.map fun m =>
      ⟨.ofOffset sheet.print m.reached, .ofOffset sheet.input m.source⟩ := by
  have hsegments := segments_eq sheet.input [] sheet.pieces
  rw [List.nil_append, Stylesheet.join_pieces] at hsegments
  rw [ofSheet, ← Stylesheet.marks_pieces]
  exact hsegments

theorem line_le_of_mem_segments {input : Text} {p : Position} {ps : List Piece} {s : Segment}
    (h : s ∈ segments input p ps) : p.line ≤ s.printed.line := by
  induction ps generalizing p with
  | nil => cases h
  | cons q ps ih =>
    cases q with
    | text t =>
      have hline := ih h
      rw [Position.line_through] at hline
      omega
    | mark source =>
      rcases List.mem_cons.mp h with rfl | h
      · exact Nat.le_refl _
      · exact ih h

/-- Printing does not go back to an earlier line. -/
theorem pairwise_line_segments (input : Text) (p : Position) (ps : List Piece) :
    ((segments input p ps).map fun s => s.printed.line).Pairwise (· ≤ ·) := by
  induction ps generalizing p with
  | nil => exact .nil
  | cons q ps ih =>
    cases q with
    | text t => exact ih (p.through t)
    | mark source =>
      refine List.pairwise_cons.mpr ⟨fun line hline => ?_, ih p⟩
      obtain ⟨s, hs, rfl⟩ := List.mem_map.mp hline
      exact line_le_of_mem_segments hs

end SourceMap

end StyleModules
