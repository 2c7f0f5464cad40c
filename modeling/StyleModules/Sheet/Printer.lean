import StyleModules.Sheet.Basic

/-!
Writing a style sheet.

* `Stylesheet.print` joins the words and the layout of all nodes. A statement gets its `;` unless
  it is the last node of a block that says otherwise.
* `Stylesheet.pieces` is the same text in pieces, with a mark wherever a node that was read from
  text begins or ends. The marks are what a source map is made of.
-/

namespace StyleModules

/-- The `;` of a statement, if it gets one. -/
def terminator (terminate : Bool) : Text :=
  if terminate then [';'] else []

/-- The words of an at-rule as written. -/
def AtHead.print (h : AtHead) : Text :=
  '@' :: (h.name ++ h.gap ++ h.params)

/-- The words of a declaration as written, with the `:` and its blanks between them. -/
def Decl.print (d : Decl) (between : Text) : Text :=
  d.prop ++ between ++ d.value ++ d.important.getD []

mutual

/-- A node without the blanks in front of it. -/
def Node.print (terminate : Bool) : Node → Text
  | .rule s l b ns => s ++ l.between ++ '\x7b' :: (printAll b ns ++ l.after ++ ['\x7d'])
  | .atBlock h l b ns => h.print ++ l.between ++ '\x7b' :: (printAll b ns ++ l.after ++ ['\x7d'])
  | .atStatement h l => h.print ++ l.between ++ terminator terminate
  | .decl d l => d.print l.between ++ l.after ++ terminator terminate
  | .comment t _ => "/*".toList ++ t ++ "*/".toList

/-- The nodes of a block, each behind its blanks. -/
def printAll (semicolon : Bool) : List Node → Text
  | [] => []
  | n :: ns => n.before ++ n.print (!ns.isEmpty || semicolon) ++ printAll semicolon ns

end

/-- A style sheet as written. -/
def Stylesheet.print (sheet : Stylesheet) : Text :=
  printAll sheet.semicolon sheet.nodes ++ sheet.after

/-! ## Pieces and marks -/

/-- Written text, or a mark that here stands what stood at an offset of the text read. -/
inductive Piece where
  | text (t : Text)
  | mark (offset : Nat)
  deriving DecidableEq, Repr

/-- The mark for the start of a node that was read from text. -/
def Layout.startMark (l : Layout) : List Piece :=
  (l.span.map fun s => Piece.mark s.start).toList

/-- The mark for the end of a node that was read from text. -/
def Layout.stopMark (l : Layout) : List Piece :=
  (l.span.map fun s => Piece.mark s.stop).toList

mutual

/-- A node in pieces. The end of a declaration is marked before its trailing blanks, that of an
    at-rule without a block behind them; `;` is outside either. -/
def Node.pieces (terminate : Bool) : Node → List Piece
  | .rule s l b ns =>
    l.startMark ++ [.text (s ++ l.between ++ ['\x7b'])] ++ piecesAll b ns ++
      [.text (l.after ++ ['\x7d'])] ++ l.stopMark
  | .atBlock h l b ns =>
    l.startMark ++ [.text (h.print ++ l.between ++ ['\x7b'])] ++ piecesAll b ns ++
      [.text (l.after ++ ['\x7d'])] ++ l.stopMark
  | .atStatement h l =>
    l.startMark ++ [.text (h.print ++ l.between)] ++ l.stopMark ++ [.text (terminator terminate)]
  | .decl d l =>
    l.startMark ++ [.text (d.print l.between)] ++ l.stopMark ++
      [.text (l.after ++ terminator terminate)]
  | .comment t l =>
    l.startMark ++ [.text ("/*".toList ++ t ++ "*/".toList)] ++ l.stopMark

/-- The nodes of a block in pieces. -/
def piecesAll (semicolon : Bool) : List Node → List Piece
  | [] => []
  | n :: ns => .text n.before :: n.pieces (!ns.isEmpty || semicolon) ++ piecesAll semicolon ns

end

/-- A style sheet in pieces. -/
def Stylesheet.pieces (sheet : Stylesheet) : List Piece :=
  piecesAll sheet.semicolon sheet.nodes ++ [.text sheet.after]

/-- The text of a list of pieces. -/
def Piece.join : List Piece → Text
  | [] => []
  | .text t :: ps => t ++ join ps
  | .mark _ :: ps => join ps

namespace Piece

@[simp] theorem join_append (ps qs : List Piece) : join (ps ++ qs) = join ps ++ join qs := by
  induction ps with
  | nil => rfl
  | cons p ps ih => cases p <;> simp [join, ih]

@[simp] theorem join_startMark (l : Layout) : join l.startMark = [] := by
  unfold Layout.startMark; cases l.span <;> rfl

@[simp] theorem join_stopMark (l : Layout) : join l.stopMark = [] := by
  unfold Layout.stopMark; cases l.span <;> rfl

end Piece

mutual

/-- The pieces of a node are the node as written. -/
theorem Node.join_pieces (terminate : Bool) (n : Node) :
    Piece.join (n.pieces terminate) = n.print terminate := by
  match n with
  | .rule s l b ns => simp [Node.pieces, Node.print, Piece.join, join_piecesAll b ns]
  | .atBlock h l b ns => simp [Node.pieces, Node.print, Piece.join, join_piecesAll b ns]
  | .atStatement h l => simp [Node.pieces, Node.print, Piece.join]
  | .decl d l => simp [Node.pieces, Node.print, Piece.join]
  | .comment t l => simp [Node.pieces, Node.print, Piece.join]

/-- The pieces of a block are the block as written. -/
theorem join_piecesAll (semicolon : Bool) (ns : List Node) :
    Piece.join (piecesAll semicolon ns) = printAll semicolon ns := by
  match ns with
  | [] => rfl
  | n :: ns =>
    simp [piecesAll, printAll, Piece.join, Node.join_pieces _ n, join_piecesAll semicolon ns]

end

/-- The marks change nothing in the text. -/
theorem Stylesheet.join_pieces (sheet : Stylesheet) : Piece.join sheet.pieces = sheet.print := by
  simp [pieces, print, join_piecesAll, Piece.join]

end StyleModules
