import StyleModules.Json.Basic
import StyleModules.Sheet.Printer
import StyleModules.SourceMap.Base64
import StyleModules.SourceMap.Position

/-!
Source maps: which position of a printed sheet came from which position of the text it was read
from.

* `segments` pairs the two positions for every mark of the printed pieces, in print order.
* `mappings` writes segments by their differences. A `;` goes to the next printed line, a `,`
  divides the segments of a line; the printed column starts again at 0 on every line, the
  position in the source does not.
* `Stylesheet.printWithMap` puts the map behind the sheet as a comment.
-/

namespace StyleModules

namespace SourceMap

/-- A printed position and the position in the source that it came from. -/
structure Segment where
  printed : Position
  source : Position
  deriving DecidableEq, Repr

/-- The segments of printed pieces, the printing having reached a position. -/
def segments (input : Text) : Position → List Piece → List Segment
  | _, [] => []
  | p, .text t :: ps => segments input (p.through t) ps
  | p, .mark offset :: ps => ⟨p, .ofOffset input offset⟩ :: segments input p ps

/-- What the next segment is written against: the printed line and column reached, whether the
    line has a segment already, and the last position in the source. -/
structure Reached where
  line : Nat
  column : Nat
  inLine : Bool
  source : Position
  deriving DecidableEq, Repr

/-- The difference of two numbers as digits. -/
def difference (now before : Nat) : Text :=
  Base64.vlq ((now : Int) - (before : Int))

/-- A segment by its differences; the second field is the number of the source, which is the
    only one. -/
def fields (column : Nat) (source : Position) (s : Segment) : Text :=
  difference s.printed.column column ++ Base64.vlq 0 ++
    difference s.source.line source.line ++ difference s.source.column source.column

/-- Segments written against what has been reached. -/
def mappingsFrom (r : Reached) : List Segment → Text
  | [] => []
  | s :: ss =>
    let here := Reached.mk s.printed.line s.printed.column true s.source
    let lines := s.printed.line - r.line
    if lines = 0 then
      (if r.inLine then [','] else []) ++ fields r.column r.source s ++ mappingsFrom here ss
    else List.replicate lines ';' ++ fields 0 r.source s ++ mappingsFrom here ss

/-- Segments written from the start. -/
def mappings (ss : List Segment) : Text :=
  mappingsFrom ⟨0, 0, false, .origin⟩ ss

/-- The segments of a sheet. -/
def ofSheet (sheet : Stylesheet) : List Segment :=
  segments sheet.input .origin sheet.pieces

/-- The map of a sheet for a source of the given name, the text itself included. -/
def toJson (sheet : Stylesheet) (source : Text) : Json :=
  .obj [
    ("version".toList, .ofNat 3),
    ("sources".toList, .arr [.str source]),
    ("names".toList, .arr []),
    ("mappings".toList, .str (mappings (ofSheet sheet))),
    ("file".toList, .str source),
    ("sourcesContent".toList, .arr [.str sheet.input])]

end SourceMap

/-- A sheet as written, with its source map in a comment at the end. -/
def Stylesheet.printWithMap (sheet : Stylesheet) (source : Text) : Text :=
  sheet.print ++ "\n/*# sourceMappingURL=data:application/json;base64,".toList ++
    Base64.encode (Text.utf8 (SourceMap.toJson sheet source).compact) ++ " */".toList

end StyleModules
