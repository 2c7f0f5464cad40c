import StyleModules.Text.Basic

/-!
Paths as texts with `/` between their segments.

* `normalize` resolves `.` and `..` by the text alone. Above the root of an absolute path there is
  nothing, so `..` has no effect there; at the start of a relative path it stays.
* `join` reads a path from a directory; an absolute path stands for itself.
* `relativeTo` goes from a directory to a path by the segments that they do not share.
-/

namespace StyleModules.Path

/-! ## 1. Segments -/

/-- The segment that stands for the directory it is in. -/
def here : Text :=
  ['.']

/-- The segment that stands for the directory above. -/
def above : Text :=
  ['.', '.']

/-- With `/` for every backslash. -/
def toPosix (t : Text) : Text :=
  t.map fun c => if c = '\\' then '/' else c

/-- Whether a path starts at the root. -/
def isAbsolute (t : Text) : Bool :=
  t.head? == some '/'

/-- The segments of a path, empty ones left out. -/
def segments (t : Text) : List Text :=
  (Text.splitBy (· == '/') t).filter fun s => !s.isEmpty

/-- The path with the given segments. -/
def ofSegments (absolute : Bool) (segs : List Text) : Text :=
  (if absolute then ['/'] else []) ++ Text.join ['/'] segs

/-! ## 2. Normal form -/

/-- Go one segment on from the segments passed, latest first. -/
def enter (absolute : Bool) (passed : List Text) (segment : Text) : List Text :=
  if segment = here then passed
  else if segment = above then
    match passed with
    | [] => if absolute then [] else [above]
    | last :: rest => if last = above then above :: passed else rest
  else segment :: passed

/-- Segments with `.` and `..` resolved. -/
def resolve (absolute : Bool) (segs : List Text) : List Text :=
  (segs.foldl (enter absolute) []).reverse

/-- The normal form of a path. -/
def normalize (t : Text) : Text :=
  let p := toPosix t
  ofSegments (isAbsolute p) (resolve (isAbsolute p) (segments p))

/-! ## 3. Joining and comparing -/

/-- A path read from a directory. -/
def join (dir path : Text) : Text :=
  if isAbsolute path then path
  else if dir.isEmpty || dir.getLast? == some '/' then dir ++ path
  else dir ++ '/' :: path

/-- What two lists do not share at their start. -/
def dropShared : List Text → List Text → List Text × List Text
  | a :: as, b :: bs => if a = b then dropShared as bs else (a :: as, b :: bs)
  | as, bs => (as, bs)

/-- The way from a directory to a path. -/
def relativeTo (path base : Text) : Text :=
  let (down, up) := dropShared (segments path) (segments base)
  Text.join ['/'] (List.replicate up.length above ++ down)

/-! ## 4. The directory of a path -/

/-- Where the components of a path end, given the pieces between its slashes and the number of
    characters in front of them. A `.` is a component only at the very start. -/
def endsFrom (pos : Nat) : List Text → List Nat
  | [] => []
  | piece :: pieces =>
    let stop := pos + piece.length
    let rest := endsFrom (stop + 1) pieces
    if piece.isEmpty || (piece = here && pos ≠ 0) then rest else stop :: rest

/-- The paths of the directories around a path, innermost first. -/
def ancestors (t : Text) : List Text :=
  match (endsFrom 0 (Text.splitBy (· == '/') t)).reverse with
  | [] => []
  | _ :: stops => stops.map (t.take ·) ++ [if isAbsolute t then ['/'] else []]

/-- The directory that a path is in. -/
def parent? (t : Text) : Option Text :=
  (ancestors t).head?

end StyleModules.Path
