import StyleModules.Path

/-!
A tree of files, and what may go wrong when a path is followed into it.

* A place is the list of names on the way from the root; `Disk.get?` says what stands there.
* `Disk.follow` follows a path one component at a time, as it is written: every component but the
  last has to be a directory, and `..` goes up from where the path has led.
-/

namespace StyleModules

/-- Why an operation on files fails. -/
inductive IoError where
  | notFound
  | alreadyExists
  | notADirectory
  | isADirectory
  | nameTooLong
  | nulInName
  | notUtf8
  | noParent
  deriving DecidableEq, Repr

/-- The words in which a failure is reported. -/
def IoError.message : IoError → Text
  | notFound => "No such file or directory (os error 2)".toList
  | alreadyExists => "File exists (os error 17)".toList
  | notADirectory => "Not a directory (os error 20)".toList
  | isADirectory => "Is a directory (os error 21)".toList
  | nameTooLong => "File name too long (os error 36)".toList
  | nulInName => "file name contained an unexpected NUL byte".toList
  | notUtf8 => "stream did not contain valid UTF-8".toList
  | noParent => "failed to create whole tree".toList

/-- A file or a directory. -/
inductive Entry where
  | file (bytes : List UInt8)
  | dir
  deriving DecidableEq, Repr

/-- The names on the way from the root. -/
abbrev Place := List Text

/-- What stands at which place, and the place that relative paths start from. The root itself is
    always there. -/
structure Disk where
  cwd : Place
  entries : List (Place × Entry)
  deriving DecidableEq, Repr

namespace Disk

/-! ## 1. Places -/

/-- What stands at a place, by a list of entries. -/
def findEntry (place : Place) : List (Place × Entry) → Option Entry
  | [] => none
  | (p, e) :: es => if p = place then some e else findEntry place es

/-- What stands at a place. -/
def get? (d : Disk) (place : Place) : Option Entry :=
  if place = [] then some .dir else findEntry place d.entries

/-- Set what stands at a place, in a list of entries. -/
def putEntry (place : Place) (e : Entry) : List (Place × Entry) → List (Place × Entry)
  | [] => [(place, e)]
  | (p, old) :: es => if p = place then (p, e) :: es else (p, old) :: putEntry place e es

/-- Set what stands at a place. -/
def put (d : Disk) (place : Place) (e : Entry) : Disk :=
  { d with entries := putEntry place e d.entries }

/-- Take away a place and all below it. -/
def remove (d : Disk) (place : Place) : Disk :=
  { d with entries := d.entries.filter fun e => !place.isPrefixOf e.1 }

/-- The name of a place that is directly below another. -/
def childName? (place below : Place) : Option Text :=
  match place.isPrefixOf? below with
  | some [name] => some name
  | _ => none

/-- Whether a name comes before another or is the same, by the code points of their characters. -/
def nameLE (a b : Text) : Bool :=
  !List.lex b a fun c d => c.toNat < d.toNat

/-- The names directly below a place, sorted. -/
def names (d : Disk) (place : Place) : List Text :=
  (d.entries.filterMap fun e => childName? place e.1).mergeSort nameLE

/-- The length of the longest way to a place. -/
def depth (d : Disk) : Nat :=
  d.entries.foldl (fun n e => max n e.1.length) 0

/-- Names that stand in order are listed as they stand. -/
theorem names_of_pairwise {d : Disk} {place : Place} {names : List Text}
    (h : d.entries.filterMap (fun e => childName? place e.1) = names)
    (hnames : names.Pairwise fun a b => nameLE a b = true) : d.names place = names := by
  rw [Disk.names, h]
  exact List.mergeSort_of_pairwise hnames

theorem get?_put (d : Disk) (place other : Place) (e : Entry) (h : place ≠ []) :
    (d.put place e).get? other = if other = place then some e else d.get? other := by
  have hes : ∀ es, findEntry other (putEntry place e es) =
      if other = place then some e else findEntry other es := by
    intro es
    induction es with
    | nil => simp [putEntry, findEntry, eq_comm]
    | cons x es ih =>
      obtain ⟨p, old⟩ := x
      simp only [putEntry, findEntry]
      by_cases hp : p = place
      · subst hp
        by_cases ho : other = p
        · simp [ho, findEntry]
        · simp [findEntry, ho, Ne.symm (Ne.intro ho)]
      · by_cases ho : other = place
        · subst ho; simp [hp, findEntry, ih]
        · simp [hp, findEntry, ho, ih]
  by_cases ho : other = []
  · subst ho
    simp [get?, Ne.symm h]
  · simp [get?, ho, put, hes]

/-! ## 2. Following paths -/

/-- The longest name, in bytes. -/
def maxName : Nat :=
  255

/-- The size from which on a path is too long, in bytes. -/
def maxPath : Nat :=
  4096

/-- Where a path starts, its components, and whether it asks for a directory by a `/` at the
    end. -/
structure Route where
  start : Place
  components : List Text
  slash : Bool
  deriving DecidableEq, Repr

/-- Take a path apart. -/
def route (d : Disk) (path : Text) : Except IoError Route :=
  if path.any (· == '\x00') then .error .nulInName
  else if path = [] then .error .notFound
  else if maxPath ≤ Text.size path then .error .nameTooLong
  else
    .ok ⟨if Path.isAbsolute path then [] else d.cwd, Path.segments path,
      path.getLast? == some '/'⟩

/-- Follow components from a place on. -/
def follow (d : Disk) (place : Place) : List Text → Except IoError Place
  | [] => .ok place
  | c :: cs =>
    match d.get? place with
    | none => .error .notFound
    | some (.file _) => .error .notADirectory
    | some .dir =>
      if c = Path.here then follow d place cs
      else if c = Path.above then follow d place.dropLast cs
      else if maxName < Text.size c then .error .nameTooLong
      else if (d.get? (place ++ [c])).isNone then .error .notFound
      else follow d (place ++ [c]) cs

/-- The place that a path leads to. -/
def locate (d : Disk) (path : Text) : Except IoError Place :=
  (d.route path).bind fun r =>
    d.follow r.start (r.components ++ if r.slash then [Path.here] else [])

/-- Whether a path leads to a directory. -/
def isDir (d : Disk) (path : Text) : Bool :=
  match d.locate path with
  | .ok place => d.get? place == some .dir
  | .error _ => false

/-- The bytes of the file that a path leads to. -/
def read (d : Disk) (path : Text) : Except IoError (List UInt8) :=
  (d.locate path).bind fun place =>
    match d.get? place with
    | some (.file bytes) => .ok bytes
    | some .dir => .error .isADirectory
    | none => .error .notFound

/-- The place of a new entry, in a directory that is there. A path that cannot name one is reported
    as `taken`, however long its last name is: it ends with `.` or `..`, or it asks for a directory
    by a `/` at the end where that is forbidden. -/
def slot (d : Disk) (r : Route) (slashForbidden : Bool) (taken : IoError) :
    Except IoError Place :=
  match r.components.getLast? with
  | none => .error taken
  | some name =>
    (d.follow r.start r.components.dropLast).bind fun place =>
      if d.get? place ≠ some .dir then .error .notADirectory
      else if name = Path.here || name = Path.above || (slashForbidden && r.slash) then .error taken
      else if maxName < Text.size name then .error .nameTooLong
      else .ok (place ++ [name])

/-! ## 3. Changes -/

/-- Changes of the files. A change that fails leaves what it did before it failed. -/
abbrev Action := EStateM IoError Disk

/-- Set what stands at the place that a path leads to, if there is such a place. -/
def putAt (place : Disk → Except IoError Place) (e : Entry) : Action Unit := fun d =>
  match place d with
  | .ok place => .ok () (d.put place e)
  | .error e => .error e d

/-- Make a directory in one that is there. -/
def makeDir (path : Text) : Action Unit :=
  putAt (fun d =>
    (d.route path).bind fun r =>
      (d.slot r false .alreadyExists).bind fun place =>
        if (d.get? place).isSome then .error .alreadyExists else .ok place) .dir

/-- Write a file in a directory that is there. -/
def write (path : Text) (bytes : List UInt8) : Action Unit :=
  putAt (fun d =>
    (d.route path).bind fun r =>
      (d.slot r true .isADirectory).bind fun place =>
        if d.get? place == some .dir then .error .isADirectory else .ok place)
    (.file bytes)

/-- Write a copy of a file. -/
def copy (source target : Text) : Action Unit := fun d =>
  match d.read source with
  | .ok bytes => write target bytes d
  | .error e => .error e d

/-- A failure to make a directory is none if the directory is there. -/
def orThere (path : Text) (e : IoError) : Action Unit := fun d =>
  if d.isDir path then .ok () d else .error e d

/-- Make the directory at the head of a list of paths. The rest of the list are the directories
    around it, innermost first, and are made where they are missing. -/
def makeDirs : List Text → Action Unit
  | [], d => .error .noParent d
  | path :: around, d =>
    if path = [] then .ok () d
    else
      match makeDir path d with
      | .ok () d => .ok () d
      | .error .notFound d =>
        match makeDirs around d with
        | .error e d => .error e d
        | .ok () d =>
          match makeDir path d with
          | .ok () d => .ok () d
          | .error e d => orThere path e d
      | .error e d => orThere path e d

/-- Make sure that a directory is there. -/
def ensureDir (path : Text) : Action Unit :=
  makeDirs (path :: Path.ancestors path)

end Disk

end StyleModules
