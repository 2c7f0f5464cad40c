import StyleModules.Text.Basic

/-!
Tables from names to values that keep the order in which names were first entered. Entering a
name again changes its value and leaves its place.

* `get?_upsert` says what a table holds after an entry.
* `keys_upsert` says in which order.
-/

namespace StyleModules

/-- Entries in the order of their first arrival. -/
structure Table (β : Type) where
  entries : List (Text × β)
  deriving DecidableEq, Repr

namespace Table

variable {β : Type}

/-- No entries. -/
def empty : Table β :=
  ⟨[]⟩

instance : EmptyCollection (Table β) :=
  ⟨empty⟩

/-- The value of a name in a list of entries. -/
def findEntry (name : Text) : List (Text × β) → Option β
  | [] => none
  | (key, v) :: es => if key = name then some v else findEntry name es

/-- The value of a name. -/
def get? (t : Table β) (name : Text) : Option β :=
  findEntry name t.entries

/-- Whether a name has been entered. -/
def contains (t : Table β) (name : Text) : Bool :=
  (t.get? name).isSome

/-- The names in order. -/
def keys (t : Table β) : List Text :=
  t.entries.map Prod.fst

/-- The number of names. -/
def size (t : Table β) : Nat :=
  t.entries.length

/-- Whether nothing has been entered. -/
def isEmpty (t : Table β) : Bool :=
  t.entries.isEmpty

/-- Change the value of a name in a list of entries; a new name goes to the end. -/
def upsertEntry (name : Text) (f : Option β → β) : List (Text × β) → List (Text × β)
  | [] => [(name, f none)]
  | (key, v) :: es =>
    if key = name then (key, f (some v)) :: es else (key, v) :: upsertEntry name f es

/-- Change the value of a name, given what it was; a new name goes to the end. -/
def upsert (t : Table β) (name : Text) (f : Option β → β) : Table β :=
  ⟨upsertEntry name f t.entries⟩

/-- Enter a value. -/
def insert (t : Table β) (name : Text) (v : β) : Table β :=
  t.upsert name fun _ => v

/-- Enter several values, one after the other. -/
def insertAll (t : Table β) (es : List (Text × β)) : Table β :=
  es.foldl (fun t e => t.insert e.1 e.2) t

/-- The table of a list of entries. -/
def ofList (es : List (Text × β)) : Table β :=
  empty.insertAll es

theorem findEntry_upsertEntry (name other : Text) (f : Option β → β) (es : List (Text × β)) :
    findEntry other (upsertEntry name f es) =
      if other = name then some (f (findEntry name es)) else findEntry other es := by
  induction es with
  | nil => simp [upsertEntry, findEntry, eq_comm]
  | cons e es ih =>
    obtain ⟨key, v⟩ := e
    simp only [upsertEntry, findEntry]
    by_cases hk : key = name
    · subst hk
      by_cases h : other = key
      · simp [h, findEntry]
      · simp [h, findEntry, Ne.symm (Ne.intro h)]
    · by_cases h : other = name
      · subst h; simp [hk, findEntry, ih]
      · simp [hk, findEntry, h, ih]

/-- An entry is found under its name and disturbs no other. -/
theorem get?_upsert (t : Table β) (name other : Text) (f : Option β → β) :
    (t.upsert name f).get? other =
      if other = name then some (f (t.get? name)) else t.get? other :=
  findEntry_upsertEntry name other f t.entries

/-- What is entered is found. -/
theorem get?_insert (t : Table β) (name other : Text) (v : β) :
    (t.insert name v).get? other = if other = name then some v else t.get? other :=
  get?_upsert t name other _

theorem map_fst_upsertEntry (name : Text) (f : Option β → β) (es : List (Text × β)) :
    (upsertEntry name f es).map Prod.fst =
      if name ∈ es.map Prod.fst then es.map Prod.fst else es.map Prod.fst ++ [name] := by
  induction es with
  | nil => simp [upsertEntry]
  | cons e es ih =>
    obtain ⟨key, v⟩ := e
    by_cases hk : key = name
    · subst hk; simp [upsertEntry]
    · have hne : ¬name = key := fun e => hk e.symm
      simp only [upsertEntry, hk, if_false, List.map_cons, ih, List.mem_cons, hne, false_or]
      split <;> rfl

/-- A known name keeps its place, a new one goes to the end. -/
theorem keys_upsert (t : Table β) (name : Text) (f : Option β → β) :
    (t.upsert name f).keys = if name ∈ t.keys then t.keys else t.keys ++ [name] :=
  map_fst_upsertEntry name f t.entries

end Table

end StyleModules
