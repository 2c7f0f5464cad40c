import StyleModules.Selector.Stretch

/-!
Marking the local names of a selector.

Every class and id of a selector is local unless the selector says otherwise, and a local one is
written `:local(.name)`. `:global(...)` and `:local(...)` decide for what stands inside them and
are themselves dropped; `:global` and `:local` without an argument decide for what follows, up to
the next comma of the same list, and are dropped with the blanks behind them.

* `lexeme` cuts a selector into items: what is copied, names, switches, wrappers and pseudo-classes
  with an argument.
* `localize` writes the items one after the other, and what stands inside them by itself.
-/

namespace StyleModules.Selector

/-- Whether names are local or global. -/
inductive Mode where
  | local
  | global
  deriving DecidableEq, Repr

/-- The mode that the name of a pseudo-class asks for, in any letter case. -/
def Mode.ofName? (name : Text) : Option Mode :=
  if Text.lower name = "global".toList then some .global
  else if Text.lower name = "local".toList then some .local
  else none

/-! ## 1. Items -/

/-- An item of a selector list. -/
inductive Item where
  /-- Copied as it stands. -/
  | plain (t : Text)
  /-- The comma between two selectors of the list. -/
  | comma
  /-- A class or id: its mark and its name, which is not empty. -/
  | name (mark : Char) (t : Text)
  /-- A mode for what follows; `t` is how it was written, with the blanks behind it. -/
  | switch (mode : Mode) (t : Text)
  /-- A mode for what stands inside; `head` is how it was written up to the parenthesis. -/
  | wrapper (mode : Mode) (head inside : Text) (closed : Bool)
  /-- A pseudo-class with an argument. -/
  | call (head inside : Text) (closed : Bool)
  deriving DecidableEq, Repr

/-- An item and the rest of the text. -/
structure Cut where
  item : Item
  rest : Text
  deriving DecidableEq, Repr

namespace Item

/-- The closing parenthesis, if there is one. -/
def close (closed : Bool) : Text :=
  if closed then [')'] else []

/-- The item as it was written. -/
def text : Item → Text
  | plain t => t
  | comma => [',']
  | name mark t => mark :: t
  | switch _ t => t
  | wrapper _ head inside closed => head ++ inside ++ close closed
  | call head inside closed => head ++ inside ++ close closed

/-- The selector list inside an item. -/
def inside : Item → Text
  | wrapper _ _ t _ => t
  | call _ t _ => t
  | _ => []

/-- The mode inside an item that stands in a mode. -/
def innerMode (mode : Mode) : Item → Mode
  | wrapper m _ _ _ => m
  | _ => mode

/-- The mode behind an item, the list having begun in `start`. -/
def modeAfter (start mode : Mode) : Item → Mode
  | comma => start
  | switch m _ => m
  | _ => mode

/-- The item with its local names marked, given what becomes of its inside. -/
def write (mode : Mode) (inner : Text) : Item → Text
  | plain t => t
  | comma => [',']
  | name mark t =>
    if mode = .local then ":local(".toList ++ mark :: (t ++ [')']) else mark :: t
  | switch _ _ => []
  | wrapper _ _ _ _ => inner
  | call head _ closed => head ++ inner ++ close closed

end Item

/-- Build an item from an argument and go on behind its closing parenthesis. -/
def withArgument (make : Text → Bool → Item) (t : Text) : Cut :=
  let (inside, rest) := argument t
  ⟨make inside (!rest.isEmpty), rest.tail⟩

/-- The item at a `:` that begins a pseudo-element: copied with its argument. -/
def pseudoElement (t : Text) : Cut :=
  let (name, rest) := identifier t
  let head := "::".toList ++ name
  match rest with
  | '(' :: t =>
    withArgument (fun inside closed => .plain (head ++ '(' :: inside ++ Item.close closed)) t
  | _ => ⟨.plain head, rest⟩

/-- The item at a `:` that begins a pseudo-class. -/
def pseudoClass (t : Text) : Cut :=
  let (name, rest) := identifier t
  let head := ':' :: name
  match Mode.ofName? name, rest with
  | some mode, '(' :: t => withArgument (.wrapper mode (head ++ ['('])) t
  | some mode, _ =>
    ⟨.switch mode (head ++ rest.takeWhile Text.isBlank), rest.dropWhile Text.isBlank⟩
  | none, '(' :: t => withArgument (.call (head ++ ['('])) t
  | none, _ => ⟨.plain head, rest⟩

/-- The first item of a text that begins with a character. -/
def lexeme (c : Char) (t : Text) : Cut :=
  if c = ',' then ⟨.comma, t⟩
  else if Text.isQuote c then
    let (s, rest) := string c t
    ⟨.plain (c :: s), rest⟩
  else if c = '[' then
    let (inside, rest) := bracketed '[' ']' none 1 t
    ⟨.plain (c :: (inside ++ rest.take 1)), rest.tail⟩
  else if c = '\\' then ⟨.plain (c :: t.take 1), t.tail⟩
  else if c = '.' || c = '#' then
    let (name, rest) := identifier t
    if name.isEmpty then ⟨.plain [c], t⟩ else ⟨.name c name, rest⟩
  else if c = ':' then
    match t with
    | ':' :: t => pseudoElement t
    | _ => pseudoClass t
  else ⟨.plain [c], t⟩

/-! ## 2. Items are shorter than the text -/

theorem withArgument_length (make : Text → Bool → Item) (t : Text)
    (hmake : ∀ inside closed, (make inside closed).inside.length ≤ inside.length) :
    (withArgument make t).rest.length ≤ t.length ∧
      (withArgument make t).item.inside.length ≤ t.length := by
  have h := bracketed_length '(' ')' none 1 t
  have hm := hmake (argument t).1 (!(argument t).2.isEmpty)
  have htail : (argument t).2.tail.length ≤ (argument t).2.length := by
    simp [List.length_tail]
  simp only [withArgument, argument] at *
  omega

theorem pseudoElement_length (t : Text) :
    (pseudoElement t).rest.length ≤ t.length ∧
      (pseudoElement t).item.inside.length ≤ t.length := by
  have h := identifier_length t
  unfold pseudoElement
  simp only
  split
  · next u hu =>
    rw [hu] at h
    have := withArgument_length
      (fun inside closed =>
        .plain ("::".toList ++ (identifier t).1 ++ '(' :: inside ++ Item.close closed))
      u (by intros; simp [Item.inside])
    simp only [List.length_cons] at h
    omega
  · simp [Item.inside]; omega

theorem pseudoClass_length (t : Text) :
    (pseudoClass t).rest.length ≤ t.length ∧
      (pseudoClass t).item.inside.length ≤ t.length := by
  have h := identifier_length t
  unfold pseudoClass
  simp only
  split
  · next mode u hm hu =>
    rw [hu] at h
    have := withArgument_length (.wrapper mode (':' :: (identifier t).1 ++ ['('])) u
      (by intros; simp [Item.inside])
    simp only [List.length_cons] at h
    omega
  · have := (List.dropWhile_suffix (l := (identifier t).2) Text.isBlank).length_le
    simp [Item.inside]; omega
  · next u hm hu =>
    rw [hu] at h
    have := withArgument_length (.call (':' :: (identifier t).1 ++ ['('])) u
      (by intros; simp [Item.inside])
    simp only [List.length_cons] at h
    omega
  · simp [Item.inside]; omega

/-- What follows an item is no longer than what follows its first character, and neither is what
    stands inside it. -/
theorem lexeme_length (c : Char) (t : Text) :
    (lexeme c t).rest.length ≤ t.length ∧ (lexeme c t).item.inside.length ≤ t.length := by
  unfold lexeme
  split
  · simp [Item.inside]
  split
  · have := string_length c t; simp [Item.inside]; omega
  split
  · have := bracketed_length '[' ']' none 1 t
    simp [Item.inside, List.length_tail]; omega
  split
  · simp [Item.inside, List.length_tail]
  split
  · have := identifier_length t
    simp only
    split <;> simp [Item.inside]; omega
  split
  · split
    · next u => have := pseudoElement_length u; simp only [List.length_cons]; omega
    · exact pseudoClass_length t
  · simp [Item.inside]

/-! ## 3. Marking -/

/-- Mark the local names of a selector list. Every selector of the list begins in `start`; `mode`
    is where the text stands. -/
def localize (start mode : Mode) : Text → Text
  | [] => []
  | c :: t =>
    have := lexeme_length c t
    let cut := lexeme c t
    let inner := localize (cut.item.innerMode mode) (cut.item.innerMode mode) cut.item.inside
    cut.item.write mode inner ++ localize start (cut.item.modeAfter start mode) cut.rest
termination_by t => t.length

/-- Mark the local names of a selector. -/
def markLocal (selector : Text) : Text :=
  localize .local .local selector

end StyleModules.Selector
