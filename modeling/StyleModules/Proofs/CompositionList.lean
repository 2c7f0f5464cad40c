import StyleModules.Pass.LocalNames
import StyleModules.Pass.ScopedNames
import StyleModules.Proofs.SelectorGrammar

/-!
What compositions mean.

* `Composed` is a name that a composition adds to a class: one of the same sheet, a global one or
  one of another sheet. `Composed.ofText` reads them off a declaration: names, and perhaps `from`
  and a source behind them.
* `Stylesheet.compositions` are the compositions of a sheet in order, each with the class that it
  adds to: rule by rule from top to bottom, a rule before the rules inside it.
* `composedList` is the list of a class. It begins with the class's own scoped name, and every
  composition adds what the composed name means at that point. For a name of the same sheet that is
  the list it has so far.
-/

namespace StyleModules

/-! ## 1. Lists -/

section Lists

variable {α β : Type}

/-- The list of a class after compositions, the last one first. `meaning` is what a composed name
    adds, given the lists so far. -/
def composedList (generate : Text → Text) (meaning : (Text → List Text) → α → List Text) :
    List (Text × α) → Text → List Text
  | [], c => [generate c]
  | (composer, x) :: earlier, c =>
    let lists := composedList generate meaning earlier
    if c = composer then lists c ++ meaning lists x else lists c

variable {generate : Text → Text} {meaning : (Text → List Text) → α → List Text}

/-- Every list holds the scoped name of its class. -/
theorem generate_mem_composedList (events : List (Text × α)) (c : Text) :
    generate c ∈ composedList generate meaning events c := by
  induction events with
  | nil => exact List.mem_singleton_self _
  | cons e earlier ih =>
    obtain ⟨composer, x⟩ := e
    rw [composedList]
    split
    · exact List.mem_append_left _ ih
    · exact ih

/-- A class without compositions has its scoped name only. -/
theorem composedList_of_not_mem {events : List (Text × α)} {c : Text}
    (h : ∀ p ∈ events, c ≠ p.1) : composedList generate meaning events c = [generate c] := by
  induction events with
  | nil => rfl
  | cons e earlier ih =>
    obtain ⟨composer, x⟩ := e
    rw [composedList, if_neg (h _ List.mem_cons_self)]
    exact ih fun p hp => h p (List.mem_cons_of_mem _ hp)

/-- What holds of all that is composed holds of all that stands in a list. `P` are the classes whose
    lists are looked at. -/
theorem of_mem_composedList {P R : Text → Prop} (hgen : ∀ n, P n → R (generate n))
    {events : List (Text × α)}
    (hmeaning : ∀ p ∈ events, ∀ lists : Text → List Text, (∀ n, P n → ∀ w ∈ lists n, R w) →
      ∀ w ∈ meaning lists p.2, R w)
    {c : Text} (hc : P c) : ∀ w ∈ composedList generate meaning events c, R w := by
  induction events generalizing c with
  | nil =>
    intro w hw
    rw [List.mem_singleton.mp hw]
    exact hgen c hc
  | cons e earlier ih =>
    obtain ⟨composer, x⟩ := e
    have ih' := fun n hn => ih (fun p hp => hmeaning p (List.mem_cons_of_mem _ hp)) (c := n) hn
    intro w hw
    rw [composedList] at hw
    split at hw
    · rcases List.mem_append.mp hw with hw | hw
      · exact ih' c hc w hw
      · exact hmeaning _ List.mem_cons_self _ ih' w hw
    · exact ih' c hc w hw

/-- Lists can be expanded after all compositions or before: what holds of single names holds of
    lists. `P` are the classes whose lists are looked at. -/
theorem flatMap_composedList {meaning' : (Text → List Text) → β → List Text} {word : β → α}
    {expand : Text → List Text} {P : Text → Prop}
    (hgen : ∀ n, P n → expand (generate n) = [generate n]) {events : List (Text × β)}
    (hmeaning : ∀ p ∈ events, ∀ lists lists' : Text → List Text,
      (∀ n, P n → (lists n).flatMap expand = lists' n) →
        (meaning lists (word p.2)).flatMap expand = meaning' lists' p.2)
    {c : Text} (hc : P c) :
    (composedList generate meaning (events.map fun p => (p.1, word p.2)) c).flatMap expand =
      composedList generate meaning' events c := by
  induction events generalizing c with
  | nil => simp [composedList, hgen c hc]
  | cons e earlier ih =>
    obtain ⟨composer, x⟩ := e
    have ih' := fun n hn => ih (fun p hp => hmeaning p (List.mem_cons_of_mem _ hp)) (c := n) hn
    rw [List.map_cons, composedList, composedList]
    split
    · rw [List.flatMap_append, ih' c hc, hmeaning _ List.mem_cons_self _ _ ih']
    · exact ih' c hc

end Lists

/-! ## 2. Composed names -/

/-- A name that is composed into a class, by where it comes from. -/
inductive Composed where
  | here (name : Text)
  | global (name : Text)
  | imported (path name : Text)
  deriving DecidableEq, Repr

namespace Composed

/-- The path in a word that is a quoted path. -/
def quotedPath? : Text → Option Text
  | [] => none
  | mark :: t => if Text.isQuote mark && t.getLast? = some mark then some t.dropLast else none

/-- The names of a composition: all words, or those in front of `from` and a source. -/
def ofWords (words : List Text) : List Composed :=
  match words.reverse with
  | source :: keyword :: name :: names =>
    if keyword = "from".toList then
      if source = "global".toList then (name :: names).reverse.map global
      else
        match quotedPath? source with
        | some path => (name :: names).reverse.map (imported path)
        | none => words.map here
    else words.map here
  | _ => words.map here

/-- The names that the value of a declaration composes. -/
def ofText (value : Text) : List Composed :=
  ofWords (Text.words value)

/-- A name that nobody takes for an alias. -/
def isFree (name : Text) : Bool :=
  Selector.isName name && !"i__".toList.isPrefixOf name

theorem isName_of_isFree {name : Text} (h : isFree name) : Selector.isName name :=
  (Bool.and_eq_true_iff.mp h).1

/-- Names have characters of names only and are free; paths have no quotation marks and no
    backslashes. -/
def valid : Composed → Bool
  | here name => isFree name
  | global name => isFree name
  | imported path name =>
    isFree name && path.all fun c => !Text.isQuote c && c != '\\'

/-- What a composed name adds to a list, given the lists of the sheet so far and those of other
    sheets. -/
def meaning (elsewhere : Text → Text → List Text) (lists : Text → List Text) :
    Composed → List Text
  | here name => lists name
  | global name => [name]
  | imported path name => elsewhere path name

end Composed

/-! ## 3. Sheets -/

mutual

/-- The compositions of a node and below, each with the class that it adds to. The class of a rule
    is the only one of its selector. -/
def Node.compositions (around : List Text) : Node → List (Text × Composed)
  | .rule s _ _ ns =>
    (match ScopedNames.composer? (LocalNames.selector around s) with
      | some c =>
        (ScopedNames.compositions ns).flatMap fun d => (Composed.ofText d.value).map ((c, ·))
      | none => []) ++ compositionsAll around ns
  | .atBlock h _ _ ns => compositionsAll (around ++ [h.name]) ns
  | _ => []

/-- The compositions of a block. -/
def compositionsAll (around : List Text) : List Node → List (Text × Composed)
  | [] => []
  | n :: ns => n.compositions around ++ compositionsAll around ns

end

namespace Stylesheet

/-- The compositions of a sheet, from top to bottom. -/
def compositions (sheet : Stylesheet) : List (Text × Composed) :=
  compositionsAll [] sheet.nodes

/-- All names that compositions of a sheet have in them, wherever they stand. -/
def composedNames (sheet : Stylesheet) : List Composed :=
  (sheet.decls.filter fun d => Interface.isComposition d.prop).flatMap fun d =>
    Composed.ofText d.value

/-- The classes and ids of a sheet that are local. -/
def localNames (sheet : Stylesheet) : List Text :=
  sheet.selectors.flatMap fun p => LocalMark.names (LocalNames.selector p.2 p.1)

end Stylesheet

end StyleModules
