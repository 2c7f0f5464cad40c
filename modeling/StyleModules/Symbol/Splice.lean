import StyleModules.Symbol

/-!
Replacement of symbols while a text is read.

The text is read once, from left to right, and every token is looked up when its end is found. A
text without replacements is never copied: what is written begins with the first replacement, and
what stands between two is copied with the second. `Draft` says how far that is.

* Tokens and what stands between them are cut out by bytes. A cut inside a character cannot be made,
  and the result is `none`.
* A lookup has a state. It may count, remember, or answer otherwise the next time; `recording` is a
  lookup that keeps what it was asked.
-/

namespace StyleModules.Symbol

/-- What has been written while a text is read: nothing yet, or what stands for its first `copied`
    bytes. -/
structure Draft where
  written : Option Text
  copied : Nat
  deriving DecidableEq, Repr

namespace Draft

/-- Nothing yet. -/
def blank : Draft :=
  ⟨none, 0⟩

/-- Put the answer to a token that stands from byte `start` to `stop`: behind the bytes that were not
    copied yet, if there is one. -/
def put (value : Text) (start stop : Nat) (answer : Option Text) (d : Draft) : Option Draft :=
  match answer with
  | none => some d
  | some text => do
    let between ← value.slice? d.copied start
    return ⟨some (d.written.getD [] ++ between ++ text), stop⟩

/-- The whole text: itself, if nothing was written. -/
def finish (value : Text) (d : Draft) : Option Text :=
  match d.written with
  | none => some value
  | some written => do return written ++ (← value.dropBytes d.copied)

end Draft

section Splice

variable {σ : Type}

/-- Read on in a text from byte `start`, where `rest` stands. -/
def scan (lookup : Text → StateM σ (Option Text)) (value : Text) (start : Nat) (rest : Text)
    (d : Draft) (s : σ) : Option (Draft × σ) :=
  match rest with
  | [] => some (d, s)
  | c :: rest =>
    if startsToken c then do
      let stop := start + c.utf8Size + Text.size (rest.takeWhile Text.isIdentChar)
      let word ← value.slice? start stop
      let (answer, s) := (lookup word).run s
      let d ← d.put value start stop answer
      scan lookup value stop (rest.dropWhile Text.isIdentChar) d s
    else scan lookup value (start + c.utf8Size) rest d s
termination_by rest.length
decreasing_by
  · exact Nat.lt_succ_of_le (List.dropWhile_suffix _).length_le
  · exact Nat.lt_succ_self _

/-- Exchange the tokens of a text that have a replacement, and say what became of the lookup. -/
def splice (lookup : Text → StateM σ (Option Text)) (value : Text) (s : σ) : Option (Text × σ) := do
  let (d, s) ← scan lookup value 0 value .blank s
  return (← d.finish value, s)

/-- A lookup that also keeps what it was asked, in order. -/
def recording (lookup : Text → StateM σ (Option Text)) (word : Text) :
    StateM (σ × List Text) (Option Text) :=
  fun (s, asked) =>
    let (answer, s) := (lookup word).run s
    (answer, s, asked ++ [word])

end Splice

end StyleModules.Symbol
