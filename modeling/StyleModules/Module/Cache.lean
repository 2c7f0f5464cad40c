import StyleModules.Table

/-!
A cache of loads.

A load is kept in a slot from its first request on. The slot is found again by the key of the
module until the cache is cleared; whoever has the slot's number reaches the load afterwards too.
A load runs when its result is first asked for, and only then.

* `request` finds or makes the slot for a key; a load given for a known key is dropped.
* `await` runs the load of a slot, unless that was done before, and returns the result.
* `started` counts the slots ever made.
-/

namespace StyleModules

/-- A load that waits, one that is running, or a result. -/
inductive Slot (Job Result : Type) where
  | waiting (job : Job)
  | running
  | finished (result : Result)
  deriving DecidableEq, Repr

/-- The slots by number, and the numbers by key. -/
structure Cache (Job Result : Type) where
  slots : List (Slot Job Result)
  index : Table Nat
  deriving DecidableEq, Repr

namespace Cache

variable {Job Result : Type}

/-- Nothing requested. -/
def empty : Cache Job Result :=
  ⟨[], .empty⟩

/-- How many loads were stored. -/
def started (c : Cache Job Result) : Nat :=
  c.slots.length

/-- What is in a slot. -/
def slot? (c : Cache Job Result) (number : Nat) : Option (Slot Job Result) :=
  c.slots[number]?

/-- Set what is in a slot. -/
def setSlot (c : Cache Job Result) (number : Nat) (s : Slot Job Result) : Cache Job Result :=
  { c with slots := c.slots.set number s }

/-- Whether a key was requested since the cache was last cleared. -/
def knows (c : Cache Job Result) (key : Text) : Bool :=
  c.index.contains key

/-- The slot for a key, made with the given load if there is none. -/
def request (c : Cache Job Result) (key : Text) (job : Job) : Nat × Cache Job Result :=
  match c.index.get? key with
  | some number => (number, c)
  | none =>
    (c.slots.length, ⟨c.slots ++ [.waiting job], c.index.insert key c.slots.length⟩)

/-- Forget the keys. -/
def clear (c : Cache Job Result) : Cache Job Result :=
  { c with index := .empty }

/-- The result of a slot, and whether its load ran just now. -/
def await (run : Job → Result) (c : Cache Job Result) (number : Nat) :
    Option Result × Bool × Cache Job Result :=
  match c.slot? number with
  | some (.finished result) => (some result, false, c)
  | some (.waiting job) => (some (run job), true, c.setSlot number (.finished (run job)))
  | _ => (none, false, c)

/-! ## What a request changes -/

/-- A key is known from its first request on. -/
theorem knows_request (c : Cache Job Result) (key other : Text) (job : Job) :
    (c.request key job).2.knows other = (decide (other = key) || c.knows other) := by
  unfold request knows Table.contains
  split
  · next number h =>
    by_cases e : other = key
    · subst e; simp [h]
    · simp [e]
  · rw [Table.get?_insert]
    by_cases e : other = key <;> simp [e]

/-- A request stores a load exactly if the key was not known. -/
theorem started_request (c : Cache Job Result) (key : Text) (job : Job) :
    (c.request key job).2.started = if c.knows key then c.started else c.started + 1 := by
  unfold request knows Table.contains started
  cases c.index.get? key <;> simp

/-- Slots that were there keep what is in them. -/
theorem slot?_request (c : Cache Job Result) (key : Text) (job : Job) (number : Nat)
    (h : number < c.started) : (c.request key job).2.slot? number = c.slot? number := by
  unfold request slot?
  cases c.index.get? key with
  | some n => rfl
  | none => exact List.getElem?_append_left h

/-- A slot that was set holds what it was set to. -/
theorem slot?_setSlot (c : Cache Job Result) (number : Nat) (s : Slot Job Result)
    (h : number < c.started) : (c.setSlot number s).slot? number = some s :=
  List.getElem?_set_self h

/-- The result of a finished slot is there at once. -/
theorem await_finished (run : Job → Result) (c : Cache Job Result) (number : Nat) (r : Result)
    (h : c.slot? number = some (.finished r)) : c.await run number = (some r, false, c) := by
  simp [await, h]

/-- A waiting load runs, and its slot is finished. -/
theorem await_waiting (run : Job → Result) (c : Cache Job Result) (number : Nat) (job : Job)
    (h : c.slot? number = some (.waiting job)) :
    c.await run number = (some (run job), true, c.setSlot number (.finished (run job))) := by
  simp [await, h]

/-- What was awaited stays: the same result, and no second run. -/
theorem await_await (run : Job → Result) (c : Cache Job Result) (number : Nat) (r : Result)
    (h : (c.await run number).1 = some r) :
    (c.await run number).2.2.await run number = (some r, false, (c.await run number).2.2) := by
  cases hs : c.slot? number with
  | none => simp [await, hs] at h
  | some s =>
    cases s with
    | running => simp [await, hs] at h
    | finished result =>
      rw [await_finished run c number result hs] at h ⊢
      obtain rfl := Option.some.inj h
      exact await_finished run c number result hs
    | waiting job =>
      rw [await_waiting run c number job hs] at h ⊢
      obtain rfl := Option.some.inj h
      obtain ⟨hlt, _⟩ := List.getElem?_eq_some_iff.mp hs
      exact await_finished run _ number _ (slot?_setSlot c number _ hlt)

end Cache

end StyleModules
