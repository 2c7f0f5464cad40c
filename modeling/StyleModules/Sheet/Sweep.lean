import StyleModules.Sheet.Edit

/-!
Taking nodes away while the top block is gone through.

The list of nodes is edited where it stands, with an index for the node that is looked at next. The
node behind one that is taken away moves up to its index, and if that is the first, it also takes
over the blanks.

A predicate has a state. It may count, remember, or answer otherwise the next time; what it is asked
is a node as it stands in the list at that moment.
-/

namespace StyleModules

/-- Give the first of some nodes other blanks. -/
def leadWith (before : Text) : List Node → List Node
  | [] => []
  | n :: ns => n.withBefore before :: ns

/-- Take away the node at an index. -/
def takeAway (ns : List Node) (idx : Nat) (h : idx < ns.length) : List Node :=
  if idx = 0 then leadWith ns[idx].before (ns.eraseIdx idx) else ns.eraseIdx idx

@[simp] theorem length_leadWith (before : Text) (ns : List Node) :
    (leadWith before ns).length = ns.length := by
  cases ns with
  | nil => rfl
  | cons n ns => rfl

theorem length_takeAway {ns : List Node} {idx : Nat} (h : idx < ns.length) :
    (takeAway ns idx h).length + 1 = ns.length := by
  have hrest := List.length_eraseIdx_of_lt h
  unfold takeAway
  split
  · rw [length_leadWith]
    omega
  · omega

section Sweep

variable {σ : Type} (keep : Node → StateM σ Bool)

/-- Go on through a list of nodes from an index. -/
def sweepFrom (ns : List Node) (idx : Nat) : StateM σ (List Node) :=
  if h : idx < ns.length then do
    if ← keep ns[idx] then sweepFrom ns (idx + 1)
    else sweepFrom (takeAway ns idx h) idx
  else return ns
termination_by ns.length - idx
decreasing_by
  · omega
  · have := length_takeAway h
    omega

/-- Take away the nodes of the top block that a predicate refuses, and say what became of the
    predicate. -/
def Stylesheet.sweep (sheet : Stylesheet) : StateM σ Stylesheet := do
  let ns ← sweepFrom keep sheet.nodes 0
  return { sheet with nodes := ns }

end Sweep

end StyleModules
