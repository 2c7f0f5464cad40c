import StyleModules.Sheet.Edit

/-!
Edits of the top block, up to blanks.

`prepend`, `append` and `retain` hand on the blanks in front of nodes and change nothing else of
them. So whoever does not look at these blanks sees a node put in front (`map_bare_prependAll`), a
node put at the end (`map_bare_append`) or a filtered list (`map_bare_retain`). Behind the first
node that was there, putting nodes in front changes nothing at all (`exists_prependAll`).
-/

namespace StyleModules

namespace Node

/-- A node without the blanks in front of it. -/
def bare (n : Node) : Node :=
  n.withBefore []

@[simp] theorem bare_withBefore (t : Text) (n : Node) : (n.withBefore t).bare = n.bare := by
  cases n <;> rfl

@[simp] theorem withBefore_before (n : Node) : n.withBefore n.before = n := by
  cases n <;> rfl

end Node

section Alike

variable {β : Type} {ns ms : List Node}

/-- Nodes that differ in blanks only look alike to whoever does not see these blanks. -/
theorem map_of_map_bare {f : Node → β} (hf : ∀ n, f n.bare = f n)
    (h : ns.map Node.bare = ms.map Node.bare) : ns.map f = ms.map f := by
  have hbare : ∀ ks : List Node, ks.map f = (ks.map Node.bare).map f := by
    intro ks
    rw [List.map_map]
    exact List.map_congr_left fun n _ => (hf n).symm
  rw [hbare ns, h, ← hbare]

theorem flatMap_of_map_bare {f : Node → List β} (hf : ∀ n, f n.bare = f n)
    (h : ns.map Node.bare = ms.map Node.bare) : ns.flatMap f = ms.flatMap f := by
  rw [List.flatMap_def, map_of_map_bare hf h, ← List.flatMap_def]

theorem filterMap_of_map_bare {f : Node → Option β} (hf : ∀ n, f n.bare = f n)
    (h : ns.map Node.bare = ms.map Node.bare) : ns.filterMap f = ms.filterMap f := by
  have hmap : ∀ ks : List Node, ks.filterMap f = (ks.map f).filterMap id := by
    intro ks
    rw [List.filterMap_map]
    rfl
  rw [hmap ns, map_of_map_bare hf h, ← hmap]

theorem filter_of_map_bare {p : Node → Bool} (hp : ∀ n, p n.bare = p n)
    (h : ns.map Node.bare = ms.map Node.bare) :
    (ns.filter p).map Node.bare = (ms.filter p).map Node.bare := by
  have hfilter : ∀ ks : List Node,
      (ks.filter p).map Node.bare = (ks.map Node.bare).filter p := by
    intro ks
    rw [List.filter_map]
    have hcomp : p ∘ Node.bare = p := funext hp
    rw [hcomp]
  rw [hfilter, h, ← hfilter]

theorem exists_of_map_bare (h : ns.map Node.bare = ms.map Node.bare) {n : Node} (hn : n ∈ ns) :
    ∃ m ∈ ms, m.bare = n.bare := by
  have hmem := List.mem_map_of_mem (f := Node.bare) hn
  rw [h] at hmem
  exact List.mem_map.mp hmem

end Alike

namespace Stylesheet

theorem map_bare_prepend (node : Node) (sheet : Stylesheet) :
    (sheet.prepend node).nodes.map Node.bare = (node :: sheet.nodes).map Node.bare := by
  unfold prepend
  split <;> simp_all

theorem map_bare_prependAll (nodes : List Node) (sheet : Stylesheet) :
    (sheet.prependAll nodes).nodes.map Node.bare = (nodes ++ sheet.nodes).map Node.bare := by
  induction nodes with
  | nil => rfl
  | cons n ns ih =>
    show ((sheet.prependAll ns).prepend n).nodes.map Node.bare = _
    rw [map_bare_prepend, List.map_cons, ih]
    rfl

theorem drop_prepend (node : Node) (sheet : Stylesheet) (k : Nat) :
    (sheet.prepend node).nodes.drop (k + 2) = sheet.nodes.drop (k + 1) := by
  unfold prepend
  split <;> simp_all

theorem drop_prependAll (nodes : List Node) (sheet : Stylesheet) :
    (sheet.prependAll nodes).nodes.drop (nodes.length + 1) = sheet.nodes.drop 1 := by
  induction nodes with
  | nil => rfl
  | cons n ns ih =>
    show ((sheet.prependAll ns).prepend n).nodes.drop (ns.length + 2) = _
    rw [drop_prepend, ih]

theorem prependAll_eq (nodes : List Node) (sheet : Stylesheet) :
    sheet.prependAll nodes = { sheet with nodes := (sheet.prependAll nodes).nodes } := by
  induction nodes with
  | nil => rfl
  | cons n ns ih =>
    show (sheet.prependAll ns).prepend n = _
    rw [ih]
    rfl

/-- Nodes that are put in front of a sheet are in front of it, and of what was there before only the
    blanks in front of the first node may change. -/
theorem exists_prependAll (nodes : List Node) (sheet : Stylesheet) :
    ∃ front rest, sheet.prependAll nodes = { sheet with nodes := front ++ rest } ∧
      front.map Node.bare = nodes.map Node.bare ∧
      rest.map Node.bare = sheet.nodes.map Node.bare ∧ rest.tail = sheet.nodes.tail := by
  have hbare := map_bare_prependAll nodes sheet
  have hdrop := drop_prependAll nodes sheet
  have hall := prependAll_eq nodes sheet
  generalize (sheet.prependAll nodes).nodes = all at hbare hdrop hall
  refine ⟨all.take nodes.length, all.drop nodes.length, ?_, ?_, ?_, ?_⟩
  · rw [List.take_append_drop]
    exact hall
  · rw [List.map_take, hbare, List.map_append]
    exact List.take_left' (List.length_map _)
  · rw [List.map_drop, hbare, List.map_append]
    exact List.drop_left' (List.length_map _)
  · rw [List.tail_drop, hdrop, List.drop_one]

theorem append_eq (node : Node) (sheet : Stylesheet) :
    ∃ before, sheet.append node =
      { sheet with nodes := sheet.nodes ++ [node.withBefore before] } := by
  unfold append
  split
  · exact ⟨_, rfl⟩
  · exact ⟨node.before, by rw [Node.withBefore_before]⟩

theorem map_bare_append (node : Node) (sheet : Stylesheet) :
    (sheet.append node).nodes.map Node.bare = (sheet.nodes ++ [node]).map Node.bare := by
  unfold append
  split <;> simp

/-- Nothing is taken away from a sheet whose nodes are all accepted. -/
theorem retain_of_forall {keep : Node → Bool} {sheet : Stylesheet}
    (h : ∀ n ∈ sheet.nodes, keep n = true) : sheet.retain keep = sheet := by
  unfold retain
  split
  · rfl
  · next first rest hnodes =>
    rw [hnodes] at h
    rw [retainFrom, Node.withBefore_before, if_pos (h first List.mem_cons_self),
      List.filter_eq_self.mpr fun n hn => h n (List.mem_cons_of_mem first hn), ← hnodes]

theorem map_bare_retainFrom {keep : Node → Bool} (hkeep : ∀ t n, keep (n.withBefore t) = keep n)
    (before : Text) (ns : List Node) :
    (retainFrom keep before ns).map Node.bare = (ns.filter keep).map Node.bare := by
  induction ns with
  | nil => rfl
  | cons n ns ih =>
    rw [retainFrom, hkeep, List.filter_cons]
    split
    · simp
    · exact ih

theorem map_bare_retain {keep : Node → Bool} (hkeep : ∀ t n, keep (n.withBefore t) = keep n)
    (sheet : Stylesheet) :
    (sheet.retain keep).nodes.map Node.bare = (sheet.nodes.filter keep).map Node.bare := by
  unfold retain
  split
  · next hnodes => rw [hnodes]; rfl
  · next first rest hnodes => rw [hnodes, map_bare_retainFrom hkeep]

end Stylesheet

end StyleModules
