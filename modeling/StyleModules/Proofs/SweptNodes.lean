import StyleModules.Sheet.Sweep
import StyleModules.Proofs.TopBlock

/-!
Sweeping is filtering, and the first node that is left stands where the first node stood.

* Section 1: one step of a sweep (`sweepFrom_step`). In front of the index are the nodes that were
  accepted, behind it those that were not asked about yet.
* Section 2: `askAll` asks about every node once, in order. Behind an accepted node a sweep does
  just that (`sweepFrom_behind`). In front of all accepted nodes it also hands on the blanks of the
  first (`sweepFrom_leadWith`), through any number of nodes that are taken away.
* Section 3: a predicate without a state sweeps a sheet to what `retain` makes of it
  (`sweep_pure`). Of two predicates one after the other the second is asked about what the first
  leaves, so the two are one that asks the second where the first accepts (`askAll_both`).
-/

namespace StyleModules

section Sweep

variable {σ τ : Type} (keep : Node → StateM σ Bool)

/-! ## 1. One step -/

theorem sweepFrom_end (ns : List Node) : sweepFrom keep ns ns.length = pure ns := by
  rw [sweepFrom, dif_neg (Nat.lt_irrefl _)]

/-- What is left when the node behind some accepted ones is taken away. -/
theorem takeAway_append (kept : List Node) (n : Node) (rest : List Node)
    (h : kept.length < (kept ++ n :: rest).length) :
    takeAway (kept ++ n :: rest) kept.length h =
      if kept = [] then leadWith n.before rest else kept ++ rest := by
  unfold takeAway
  cases kept with
  | nil => rfl
  | cons k kept =>
    rw [if_neg (by simp), if_neg (by simp), List.eraseIdx_append_of_length_le (Nat.le_refl _)]
    simp

/-- **One step of a sweep**: the node at the index is asked about and left or taken away. -/
theorem sweepFrom_step (kept : List Node) (n : Node) (rest : List Node) :
    sweepFrom keep (kept ++ n :: rest) kept.length = (do
      if ← keep n then
        sweepFrom keep (kept ++ [n] ++ rest) (kept ++ [n]).length
      else
        sweepFrom keep (if kept = [] then leadWith n.before rest else kept ++ rest)
          kept.length) := by
  have hlt : kept.length < (kept ++ n :: rest).length := by simp
  have hget : (kept ++ n :: rest)[kept.length] = n := by simp
  rw [sweepFrom, dif_pos hlt, hget, takeAway_append]
  simp

/-! ## 2. The whole list -/

/-- The nodes that were accepted, one answer to each. -/
def accepted : List Node → List Bool → List Node
  | n :: ns, a :: as => if a then n :: accepted ns as else accepted ns as
  | _, _ => []

/-- Ask about every node once, in order, and list the accepted ones. -/
def askAll (ns : List Node) : StateM σ (List Node) := do
  let answers ← ns.mapM keep
  return accepted ns answers

theorem askAll_cons (n : Node) (ns : List Node) :
    askAll keep (n :: ns) = do
      let a ← keep n
      let kept ← askAll keep ns
      return if a then n :: kept else kept := by
  unfold askAll
  simp only [List.mapM_cons, bind_assoc, pure_bind, accepted]

theorem askAll_cons_run (n : Node) (ns : List Node) (s : σ) :
    askAll keep (n :: ns) s =
      (if (keep n s).1 then n :: (askAll keep ns (keep n s).2).1
        else (askAll keep ns (keep n s).2).1, (askAll keep ns (keep n s).2).2) := by
  rw [askAll_cons]
  rfl

/-- Behind an accepted node a sweep takes away what is refused, and nothing else changes. -/
theorem sweepFrom_behind {kept : List Node} (hkept : kept ≠ []) (rest : List Node) :
    sweepFrom keep (kept ++ rest) kept.length = do
      let more ← askAll keep rest
      return kept ++ more := by
  induction rest generalizing kept with
  | nil =>
    rw [List.append_nil, sweepFrom_end]
    simp [askAll, accepted]
  | cons n rest ih =>
    rw [sweepFrom_step, askAll_cons, if_neg hkept, ih hkept, ih (by simp)]
    simp only [bind_assoc, pure_bind]
    congr 1
    funext a
    cases a with
    | true => simp
    | false => simp

/-- In front of all accepted nodes a sweep hands on the blanks in front of the list. -/
theorem sweepFrom_leadWith (hkeep : ∀ t n, keep (n.withBefore t) = keep n) (before : Text)
    (ns : List Node) :
    sweepFrom keep (leadWith before ns) 0 = do
      let kept ← askAll keep ns
      return leadWith before kept := by
  induction ns with
  | nil =>
    rw [leadWith, show (0 : Nat) = ([] : List Node).length from rfl, sweepFrom_end]
    simp [askAll, accepted, leadWith]
  | cons n ns ih =>
    have hstep := sweepFrom_step keep [] (n.withBefore before) ns
    rw [if_pos rfl, Node.before_withBefore, hkeep] at hstep
    rw [leadWith, askAll_cons]
    refine hstep.trans ?_
    simp only [bind_assoc, pure_bind]
    congr 1
    funext a
    cases a with
    | true =>
      -- from here on nothing is handed on any more
      have hbehind := sweepFrom_behind keep (List.cons_ne_nil (n.withBefore before) []) ns
      simpa [leadWith] using hbehind
    | false => simpa using ih

/-- The blanks in front of the first node. -/
def leading : List Node → Text
  | [] => []
  | n :: _ => n.before

theorem leadWith_leading (ns : List Node) : leadWith (leading ns) ns = ns := by
  cases ns with
  | nil => rfl
  | cons n ns => rw [leading, leadWith, Node.withBefore_before]

theorem Stylesheet.sweep_eq (hkeep : ∀ t n, keep (n.withBefore t) = keep n) (sheet : Stylesheet) :
    sheet.sweep keep = do
      let kept ← askAll keep sheet.nodes
      return { sheet with nodes := leadWith (leading sheet.nodes) kept } := by
  have hsweep := sweepFrom_leadWith keep hkeep (leading sheet.nodes) sheet.nodes
  rw [leadWith_leading] at hsweep
  unfold Stylesheet.sweep
  rw [hsweep]
  simp only [bind_assoc, pure_bind]

end Sweep

/-! ## 3. Two predicates, and predicates without a state -/

section Predicates

variable {σ τ : Type}

theorem askAll_pure (p : Node → Bool) (ns : List Node) :
    askAll (fun n => (pure (p n) : StateM σ Bool)) ns = pure (ns.filter p) := by
  induction ns with
  | nil => simp [askAll, accepted]
  | cons n ns ih => rw [askAll_cons, ih, List.filter_cons]; simp only [pure_bind]

/-- **A predicate without a state sweeps a sheet to what `retain` makes of it**, also if it looks at
    the blanks in front of nodes. -/
theorem Stylesheet.sweep_pure (p : Node → Bool) (sheet : Stylesheet) :
    sheet.sweep (fun n => (pure (p n) : StateM σ Bool)) = pure (sheet.retain p) := by
  have hfrom : ∀ (before : Text) (ns : List Node),
      sweepFrom (fun n => (pure (p n) : StateM σ Bool)) (leadWith before ns) 0 =
        pure (retainFrom p before ns) := by
    intro before ns
    induction ns with
    | nil =>
      rw [leadWith, show (0 : Nat) = ([] : List Node).length from rfl, sweepFrom_end]
      rfl
    | cons n ns ih =>
      have hstep := sweepFrom_step (fun n => (pure (p n) : StateM σ Bool)) []
        (n.withBefore before) ns
      rw [if_pos rfl, Node.before_withBefore, pure_bind] at hstep
      refine hstep.trans ?_
      rw [retainFrom]
      split
      · have hbehind := sweepFrom_behind (fun n => (pure (p n) : StateM σ Bool))
          (List.cons_ne_nil (n.withBefore before) []) ns
        rw [askAll_pure, pure_bind] at hbehind
        exact hbehind
      · exact ih
  unfold Stylesheet.sweep Stylesheet.retain
  split
  · next hnodes =>
    rw [hnodes, show (0 : Nat) = ([] : List Node).length from rfl, sweepFrom_end, pure_bind,
      ← hnodes]
  · next first rest hnodes =>
    have hlead := hfrom first.before (first :: rest)
    rw [leadWith, Node.withBefore_before] at hlead
    rw [hnodes, hlead, pure_bind]

/-- Ask two predicates, the second only where the first accepts. Each keeps to its own state. -/
def both (keep : Node → StateM σ Bool) (more : Node → StateM τ Bool) (n : Node) :
    StateM (σ × τ) Bool :=
  fun (s, t) =>
    match keep n s with
    | (true, s) => let (a, t) := more n t; (a, s, t)
    | (false, s) => (false, s, t)

/-- Of what two predicates leave, the second was asked about what the first leaves. -/
theorem askAll_both (keep : Node → StateM σ Bool) (more : Node → StateM τ Bool) (ns : List Node)
    (s : σ) (t : τ) :
    askAll (both keep more) ns (s, t) =
      ((askAll more (askAll keep ns s).1 t).1, (askAll keep ns s).2,
        (askAll more (askAll keep ns s).1 t).2) := by
  induction ns generalizing s t with
  | nil => rfl
  | cons n ns ih =>
    rw [askAll_cons_run, askAll_cons_run, both]
    cases h : keep n s with
    | mk a s' =>
      cases a with
      | true =>
        cases hmore : more n t with
        | mk b t' => simp only [ih, if_true, askAll_cons_run, hmore]
      | false => simp only [ih, Bool.false_eq_true, if_false]

/-- Two sweeps in a row are one. -/
theorem Stylesheet.sweep_both (keep : Node → StateM σ Bool) (more : Node → StateM τ Bool)
    (hkeep : ∀ t n, keep (n.withBefore t) = keep n) (hmore : ∀ t n, more (n.withBefore t) = more n)
    (sheet : Stylesheet) (s : σ) (t : τ) :
    sheet.sweep (both keep more) (s, t) =
      (((sheet.sweep keep s).1.sweep more t).1, (sheet.sweep keep s).2,
        ((sheet.sweep keep s).1.sweep more t).2) := by
  have hboth : ∀ t n, both keep more (n.withBefore t) = both keep more n := by
    intro t n
    unfold both
    rw [hkeep, hmore]
  have honce : sheet.sweep keep s = ({ sheet with
      nodes := leadWith (leading sheet.nodes) (askAll keep sheet.nodes s).1 },
        (askAll keep sheet.nodes s).2) := by
    rw [sweep_eq keep hkeep]
    rfl
  -- the second sweep begins with the blanks that the first one handed on
  have htwice : ∀ kept : List Node,
      Stylesheet.sweep more { sheet with nodes := leadWith (leading sheet.nodes) kept } t =
        ({ sheet with nodes := leadWith (leading sheet.nodes) (askAll more kept t).1 },
          (askAll more kept t).2) := by
    intro kept
    unfold Stylesheet.sweep
    rw [sweepFrom_leadWith more hmore]
    rfl
  have hasked : sheet.sweep (both keep more) (s, t) = ({ sheet with
      nodes := leadWith (leading sheet.nodes) (askAll (both keep more) sheet.nodes (s, t)).1 },
        (askAll (both keep more) sheet.nodes (s, t)).2) := by
    rw [sweep_eq _ hboth]
    rfl
  rw [hasked, honce, htwice, askAll_both]

/-- Two predicates without a state are one. -/
theorem both_pure (p q : Node → Bool) :
    both (fun n => (pure (p n) : StateM σ Bool)) (fun n => (pure (q n) : StateM τ Bool)) =
      fun n => pure (p n && q n) := by
  funext n (s, t)
  cases h : p n with
  | true => simp only [both, h]; rfl
  | false => simp only [both, h]; rfl

theorem Stylesheet.retain_retain {p q : Node → Bool} (hp : ∀ t n, p (n.withBefore t) = p n)
    (hq : ∀ t n, q (n.withBefore t) = q n) (sheet : Stylesheet) :
    (sheet.retain p).retain q = sheet.retain fun n => p n && q n := by
  have hboth := sweep_both (fun n => (pure (p n) : StateM Unit Bool))
    (fun n => (pure (q n) : StateM Unit Bool)) (fun t n => by rw [hp]) (fun t n => by rw [hq])
    sheet () ()
  rw [both_pure, sweep_pure, sweep_pure, sweep_pure] at hboth
  exact (congrArg Prod.fst hboth).symm

end Predicates

/-- **A sweep is a filter that hands on the blanks in front of the sheet.** It asks about every node
    of the top block once, in order, and leaves those that are accepted as they are, except that the
    first of them has the blanks of the first node there was. So two sweeps are one that asks the
    second predicate where the first accepts, and so it is with `retain`. -/
theorem Stylesheet.sweep_filters {σ τ : Type} {keep : Node → StateM σ Bool}
    {more : Node → StateM τ Bool} (hkeep : ∀ t n, keep (n.withBefore t) = keep n)
    (hmore : ∀ t n, more (n.withBefore t) = more n) (sheet : Stylesheet) :
    sheet.sweep keep = (do
        let answers ← sheet.nodes.mapM keep
        return { sheet with
          nodes := leadWith (leading sheet.nodes) (accepted sheet.nodes answers) }) ∧
      (∀ s t, sheet.sweep (both keep more) (s, t) =
        let (once, s) := sheet.sweep keep s
        let (twice, t) := once.sweep more t
        (twice, s, t)) ∧
      ∀ p q : Node → Bool, (∀ t n, p (n.withBefore t) = p n) → (∀ t n, q (n.withBefore t) = q n) →
        (sheet.retain p).retain q = sheet.retain fun n => p n && q n := by
  refine ⟨?_, sweep_both keep more hkeep hmore sheet, fun p q hp hq => retain_retain hp hq sheet⟩
  rw [sweep_eq keep hkeep]
  unfold askAll
  simp only [bind_assoc, pure_bind]

/-- A predicate that refuses comments and counts how often it is asked. -/
def countedComments (n : Node) : StateM Nat Bool := do
  modify (· + 1)
  return match n with
    | .comment _ _ => false
    | _ => true

/-- A predicate that refuses the first declaration it is asked about. -/
def firstDecl (n : Node) : StateM Bool Bool :=
  match n with
  | .decl _ _ => fun seen => (seen, true)
  | _ => return true

theorem Stylesheet.sweep_filters_leading :
    (∀ t n, countedComments (n.withBefore t) = countedComments n) ∧
      (∀ t n, firstDecl (n.withBefore t) = firstDecl n) ∧
      Stylesheet.sweep (both countedComments firstDecl)
        ⟨[.comment ['a'] ⟨['\t'], [], [], none⟩, .ofComment ['b'], .ofDecl ['c'] ['d'],
          .ofDecl ['e'] ['f'], .ofComment ['g']], [], true, []⟩ (0, false) =
        (⟨[(Node.ofDecl ['e'] ['f']).withBefore ['\t']], [], true, []⟩, 5, true) := by
  have hcounted : ∀ t n, countedComments (n.withBefore t) = countedComments n := by
    intro t n
    cases n <;> rfl
  have hfirst : ∀ t n, firstDecl (n.withBefore t) = firstDecl n := by
    intro t n
    cases n <;> rfl
  refine ⟨hcounted, hfirst, ?_⟩
  rw [(Stylesheet.sweep_filters hcounted hfirst _).2.1 0 false,
    (Stylesheet.sweep_filters hcounted hfirst _).1]
  -- the second sweep stands for what the first one leaves
  refine (congrArg (fun r => (r.1, _, r.2)) (congrFun
    (Stylesheet.sweep_filters hfirst hfirst _).1 false)).trans ?_
  rfl

end StyleModules
