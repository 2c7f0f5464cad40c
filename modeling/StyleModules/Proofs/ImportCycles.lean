import Mathlib.Data.List.Chain
import Mathlib.Data.List.Nodup
import Mathlib.Data.List.Perm.Subperm
import Mathlib.Logic.Relation
import StyleModules.Module.Ref

/-!
Cycles in a graph of modules that are told apart by their keys.

* `LeadsToCycle asks m`: from a module a cycle of the graph `asks` can be reached.
* `Walks asks n m`: from a module there is a way of `n` steps. Among finitely many modules a way
  that is long enough leads to a cycle (`Walks.leadsToCycle`).
* `Orderly` is what the graph has to be like on a set of modules for a cache by keys to know it:
  modules with one key ask for the same keys, and both or none of them lead to a cycle.
* `orderly_of_fewKeys`: so it is if there are finitely many keys and they decide what is asked for.
-/

namespace StyleModules

/-! ## 1. Ways and cycles -/

/-- One module asks for another, in a graph that says what each one asks for. -/
def AsksFor (asks : ModuleRef → List ModuleRef) (m other : ModuleRef) : Prop :=
  other ∈ asks m

/-- From a module a cycle can be reached. -/
def LeadsToCycle (asks : ModuleRef → List ModuleRef) (m : ModuleRef) : Prop :=
  ∃ a, Relation.ReflTransGen (AsksFor asks) m a ∧ Relation.TransGen (AsksFor asks) a a

/-- From a module there is a way of so many steps. -/
def Walks (asks : ModuleRef → List ModuleRef) : Nat → ModuleRef → Prop
  | 0, _ => True
  | n + 1, m => ∃ other ∈ asks m, Walks asks n other

instance decidableWalks (asks : ModuleRef → List ModuleRef) :
    (n : Nat) → (m : ModuleRef) → Decidable (Walks asks n m)
  | 0, _ => isTrue trivial
  | n + 1, m =>
    have : DecidablePred (Walks asks n) := decidableWalks asks n
    inferInstanceAs (Decidable (∃ other ∈ asks m, Walks asks n other))

section Cycles

variable {asks : ModuleRef → List ModuleRef} {V : ModuleRef → Prop} {m other : ModuleRef} {n : Nat}

theorem LeadsToCycle.of_loop (h : Relation.TransGen (AsksFor asks) m m) : LeadsToCycle asks m :=
  ⟨m, .refl, h⟩

/-- A module leads to a cycle exactly if one of those does that it asks for. -/
theorem leadsToCycle_iff : LeadsToCycle asks m ↔ ∃ other ∈ asks m, LeadsToCycle asks other := by
  constructor
  · intro ⟨a, hreach, hloop⟩
    rcases Relation.ReflTransGen.cases_head hreach with rfl | ⟨other, hask, hrest⟩
    · -- the module is on the cycle itself, and so is what comes next on it
      obtain ⟨other, hask, hback⟩ := Relation.TransGen.head'_iff.mp hloop
      exact ⟨other, hask, m, hback, hloop⟩
    · exact ⟨other, hask, a, hrest, hloop⟩
  · intro ⟨other, hask, a, hreach, hloop⟩
    exact ⟨a, .head hask hreach, hloop⟩

theorem LeadsToCycle.walks (h : LeadsToCycle asks m) (n : Nat) : Walks asks n m := by
  induction n generalizing m with
  | zero => trivial
  | succ n ih =>
    obtain ⟨other, hask, hcycle⟩ := leadsToCycle_iff.mp h
    exact ⟨other, hask, ih hcycle⟩

theorem Walks.of_succ (h : Walks asks (n + 1) m) : Walks asks n m := by
  induction n generalizing m with
  | zero => trivial
  | succ n ih =>
    obtain ⟨other, hask, hrest⟩ := h
    exact ⟨other, hask, ih hrest⟩

theorem Walks.of_transGen (hpath : Relation.TransGen (AsksFor asks) m other)
    (h : Walks asks n other) : Walks asks (n + 1) m := by
  induction hpath using Relation.TransGen.head_induction_on with
  | single hask => exact ⟨other, hask, h⟩
  | head hask _ ih => exact Walks.of_succ ⟨_, hask, ih⟩

/-- A way as the list of the modules on it. -/
theorem Walks.exists_chain (h : Walks asks n m) :
    ∃ cs : List ModuleRef, cs.length = n ∧ (m :: cs).IsChain (AsksFor asks) := by
  induction n generalizing m with
  | zero => exact ⟨[], rfl, .singleton m⟩
  | succ n ih =>
    obtain ⟨other, hask, hrest⟩ := h
    obtain ⟨cs, hlength, hchain⟩ := ih hrest
    exact ⟨other :: cs, by rw [List.length_cons, hlength], .cons_cons hask hchain⟩

theorem mem_of_transGen (hclosed : ∀ {m other}, V m → other ∈ asks m → V other) (hm : V m)
    (h : Relation.TransGen (AsksFor asks) m other) : V other := by
  induction h with
  | single hask => exact hclosed hm hask
  | tail _ hask ih => exact hclosed ih hask

theorem mem_of_isChain (hclosed : ∀ {m other}, V m → other ∈ asks m → V other) (hm : V m)
    {cs : List ModuleRef} (h : (m :: cs).IsChain (AsksFor asks)) : ∀ a ∈ m :: cs, V a := by
  induction cs generalizing m with
  | nil => exact List.forall_mem_singleton.mpr hm
  | cons c cs ih =>
    obtain ⟨hask, hrest⟩ := List.isChain_cons_cons.mp h
    exact List.forall_mem_cons.mpr ⟨hm, ih (hclosed hm hask) hrest⟩

/-- Along a way on which nothing comes back to the same value, no value comes twice. -/
theorem nodup_map_of_isChain {β : Type} {f : ModuleRef → β} {cs : List ModuleRef}
    (hfree : ∀ a, Relation.ReflTransGen (AsksFor asks) m a →
      ∀ b, Relation.TransGen (AsksFor asks) a b → f b ≠ f a)
    (h : (m :: cs).IsChain (AsksFor asks)) : ((m :: cs).map f).Nodup := by
  induction cs generalizing m with
  | nil => simp
  | cons c cs ih =>
    obtain ⟨hask, hrest⟩ := List.isChain_cons_cons.mp h
    rw [List.map_cons, List.nodup_cons]
    refine ⟨fun hmem => ?_, ih (fun a ha => hfree a (.head hask ha)) hrest⟩
    obtain ⟨b, hb, hsame⟩ := List.mem_map.mp hmem
    have hpath : Relation.TransGen (AsksFor asks) m b :=
      (h.imp fun _ _ hxy => Relation.TransGen.single hxy).rel_cons hb
    exact hfree m .refl b hpath hsame

/-- Among finitely many modules, a way with as many steps leads to a cycle. -/
theorem Walks.leadsToCycle (hclosed : ∀ {m other}, V m → other ∈ asks m → V other)
    {refs : List ModuleRef} (hrefs : ∀ m, V m → m ∈ refs) (hm : V m)
    (h : Walks asks refs.length m) : LeadsToCycle asks m := by
  refine Classical.byContradiction fun hfree => ?_
  obtain ⟨cs, hlength, hchain⟩ := h.exists_chain
  have hnodup : ((m :: cs).map id).Nodup := by
    refine nodup_map_of_isChain (fun a ha b hb heq => hfree ⟨a, ha, ?_⟩) hchain
    obtain rfl : b = a := heq
    exact hb
  rw [List.map_id] at hnodup
  have hsub : m :: cs ⊆ refs := fun a ha => hrefs a (mem_of_isChain hclosed hm hchain a ha)
  have hle := (hnodup.subperm hsub).length_le
  rw [List.length_cons, hlength] at hle
  omega

end Cycles

/-! ## 2. Keys -/

/-- Modules of a set that have one key ask for the same keys. -/
def DecidedByKey (asks : ModuleRef → List ModuleRef) (V : ModuleRef → Prop) : Prop :=
  ∀ a b, V a → V b → a.key = b.key → ∀ ref ∈ asks a, ∃ ref' ∈ asks b, ref'.key = ref.key

/-- The modules of a set have no more than so many keys, and these decide what is asked for. -/
structure FewKeys (asks : ModuleRef → List ModuleRef) (V : ModuleRef → Prop) (room : Nat) :
    Prop where
  few : ∃ keys : List Text, keys.length ≤ room ∧ ∀ m, V m → m.key ∈ keys
  decided : DecidedByKey asks V

/-- A set of modules that has all they ask for, and in which keys decide what is asked for and what
    leads to a cycle: a way that comes back to a key is one. -/
structure Orderly (asks : ModuleRef → List ModuleRef) (V : ModuleRef → Prop) : Prop where
  closed : ∀ {m other}, V m → other ∈ asks m → V other
  decided : DecidedByKey asks V
  shared : ∀ {a b}, V a → V b → a.key = b.key → LeadsToCycle asks a → LeadsToCycle asks b
  returns : ∀ {a b}, V a → Relation.TransGen (AsksFor asks) a b → b.key = a.key →
    LeadsToCycle asks a

section Keys

variable {asks : ModuleRef → List ModuleRef} {V : ModuleRef → Prop} {m : ModuleRef} {n : Nat}

/-- Modules with one key have ways of the same lengths. -/
theorem Walks.of_key (hclosed : ∀ {m other}, V m → other ∈ asks m → V other)
    (hdecided : DecidedByKey asks V) {a b : ModuleRef} (ha : V a) (hb : V b) (hkey : a.key = b.key)
    (h : Walks asks n a) : Walks asks n b := by
  induction n generalizing a b with
  | zero => trivial
  | succ n ih =>
    obtain ⟨ref, hask, hrest⟩ := h
    obtain ⟨ref', hask', hsame⟩ := hdecided a b ha hb hkey ref hask
    exact ⟨ref', hask', ih (hclosed ha hask) (hclosed hb hask') hsame.symm hrest⟩

/-- The references with a key of a list. -/
def refsWith (keys : List Text) : List ModuleRef :=
  keys.flatMap fun key => [.file key, .virtual key, .handle key]

theorem mem_refsWith {keys : List Text} (h : m.key ∈ keys) : m ∈ refsWith keys := by
  refine List.mem_flatMap.mpr ⟨m.key, h, ?_⟩
  cases m <;> simp [ModuleRef.key]

/-- **Finitely many keys that decide what is asked for make a set orderly.** -/
theorem orderly_of_fewKeys {room : Nat} (hclosed : ∀ {m other}, V m → other ∈ asks m → V other)
    (h : FewKeys asks V room) : Orderly asks V := by
  obtain ⟨keys, -, hkeys⟩ := h.few
  have hcycle : ∀ {m}, V m → (∀ n, Walks asks n m) → LeadsToCycle asks m := fun hm hwalks =>
    Walks.leadsToCycle hclosed (fun a ha => mem_refsWith (hkeys a ha)) hm (hwalks _)
  refine ⟨hclosed, h.decided, fun ha hb hkey hleads => ?_, fun {a b} ha hpath hkey => ?_⟩
  · exact hcycle hb fun n => (hleads.walks n).of_key hclosed h.decided ha hb hkey
  · have hb := mem_of_transGen hclosed ha hpath
    refine hcycle ha fun n => ?_
    induction n with
    | zero => trivial
    | succ n ih => exact (ih.of_key hclosed h.decided ha hb hkey.symm).of_transGen hpath

end Keys

end StyleModules
