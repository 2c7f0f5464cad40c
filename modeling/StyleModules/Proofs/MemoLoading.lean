import StyleModules.Proofs.PlainLoading

/-!
Loading through the cache gives what plain recursion gives.

* `World` is a set of modules that is closed under imports, has no cycle, and in which a key stands
  for one path to read from.
* `Sound` is what holds of the cache at every moment: under a key waits a reference of the set with
  that key, and what is finished under a key is what plain recursion yields for it. `Grows` is what
  every operation does to a cache: keys keep their slots, and no load is left running.
* `requestAll_keeps`: requests for imports keep whatever the request for each of their modules keeps.
* `Free`: nothing that a module reaches is being loaded. It is what keeps a load from waiting for
  itself.
* `load_spec`: from a sound cache, a load that is free returns what plain recursion yields, and
  leaves the cache sound. The induction is on the depth of the imports.
* In a session that is `Idle` every load is free, so that a module can be loaded by itself
  (`loadModule_spec`).
-/

namespace StyleModules

/-- Plain recursion yields a result with the same outcome. -/
def Context.Yields (ctx : Context) (d : Disk) (m : ModuleRef) (r : LoadResult) : Prop :=
  ∃ depth plain, ctx.process d depth m = some plain ∧
    LoadResult.outcome r = LoadResult.outcome plain

/-- A set of modules that can be loaded in any order. -/
structure Context.World (ctx : Context) (d : Disk) (V : ModuleRef → Prop) : Prop where
  closed : ∀ a b, V a → ctx.Imports d a b → V b
  consistent : ∀ a b, V a → V b → a.key = b.key → a.loadPath? = b.loadPath?
  acyclic : ∀ a, V a → ¬ctx.Needs d a a

namespace Context.World

variable {ctx : Context} {d : Disk} {V : ModuleRef → Prop}

theorem of_reaches (hw : ctx.World d V) {a b : ModuleRef} (ha : V a) (hr : ctx.Reaches d a b) :
    V b :=
  hr.of_closed (fun a ha b => hw.closed a b ha) ha

/-- A module needs nothing with its own key: that would be read alike, and so need itself. -/
theorem key_ne (hctx : ctx.Standard) (hw : ctx.World d V) {a b : ModuleRef} (ha : V a)
    (hn : ctx.Needs d a b) : b.key ≠ a.key := by
  intro hkey
  have hb : V b := hw.of_reaches ha hn.to_reflTransGen
  have himports : ctx.imports d b = ctx.imports d a :=
    imports_same hctx ⟨hkey, hw.consistent b a hb ha hkey⟩
  obtain ⟨c, hi, hc⟩ := Relation.TransGen.head'_iff.mp hn
  have hi' : ctx.Imports d b c := by rw [Imports, himports]; exact hi
  exact hw.acyclic b hb (.head' hi' hc)

/-- What one module reaches can be loaded in any order, if it has no cycle: but for the module all
    are files with normal paths, and these are their keys. -/
theorem of_root (hctx : ctx.Standard) {m : ModuleRef} (hm : m.loadPath?.isSome)
    (hacyclic : ∀ a, ctx.Reaches d m a → ¬ctx.Needs d a a) : ctx.World d (ctx.Reaches d m) where
  closed _ _ ha hi := ha.tail hi
  acyclic := hacyclic
  consistent := by
    have hreached : ∀ a, ctx.Reaches d m a →
        a = m ∨ ∃ path, a = .file path ∧ Path.normalize path = path := by
      intro a ha
      rcases Relation.ReflTransGen.cases_tail ha with rfl | ⟨b, _, hi⟩
      · exact .inl rfl
      · obtain ⟨path, rfl, _, hnormal⟩ := hi.isFile hctx.resolver
        exact .inr ⟨path, rfl, hnormal⟩
    have hroot : ∀ path, Path.normalize path = path → m.key = path → m.loadPath? = some path := by
      intro path hnormal hkey
      cases m with
      | file p => exact congrArg some hkey
      | virtual name => cases hm
      | handle key =>
        obtain rfl : key = path := hkey
        exact congrArg some hnormal
    intro a b ha hb hkey
    rcases hreached a ha with rfl | ⟨path, rfl, hnormal⟩
    · rcases hreached b hb with rfl | ⟨path, rfl, hnormal⟩
      · rfl
      · exact hroot path hnormal hkey
    · rcases hreached b hb with rfl | ⟨path', rfl, _⟩
      · exact (hroot path hnormal hkey.symm).symm
      · exact congrArg some hkey

theorem acyclicFrom (hctx : ctx.Standard) (hw : ctx.World d V) {m : ModuleRef} (hm : V m) :
    ctx.AcyclicFrom d m :=
  fun _ ha _ hb => hw.key_ne hctx (hw.of_reaches hm ha) hb

end Context.World

namespace Memo

/-- The cache of a session. -/
abbrev Loads := Cache ModuleRef LoadResult

/-! ## 1. What holds of the cache -/

/-- What holds of the keys of a cache at every moment: each has a slot of its own, and if a load
    waits there, it is that of a module of a set, with this key. -/
structure Indexed (V : ModuleRef → Prop) (c : Loads) : Prop where
  inRange : ∀ {key n}, c.index.get? key = some n → n < c.started
  distinct : ∀ {key other n}, c.index.get? key = some n → c.index.get? other = some n → key = other
  waiting : ∀ {key n m}, c.index.get? key = some n → c.slot? n = some (.waiting m) →
    V m ∧ m.key = key

/-- What holds of a cache at every moment. -/
structure Sound (ctx : Context) (d : Disk) (V : ModuleRef → Prop) (c : Loads) : Prop
    extends Indexed V c where
  finished : ∀ {key n r}, c.index.get? key = some n → c.slot? n = some (.finished r) →
    ∀ m, V m → m.key = key → ctx.Yields d m r

/-- How a cache changes: keys keep their slots, and no load is left running. -/
structure Grows (c c' : Loads) : Prop where
  started : c.started ≤ c'.started
  kept : ∀ {key n}, c.index.get? key = some n → c'.index.get? key = some n
  known : ∀ {key n}, c'.index.get? key = some n → n < c.started → c.index.get? key = some n
  running : ∀ {n}, c'.slot? n = some .running → c.slot? n = some .running

/-- Nothing that a module reaches is being loaded. -/
def Free (ctx : Context) (d : Disk) (c : Loads) (m : ModuleRef) : Prop :=
  ∀ key n, c.index.get? key = some n → c.slot? n = some .running →
    ∀ a, ctx.Reaches d m a → a.key ≠ key

variable {ctx : Context} {d : Disk} {V : ModuleRef → Prop} {c c' c'' : Loads}

theorem Grows.refl (c : Loads) : Grows c c where
  started := Nat.le_refl _
  kept h := h
  known h _ := h
  running h := h

theorem Grows.trans (h : Grows c c') (h' : Grows c' c'') : Grows c c'' where
  started := Nat.le_trans h.started h'.started
  kept hk := h'.kept (h.kept hk)
  known hk hn := h.known (h'.known hk (Nat.lt_of_lt_of_le hn h.started)) hn
  running hr := h.running (h'.running hr)

theorem slot?_lt {n : Nat} {s : Slot ModuleRef LoadResult} (h : c.slot? n = some s) :
    n < c.started :=
  (List.getElem?_eq_some_iff.mp h).1

/-- What is free stays free. -/
theorem Free.grows {m : ModuleRef} (h : Free ctx d c m) (hg : Grows c c') : Free ctx d c' m := by
  intro key n hk hr
  have hr' := hg.running hr
  exact h key n (hg.known hk (slot?_lt hr')) hr'

theorem Free.of_imports {m other : ModuleRef} (h : Free ctx d c m)
    (hi : ctx.Imports d m other) : Free ctx d c other :=
  fun key n hk hr a ha => h key n hk hr a (.head hi ha)

/-- Nothing has been requested. -/
theorem indexed_empty : Indexed V .empty where
  inRange h := by cases h
  distinct h := by cases h
  waiting h := by cases h

theorem sound_empty : Sound ctx d V .empty where
  toIndexed := indexed_empty
  finished h := by cases h

/-! ## 2. Requests -/

/-- The cache with a load for one more module. -/
def store (c : Loads) (m : ModuleRef) : Loads :=
  ⟨c.slots ++ [.waiting m], c.index.insert m.key c.started⟩

theorem index_store (c : Loads) (m : ModuleRef) (key : Text) :
    (store c m).index.get? key = if key = m.key then some c.started else c.index.get? key :=
  Table.get?_insert c.index m.key key c.started

/-- In the slots are the old loads and the new one. -/
theorem slot?_store {m : ModuleRef} {n : Nat} {s : Slot ModuleRef LoadResult}
    (h : (store c m).slot? n = some s) :
    c.slot? n = some s ∨ n = c.started ∧ s = .waiting m := by
  unfold store Cache.slot? at h
  rcases Nat.lt_or_ge n c.started with hlt | hge
  · rw [List.getElem?_append_left hlt] at h
    exact .inl h
  · rw [List.getElem?_append_right hge, List.getElem?_singleton] at h
    split at h
    · next h0 =>
      have hge' : c.slots.length ≤ n := hge
      exact .inr ⟨Nat.le_antisymm (by unfold Cache.started; omega) hge,
        (Option.some.inj h).symm⟩
    · cases h

theorem grows_store {m : ModuleRef} (hnew : c.index.get? m.key = none) : Grows c (store c m) where
  started := by
    show c.slots.length ≤ (c.slots ++ [Slot.waiting m]).length
    simp
  kept hk := by
    rw [index_store, if_neg (by rintro rfl; rw [hnew] at hk; cases hk), hk]
  known hk hn := by
    rw [index_store] at hk
    split at hk
    · cases hk; exact absurd hn (Nat.lt_irrefl _)
    · exact hk
  running hr := by
    rcases slot?_store hr with hr | ⟨_, hr⟩
    · exact hr
    · cases hr

theorem Indexed.store (hs : Indexed V c) {m : ModuleRef} (hm : V m) : Indexed V (store c m) where
  inRange {key n} hk := by
    rw [index_store] at hk
    show n < (c.slots ++ [Slot.waiting m]).length
    rw [List.length_append, List.length_singleton]
    split at hk
    · cases hk; exact Nat.lt_succ_self _
    · exact Nat.lt_succ_of_lt (hs.inRange hk)
  distinct {key other n} hk ho := by
    have hfresh : ∀ {k}, c.index.get? k = some n → c.started ≠ n :=
      fun h => Nat.ne_of_gt (hs.inRange h)
    rw [index_store] at hk ho
    split at hk
    · next e =>
      split at ho
      · next e' => rw [e, e']
      · exact absurd (Option.some.inj hk) (hfresh ho)
    · split at ho
      · exact absurd (Option.some.inj ho) (hfresh hk)
      · exact hs.distinct hk ho
  waiting {key n j} hk hj := by
    rw [index_store] at hk
    rcases slot?_store hj with hold | ⟨rfl, hnew⟩
    · split at hk
      · cases hk; exact absurd (slot?_lt hold) (Nat.lt_irrefl _)
      · exact hs.waiting hk hold
    · obtain rfl := Slot.waiting.inj hnew
      split at hk
      · next e => exact ⟨hm, e.symm⟩
      · exact absurd (hs.inRange hk) (Nat.lt_irrefl _)

/-- What does not wait under a key was there before one more module was requested. -/
theorem of_store {m : ModuleRef} {key : Text} {n : Nat} {s : Slot ModuleRef LoadResult}
    (hk : (Memo.store c m).index.get? key = some n) (hslot : (Memo.store c m).slot? n = some s)
    (hs : ∀ j, s ≠ .waiting j) : c.index.get? key = some n ∧ c.slot? n = some s := by
  rw [index_store] at hk
  rcases slot?_store hslot with hold | ⟨_, hnew⟩
  · split at hk
    · cases hk; exact absurd (slot?_lt hold) (Nat.lt_irrefl _)
    · exact ⟨hk, hold⟩
  · exact absurd hnew (hs m)

theorem Sound.store (hs : Sound ctx d V c) {m : ModuleRef} (hm : V m) :
    Sound ctx d V (store c m) where
  toIndexed := hs.toIndexed.store hm
  finished hk hr := by
    obtain ⟨hk', hr'⟩ := of_store hk hr nofun
    exact hs.finished hk' hr'

/-- A request changes nothing, or stores one more load. -/
theorem request_keeps {I : Loads → Prop} {m : ModuleRef} (h : I c)
    (hstore : c.index.get? m.key = none → I (store c m)) : I (c.request m.key m).2 := by
  unfold Cache.request
  split
  · exact h
  · next hnew => exact hstore hnew

theorem grows_request (c : Loads) (m : ModuleRef) : Grows c (c.request m.key m).2 :=
  request_keeps (.refl c) grows_store

/-- A request gives the key of its module a slot. -/
theorem index_request (c : Loads) (m : ModuleRef) :
    (c.request m.key m).2.index.get? m.key = some (c.request m.key m).1 := by
  unfold Cache.request
  split
  · next hn => exact hn
  · exact (index_store c m m.key).trans (if_pos rfl)

/-- A request for a module of the set keeps a cache sound. -/
theorem Sound.request (hs : Sound ctx d V c) {m : ModuleRef} (hm : V m) :
    Sound ctx d V (c.request m.key m).2 :=
  request_keeps hs fun _ => hs.store hm

/-! ## 3. A load that begins and ends -/

theorem slot?_setSlot_of_ne {n k : Nat} (h : k ≠ n) (s : Slot ModuleRef LoadResult) :
    (c.setSlot n s).slot? k = c.slot? k :=
  List.getElem?_set_ne (Ne.symm h)

/-- What a slot holds after one was set. -/
theorem slot?_setSlot_cases {n k : Nat} {s t : Slot ModuleRef LoadResult}
    (h : (c.setSlot n s).slot? k = some t) : k = n ∧ t = s ∨ k ≠ n ∧ c.slot? k = some t := by
  by_cases hk : k = n
  · subst hk
    have hlt : k < c.started := by
      have := slot?_lt h
      rwa [Cache.started, Cache.setSlot, List.length_set] at this
    rw [Cache.slot?_setSlot c k s hlt] at h
    exact .inl ⟨rfl, (Option.some.inj h).symm⟩
  · rw [slot?_setSlot_of_ne hk] at h
    exact .inr ⟨hk, h⟩

/-- Keys stay in order when a load begins or ends. -/
theorem Indexed.setSlot (hs : Indexed V c) (n : Nat) {s : Slot ModuleRef LoadResult}
    (hnew : ∀ m, s ≠ .waiting m) : Indexed V (c.setSlot n s) where
  inRange hk := by
    rw [Cache.started, Cache.setSlot, List.length_set]
    exact hs.inRange hk
  distinct := hs.distinct
  waiting hk hj := by
    rcases slot?_setSlot_cases hj with ⟨_, h⟩ | ⟨_, h⟩
    · exact absurd h.symm (hnew _)
    · exact hs.waiting hk h

/-- The cache stays sound while a load runs. -/
theorem Sound.begin (hs : Sound ctx d V c) (n : Nat) : Sound ctx d V (c.setSlot n .running) where
  toIndexed := hs.toIndexed.setSlot n nofun
  finished hk hr := by
    rcases slot?_setSlot_cases hr with ⟨_, h⟩ | ⟨_, h⟩
    · cases h
    · exact hs.finished hk h

/-- A result that plain recursion yields may be put under its key. -/
theorem Sound.settle (hs : Sound ctx d V c) {n : Nat} {r : LoadResult} {key : Text}
    (hkey : c.index.get? key = some n)
    (hr : ∀ m, V m → m.key = key → ctx.Yields d m r) :
    Sound ctx d V (c.setSlot n (.finished r)) where
  toIndexed := hs.toIndexed.setSlot n nofun
  finished {key' n' r'} hk hf := by
    rcases slot?_setSlot_cases hf with ⟨rfl, h⟩ | ⟨_, h⟩
    · obtain rfl := Slot.finished.inj h
      obtain rfl := hs.distinct hk hkey
      exact hr
    · exact hs.finished hk h

/-- From the beginning of a load to its end, a cache only grows. -/
theorem Grows.settle {n : Nat} (h : Grows (c.setSlot n .running) c') (r : LoadResult) :
    Grows c (c'.setSlot n (.finished r)) where
  started := by
    have := h.started
    simpa [Cache.started, Cache.setSlot] using this
  kept hk := h.kept hk
  known hk hn := h.known hk (by simpa [Cache.started, Cache.setSlot] using hn)
  running hr := by
    rcases slot?_setSlot_cases hr with ⟨_, h'⟩ | ⟨hne, h'⟩
    · cases h'
    · have := h.running h'
      rwa [slot?_setSlot_of_ne hne] at this

/-! ## 4. One load and all that it waits for -/

/-- A session whose cache is sound. -/
structure SoundSession (ctx : Context) (d : Disk) (V : ModuleRef → Prop) (s : Session) : Prop where
  disk : s.disk = d
  cache : Sound ctx d V s.cache

/-- What became of a request for an import: an answer, or the slot of the module. -/
def Asked (ctx : Context) (c : Loads) (importer : ModuleRef) (path : Text) : Handle → Prop
  | .ready exports => ∀ f, ctx.fetch f importer path = some exports
  | .slot n => ∃ ref, locate ctx.options.virtuals ctx.options.resolver path importer =
      .module ref ∧ c.index.get? ref.key = some n

/-- The modules that a list of import blocks leads to. -/
def Leads (ctx : Context) (importer : ModuleRef) (blocks : List ImportBlock)
    (ref : ModuleRef) : Prop :=
  ∃ b ∈ blocks,
    locate ctx.options.virtuals ctx.options.resolver b.path importer = .module ref

theorem Asked.grows {importer : ModuleRef} {path : Text} {handle : Handle}
    (h : Asked ctx c importer path handle) (hg : Grows c c') :
    Asked ctx c' importer path handle := by
  cases handle with
  | ready exports => exact h
  | slot n =>
    obtain ⟨ref, hl, hn⟩ := h
    exact ⟨ref, hl, hg.kept hn⟩

theorem SoundSession.request {s : Session} (hs : SoundSession ctx d V s) {m : ModuleRef}
    (hm : V m) : SoundSession ctx d V (s.request m).2 :=
  ⟨hs.disk, hs.cache.request hm⟩

/-- A request for one import keeps what the request for the module that it leads to keeps. -/
theorem requestImport_keeps {I : Session → Prop} {importer : ModuleRef} {path : Text}
    (hkeeps : ∀ ref, locate ctx.options.virtuals ctx.options.resolver path importer = .module ref →
      ∀ s, I s → I (s.request ref).2) {s : Session} (h : I s) :
    I (s.requestImport ctx importer path).2 ∧
      Grows s.cache (s.requestImport ctx importer path).2.cache ∧
      Asked ctx (s.requestImport ctx importer path).2.cache importer path
        (s.requestImport ctx importer path).1 := by
  unfold Session.requestImport
  split
  · next symbols hl =>
    refine ⟨h, .refl _, fun f => ?_⟩
    rw [Context.fetch, hl]
  · next name hl =>
    refine ⟨h, .refl _, fun f => ?_⟩
    rw [Context.fetch, hl]
  · next ref hl =>
    exact ⟨hkeeps ref hl s h, grows_request s.cache ref, ref, hl, index_request s.cache ref⟩

/-- **Requests for several imports keep what the requests for their modules keep.** -/
theorem requestAll_keeps {I : Session → Prop} (importer : ModuleRef) (blocks : List ImportBlock)
    (hkeeps : ∀ ref, Leads ctx importer blocks ref → ∀ s, I s → I (s.request ref).2) {s : Session}
    (h : I s) :
    ∃ handles s', Session.requestAll ctx importer s blocks = (handles, s') ∧
      handles.map Prod.fst = blocks ∧ (∀ p ∈ handles, Asked ctx s'.cache importer p.1.path p.2) ∧
      I s' ∧ Grows s.cache s'.cache := by
  induction blocks generalizing s with
  | nil => exact ⟨[], s, rfl, rfl, by simp, h, .refl _⟩
  | cons block blocks ih =>
    obtain ⟨h₁, hg₁, ha⟩ := requestImport_keeps
      (fun ref hl => hkeeps ref ⟨block, List.mem_cons_self, hl⟩) h
    obtain ⟨handles, s', he, hfst, hasked, h', hg'⟩ := ih (fun ref ⟨b, hb, hl⟩ =>
      hkeeps ref ⟨b, List.mem_cons_of_mem block hb, hl⟩) h₁
    refine ⟨(block, (s.requestImport ctx importer block.path).1) :: handles, s', ?_, ?_, ?_, h',
      hg₁.trans hg'⟩
    · rw [Session.requestAll]
      simp only [he]
    · rw [List.map_cons, hfst]
    · intro p hp
      rcases List.mem_cons.mp hp with rfl | hp
      · exact ha.grows hg'
      · exact hasked p hp

/-- What a load does: it returns what plain recursion yields and leaves the cache sound. -/
def Loaded (ctx : Context) (d : Disk) (V : ModuleRef → Prop) (m : ModuleRef) (s : Session)
    (answer : Option LoadResult × Session) : Prop :=
  ∃ r, answer.1 = some r ∧ ctx.Yields d m r ∧ SoundSession ctx d V answer.2 ∧
    Grows s.cache answer.2.cache

/-- When a slot can be loaded for a module. -/
structure Loadable (ctx : Context) (d : Disk) (V : ModuleRef → Prop) (m : ModuleRef) (n : Nat)
    (s : Session) : Prop where
  sound : SoundSession ctx d V s
  member : V m
  slot : s.cache.index.get? m.key = some n
  free : Free ctx d s.cache m

/-- Where one import is fetched to some depth and the others to another, all are to a larger one. -/
theorem fetchAll_cons {importer : ModuleRef} {block : ImportBlock} {blocks : List ImportBlock}
    {e : Except LoadError Exports} {fetched : List (ImportBlock × Except LoadError Exports)}
    (he : ∃ depth, ctx.fetch (ctx.process d depth) importer block.path = some e)
    (hf : ∃ depth, ctx.fetchAll (ctx.process d depth) importer blocks = some fetched) :
    ∃ depth, ctx.fetchAll (ctx.process d depth) importer (block :: blocks) =
      some ((block, e) :: fetched) := by
  obtain ⟨n, hn⟩ := he
  obtain ⟨k, hk⟩ := hf
  refine ⟨max n k, ?_⟩
  have hn' := Context.fetch_mono
    (fun m r => Context.process_of_le (Nat.le_max_left n k)) hn
  have hk' := Context.fetchAll_mono
    (fun m r => Context.process_of_le (Nat.le_max_right n k)) hk
  rw [Context.fetchAll, hn', hk']
  rfl

/-- Waiting for requested imports gives what plain recursion fetches. -/
theorem awaitAll_spec {load : Nat → Session → Option LoadResult × Session}
    {importer : ModuleRef} (handles : List (ImportBlock × Handle)) {s : Session}
    (hload : ∀ ref, Leads ctx importer (handles.map Prod.fst) ref →
      ∀ n s, Loadable ctx d V ref n s → Loaded ctx d V ref s (load n s))
    (hs : SoundSession ctx d V s) (hasked : ∀ p ∈ handles, Asked ctx s.cache importer p.1.path p.2)
    (hv : ∀ ref, Leads ctx importer (handles.map Prod.fst) ref → V ref ∧ Free ctx d s.cache ref) :
    ∃ fetched s', Session.awaitAll load handles s = (some fetched, s') ∧
      (∃ depth, ctx.fetchAll (ctx.process d depth) importer (handles.map Prod.fst) =
        some fetched) ∧
      SoundSession ctx d V s' ∧ Grows s.cache s'.cache := by
  induction handles generalizing s with
  | nil => exact ⟨[], s, rfl, ⟨0, rfl⟩, hs, .refl _⟩
  | cons p handles ih =>
    obtain ⟨block, handle⟩ := p
    have hleads : ∀ ref, Leads ctx importer (handles.map Prod.fst) ref →
        Leads ctx importer (((block, handle) :: handles).map Prod.fst) ref :=
      fun ref ⟨b, hb, hl⟩ => ⟨b, List.mem_cons_of_mem block hb, hl⟩
    have hone := hasked _ List.mem_cons_self
    cases handle with
    | ready exports =>
      obtain ⟨fetched, s', he, hf, hs', hg⟩ := ih (fun ref hr => hload ref (hleads ref hr)) hs
        (fun q hq => hasked q (List.mem_cons_of_mem _ hq)) fun ref hr => hv ref (hleads ref hr)
      refine ⟨(block, exports) :: fetched, s', ?_, fetchAll_cons ⟨0, hone _⟩ hf, hs', hg⟩
      rw [Session.awaitAll]
      simp only [he, Option.map_some]
    | slot n =>
      obtain ⟨ref, hl, hn⟩ := hone
      have href : Leads ctx importer (((block, .slot n) :: handles).map Prod.fst) ref :=
        ⟨block, List.mem_cons_self, hl⟩
      obtain ⟨r, hr, ⟨depth, plain, hplain, hout⟩, hs₁, hg₁⟩ :=
        hload ref href n s ⟨hs, (hv ref href).1, hn, (hv ref href).2⟩
      obtain ⟨fetched, s', he, hf, hs', hg⟩ := ih (fun ref hr => hload ref (hleads ref hr)) hs₁
        (fun q hq => (hasked q (List.mem_cons_of_mem _ hq)).grows hg₁)
        fun ref hr => ⟨(hv ref (hleads ref hr)).1, (hv ref (hleads ref hr)).2.grows hg₁⟩
      -- an importer sees the exports only, and these the outcomes share
      have hexports := LoadResult.exports_of_outcome hout
      refine ⟨(block, r.map LoadedModule.exports) :: fetched, s', ?_,
        fetchAll_cons ⟨depth, ?_⟩ hf, hs', hg₁.trans hg⟩
      · rw [Session.awaitAll]
        simp only [he, hr, Option.bind_some, Option.map_some]
      · rw [Context.fetch, hl]
        simp only [hplain, Option.map_some, hexports]

/-- Plain recursion yields the same for references that are read alike. -/
theorem Yields.same (hctx : ctx.Standard) {a b : ModuleRef} (h : a.Same b) {r : LoadResult}
    (hr : ctx.Yields d a r) : ctx.Yields d b r := by
  obtain ⟨depth, plain, hplain, hout⟩ := hr
  have hmap := Context.process_same hctx h (d := d) depth
  rw [hplain, Option.map_some] at hmap
  obtain ⟨plain', hplain', hout'⟩ := Option.map_eq_some_iff.mp hmap.symm
  exact ⟨depth, plain', hplain', hout.trans hout'.symm⟩

/-- While a module is loaded, what it imports is free: it reaches nothing that was being loaded
    before, and it does not reach the module. -/
theorem Free.begin (hctx : ctx.Standard) (hw : ctx.World d V) (hs : Sound ctx d V c)
    {m other : ModuleRef} {n : Nat} (hm : V m) (hn : c.index.get? m.key = some n)
    (hf : Free ctx d c m) (hi : ctx.Imports d m other) :
    Free ctx d (c.setSlot n .running) other := by
  intro key k hk hr a ha
  rcases slot?_setSlot_cases hr with ⟨rfl, _⟩ | ⟨_, hrun⟩
  · obtain rfl := hs.distinct hk hn
    exact hw.key_ne hctx hm (.head' hi ha)
  · exact hf.of_imports hi key k hk hrun a ha

/-- The session in which a load has begun. -/
def begun (ctx : Context) (s : Session) (n : Nat) (m : ModuleRef) : Session :=
  { s with cache := s.cache.setSlot n .running }.note (ctx.prepare s.disk m).2

/-- A load that begins, up to what it waits for. -/
theorem load_waiting {s : Session} {n : Nat} {m : ModuleRef}
    (h : s.cache.slot? n = some (.waiting m)) (bound : Nat) :
    Session.load ctx (bound + 1) n s =
      match (ctx.prepare s.disk m).1 with
      | .error e => (some (.error e), (begun ctx s n m).settle n (.error e))
      | .ok sheet =>
        let (handles, s') := Session.requestAll ctx m (begun ctx s n m) (Link.importBlocks sheet)
        let (fetched, s') := Session.awaitAll (Session.load ctx bound) handles s'
        match fetched with
        | none => (none, s')
        | some fetched =>
          let (result, events) := ctx.finish m sheet fetched
          (some result, (s'.note events).settle n result) := by
  rw [Session.load, h]
  rfl

/-- **A load returns what plain recursion yields**, whatever the cache holds already. -/
theorem load_spec (hctx : ctx.Standard) (hw : ctx.World d V) {bound : Nat} {m : ModuleRef}
    (hdepth : ctx.Within d bound m) {n : Nat} {s : Session} (h : Loadable ctx d V m n s) :
    Loaded ctx d V m s (Session.load ctx bound n s) := by
  induction bound generalizing m n s with
  | zero => cases hdepth
  | succ bound ih =>
    obtain ⟨hs, hm, hn, hfree⟩ := h
    obtain ⟨slot, hslot⟩ : ∃ slot, s.cache.slot? n = some slot :=
      ⟨_, List.getElem?_eq_getElem (hs.cache.inRange hn)⟩
    cases slot with
    | finished r =>
      rw [Session.load, hslot]
      exact ⟨r, rfl, hs.cache.finished hn hslot m hm rfl, hs, .refl _⟩
    | running => exact absurd rfl (hfree m.key n hn hslot m .refl)
    | waiting j =>
      -- the load that waits may have been requested through another reference
      obtain ⟨hj, hkey⟩ := hs.cache.waiting hn hslot
      have hsame : j.Same m := ⟨hkey, hw.consistent j m hj hm hkey⟩
      have hbegun : SoundSession ctx d V (begun ctx s n j) := ⟨hs.disk, hs.cache.begin n⟩
      have hyield : ∀ r, ctx.Yields d m r → ∀ a, V a → a.key = m.key → ctx.Yields d a r :=
        fun r hr a ha e => Yields.same hctx ⟨e.symm, hw.consistent m a hm ha e.symm⟩ hr
      rw [load_waiting hslot, hs.disk, Context.prepare_same hctx hsame]
      cases hp : (ctx.prepare d m).1 with
      | error e =>
        have hr : ctx.Yields d m (.error e) := ⟨1, _, Context.process_of_error hp 0, rfl⟩
        exact ⟨_, rfl, hr, ⟨hs.disk, hbegun.cache.settle hn (hyield _ hr)⟩, .settle (.refl _) _⟩
      | ok sheet =>
        have hleads : ∀ ref, Leads ctx j (Link.importBlocks sheet) ref → ctx.Imports d m ref :=
          fun ref ⟨b, hb, hl⟩ =>
            Context.imports_of_block hp hb ((Context.locate_same hctx hsame b.path).symm.trans hl)
        obtain ⟨handles, s₁, hrequest, hfst, hasked, hs₁, hg₁⟩ := requestAll_keeps j
          (Link.importBlocks sheet)
          (fun ref href _ hs => hs.request (hw.closed m ref hm (hleads ref href))) hbegun
        rw [← hfst] at hleads
        obtain ⟨fetched, s₂, hawait, ⟨depth, hfetch⟩, hs₂, hg₂⟩ := awaitAll_spec handles
          (fun ref href _ _ hl => ih (hdepth ref (hleads ref href)) hl) hs₁ hasked
          fun ref href => ⟨hw.closed m ref hm (hleads ref href),
            (hfree.begin hctx hw hs.cache hm hn (hleads ref href)).grows hg₁⟩
        have hg := hg₁.trans hg₂
        have hr : ctx.Yields d m (ctx.finish j sheet fetched).1 := by
          refine ⟨depth + 1, (ctx.finish m sheet fetched).1, ?_,
            Context.finish_same hctx hsame sheet fetched⟩
          rw [Context.process_of_ok hp, ← Context.fetchAll_same hctx hsame, ← hfst, hfetch]
          rfl
        simp only [hrequest, hawait]
        exact ⟨_, rfl, hr, ⟨hs₂.disk, hs₂.cache.settle (hg.kept hn) (hyield _ hr)⟩, hg.settle _⟩

/-! ## 6. Loads that nobody waits for -/

/-- Nothing is being loaded. -/
def Idle (s : Session) : Prop :=
  ∀ n, s.cache.slot? n ≠ some .running

theorem Idle.grows {s s' : Session} (h : Idle s) (hg : Grows s.cache s'.cache) : Idle s' :=
  fun n hr => h n (hg.running hr)

theorem Idle.free {s : Session} (h : Idle s) (m : ModuleRef) : Free ctx d s.cache m :=
  fun _ n _ hr => absurd hr (h n)

theorem idle_ofDisk (d : Disk) : Idle (.ofDisk d) := by
  intro n h
  cases h

/-- A session in which nothing is being loaded can load every module of the set. -/
theorem Idle.load (hctx : ctx.Standard) (hw : ctx.World d V) {s : Session} (h : Idle s)
    (hs : SoundSession ctx d V s) {m : ModuleRef} (hm : V m) {n : Nat}
    (hn : s.cache.index.get? m.key = some n) :
    Loaded ctx d V m s (Session.load ctx s.bound n s) := by
  have hdepth : ctx.Within d s.bound m := by
    have hacyclic := hw.acyclicFrom hctx hm
    rw [← hs.disk] at hacyclic ⊢
    exact Context.within_bound hctx hacyclic
  exact load_spec hctx hw hdepth ⟨hs, hm, hn, h.free m⟩

/-- **A module that is loaded by itself has the result of plain recursion.** -/
theorem loadModule_spec (hctx : ctx.Standard) (hw : ctx.World d V) {m : ModuleRef} (hm : V m) :
    ∃ r, (Session.loadModule ctx (.ofDisk d) m).1 = some r ∧ ctx.Yields d m r := by
  have hempty : SoundSession ctx d V (.ofDisk d) := ⟨rfl, sound_empty⟩
  have hs := hempty.request hm
  have hg := grows_request (Session.ofDisk d).cache m
  have hn := index_request (Session.ofDisk d).cache m
  obtain ⟨r, hr, hyields, _⟩ := ((idle_ofDisk d).grows hg).load hctx hw hs hm hn
  exact ⟨r, hr, hyields⟩

end Memo

end StyleModules
