import StyleModules.Proofs.CachedClient
import StyleModules.Proofs.ImportCycles

/-!
Which loads never finish.

* A load changes the cache in one direction only (`Advances`): keys keep their slots, and what has
  begun stays so. A module is read once, when its load begins, and `ReadAs` says that the graph has
  then what the module asks for. So the files may change from one load to the next.
* `Ledger` is what holds of the cache at every moment, with the modules on the stack being loaded:
  what is finished leads to no cycle, and what is running and not on the stack does.
* `load_told`: a load never finishes exactly if its module leads to a cycle. The induction is on the
  bound, which never runs out: the modules on the stack have different keys.
* `Session.isSome_play_iff`: that is what a client sees, whatever it asks for and in whatever order.
-/

namespace StyleModules

/-! ## 1. What has begun -/

/-- Whether a load has begun. -/
def Slot.begun {Job Result : Type} : Slot Job Result → Bool
  | waiting _ => false
  | running => true
  | finished _ => true

/-- Whether the load of a key has begun. -/
def Cache.hasBegun {Job Result : Type} (c : Cache Job Result) (key : Text) : Bool :=
  ((c.index.get? key).bind c.slot?).any Slot.begun

namespace Memo

/-- How loads change a session. -/
structure Advances (s s' : Session) : Prop where
  disk : s'.disk = s.disk
  room : s'.room = s.room
  journal : s.journal <+: s'.journal
  kept : ∀ {key n}, s.cache.index.get? key = some n → s'.cache.index.get? key = some n
  begun : ∀ {n slot}, s.cache.slot? n = some slot → slot.begun = true →
    ∃ slot', s'.cache.slot? n = some slot' ∧ slot'.begun = true

section Advance

variable {ctx : Context} {s s' s'' : Session}

theorem Advances.refl (s : Session) : Advances s s :=
  ⟨rfl, rfl, List.prefix_rfl, fun h => h, fun h hb => ⟨_, h, hb⟩⟩

theorem Advances.trans (h : Advances s s') (h' : Advances s' s'') : Advances s s'' where
  disk := h'.disk.trans h.disk
  room := h'.room.trans h.room
  journal := h.journal.trans h'.journal
  kept hk := h'.kept (h.kept hk)
  begun hslot hb := by
    obtain ⟨slot', hslot', hb'⟩ := h.begun hslot hb
    exact h'.begun hslot' hb'

theorem Advances.bound (h : Advances s s') : s'.bound = s.bound := by
  rw [Session.bound, Session.bound, h.disk, h.room]

theorem Advances.hasBegun (h : Advances s s') {key : Text} (hb : s.cache.hasBegun key = true) :
    s'.cache.hasBegun key = true := by
  unfold Cache.hasBegun at hb ⊢
  cases hfound : (s.cache.index.get? key).bind s.cache.slot? with
  | none =>
    rw [hfound] at hb
    cases hb
  | some slot =>
    rw [hfound] at hb
    obtain ⟨n, hn, hslot⟩ := Option.bind_eq_some_iff.mp hfound
    obtain ⟨slot', hslot', hbegun'⟩ := h.begun hslot hb
    rw [h.kept hn, Option.bind_some, hslot']
    exact hbegun'

/-- What has not begun by now had not begun before. -/
theorem Advances.hasBegun_eq_false (h : Advances s s') {key : Text}
    (hnot : s'.cache.hasBegun key = false) : s.cache.hasBegun key = false := by
  by_contra hb
  rw [h.hasBegun (Bool.not_eq_false _ ▸ hb)] at hnot
  cases hnot

theorem advances_note (s : Session) (events : List Event) : Advances s (s.note events) :=
  ⟨rfl, rfl, List.prefix_append _ _, fun h => h, fun h hb => ⟨_, h, hb⟩⟩

theorem advances_setSlot (s : Session) (n : Nat) {slot : Slot ModuleRef LoadResult}
    (hslot : slot.begun = true) :
    Advances s { s with cache := s.cache.setSlot n slot } where
  disk := rfl
  room := rfl
  journal := List.prefix_rfl
  kept h := h
  begun {k old} hold hb := by
    by_cases hk : k = n
    · subst hk
      exact ⟨slot, Cache.slot?_setSlot s.cache k slot (slot?_lt hold), hslot⟩
    · exact ⟨old, (slot?_setSlot_of_ne hk slot).trans hold, hb⟩

theorem advances_request (s : Session) (m : ModuleRef) : Advances s (s.request m).2 where
  disk := rfl
  room := rfl
  journal := List.prefix_append _ _
  kept {key n} hk := by
    show ((s.cache.request m.key m).2).index.get? key = some n
    unfold Cache.request
    cases hknown : s.cache.index.get? m.key with
    | some number => exact hk
    | none =>
      have hne : key ≠ m.key := by
        rintro rfl
        rw [hknown] at hk
        cases hk
      rw [← hk]
      exact (index_store s.cache m key).trans (if_neg hne)
  begun {n slot} hslot hb :=
    ⟨slot, (Cache.slot?_request s.cache m.key m n (slot?_lt hslot)).trans hslot, hb⟩

theorem advances_requestImport (importer : ModuleRef) (s : Session) (path : Text) :
    Advances s (s.requestImport ctx importer path).2 := by
  unfold Session.requestImport
  split
  · exact .refl s
  · exact .refl s
  · exact advances_request s _

theorem advances_requestAll (ctx : Context) (importer : ModuleRef) (s : Session)
    (blocks : List ImportBlock) :
    Advances s (Session.requestAll ctx importer s blocks).2 := by
  induction blocks generalizing s with
  | nil => exact .refl s
  | cons block blocks ih => exact (advances_requestImport importer s block.path).trans (ih _)

theorem advances_awaitAll {load : Nat → Session → Option LoadResult × Session}
    (hload : ∀ n s, Advances s (load n s).2) (handles : List (ImportBlock × Handle))
    (s : Session) : Advances s (Session.awaitAll load handles s).2 := by
  induction handles generalizing s with
  | nil => exact .refl s
  | cons p handles ih =>
    obtain ⟨block, handle⟩ := p
    cases handle with
    | ready exports => exact ih s
    | slot n => exact (hload n s).trans (ih _)

/-- What a load that begins can do: it fails at once, it waits for something that never finishes, or
    it finishes. -/
theorem load_waiting_cases {n : Nat} {m : ModuleRef} (h : s.cache.slot? n = some (.waiting m))
    (bound : Nat) :
    (∃ e, (ctx.prepare s.disk m).1 = .error e ∧
      Session.load ctx (bound + 1) n s =
        (some (.error e), (begun ctx s n m).settle n (.error e))) ∨
    ∃ sheet handles s₁ s₂, (ctx.prepare s.disk m).1 = .ok sheet ∧
      Session.requestAll ctx m (begun ctx s n m) (Link.importBlocks sheet) = (handles, s₁) ∧
      ((Session.awaitAll (Session.load ctx bound) handles s₁ = (none, s₂) ∧
          Session.load ctx (bound + 1) n s = (none, s₂)) ∨
        ∃ fetched, Session.awaitAll (Session.load ctx bound) handles s₁ = (some fetched, s₂) ∧
          Session.load ctx (bound + 1) n s = (some (ctx.finish m sheet fetched).1,
            (s₂.note (ctx.finish m sheet fetched).2).settle n (ctx.finish m sheet fetched).1)) := by
  cases hp : (ctx.prepare s.disk m).1 with
  | error e =>
    refine .inl ⟨e, rfl, ?_⟩
    rw [load_waiting h, hp]
  | ok sheet =>
    obtain ⟨handles, s₁, hrequest⟩ : ∃ handles s₁, Session.requestAll ctx m (begun ctx s n m)
      (Link.importBlocks sheet) = (handles, s₁) := ⟨_, _, rfl⟩
    obtain ⟨fetched, s₂, hawait⟩ : ∃ fetched s₂, Session.awaitAll (Session.load ctx bound) handles
      s₁ = (fetched, s₂) := ⟨_, _, rfl⟩
    refine .inr ⟨sheet, handles, s₁, s₂, rfl, hrequest, ?_⟩
    rw [load_waiting h, hp]
    simp only [hrequest, hawait]
    cases fetched with
    | none => exact .inl ⟨rfl, rfl⟩
    | some fetched => exact .inr ⟨fetched, rfl, rfl⟩

theorem advances_settle (s : Session) (n : Nat) (r : LoadResult) : Advances s (s.settle n r) :=
  advances_setSlot s n (rfl : (Slot.finished r : Slot ModuleRef LoadResult).begun = true)

theorem advances_finish (s : Session) (n : Nat) (events : List Event) (r : LoadResult) :
    Advances s ((s.note events).settle n r) :=
  (advances_note s events).trans (advances_settle _ n r)

theorem advances_begin (s : Session) (n : Nat) (m : ModuleRef) : Advances s (begun ctx s n m) :=
  (advances_setSlot s n (rfl : (Slot.running : Slot ModuleRef LoadResult).begun = true)).trans
    (advances_note _ _)

/-- A load that has begun goes on. -/
theorem advances_begun {bound : Nat} (hload : ∀ n s, Advances s (Session.load ctx bound n s).2)
    {n : Nat} {m : ModuleRef} (h : s.cache.slot? n = some (.waiting m)) :
    Advances (begun ctx s n m) (Session.load ctx (bound + 1) n s).2 := by
  rcases load_waiting_cases h bound with ⟨e, _, hload'⟩ |
    ⟨sheet, handles, s₁, s₂, _, hrequest, hcases⟩
  · rw [hload']
    exact advances_settle (begun ctx s n m) n (.error e)
  · have h₁ := advances_requestAll ctx m (begun ctx s n m) (Link.importBlocks sheet)
    have h₂ := advances_awaitAll hload handles s₁
    rw [hrequest] at h₁
    rcases hcases with ⟨hawait, hload'⟩ | ⟨fetched, hawait, hload'⟩
    · rw [hawait] at h₂
      rw [hload']
      exact h₁.trans h₂
    · rw [hawait] at h₂
      rw [hload']
      exact (h₁.trans h₂).trans (advances_finish s₂ n _ _)

theorem advances_load (ctx : Context) (bound n : Nat) (s : Session) :
    Advances s (Session.load ctx bound n s).2 := by
  induction bound generalizing n s with
  | zero => exact .refl s
  | succ bound ih =>
    cases hslot : s.cache.slot? n with
    | none =>
      rw [Session.load, hslot]
      exact .refl s
    | some slot =>
      cases slot with
      | waiting m =>
        exact (advances_begin s n m).trans (advances_begun ih hslot)
      | running =>
        rw [Session.load, hslot]
        exact .refl s
      | finished r =>
        rw [Session.load, hslot]
        exact .refl s

end Advance

/-! ## 2. What holds of the cache -/

/-- A file, by a path in normal form. -/
def IsFile (m : ModuleRef) : Prop :=
  ∃ path, m = .file path ∧ Path.IsNormal path

theorem isFile_ofPath (path : Text) : IsFile (.ofPath path) :=
  ⟨_, rfl, Path.isNormal_normalize path⟩

/-- Files are told apart by their keys. -/
theorem IsFile.eq_of_key {a b : ModuleRef} (ha : IsFile a) (hb : IsFile b) (h : a.key = b.key) :
    a = b := by
  obtain ⟨p, rfl, _⟩ := ha
  obtain ⟨q, rfl, _⟩ := hb
  exact congrArg ModuleRef.file h

/-- **Files are an orderly set**, if they ask for files only. -/
theorem orderly_files {asks : ModuleRef → List ModuleRef}
    (h : ∀ {m other}, IsFile m → other ∈ asks m → IsFile other) : Orderly asks IsFile where
  closed := h
  decided a b ha hb hkey ref href := by
    obtain rfl := ha.eq_of_key hb hkey
    exact ⟨ref, href, rfl⟩
  shared ha hb hkey hcycle := by
    obtain rfl := ha.eq_of_key hb hkey
    exact hcycle
  returns {a b} ha hpath hkey := by
    obtain rfl := (mem_of_transGen h ha hpath).eq_of_key ha hkey
    exact .of_loop hpath

/-- What holds of a cache while the modules on a stack are being loaded. -/
structure Ledger (asks : ModuleRef → List ModuleRef) (V : ModuleRef → Prop) (stack : List ModuleRef)
    (c : Loads) : Prop extends Indexed V c where
  finished : ∀ {m n r}, V m → c.index.get? m.key = some n → c.slot? n = some (.finished r) →
    ¬LeadsToCycle asks m
  running : ∀ {m n}, V m → c.index.get? m.key = some n → c.slot? n = some .running →
    m.key ∈ stack.map ModuleRef.key ∨ LeadsToCycle asks m
  onStack : ∀ {m}, m ∈ stack → ∃ n, c.index.get? m.key = some n ∧ c.slot? n = some .running

section Ledger

variable {asks : ModuleRef → List ModuleRef} {V : ModuleRef → Prop} {stack : List ModuleRef}
  {c : Loads} {m : ModuleRef} {n : Nat}

theorem ledger_empty : Ledger asks V [] .empty where
  toIndexed := indexed_empty
  finished _ h := by cases h
  running _ h := by cases h
  onStack h := by cases h

theorem Ledger.request (h : Ledger asks V stack c) (hm : V m) :
    Ledger asks V stack (c.request m.key m).2 := by
  refine request_keeps h fun hnew => ?_
  exact {
    toIndexed := h.toIndexed.store hm
    finished := fun ha hk hr => by
      obtain ⟨hk', hr'⟩ := of_store hk hr nofun
      exact h.finished ha hk' hr'
    running := fun ha hk hr => by
      obtain ⟨hk', hr'⟩ := of_store hk hr nofun
      exact h.running ha hk' hr'
    onStack := fun ha => by
      obtain ⟨n, hn, hr⟩ := h.onStack ha
      have hold : (store c m).slot? n = c.slot? n := List.getElem?_append_left (slot?_lt hr)
      exact ⟨n, (grows_store hnew).kept hn, hold.trans hr⟩ }

/-- A load that waits begins: its module goes on the stack. -/
theorem Ledger.begin (h : Ledger asks V stack c) (hn : c.index.get? m.key = some n) :
    Ledger asks V (m :: stack) (c.setSlot n .running) where
  toIndexed := h.toIndexed.setSlot n nofun
  finished ha hk hr := by
    rcases slot?_setSlot_cases hr with ⟨_, hnone⟩ | ⟨_, hold⟩
    · cases hnone
    · exact h.finished ha hk hold
  running {a k} ha hk hr := by
    rw [List.map_cons]
    rcases slot?_setSlot_cases hr with ⟨rfl, _⟩ | ⟨_, hold⟩
    · rw [h.distinct hk hn]
      exact .inl List.mem_cons_self
    · exact (h.running ha hk hold).imp_left (List.mem_cons_of_mem m.key)
  onStack {a} ha := by
    have hrange := h.inRange hn
    rcases List.mem_cons.mp ha with rfl | hold
    · exact ⟨n, hn, Cache.slot?_setSlot c n .running hrange⟩
    · obtain ⟨k, hk, hr⟩ := h.onStack hold
      by_cases hkn : k = n
      · subst hkn
        exact ⟨k, hk, Cache.slot?_setSlot c k .running hrange⟩
      · exact ⟨k, hk, (slot?_setSlot_of_ne hkn .running).trans hr⟩

/-- A load ends: its module leaves the stack, and leads to no cycle. -/
theorem Ledger.settle (ho : Orderly asks V) (h : Ledger asks V (m :: stack) c) (hm : V m)
    (hnew : m.key ∉ stack.map ModuleRef.key) (hn : c.index.get? m.key = some n)
    (hfree : ¬LeadsToCycle asks m) (r : LoadResult) :
    Ledger asks V stack (c.setSlot n (.finished r)) where
  toIndexed := h.toIndexed.setSlot n nofun
  finished {a k r'} ha hk hr := by
    rcases slot?_setSlot_cases hr with ⟨rfl, _⟩ | ⟨_, hold⟩
    · exact fun hcycle => hfree (ho.shared ha hm (h.distinct hk hn) hcycle)
    · exact h.finished ha hk hold
  running {a k} ha hk hr := by
    rcases slot?_setSlot_cases hr with ⟨_, hnone⟩ | ⟨hne, hold⟩
    · cases hnone
    · rcases h.running ha hk hold with hmem | hcycle
      · rcases List.mem_cons.mp hmem with hkey | hmem
        · rw [hkey] at hk
          exact absurd (Option.some.inj (hk.symm.trans hn)) hne
        · exact .inl hmem
      · exact .inr hcycle
  onStack {a} ha := by
    obtain ⟨k, hk, hr⟩ := h.onStack (List.mem_cons_of_mem m ha)
    have hne : k ≠ n := by
      intro heq
      subst heq
      exact hnew (h.distinct hk hn ▸ List.mem_map_of_mem ha)
    exact ⟨k, hk, (slot?_setSlot_of_ne hne _).trans hr⟩

/-- A load never ends: its module leads to a cycle. -/
theorem Ledger.pop (ho : Orderly asks V) (h : Ledger asks V (m :: stack) c) (hm : V m)
    (hcycle : LeadsToCycle asks m) : Ledger asks V stack c where
  toIndexed := h.toIndexed
  finished := h.finished
  running ha hk hr := by
    rcases h.running ha hk hr with hmem | hleads
    · rcases List.mem_cons.mp hmem with hkey | hmem
      · exact .inr (ho.shared hm ha hkey.symm hcycle)
      · exact .inl hmem
    · exact .inr hleads
  onStack ha := h.onStack (List.mem_cons_of_mem m ha)

/-- A module whose load waits is not being loaded. -/
theorem Ledger.not_mem_of_waiting (h : Ledger asks V stack c) {j : ModuleRef}
    (hn : c.index.get? m.key = some n) (hslot : c.slot? n = some (.waiting j)) :
    m.key ∉ stack.map ModuleRef.key := by
  intro hmem
  obtain ⟨a, ha, hkey⟩ := List.mem_map.mp hmem
  obtain ⟨k, hk, hrun⟩ := h.onStack ha
  rw [hkey] at hk
  rw [Option.some.inj (hk.symm.trans hn), hslot] at hrun
  cases hrun

end Ledger

/-! ## 3. Requests -/

/-- What a client has in hand for a request: an answer, if no module was asked for, or the slot of
    the module. -/
def Answerable (ctx : Context) (c : Loads) (a : Ask) : Handle → Prop
  | .ready _ => a.target? ctx = none
  | .slot n => ∃ ref, a.target? ctx = some ref ∧ c.index.get? ref.key = some n

theorem Answerable.advances {ctx : Context} {s s' : Session} {a : Ask} {handle : Handle}
    (h : Answerable ctx s.cache a handle) (hadv : Advances s s') :
    Answerable ctx s'.cache a handle := by
  cases handle with
  | ready exports => exact h
  | slot n =>
    obtain ⟨ref, htarget, hn⟩ := h
    exact ⟨ref, htarget, hadv.kept hn⟩

/-- What became of a request for an import, to a client that made it. -/
theorem Asked.answerable {ctx : Context} {c : Loads} {importer : ModuleRef} {path : Text}
    {handle : Handle} (h : Asked ctx c importer path handle) :
    Answerable ctx c (.fetch importer path) handle := by
  have hdef : (Ask.fetch importer path).target? ctx = ctx.imported? importer path := rfl
  cases handle with
  | ready exports =>
    rw [Answerable, hdef, Context.imported?]
    split
    · next ref hl =>
      -- what leads to a module is not there before the module is loaded
      have hnone := h fun _ => none
      rw [Context.fetch, hl] at hnone
      cases hnone
    · rfl
    · rfl
  | slot n =>
    obtain ⟨ref, hl, hn⟩ := h
    exact ⟨ref, by rw [hdef, Context.imported?, hl], hn⟩

/-- A request under a new key makes a new slot. -/
theorem requestImport_of_new {ctx : Context} {s : Session} {importer ref : ModuleRef} {path : Text}
    (href : ctx.imported? importer path = some ref) (hnew : s.cache.index.get? ref.key = none) :
    (s.requestImport ctx importer path).1 = .slot s.cache.started ∧
      (s.requestImport ctx importer path).2.cache = store s.cache ref := by
  unfold Context.imported? at href
  unfold Session.requestImport
  split at href
  · next hl =>
    cases href
    have hrequest : s.cache.request ref.key ref = (s.cache.started, store s.cache ref) := by
      rw [Cache.request, hnew]
      rfl
    simp only [hl, Session.request, Session.note, hrequest, and_self]
  · cases href
  · cases href

/-! ## 4. One load and all that it waits for -/

/-- The graph has what those modules of a set asked for that were read between two sessions. -/
def ReadAs (ctx : Context) (asks : ModuleRef → List ModuleRef) (V : ModuleRef → Prop)
    (s s' : Session) : Prop :=
  ∀ m, V m → s.cache.hasBegun m.key = false → s'.cache.hasBegun m.key = true →
    asks m = ctx.imports s.disk m

/-- Modules of a set that can wait for each other: they have different keys, and have been read. -/
structure Waits (ctx : Context) (d : Disk) (V : ModuleRef → Prop) (stack : List ModuleRef) :
    Prop where
  nodup : (stack.map ModuleRef.key).Nodup
  prepared : ∀ m ∈ stack, V m ∧ ∃ sheet, (ctx.prepare d m).1 = .ok sheet

/-- Fewer modules of a set than a bound can wait for each other. -/
def Fits (ctx : Context) (d : Disk) (V : ModuleRef → Prop) (bound : Nat) : Prop :=
  ∀ stack, Waits ctx d V stack → stack.length < bound

section Load

variable {ctx : Context} {asks : ModuleRef → List ModuleRef} {V : ModuleRef → Prop}
  {stack : List ModuleRef} {s s' s'' : Session}

theorem ReadAs.left (h : ReadAs ctx asks V s s'') (hadv : Advances s' s'') :
    ReadAs ctx asks V s s' :=
  fun m hm hnot hbegun => h m hm hnot (hadv.hasBegun hbegun)

theorem ReadAs.right (h : ReadAs ctx asks V s s'') (hadv : Advances s s') :
    ReadAs ctx asks V s' s'' := by
  intro m hm hnot hbegun
  rw [hadv.disk]
  exact h m hm (hadv.hasBegun_eq_false hnot) hbegun

theorem Waits.push {d : Disk} (h : Waits ctx d V stack) {m : ModuleRef} (hm : V m)
    (hnew : m.key ∉ stack.map ModuleRef.key) {sheet : Stylesheet}
    (hp : (ctx.prepare d m).1 = .ok sheet) : Waits ctx d V (m :: stack) where
  nodup := List.nodup_cons.mpr ⟨hnew, h.nodup⟩
  prepared := List.forall_mem_cons.mpr ⟨⟨hm, sheet, hp⟩, h.prepared⟩

/-- There is a bound on the files that can wait for each other: each is read, by a path of its
    own. -/
theorem fits_files (ctx : Context) (s : Session) : Fits ctx s.disk IsFile s.bound := by
  intro stack h
  have hreadable : ∀ path ∈ stack.map ModuleRef.key,
      Path.IsNormal path ∧ ∃ bytes, s.disk.read path = .ok bytes := by
    refine List.forall_mem_map.mpr fun m hm => ?_
    obtain ⟨⟨path, rfl, hnormal⟩, sheet, hp⟩ := h.prepared m hm
    exact ⟨hnormal, Context.readable_of_prepare hp⟩
  have hle := Disk.length_le_of_readable h.nodup hreadable
  have : 0 < Disk.maxPath := by decide
  rw [List.length_map] at hle
  rw [Session.bound, Nat.add_mul]
  omega

/-- No more modules can wait for each other than there are keys. -/
theorem fits_of_fewKeys {s : Session} {room : Nat} (h : FewKeys asks V room)
    (hroom : s.room = room) : Fits ctx s.disk V s.bound := by
  intro stack hwaits
  obtain ⟨keys, hlength, hkeys⟩ := h.few
  have hsub : stack.map ModuleRef.key ⊆ keys := by
    intro key hkey
    obtain ⟨m, hm, rfl⟩ := List.mem_map.mp hkey
    exact hkeys m (hwaits.prepared m hm).1
  have hle := (hwaits.nodup.subperm hsub).length_le
  have : 0 < (s.disk.entries.length + 1) * Disk.maxPath := Nat.mul_pos (Nat.succ_pos _) (by decide)
  rw [List.length_map] at hle
  rw [Session.bound]
  omega

/-- What a load does: it never finishes exactly if its module leads to a cycle. -/
structure Told (asks : ModuleRef → List ModuleRef) (V : ModuleRef → Prop) (stack : List ModuleRef)
    (m : ModuleRef) (answer : Option LoadResult × Session) : Prop where
  stalls : answer.1 = none ↔ LeadsToCycle asks m
  ledger : Ledger asks V stack answer.2.cache

/-- When a slot can be loaded for a module: every module on the stack waits for its key. -/
structure Due (asks : ModuleRef → List ModuleRef) (V : ModuleRef → Prop) (stack : List ModuleRef)
    (m : ModuleRef) (n : Nat) (s : Session) : Prop where
  ledger : Ledger asks V stack s.cache
  member : V m
  slot : s.cache.index.get? m.key = some n
  above : ∀ a ∈ stack, ∃ other, Relation.TransGen (AsksFor asks) a other ∧ other.key = m.key

theorem awaitAll_eq_none_iff (load : Nat → Session → Option LoadResult × Session)
    (block : ImportBlock) (n : Nat) (handles : List (ImportBlock × Handle)) (s : Session) :
    (Session.awaitAll load ((block, .slot n) :: handles) s).1 = none ↔
      (load n s).1 = none ∨ (Session.awaitAll load handles (load n s).2).1 = none := by
  have hdef : (Session.awaitAll load ((block, .slot n) :: handles) s).1 =
      (load n s).1.bind fun r => (Session.awaitAll load handles (load n s).2).1.map
        ((block, r.map LoadedModule.exports) :: ·) := rfl
  rw [hdef]
  cases (load n s).1 with
  | none => simp
  | some r => simp

/-- Waiting for several imports never ends exactly if one of them leads to a cycle. -/
theorem awaitAll_told {load : Nat → Session → Option LoadResult × Session} {importer : ModuleRef}
    {d : Disk} (hadv : ∀ n s, Advances s (load n s).2)
    (hload : ∀ ref n s, Due asks V stack ref n s → s.disk = d → ReadAs ctx asks V s (load n s).2 →
      Told asks V stack ref (load n s))
    (handles : List (ImportBlock × Handle))
    (htargets : ∀ p ∈ handles, ∀ ref, ctx.imported? importer p.1.path = some ref →
      V ref ∧ ∀ a ∈ stack, ∃ other, Relation.TransGen (AsksFor asks) a other ∧ other.key = ref.key)
    (hs : Ledger asks V stack s.cache) (hdisk : s.disk = d)
    (hall : ∀ p ∈ handles, Answerable ctx s.cache (.fetch importer p.1.path) p.2)
    (hread : ReadAs ctx asks V s (Session.awaitAll load handles s).2) :
    ((Session.awaitAll load handles s).1 = none ↔
        ∃ p ∈ handles, ∃ ref, ctx.imported? importer p.1.path = some ref ∧ LeadsToCycle asks ref) ∧
      Ledger asks V stack (Session.awaitAll load handles s).2.cache := by
  induction handles generalizing s with
  | nil => exact ⟨by simp [Session.awaitAll], hs⟩
  | cons p handles ih =>
    obtain ⟨block, handle⟩ := p
    have hone := hall _ List.mem_cons_self
    have htargets' := fun p hp => htargets p (List.mem_cons_of_mem _ hp)
    cases handle with
    | ready exports =>
      obtain ⟨hiff, hs'⟩ := ih htargets' hs hdisk
        (fun p hp => hall p (List.mem_cons_of_mem _ hp)) hread
      refine ⟨?_, hs'⟩
      have htarget : ctx.imported? importer block.path = none := hone
      rw [Session.awaitAll, Option.map_eq_none_iff, hiff]
      simp [htarget]
    | slot n =>
      obtain ⟨ref, htarget, hn⟩ := hone
      have htarget' : ctx.imported? importer block.path = some ref := htarget
      obtain ⟨hmember, habove⟩ := htargets _ List.mem_cons_self ref htarget'
      have hadv₁ := hadv n s
      have hadv₂ := advances_awaitAll hadv handles (load n s).2
      obtain ⟨hstalls, hs₁⟩ := hload ref n s ⟨hs, hmember, hn, habove⟩ hdisk (hread.left hadv₂)
      obtain ⟨hiff, hs₂⟩ := ih htargets' hs₁ (hadv₁.disk.trans hdisk)
        (fun p hp => (hall p (List.mem_cons_of_mem _ hp)).advances hadv₁) (hread.right hadv₁)
      refine ⟨?_, hs₂⟩
      rw [awaitAll_eq_none_iff, hstalls, hiff, List.exists_mem_cons_iff, htarget']
      simp only [Option.some.injEq, exists_eq_left']

/-- A module is read when its load begins, and so the graph has what it asks for. -/
theorem ReadAs.of_waiting {bound n : Nat} {m : ModuleRef}
    (hread : ReadAs ctx asks V s (Session.load ctx (bound + 1) n s).2) (hm : V m)
    (hn : s.cache.index.get? m.key = some n) (hslot : s.cache.slot? n = some (.waiting m)) :
    asks m = ctx.imports s.disk m := by
  have hbefore : s.cache.hasBegun m.key = false := by
    rw [Cache.hasBegun, hn, Option.bind_some, hslot]
    rfl
  have hbegun : (begun ctx s n m).cache.hasBegun m.key = true := by
    show (s.cache.setSlot n .running).hasBegun m.key = true
    have hindex : (s.cache.setSlot n .running).index.get? m.key = some n := hn
    rw [Cache.hasBegun, hindex, Option.bind_some,
      Cache.slot?_setSlot s.cache n .running (slot?_lt hslot)]
    rfl
  exact hread m hm hbefore ((advances_begun (advances_load ctx bound) hslot).hasBegun hbegun)

theorem isFile_of_imported? (hresolver : ctx.options.resolver = .relative)
    {importer ref : ModuleRef} {path : Text} (h : ctx.imported? importer path = some ref) :
    IsFile ref := by
  obtain ⟨path, rfl, hnormal, _⟩ := Context.isFile_of_imported? hresolver h
  exact ⟨path, rfl, hnormal⟩

theorem isFile_of_mem_imports (hresolver : ctx.options.resolver = .relative) {d : Disk}
    {m other : ModuleRef} (h : other ∈ ctx.imports d m) : IsFile other := by
  obtain ⟨path, rfl, hnormal, _⟩ := Context.Imports.isFile (m := m) hresolver h
  exact ⟨path, rfl, hnormal⟩

/-- What a module asks for are the targets of its requests. -/
theorem mem_asks_iff {m ref : ModuleRef} {sheet : Stylesheet}
    {handles : List (ImportBlock × Handle)} (hasks : asks m = ctx.imports s.disk m)
    (hp : (ctx.prepare s.disk m).1 = .ok sheet)
    (hfst : handles.map Prod.fst = Link.importBlocks sheet) :
    ref ∈ asks m ↔ ∃ p ∈ handles, ctx.imported? m p.1.path = some ref := by
  rw [hasks, Context.imports, hp]
  simp only [List.mem_filterMap, ← hfst, List.mem_map]
  constructor
  · intro ⟨_, ⟨p, hmem, hblock⟩, href⟩
    subst hblock
    exact ⟨p, hmem, href⟩
  · intro ⟨p, hmem, href⟩
    exact ⟨p.1, ⟨p, hmem, rfl⟩, href⟩

/-- A module leads to a cycle exactly if the target of one of its requests does. -/
theorem leadsToCycle_iff_handles {m : ModuleRef} {sheet : Stylesheet}
    {handles : List (ImportBlock × Handle)} (hasks : asks m = ctx.imports s.disk m)
    (hp : (ctx.prepare s.disk m).1 = .ok sheet)
    (hfst : handles.map Prod.fst = Link.importBlocks sheet) :
    LeadsToCycle asks m ↔
      ∃ p ∈ handles, ∃ ref, ctx.imported? m p.1.path = some ref ∧ LeadsToCycle asks ref := by
  rw [leadsToCycle_iff]
  simp only [mem_asks_iff hasks hp hfst]
  constructor
  · intro ⟨ref, ⟨p, hmem, href⟩, hcycle⟩
    exact ⟨p, hmem, ref, href, hcycle⟩
  · intro ⟨p, hmem, ref, href, hcycle⟩
    exact ⟨ref, ⟨p, hmem, href⟩, hcycle⟩

/-- A load that begins never finishes exactly if its module leads to a cycle, provided that this is
    so of the loads it waits for. -/
theorem told_of_waiting (ho : Orderly asks V) {bound : Nat} {m : ModuleRef} {n : Nat}
    (hdue : Due asks V stack m n s) (hslot : s.cache.slot? n = some (.waiting m))
    (hstack : ∀ a ∈ stack, V a)
    (hread : ReadAs ctx asks V s (Session.load ctx (bound + 1) n s).2)
    (hinner : ∀ {sheet}, (ctx.prepare s.disk m).1 = .ok sheet →
      ∀ ref k t, Due asks V (m :: stack) ref k t → t.disk = s.disk →
        ReadAs ctx asks V t (Session.load ctx bound k t).2 →
        Told asks V (m :: stack) ref (Session.load ctx bound k t)) :
    Told asks V stack m (Session.load ctx (bound + 1) n s) := by
  obtain ⟨hs, hm, hn, habove⟩ := hdue
  have hbegin := hs.begin hn
  have hnew := hs.not_mem_of_waiting hn hslot
  have hasks := hread.of_waiting hm hn hslot
  rcases load_waiting_cases hslot bound with ⟨e, hp, hload⟩ |
    ⟨sheet, handles, s₁, s₂, hp, hrequest, hcases⟩
  · have hfree : ¬LeadsToCycle asks m := by
      rw [leadsToCycle_iff, hasks, Context.imports, hp]
      simp
    rw [hload]
    exact ⟨by simp [hfree], hbegin.settle ho hm hnew hn hfree _⟩
  · have hmember : ∀ ref, Leads ctx m (Link.importBlocks sheet) ref → V ref := by
      intro ref ⟨block, hblock, hl⟩
      have hask : ref ∈ ctx.imports s.disk m := Context.imports_of_block hp hblock hl
      exact ho.closed hm (hasks ▸ hask)
    obtain ⟨_, _, hrequest', hfst, hasked, h₁, _⟩ := requestAll_keeps
      (I := fun s => Ledger asks V (m :: stack) s.cache) m (Link.importBlocks sheet)
      (fun ref href _ hs => hs.request (hmember ref href)) (s := begun ctx s n m) hbegin
    cases hrequest.symm.trans hrequest'
    have hall := fun p hp => (hasked p hp).answerable
    have hadv₁ : Advances s s₁ := by
      have hreq := advances_requestAll ctx m (begun ctx s n m) (Link.importBlocks sheet)
      rw [hrequest] at hreq
      exact (advances_begin s n m).trans hreq
    have htargets : ∀ p ∈ handles, ∀ ref, ctx.imported? m p.1.path = some ref →
        V ref ∧ ∀ a ∈ m :: stack, ∃ other, Relation.TransGen (AsksFor asks) a other ∧
          other.key = ref.key := by
      intro p hmem ref href
      have hask : AsksFor asks m ref := (mem_asks_iff hasks hp hfst).mpr ⟨p, hmem, href⟩
      refine ⟨ho.closed hm hask, List.forall_mem_cons.mpr
        ⟨⟨ref, .single hask, rfl⟩, fun a ha => ?_⟩⟩
      -- what waits for the key of the module also waits for a module that asks for the same
      obtain ⟨other, hpath, hkey⟩ := habove a ha
      have hother := mem_of_transGen ho.closed (hstack a ha) hpath
      obtain ⟨ref', hask', hsame⟩ := ho.decided m other hm hother hkey.symm ref hask
      exact ⟨ref', hpath.tail hask', hsame⟩
    have hawaited := awaitAll_told (advances_load ctx bound) (hinner hp) handles htargets h₁
      hadv₁.disk hall
    rw [← leadsToCycle_iff_handles hasks hp hfst] at hawaited
    rcases hcases with ⟨hawait, hload⟩ | ⟨fetched, hawait, hload⟩
    · -- something is waited for that never finishes: the load stays as it is
      rw [hload] at hread ⊢
      rw [hawait] at hawaited
      obtain ⟨hiff, h₂⟩ := hawaited (hread.right hadv₁)
      have hcycle := hiff.mp rfl
      exact ⟨by simp [hcycle], h₂.pop ho hm hcycle⟩
    · have hadv₂ := advances_awaitAll (advances_load ctx bound) handles s₁
      rw [hawait] at hawaited hadv₂
      rw [hload] at hread ⊢
      obtain ⟨hiff, h₂⟩ := hawaited ((hread.right hadv₁).left (advances_finish s₂ n _ _))
      have hfree : ¬LeadsToCycle asks m := fun hcycle => nomatch hiff.mpr hcycle
      exact ⟨by simp [hfree], h₂.settle ho hm hnew ((hadv₁.trans hadv₂).kept hn) hfree _⟩

/-- **A load never finishes exactly if its module leads to a cycle.** -/
theorem load_told (ho : Orderly asks V) {bound limit : Nat} {m : ModuleRef} {n : Nat}
    (hdue : Due asks V stack m n s) (hwaits : Waits ctx s.disk V stack)
    (hfits : Fits ctx s.disk V limit) (hlimit : limit = stack.length + bound)
    (hread : ReadAs ctx asks V s (Session.load ctx bound n s).2) :
    Told asks V stack m (Session.load ctx bound n s) := by
  induction bound generalizing stack m n s with
  | zero =>
    have hlt := hfits stack hwaits
    omega
  | succ bound ih =>
    have hs := hdue.ledger
    have hstack : ∀ a ∈ stack, V a := fun a ha => (hwaits.prepared a ha).1
    obtain ⟨slot, hslot⟩ : ∃ slot, s.cache.slot? n = some slot :=
      ⟨_, List.getElem?_eq_getElem (hs.inRange hdue.slot)⟩
    cases slot with
    | finished r =>
      rw [Session.load, hslot]
      exact ⟨by simp [hs.finished hdue.member hdue.slot hslot], hs⟩
    | running =>
      have hcycle : LeadsToCycle asks m := by
        rcases hs.running hdue.member hdue.slot hslot with hmem | hcycle
        · obtain ⟨a, ha, hkey⟩ := List.mem_map.mp hmem
          obtain ⟨other, hpath, hother⟩ := hdue.above a ha
          exact ho.shared (hstack a ha) hdue.member hkey
            (ho.returns (hstack a ha) hpath (hother.trans hkey.symm))
        · exact hcycle
      rw [Session.load, hslot]
      exact ⟨by simp [hcycle], hs⟩
    | waiting j =>
      -- the load that waits may have been requested through another reference
      obtain ⟨hj, hkey⟩ := hs.waiting hdue.slot hslot
      have hslotj := hdue.slot
      rw [← hkey] at hslotj
      have hduej : Due asks V stack j n s := ⟨hs, hj, hslotj, by rw [hkey]; exact hdue.above⟩
      have htold : Told asks V stack j (Session.load ctx (bound + 1) n s) := by
        refine told_of_waiting ho hduej hslot hstack hread fun hp ref k t hdue' hdisk => ?_
        rw [← hdisk] at hwaits hfits hp
        refine ih hdue' (hwaits.push hj (hs.not_mem_of_waiting hslotj hslot) hp) hfits ?_
        rw [hlimit, List.length_cons]
        omega
      exact ⟨htold.stalls.trans ⟨ho.shared hj hdue.member hkey, ho.shared hdue.member hj hkey.symm⟩,
        htold.ledger⟩

/-- In a session in which nothing is being loaded, the slot of a module can be loaded. -/
theorem load_idle (ho : Orderly asks V) (hfits : Fits ctx s.disk V s.bound)
    (hs : Ledger asks V [] s.cache) {m : ModuleRef} (hm : V m) {n : Nat}
    (hn : s.cache.index.get? m.key = some n)
    (hread : ReadAs ctx asks V s (Session.load ctx s.bound n s).2) :
    Told asks V [] m (Session.load ctx s.bound n s) :=
  load_told ho ⟨hs, hm, hn, fun _ ha => nomatch ha⟩ ⟨.nil, fun _ ha => nomatch ha⟩ hfits
    (Nat.zero_add _).symm hread

/-- While the files stay as they are, every module asks for what it did at first. -/
theorem readAs_of_disk {d : Disk} (h : s.disk = d) : ReadAs ctx (ctx.imports d) V s s' :=
  fun _ _ _ _ => by rw [h]

end Load

end Memo

/-! ## 5. Clients -/

/-- Nothing that is asked for leads to a cycle. -/
def Ask.Finishes (ctx : Context) (d : Disk) (a : Ask) : Prop :=
  ∀ m, a.target? ctx = some m → ¬LeadsToCycle (ctx.imports d) m

namespace Memo

variable {ctx : Context} {V : ModuleRef → Prop}

/-- A client's request. -/
theorem ask_spec {asks : ModuleRef → List ModuleRef} {s : Session} (hs : Ledger asks V [] s.cache)
    (a : Ask) (ha : ∀ m, a.target? ctx = some m → V m) :
    Ledger asks V [] (s.ask ctx a).2.cache ∧ Advances s (s.ask ctx a).2 ∧
      Answerable ctx (s.ask ctx a).2.cache a (s.ask ctx a).1 := by
  cases a with
  | load m => exact ⟨hs.request (ha m rfl), advances_request s m, m, rfl, index_request _ m⟩
  | fetch importer path =>
    have htarget : ∀ ref, locate ctx.options.virtuals ctx.options.resolver path importer =
        .module ref → V ref := by
      intro ref hl
      refine ha ref ?_
      rw [Ask.target?, Context.imported?, hl]
    obtain ⟨hs', _, hasked⟩ := requestImport_keeps (I := fun s => Ledger asks V [] s.cache)
      (fun ref hl _ hs => hs.request (htarget ref hl)) hs
    exact ⟨hs', advances_requestImport importer s path, hasked.answerable⟩

/-- A client that waits is answered exactly if what it waits for leads to no cycle. -/
theorem awaitAnswer_spec {d : Disk} (ho : Orderly (ctx.imports d) V) {s : Session}
    (hfits : Fits ctx d V s.bound) (hs : Ledger (ctx.imports d) V [] s.cache) (hdisk : s.disk = d)
    {a : Ask} {handle : Handle} (ha : ∀ m, a.target? ctx = some m → V m)
    (hheld : Answerable ctx s.cache a handle) :
    ((s.awaitAnswer ctx a handle).1.isSome ↔ a.Finishes ctx d) ∧
      Ledger (ctx.imports d) V [] (s.awaitAnswer ctx a handle).2.cache ∧
      Advances s (s.awaitAnswer ctx a handle).2 := by
  cases handle with
  | ready exports =>
    refine ⟨iff_of_true rfl fun m hm => ?_, hs, .refl s⟩
    have hnone : a.target? ctx = none := hheld
    rw [hnone] at hm
    cases hm
  | slot n =>
    obtain ⟨m, htarget, hn⟩ := hheld
    rw [← hdisk] at hfits
    obtain ⟨hstalls, hs'⟩ := load_idle ho hfits hs (ha m htarget) hn (readAs_of_disk hdisk)
    refine ⟨?_, hs', advances_load ctx s.bound n s⟩
    have hanswer : (s.awaitAnswer ctx a (.slot n)).1 =
      (Session.load ctx s.bound n s).1.map a.answer := rfl
    rw [hanswer, Option.isSome_map, Option.isSome_iff_ne_none, Ne, hstalls]
    constructor
    · intro hfree m' hm'
      rw [htarget] at hm'
      cases hm'
      exact hfree
    · exact fun h => h m htarget

/-- A client in the middle of its run. -/
theorem play_told {d : Disk} (ho : Orderly (ctx.imports d) V) (steps : List ClientStep)
    (hsteps : ∀ a, .ask a ∈ steps → ∀ m, a.target? ctx = some m → V m)
    {held : List (Ask × Handle)} {s : Session} (hfits : Fits ctx d V s.bound)
    (hs : Ledger (ctx.imports d) V [] s.cache) (hdisk : s.disk = d)
    (hheld : ∀ p ∈ held, Answerable ctx s.cache p.1 p.2 ∧
      ∀ m, p.1.target? ctx = some m → V m) :
    List.Forall₂ (fun (a : Ask) (answer : Option Answer) => answer.isSome ↔ a.Finishes ctx d)
      (ClientStep.awaited steps (held.map Prod.fst)) (Session.play ctx steps held s) := by
  induction steps generalizing held s with
  | nil => exact .nil
  | cons step steps ih =>
    have hrest := fun a ha => hsteps a (List.mem_cons_of_mem step ha)
    cases step with
    | ask a =>
      have ha := hsteps a List.mem_cons_self
      obtain ⟨hs', hadv, hnew⟩ := ask_spec hs a ha
      have hheld' : ∀ p ∈ held ++ [(a, (s.ask ctx a).1)],
          Answerable ctx (s.ask ctx a).2.cache p.1 p.2 ∧
            ∀ m, p.1.target? ctx = some m → V m := by
        intro p hp
        rcases List.mem_append.mp hp with hp | hp
        · exact ⟨(hheld p hp).1.advances hadv, (hheld p hp).2⟩
        · obtain rfl := List.mem_singleton.mp hp
          exact ⟨hnew, ha⟩
      rw [← hadv.bound] at hfits
      have hall := ih hrest hfits hs' (hadv.disk.trans hdisk) hheld'
      rw [List.map_append] at hall
      exact hall
    | await n =>
      rw [Session.play, ClientStep.awaited, List.getElem?_map]
      cases hn : held[n]? with
      | none => exact ih hrest hfits hs hdisk hheld
      | some p =>
        obtain ⟨hp, ha⟩ := hheld p (List.mem_of_getElem? hn)
        obtain ⟨hiff, hs', hadv⟩ := awaitAnswer_spec ho hfits hs hdisk ha hp
        rw [← hadv.bound] at hfits
        exact .cons hiff (ih hrest hfits hs' (hadv.disk.trans hdisk) fun q hq =>
          ⟨(hheld q hq).1.advances hadv, (hheld q hq).2⟩)

end Memo

/-- **A client is answered exactly if what it waits for leads to no cycle**, whatever it asks for,
    in whatever order and how often: if import paths are read from the directory of their module and
    it asks for files, or else if there is room for the keys of all modules involved and these
    decide what the modules ask for. -/
theorem Session.isSome_play_iff (ctx : Context) (d : Disk) (room : Nat) (steps : List ClientStep)
    (h : (ctx.options.resolver = .relative ∧
        ∀ m, .ask (.load m) ∈ steps → ∃ path, m = .ofPath path) ∨
      FewKeys (ctx.imports d) (ClientStep.Involved ctx d steps) room) :
    List.Forall₂ (fun (a : Ask) (answer : Option Answer) => answer.isSome ↔ a.Finishes ctx d)
      (ClientStep.awaited steps []) (Session.play ctx steps [] ⟨d, .empty, [], room⟩) := by
  obtain ⟨V, ho, hfits, hsteps⟩ : ∃ V, Orderly (ctx.imports d) V ∧
      Memo.Fits ctx d V (Session.mk d .empty [] room).bound ∧
      ∀ a, .ask a ∈ steps → ∀ m, a.target? ctx = some m → V m := by
    rcases h with ⟨hresolver, hfiles⟩ | hfew
    · refine ⟨Memo.IsFile,
        Memo.orderly_files fun _ hask => Memo.isFile_of_mem_imports hresolver hask,
        Memo.fits_files ctx ⟨d, .empty, [], room⟩, fun a ha m hm => ?_⟩
      cases a with
      | load m' =>
        cases hm
        obtain ⟨path, rfl⟩ := hfiles m ha
        exact Memo.isFile_ofPath path
      | fetch importer path => exact Memo.isFile_of_imported? hresolver hm
    · refine ⟨_, orderly_of_fewKeys (fun hm hask => ?_) hfew,
        Memo.fits_of_fewKeys (s := ⟨d, .empty, [], room⟩) hfew rfl,
        fun a ha m hm => ⟨a, ha, m, hm, .refl⟩⟩
      obtain ⟨a, ha, ref, href, hreach⟩ := hm
      exact ⟨a, ha, ref, href, hreach.tail hask⟩
  exact Memo.play_told ho steps hsteps hfits Memo.ledger_empty rfl
    fun p hp => absurd hp List.not_mem_nil

end StyleModules
