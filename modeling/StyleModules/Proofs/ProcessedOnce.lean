import Mathlib.Data.List.Perm.Subperm
import StyleModules.Proofs.StalledBuild
import StyleModules.Proofs.TableLaws

/-!
Every module of a build is processed once.

* `Session.loadLogged` is `Session.load` with a list of the modules whose processing begins; without
  the list it is the load (`loadLogged_snd`). `Build.processed` is this list for a whole build.
* `Census` is what holds of the cache and the list at every moment: the keys of the list are those
  that have begun, each once, and under every key that was requested stands a module of a set.
* `Settles`: a load that finishes leaves nothing unfinished that was requested on its way.
* `Build.processed_once`: the modules of the list are those that the targets reach, and so many
  loads the build reports.
-/

namespace StyleModules

/-! ## 1. Loads with a list of what they process -/

namespace Session

/-- Wait for all requests, in order, as `awaitAll` does. -/
def awaitLogged (load : Nat → Session → List ModuleRef × Option LoadResult × Session) :
    List (ImportBlock × Handle) → Session →
      List ModuleRef × Option (List (ImportBlock × Except LoadError Exports)) × Session
  | [], s => ([], some [], s)
  | (block, .ready exports) :: rest, s =>
    let (log, fetched, s) := awaitLogged load rest s
    (log, fetched.map ((block, exports) :: ·), s)
  | (block, .slot number) :: rest, s =>
    let (log, loaded, s) := load number s
    let (more, fetched, s) := awaitLogged load rest s
    (log ++ more, loaded.bind fun r => fetched.map ((block, r.map LoadedModule.exports) :: ·), s)

/-- The modules whose processing begins in a load, in this order, with what `load` returns. -/
def loadLogged (ctx : Context) :
    Nat → Nat → Session → List ModuleRef × Option LoadResult × Session
  | 0, _, s => ([], none, s)
  | bound + 1, number, s =>
    match s.cache.slot? number with
    | some (.finished result) => ([], some result, s)
    | some (.waiting m) =>
      let s := { s with cache := s.cache.setSlot number .running }
      let (prepared, events) := ctx.prepare s.disk m
      let s := s.note events
      match prepared with
      | .error e => ([m], some (.error e), s.settle number (.error e))
      | .ok sheet =>
        let (handles, s) := requestAll ctx m s (Link.importBlocks sheet)
        let (log, fetched, s) := awaitLogged (loadLogged ctx bound) handles s
        match fetched with
        | none => (m :: log, none, s)
        | some fetched =>
          let (result, events) := ctx.finish m sheet fetched
          (m :: log, some result, (s.note events).settle number result)
    | _ => ([], none, s)

theorem awaitLogged_snd {logged : Nat → Session → List ModuleRef × Option LoadResult × Session}
    {load : Nat → Session → Option LoadResult × Session} (h : ∀ n s, (logged n s).2 = load n s)
    (handles : List (ImportBlock × Handle)) (s : Session) :
    (awaitLogged logged handles s).2 = awaitAll load handles s := by
  induction handles generalizing s with
  | nil => rfl
  | cons p handles ih =>
    obtain ⟨block, handle⟩ := p
    cases handle with
    | ready exports =>
      rw [awaitLogged, awaitAll, ← ih s]
    | slot n =>
      rw [awaitLogged, awaitAll, ← h n s]
      obtain ⟨log, loaded, s'⟩ := logged n s
      dsimp only
      rw [← ih s']

/-- **Without its list, it is the load.** -/
theorem loadLogged_snd (ctx : Context) (bound n : Nat) (s : Session) :
    (loadLogged ctx bound n s).2 = load ctx bound n s := by
  induction bound generalizing n s with
  | zero => rfl
  | succ bound ih =>
    cases hslot : s.cache.slot? n with
    | none => rw [loadLogged, load, hslot]
    | some slot =>
      cases slot with
      | running => rw [loadLogged, load, hslot]
      | finished r => rw [loadLogged, load, hslot]
      | waiting m =>
        rw [loadLogged, load, hslot]
        dsimp only
        cases (ctx.prepare s.disk m).1 with
        | error e => rfl
        | ok sheet =>
          dsimp only
          rw [← awaitLogged_snd ih]
          generalize awaitLogged (loadLogged ctx bound) _ _ = answer
          obtain ⟨log, fetched, s'⟩ := answer
          cases fetched with
          | none => rfl
          | some fetched => rfl

end Session

namespace Memo

variable {ctx : Context} {s s' s'' : Session}

/-- A load that begins, up to what it waits for. -/
theorem loadLogged_waiting {n : Nat} {m : ModuleRef} (h : s.cache.slot? n = some (.waiting m))
    (bound : Nat) :
    Session.loadLogged ctx (bound + 1) n s =
      match (ctx.prepare s.disk m).1 with
      | .error e => ([m], some (.error e), (begun ctx s n m).settle n (.error e))
      | .ok sheet =>
        let (handles, s') := Session.requestAll ctx m (begun ctx s n m) (Link.importBlocks sheet)
        let (log, fetched, s') := Session.awaitLogged (Session.loadLogged ctx bound) handles s'
        match fetched with
        | none => (m :: log, none, s')
        | some fetched =>
          let (result, events) := ctx.finish m sheet fetched
          (m :: log, some result, (s'.note events).settle n result) := by
  rw [Session.loadLogged, h]
  rfl

/-- What a load that begins lists and does: it fails at once, it waits for something that never
    finishes, or it finishes. -/
theorem loadLogged_waiting_cases (ctx : Context) {n : Nat} {m : ModuleRef}
    (h : s.cache.slot? n = some (.waiting m)) (bound : Nat) :
    (∃ e, (ctx.prepare s.disk m).1 = .error e ∧
      Session.loadLogged ctx (bound + 1) n s =
        ([m], some (.error e), (begun ctx s n m).settle n (.error e))) ∨
    ∃ sheet handles s₁ log s₂, (ctx.prepare s.disk m).1 = .ok sheet ∧
      Session.requestAll ctx m (begun ctx s n m) (Link.importBlocks sheet) = (handles, s₁) ∧
      ((Session.awaitLogged (Session.loadLogged ctx bound) handles s₁ = (log, none, s₂) ∧
          Session.loadLogged ctx (bound + 1) n s = (m :: log, none, s₂)) ∨
        ∃ fetched,
          Session.awaitLogged (Session.loadLogged ctx bound) handles s₁ = (log, some fetched, s₂) ∧
          Session.loadLogged ctx (bound + 1) n s = (m :: log, some (ctx.finish m sheet fetched).1,
            (s₂.note (ctx.finish m sheet fetched).2).settle n (ctx.finish m sheet fetched).1)) := by
  rw [loadLogged_waiting h]
  cases hp : (ctx.prepare s.disk m).1 with
  | error e => exact .inl ⟨e, rfl, rfl⟩
  | ok sheet =>
    obtain ⟨handles, s₁, hrequest⟩ : ∃ handles s₁, Session.requestAll ctx m (begun ctx s n m)
      (Link.importBlocks sheet) = (handles, s₁) := ⟨_, _, rfl⟩
    obtain ⟨log, fetched, s₂, hawait⟩ : ∃ log fetched s₂, Session.awaitLogged
      (Session.loadLogged ctx bound) handles s₁ = (log, fetched, s₂) := ⟨_, _, _, rfl⟩
    refine .inr ⟨sheet, handles, s₁, log, s₂, rfl, hrequest, ?_⟩
    simp only [hrequest, hawait]
    cases fetched with
    | none => exact .inl ⟨rfl, rfl⟩
    | some fetched => exact .inr ⟨fetched, rfl, rfl⟩

/-! ## 2. The keys that have begun -/

theorem hasBegun_eq_true_iff {c : Loads} {key : Text} :
    c.hasBegun key = true ↔ ∃ n slot, c.index.get? key = some n ∧ c.slot? n = some slot ∧
      slot.begun = true := by
  unfold Cache.hasBegun
  rw [Option.any_eq_true]
  simp only [Option.bind_eq_some_iff]
  constructor
  · intro hbegun
    obtain ⟨slot, ⟨n, hn, hslot⟩, hb⟩ := hbegun
    exact ⟨n, slot, hn, hslot, hb⟩
  · intro hbegun
    obtain ⟨n, slot, hn, hslot, hb⟩ := hbegun
    exact ⟨slot, ⟨n, hn, hslot⟩, hb⟩

/-- What holds of a cache when the modules of a list have been processed or are being so, and only
    modules of a set have been requested. -/
structure Census (V : ModuleRef → Prop) (log : List ModuleRef) (c : Loads) : Prop
    extends Indexed V c where
  filled : ∀ {n}, n < c.started → ∃ key, c.index.get? key = some n
  counted : c.index.keys.length = c.started
  keys : c.index.keys.Nodup
  known : ∀ {key n}, c.index.get? key = some n → ∃ m, V m ∧ m.key = key
  members : ∀ m ∈ log, V m
  once : (log.map ModuleRef.key).Nodup
  begun : ∀ {key}, key ∈ log.map ModuleRef.key ↔ c.hasBegun key = true

section Census

variable {V : ModuleRef → Prop} {log : List ModuleRef} {c : Loads} {m : ModuleRef} {n : Nat}

theorem census_empty : Census V [] .empty where
  toIndexed := indexed_empty
  filled h := absurd h (Nat.not_lt_zero _)
  counted := rfl
  keys := .nil
  known h := by cases h
  members _ h := by cases h
  once := .nil
  begun := by simp [Cache.hasBegun, Cache.empty, Table.empty, Table.get?, Table.findEntry]

theorem Census.mono {W : ModuleRef → Prop} (h : Census V log c) (hVW : ∀ m, V m → W m) :
    Census W log c where
  inRange := h.inRange
  distinct := h.distinct
  waiting hk hslot := (h.waiting hk hslot).imp_left (hVW _)
  filled := h.filled
  counted := h.counted
  keys := h.keys
  known hk := by
    obtain ⟨m, hm, hkey⟩ := h.known hk
    exact ⟨m, hVW m hm, hkey⟩
  members m hm := hVW m (h.members m hm)
  once := h.once
  begun := h.begun

theorem Census.store (h : Census V log c) (hm : V m) (hnew : c.index.get? m.key = none) :
    Census V log (store c m) where
  toIndexed := h.toIndexed.store hm
  filled {k} hk := by
    by_cases hlast : k = c.started
    · exact ⟨m.key, by rw [index_store, if_pos rfl, hlast]⟩
    · have hlt : k < c.started := by
        have : k < (c.slots ++ [Slot.waiting m]).length := hk
        rw [List.length_append, List.length_singleton] at this
        unfold Cache.started at hlast ⊢
        omega
      obtain ⟨key, hkey⟩ := h.filled hlt
      exact ⟨key, (grows_store hnew).kept hkey⟩
  counted := by
    have hkey : m.key ∉ c.index.keys := by
      rw [Table.mem_keys_iff, hnew]
      intro hknown
      obtain ⟨_, h⟩ := hknown
      cases h
    have hkeys : (Memo.store c m).index.keys = c.index.keys ++ [m.key] :=
      (Table.keys_upsert c.index m.key _).trans (if_neg hkey)
    have hslots : (Memo.store c m).started = c.started + 1 := List.length_append
    rw [hkeys, hslots, List.length_append, h.counted, List.length_singleton]
  keys := Table.nodup_keys_upsert h.keys _ _
  known {key k} hk := by
    rw [index_store] at hk
    split at hk
    · next heq => exact ⟨m, hm, heq.symm⟩
    · exact h.known hk
  members := h.members
  once := h.once
  begun {key} := by
    rw [h.begun, hasBegun_eq_true_iff, hasBegun_eq_true_iff]
    constructor
    · intro hbegun
      obtain ⟨k, slot, hk, hslot, hb⟩ := hbegun
      refine ⟨k, slot, (grows_store hnew).kept hk, ?_, hb⟩
      exact (List.getElem?_append_left (slot?_lt hslot)).trans hslot
    · intro hbegun
      obtain ⟨k, slot, hk, hslot, hb⟩ := hbegun
      obtain ⟨hk', hslot'⟩ := of_store hk hslot (by rintro j rfl; cases hb)
      exact ⟨k, slot, hk', hslot', hb⟩

/-- A request for a module of the set. -/
theorem Census.request (h : Census V log c) (hm : V m) : Census V log (c.request m.key m).2 :=
  request_keeps h (h.store hm)

/-- In a slot that waits is a module of the set, under its key. -/
theorem Census.of_waiting (h : Census V log c) (hslot : c.slot? n = some (.waiting m)) :
    V m ∧ c.index.get? m.key = some n := by
  obtain ⟨key, hkey⟩ := h.filled (slot?_lt hslot)
  obtain ⟨hm, rfl⟩ := h.waiting hkey hslot
  exact ⟨hm, hkey⟩

/-- A load that waits has not begun. -/
theorem Census.not_mem_of_waiting (h : Census V log c) (hslot : c.slot? n = some (.waiting m)) :
    m.key ∉ log.map ModuleRef.key := by
  rw [h.begun, hasBegun_eq_true_iff]
  intro hbegun
  obtain ⟨k, slot, hk, hslot', hb⟩ := hbegun
  obtain rfl := Option.some.inj (hk.symm.trans (h.of_waiting hslot).2)
  rw [hslot] at hslot'
  cases hslot'
  cases hb

/-- A load that waits begins: its module is listed. -/
theorem Census.begin (h : Census V log c) (hslot : c.slot? n = some (.waiting m)) :
    Census V (log ++ [m]) (c.setSlot n .running) where
  toIndexed := h.toIndexed.setSlot n nofun
  filled hk := by
    rw [Cache.started, Cache.setSlot, List.length_set] at hk
    exact h.filled hk
  counted := by
    rw [Cache.started, Cache.setSlot, List.length_set]
    exact h.counted
  keys := h.keys
  known := h.known
  members := List.forall_mem_append.mpr ⟨h.members, by simpa using (h.of_waiting hslot).1⟩
  once := by
    have hnew := h.not_mem_of_waiting hslot
    rw [List.map_append, List.map_singleton]
    exact List.nodup_append.mpr ⟨h.once, by simp, fun a ha b hb hab => by
      obtain rfl := List.mem_singleton.mp hb
      exact hnew (hab ▸ ha)⟩
  begun {key} := by
    have hn := (h.of_waiting hslot).2
    have hself := Cache.slot?_setSlot c n .running (slot?_lt hslot)
    rw [List.map_append, List.map_singleton, List.mem_append, List.mem_singleton, h.begun,
      hasBegun_eq_true_iff, hasBegun_eq_true_iff]
    constructor
    · rintro (⟨k, slot, hk, hslot', hb⟩ | rfl)
      · refine ⟨k, slot, hk, ?_, hb⟩
        have hne : k ≠ n := by
          rintro rfl
          rw [hslot] at hslot'
          cases hslot'
          cases hb
        rwa [slot?_setSlot_of_ne hne]
      · exact ⟨n, .running, hn, hself, rfl⟩
    · intro hbegun
      obtain ⟨k, slot, hk, hslot', hb⟩ := hbegun
      rcases slot?_setSlot_cases hslot' with ⟨rfl, _⟩ | ⟨_, hold⟩
      · exact .inr (h.distinct hk hn)
      · exact .inl ⟨k, slot, hk, hold, hb⟩

/-- A load that has begun ends. -/
theorem Census.settle (h : Census V log c) {slot : Slot ModuleRef LoadResult}
    (hslot : c.slot? n = some slot) (hb : slot.begun = true) (r : LoadResult) :
    Census V log (c.setSlot n (.finished r)) where
  toIndexed := h.toIndexed.setSlot n nofun
  filled hk := by
    rw [Cache.started, Cache.setSlot, List.length_set] at hk
    exact h.filled hk
  counted := by
    rw [Cache.started, Cache.setSlot, List.length_set]
    exact h.counted
  keys := h.keys
  known := h.known
  members := h.members
  once := h.once
  begun {key} := by
    have hself := Cache.slot?_setSlot c n (.finished r) (slot?_lt hslot)
    rw [h.begun, hasBegun_eq_true_iff, hasBegun_eq_true_iff]
    constructor
    · intro hbegun
      obtain ⟨k, slot', hk, hslot', hb'⟩ := hbegun
      by_cases hkn : k = n
      · exact ⟨n, .finished r, hkn ▸ hk, hself, rfl⟩
      · exact ⟨k, slot', hk, (slot?_setSlot_of_ne hkn _).trans hslot', hb'⟩
    · intro hbegun
      obtain ⟨k, slot', hk, hslot', hb'⟩ := hbegun
      rcases slot?_setSlot_cases hslot' with ⟨rfl, _⟩ | ⟨_, hold⟩
      · exact ⟨k, slot, hk, hslot, hb⟩
      · exact ⟨k, slot', hk, hold, hb'⟩

end Census

/-! ## 3. Requests and loads -/

section Load

variable {V : ModuleRef → Prop} {log : List ModuleRef}

theorem Answerable.known {c : Loads} {a : Ask} {handle : Handle} {m : ModuleRef}
    (h : Answerable ctx c a handle) (hm : a.target? ctx = some m) :
    ∃ n, c.index.get? m.key = some n := by
  cases handle with
  | ready exports =>
    have hnone : a.target? ctx = none := h
    rw [hm] at hnone
    cases hnone
  | slot n =>
    obtain ⟨ref, href, hn⟩ := h
    obtain rfl := Option.some.inj (hm.symm.trans href)
    exact ⟨n, hn⟩

/-- Everything that the modules of a list import has been requested. -/
def AllRequested (asks : ModuleRef → List ModuleRef) (log : List ModuleRef) (c : Loads) : Prop :=
  ∀ m ∈ log, ∀ ref ∈ asks m, ∃ n, c.index.get? ref.key = some n

theorem AllRequested.advances {asks : ModuleRef → List ModuleRef}
    (h : AllRequested asks log s.cache) (hadv : Advances s s') :
    AllRequested asks log s'.cache := by
  intro m hm ref href
  obtain ⟨n, hn⟩ := h m hm ref href
  exact ⟨n, hadv.kept hn⟩

theorem AllRequested.append {asks : ModuleRef → List ModuleRef} {log' : List ModuleRef} {c : Loads}
    (h : AllRequested asks log c) (h' : AllRequested asks log' c) :
    AllRequested asks (log ++ log') c := by
  intro m hm
  rcases List.mem_append.mp hm with hm | hm
  · exact h m hm
  · exact h' m hm

/-- A set has what the modules of a list import, if it has them. -/
def ClosedOver (V : ModuleRef → Prop) (asks : ModuleRef → List ModuleRef) (log : List ModuleRef) :
    Prop :=
  ∀ m ∈ log, V m → ∀ ref ∈ asks m, V ref

/-- What is listed while one or more loads run: modules that had not begun, with all that they
    import. -/
def Listed {α : Type} (ctx : Context) (V : ModuleRef → Prop) (log : List ModuleRef) (d : Disk)
    (answer : List ModuleRef × α × Session) : Prop :=
  ClosedOver V (ctx.imports d) answer.1 →
    Census V (log ++ answer.1) answer.2.2.cache ∧
      AllRequested (ctx.imports d) answer.1 answer.2.2.cache

theorem listed_nil {α : Type} {d : Disk} (h : Census V log s.cache) (answer : α) :
    Listed ctx V log d ([], answer, s) := by
  intro _
  rw [List.append_nil]
  exact ⟨h, fun m hm => nomatch hm⟩

theorem advances_loadLogged (ctx : Context) (bound n : Nat) (s : Session) :
    Advances s (Session.loadLogged ctx bound n s).2.2 := by
  rw [Session.loadLogged_snd]
  exact advances_load ctx bound n s

theorem advances_awaitLogged
    {logged : Nat → Session → List ModuleRef × Option LoadResult × Session}
    (hadv : ∀ n s, Advances s (logged n s).2.2) (handles : List (ImportBlock × Handle))
    (s : Session) : Advances s (Session.awaitLogged logged handles s).2.2 := by
  have hsnd : (Session.awaitLogged logged handles s).2 =
      Session.awaitAll (fun n s => (logged n s).2) handles s :=
    Session.awaitLogged_snd (fun _ _ => rfl) handles s
  rw [hsnd]
  exact advances_awaitAll hadv handles s

/-- Waiting for several imports lists what the loads list, one after the other. -/
theorem listed_awaitLogged {logged : Nat → Session → List ModuleRef × Option LoadResult × Session}
    {d : Disk} (hadv : ∀ n s, Advances s (logged n s).2.2)
    (hload : ∀ n s log, Census V log s.cache → s.disk = d → Listed ctx V log d (logged n s))
    (handles : List (ImportBlock × Handle)) {s : Session} (h : Census V log s.cache)
    (hdisk : s.disk = d) : Listed ctx V log d (Session.awaitLogged logged handles s) := by
  induction handles generalizing s log with
  | nil => exact listed_nil h _
  | cons p handles ih =>
    obtain ⟨block, handle⟩ := p
    cases handle with
    | ready exports => exact ih h hdisk
    | slot n =>
      intro hclosed
      have hadv₁ := hadv n s
      have hadv₂ := advances_awaitLogged hadv handles (logged n s).2.2
      have hlog : (Session.awaitLogged logged ((block, .slot n) :: handles) s).1 =
        (logged n s).1 ++ (Session.awaitLogged logged handles (logged n s).2.2).1 := rfl
      have hlast : (Session.awaitLogged logged ((block, .slot n) :: handles) s).2.2 =
        (Session.awaitLogged logged handles (logged n s).2.2).2.2 := rfl
      rw [hlog] at hclosed ⊢
      rw [hlast]
      obtain ⟨h₁, hall₁⟩ := hload n s log h hdisk
        fun m hm => hclosed m (List.mem_append_left _ hm)
      obtain ⟨h₂, hall₂⟩ := ih h₁ (hadv₁.disk.trans hdisk)
        fun m hm => hclosed m (List.mem_append_right _ hm)
      rw [List.append_assoc] at h₂
      exact ⟨h₂, (hall₁.advances hadv₂).append hall₂⟩

/-- A load that begins: its module is listed, then what it waits for. -/
theorem listed_of_waiting {bound n : Nat} {m : ModuleRef} (h : Census V log s.cache)
    (hslot : s.cache.slot? n = some (.waiting m))
    (hinner : ∀ k t log, Census V log t.cache →
      Listed ctx V log t.disk (Session.loadLogged ctx bound k t)) :
    Listed ctx V log s.disk (Session.loadLogged ctx (bound + 1) n s) := by
  have hbegin := h.begin hslot
  have hrunning : (begun ctx s n m).cache.slot? n = some .running :=
    Cache.slot?_setSlot s.cache n .running (slot?_lt hslot)
  rcases loadLogged_waiting_cases ctx hslot bound with ⟨e, hp, hload⟩ |
    ⟨sheet, handles, s₁, inner, s₂, hp, hrequest, hcases⟩
  · intro _
    rw [hload]
    refine ⟨hbegin.settle hrunning rfl _, fun a ha ref href => ?_⟩
    obtain rfl := List.mem_singleton.mp ha
    rw [Context.imports, hp] at href
    cases href
  · have hadv₁ : Advances (begun ctx s n m) s₁ := by
      have hreq := advances_requestAll ctx m (begun ctx s n m) (Link.importBlocks sheet)
      rwa [hrequest] at hreq
    have hdisk₁ : s₁.disk = s.disk := hadv₁.disk
    intro hclosed
    have hlog : (Session.loadLogged ctx (bound + 1) n s).1 = m :: inner := by
      rcases hcases with ⟨_, hload⟩ | ⟨_, _, hload⟩ <;> rw [hload]
    have hm := (h.of_waiting hslot).1
    have hleads : ∀ ref, Leads ctx m (Link.importBlocks sheet) ref → V ref := by
      intro ref href
      obtain ⟨block, hblock, hl⟩ := href
      exact hclosed m (hlog ▸ List.mem_cons_self) hm ref (Context.imports_of_block hp hblock hl)
    obtain ⟨_, _, hrequest', hfst, hasked, h₁, _⟩ := requestAll_keeps
      (I := fun s => Census V (log ++ [m]) s.cache) m (Link.importBlocks sheet)
      (fun ref href _ hs => hs.request (hleads ref href)) (s := begun ctx s n m) hbegin
    cases hrequest.symm.trans hrequest'
    have hall₁ : AllRequested (ctx.imports s.disk) [m] s₁.cache := by
      intro a ha ref href
      obtain rfl := List.mem_singleton.mp ha
      obtain ⟨p, hp', hpath⟩ := (mem_asks_iff rfl hp hfst).mp href
      exact (hasked p hp').answerable.known hpath
    have hadv₂ := advances_awaitLogged (advances_loadLogged ctx bound) handles s₁
    have hinner' : Listed ctx V (log ++ [m]) s.disk
        (Session.awaitLogged (Session.loadLogged ctx bound) handles s₁) :=
      listed_awaitLogged (advances_loadLogged ctx bound)
        (fun k t log' ht hd => hd ▸ hinner k t log' ht) handles h₁ hdisk₁
    have hclosed' : ClosedOver V (ctx.imports s.disk) inner :=
      fun a ha => hclosed a (hlog ▸ List.mem_cons_of_mem m ha)
    rcases hcases with ⟨hawait, hload⟩ | ⟨fetched, hawait, hload⟩
    · rw [hawait] at hinner' hadv₂
      obtain ⟨h₂, hall₂⟩ := hinner' hclosed'
      rw [List.append_assoc] at h₂
      rw [hload]
      exact ⟨h₂, (hall₁.advances hadv₂).append hall₂⟩
    · rw [hawait] at hinner' hadv₂
      obtain ⟨h₂, hall₂⟩ := hinner' hclosed'
      rw [List.append_assoc] at h₂
      obtain ⟨slot, hslot₂, hb⟩ := (hadv₁.trans hadv₂).begun hrunning rfl
      have hend := advances_finish s₂ n (ctx.finish m sheet fetched).2
        (ctx.finish m sheet fetched).1
      rw [hload]
      exact ⟨h₂.settle hslot₂ hb _, ((hall₁.advances hadv₂).append hall₂).advances hend⟩

/-- **What a load lists had not begun, and all that it imports has been requested.** -/
theorem listed_loadLogged (ctx : Context) (bound n : Nat) (h : Census V log s.cache) :
    Listed ctx V log s.disk (Session.loadLogged ctx bound n s) := by
  induction bound generalizing n s log with
  | zero => exact listed_nil h none
  | succ bound ih =>
    cases hslot : s.cache.slot? n with
    | none =>
      rw [Session.loadLogged, hslot]
      exact listed_nil h none
    | some slot =>
      cases slot with
      | running =>
        rw [Session.loadLogged, hslot]
        exact listed_nil h none
      | finished r =>
        rw [Session.loadLogged, hslot]
        exact listed_nil h (some r)
      | waiting m =>
        exact listed_of_waiting h hslot fun k t log' ht => ih k ht

end Load

/-! ## 4. Nothing is left unfinished -/

/-- What is finished stays so, and every other slot is as it was or has come to its end. -/
structure Settles (s s' : Session) : Prop where
  finished : ∀ {k r}, s.cache.slot? k = some (.finished r) → s'.cache.slot? k = some (.finished r)
  settled : ∀ k, s'.cache.slot? k = s.cache.slot? k ∨ ∃ r, s'.cache.slot? k = some (.finished r)

theorem Settles.refl (s : Session) : Settles s s :=
  ⟨fun h => h, fun _ => .inl rfl⟩

theorem Settles.trans (h : Settles s s') (h' : Settles s' s'') : Settles s s'' where
  finished hk := h'.finished (h.finished hk)
  settled k := by
    rcases h'.settled k with hsame | hfin
    · rw [hsame]
      exact h.settled k
    · exact .inr hfin

/-- A load ends that had not, and meanwhile nothing else was left unfinished. -/
theorem settles_settle {n : Nat} {slot : Slot ModuleRef LoadResult}
    (hslot : s'.cache.slot? n = some slot) (hnot : ∀ r, s.cache.slot? n ≠ some (.finished r))
    (hfinished : ∀ {k r}, k ≠ n → s.cache.slot? k = some (.finished r) →
      s'.cache.slot? k = some (.finished r))
    (hsettled : ∀ k, k ≠ n → s'.cache.slot? k = s.cache.slot? k ∨
      ∃ r, s'.cache.slot? k = some (.finished r)) (r : LoadResult) :
    Settles s (s'.settle n r) ∧ (s'.settle n r).cache.slot? n = some (.finished r) := by
  have hself : (s'.settle n r).cache.slot? n = some (.finished r) :=
    Cache.slot?_setSlot s'.cache n _ (slot?_lt hslot)
  have hother : ∀ k, k ≠ n → (s'.settle n r).cache.slot? k = s'.cache.slot? k :=
    fun k hk => slot?_setSlot_of_ne hk _
  refine ⟨⟨fun {k r'} hr => ?_, fun k => ?_⟩, hself⟩
  · have hk : k ≠ n := by
      rintro rfl
      exact hnot r' hr
    rw [hother k hk]
    exact hfinished hk hr
  · by_cases hk : k = n
    · exact .inr ⟨r, hk ▸ hself⟩
    · rw [hother k hk]
      exact hsettled k hk

/-- A request changes no slot, and makes none but the one that it returns. -/
theorem slot?_request (s : Session) (m : ModuleRef) (k : Nat) :
    (s.request m).2.cache.slot? k = s.cache.slot? k ∨
      s.cache.slot? k = none ∧ (s.request m).1 = k := by
  show (s.cache.request m.key m).2.slot? k = s.cache.slot? k ∨
    s.cache.slot? k = none ∧ (s.cache.request m.key m).1 = k
  unfold Cache.request
  cases s.cache.index.get? m.key with
  | some number => exact .inl rfl
  | none =>
    show (s.cache.slots ++ [.waiting m])[k]? = s.cache.slots[k]? ∨
      s.cache.slots[k]? = none ∧ s.cache.slots.length = k
    rcases Nat.lt_trichotomy k s.cache.slots.length with hlt | heq | hgt
    · exact .inl (List.getElem?_append_left hlt)
    · exact .inr ⟨List.getElem?_eq_none (by omega), heq.symm⟩
    · refine .inl ?_
      rw [List.getElem?_eq_none (by simp; omega), List.getElem?_eq_none (by omega)]

theorem slot?_requestImport (ctx : Context) (importer : ModuleRef) (s : Session) (path : Text)
    (k : Nat) :
    (s.requestImport ctx importer path).2.cache.slot? k = s.cache.slot? k ∨
      s.cache.slot? k = none ∧ (s.requestImport ctx importer path).1 = .slot k := by
  unfold Session.requestImport
  split
  · exact .inl rfl
  · exact .inl rfl
  · exact (slot?_request s _ k).imp_right (And.imp_right (congrArg Handle.slot))

/-- The slots that are made for a list of requests are in their handles. -/
theorem slot?_requestAll (ctx : Context) (importer : ModuleRef) (blocks : List ImportBlock)
    (s : Session) (k : Nat) :
    (Session.requestAll ctx importer s blocks).2.cache.slot? k = s.cache.slot? k ∨
      s.cache.slot? k = none ∧
        ∃ p ∈ (Session.requestAll ctx importer s blocks).1, p.2 = .slot k := by
  induction blocks generalizing s with
  | nil => exact .inl rfl
  | cons block blocks ih =>
    rw [Session.requestAll]
    have hone := slot?_requestImport ctx importer s block.path k
    rcases ih (s.requestImport ctx importer block.path).2 with hsame | ⟨hnone, p, hp, hk⟩
    · rcases hone with hsame' | ⟨hnone, hk⟩
      · exact .inl (hsame.trans hsame')
      · exact .inr ⟨hnone, _, List.mem_cons_self, hk⟩
    · refine .inr ⟨?_, p, List.mem_cons_of_mem _ hp, hk⟩
      rcases hone with hsame' | ⟨hnone', _⟩
      · exact hsame'.symm.trans hnone
      · exact hnone'

/-- What a load that finishes does to the slots. -/
def Completes (n : Nat) (s : Session) (answer : Option LoadResult × Session) : Prop :=
  ∀ r, answer.1 = some r → Settles s answer.2 ∧ answer.2.cache.slot? n = some (.finished r)

theorem settles_awaitAll {load : Nat → Session → Option LoadResult × Session}
    (hload : ∀ n s, Completes n s (load n s)) (handles : List (ImportBlock × Handle)) {s : Session}
    {fetched : List (ImportBlock × Except LoadError Exports)}
    (h : (Session.awaitAll load handles s).1 = some fetched) :
    Settles s (Session.awaitAll load handles s).2 ∧ ∀ p ∈ handles, ∀ k, p.2 = .slot k →
      ∃ r, (Session.awaitAll load handles s).2.cache.slot? k = some (.finished r) := by
  induction handles generalizing s fetched with
  | nil => exact ⟨.refl s, fun p hp => nomatch hp⟩
  | cons p handles ih =>
    obtain ⟨block, handle⟩ := p
    cases handle with
    | ready exports =>
      obtain ⟨rest, hrest, _⟩ := Option.map_eq_some_iff.mp h
      obtain ⟨hsettles, hall⟩ := ih hrest
      refine ⟨hsettles, fun p hp k hk => ?_⟩
      rcases List.mem_cons.mp hp with rfl | hp
      · cases hk
      · exact hall p hp k hk
    | slot n =>
      obtain ⟨r, hr, hmap⟩ := Option.bind_eq_some_iff.mp h
      obtain ⟨rest, hrest, _⟩ := Option.map_eq_some_iff.mp hmap
      obtain ⟨hsettles₁, hone⟩ := hload n s r hr
      obtain ⟨hsettles₂, hall⟩ := ih hrest
      refine ⟨hsettles₁.trans hsettles₂, fun p hp k hk => ?_⟩
      rcases List.mem_cons.mp hp with rfl | hp
      · cases hk
        exact ⟨r, hsettles₂.finished hone⟩
      · exact hall p hp k hk

/-- **A load that finishes leaves nothing unfinished that was requested on its way.** -/
theorem load_completes (ctx : Context) (bound n : Nat) (s : Session) :
    Completes n s (Session.load ctx bound n s) := by
  induction bound generalizing n s with
  | zero => exact fun r hr => nomatch hr
  | succ bound ih =>
    intro r hr
    cases hslot : s.cache.slot? n with
    | none =>
      rw [Session.load, hslot] at hr
      cases hr
    | some slot =>
      cases slot with
      | running =>
        rw [Session.load, hslot] at hr
        cases hr
      | finished r' =>
        rw [Session.load, hslot] at hr ⊢
        cases hr
        exact ⟨.refl s, hslot⟩
      | waiting m =>
        have hrunning : (begun ctx s n m).cache.slot? n = some .running :=
          Cache.slot?_setSlot s.cache n .running (slot?_lt hslot)
        have hbegun : ∀ k, k ≠ n → (begun ctx s n m).cache.slot? k = s.cache.slot? k :=
          fun k hk => slot?_setSlot_of_ne hk .running
        have hnot : ∀ r, s.cache.slot? n ≠ some (.finished r) := by simp [hslot]
        rcases @load_waiting_cases ctx s n m hslot bound with ⟨e, _, hload⟩ |
          ⟨sheet, handles, s₁, s₂, _, hrequest, hcases⟩
        · rw [hload] at hr ⊢
          cases hr
          exact settles_settle hrunning hnot (fun hk hr => (hbegun _ hk).trans hr)
            (fun k hk => .inl (hbegun k hk)) _
        · rcases hcases with ⟨_, hload⟩ | ⟨fetched, hawait, hload⟩
          · rw [hload] at hr
            cases hr
          · rw [hload] at hr ⊢
            cases hr
            have hadv₁ := advances_requestAll ctx m (begun ctx s n m) (Link.importBlocks sheet)
            have hadv₂ := advances_awaitAll (advances_load ctx bound) handles s₁
            have hnew := slot?_requestAll ctx m (Link.importBlocks sheet)
              (begun ctx s n m)
            have hall := settles_awaitAll ih handles (s := s₁) (congrArg Prod.fst hawait)
            rw [hrequest] at hadv₁ hnew
            rw [hawait] at hadv₂ hall
            obtain ⟨slot, hslot₂, _⟩ := (hadv₁.trans hadv₂).begun hrunning rfl
            obtain ⟨hsettles, hhandles⟩ := hall
            have hslot₃ : (s₂.note (ctx.finish m sheet fetched).2).cache.slot? n = some slot :=
              hslot₂
            refine settles_settle hslot₃ hnot (fun {k r'} hk hr => ?_) (fun k hk => ?_) _
            · rw [← hbegun k hk] at hr
              rcases hnew k with hsame | ⟨hnone, _⟩
              · exact hsettles.finished (hsame.trans hr)
              · rw [hnone] at hr
                cases hr
            · -- a slot that was made for an import has been waited for
              rcases hnew k with hsame | ⟨_, p, hp, hpk⟩
              · refine (hsettles.settled k).imp_left fun hsame' => ?_
                exact hsame'.trans (hsame.trans (hbegun k hk))
              · exact .inr (hhandles p hp k hpk)

end Memo

/-! ## 5. Builds -/

namespace Build

variable {plan : Plan} {ctx : Context}

/-- The modules that are processed at the turns of targets, in order. -/
def processedBy (plan : Plan) (ctx : Context) : List (Target × Nat) → Session → List ModuleRef
  | [], _ => []
  | (t, number) :: rest, s =>
    (s.loadLogged ctx s.bound number).1 ++ processedBy plan ctx rest (turn plan ctx t number s).2

/-- The modules that a build processes, in order. -/
def processed (plan : Plan) (f : Found) : List ModuleRef :=
  processedBy plan plan.context (requested f).1 (requested f).2

/-- Modules with one key ask for the same. -/
def KeysDecide (plan : Plan) (f : Found) : Prop :=
  DecidedByKey (graph plan f) (Reached plan f)

/-- The slots that are made for targets are those of their requests. -/
theorem slot?_requestTargets (targets : List Target) (s : Session) (k : Nat) :
    (requestTargets targets s).2.cache.slot? k = s.cache.slot? k ∨
      ∃ p ∈ (requestTargets targets s).1, p.2 = k := by
  induction targets generalizing s with
  | nil => exact .inl rfl
  | cons t targets ih =>
    rw [requestTargets]
    rcases ih ((s.note [.processing t.path]).request (.ofPath t.path)).2 with hsame | ⟨p, hp, hk⟩
    · rcases Memo.slot?_request (s.note [.processing t.path]) (.ofPath t.path) k with
        hsame' | ⟨_, hk⟩
      · exact .inl (hsame.trans hsame')
      · exact .inr ⟨_, List.mem_cons_self, hk⟩
    · exact .inr ⟨p, List.mem_cons_of_mem _ hp, hk⟩

/-- What is processed at the turns of targets had not begun before, and all that it asks for is
    requested. -/
theorem compile_census {V : ModuleRef → Prop} {asks : ModuleRef → List ModuleRef}
    (hV : ∀ m, V m → ∀ ref ∈ asks m, V ref) (requests : List (Target × Nat)) {s : Session}
    {log : List ModuleRef} (h : Memo.Census V log s.cache)
    (hall : Memo.AllRequested asks log s.cache)
    (hasks : ∀ m, s.cache.hasBegun m.key = false → asks m = asked plan ctx requests s m) :
    Memo.Census V (log ++ processedBy plan ctx requests s)
        (compile plan ctx requests s).2.cache ∧
      Memo.AllRequested asks (log ++ processedBy plan ctx requests s)
        (compile plan ctx requests s).2.cache := by
  induction requests generalizing s log with
  | nil =>
    rw [processedBy, List.append_nil]
    exact ⟨h, hall⟩
  | cons p rest ih =>
    obtain ⟨t, number⟩ := p
    obtain ⟨_, hcache, _⟩ := turn_spec plan ctx t number s
    have hadv := Memo.advances_load ctx s.bound number s
    have hsnd := Session.loadLogged_snd ctx s.bound number s
    -- what is listed at this turn had not begun, so the graph has what it asks for now
    have hread : ∀ m ∈ (s.loadLogged ctx s.bound number).1, asks m = ctx.imports s.disk m := by
      intro m hm
      obtain ⟨hcensus, _⟩ := Memo.listed_loadLogged ctx s.bound number
        (h.mono fun _ _ => trivial) fun _ _ _ _ _ => trivial
      have hkey : m.key ∈ (s.loadLogged ctx s.bound number).1.map ModuleRef.key :=
        List.mem_map_of_mem hm
      have hbefore : s.cache.hasBegun m.key = false := by
        have hnodup := hcensus.once
        rw [List.map_append] at hnodup
        rw [Bool.eq_false_iff, Ne, ← h.begun]
        exact fun hold => (List.nodup_append.mp hnodup).2.2 _ hold _ hkey rfl
      have hafter : (s.load ctx s.bound number).2.cache.hasBegun m.key = true := by
        rw [← hsnd, ← hcensus.begun, List.map_append]
        exact List.mem_append_right _ hkey
      rw [hasks m hbefore, asked, if_pos hafter]
    obtain ⟨h₁, hall₁⟩ := Memo.listed_loadLogged ctx s.bound number h
      fun m hm hVm ref href => hV m hVm ref (hread m hm ▸ href)
    rw [hsnd] at h₁ hall₁
    have hall₂ : Memo.AllRequested asks (log ++ (s.loadLogged ctx s.bound number).1)
        (s.load ctx s.bound number).2.cache :=
      (hall.advances hadv).append fun m hm ref href => hall₁ m hm ref (hread m hm ▸ href)
    rw [compile_cons, processedBy, ← List.append_assoc]
    refine ih (hcache ▸ h₁) (hcache ▸ hall₂) fun m hm => ?_
    rw [hcache] at hm
    rw [hasks m (hadv.hasBegun_eq_false hm), asked,
      if_neg (by rw [hm]; exact Bool.false_ne_true)]

/-- If no target is stalled, all that was requested on their way is finished. -/
theorem settles_compile (requests : List (Target × Nat)) {s : Session}
    (h : none ∉ (compile plan ctx requests s).1) :
    Memo.Settles s (compile plan ctx requests s).2 ∧ ∀ p ∈ requests,
      ∃ r, (compile plan ctx requests s).2.cache.slot? p.2 = some (.finished r) := by
  induction requests generalizing s with
  | nil => exact ⟨.refl s, fun p hp => nomatch hp⟩
  | cons p rest ih =>
    obtain ⟨t, number⟩ := p
    obtain ⟨hnone, hcache, _⟩ := turn_spec plan ctx t number s
    rw [compile_cons] at h ⊢
    obtain ⟨hone, hrest⟩ := not_or.mp (List.mem_cons.not.mp h)
    obtain ⟨r, hr⟩ := Option.ne_none_iff_exists'.mp fun hload => hone (hnone.mpr hload).symm
    obtain ⟨hsettles, hfinished⟩ := Memo.load_completes ctx s.bound number s r hr
    have hturn : Memo.Settles s (turn plan ctx t number s).2 :=
      ⟨fun hk => hcache ▸ hsettles.finished hk, fun k => hcache ▸ hsettles.settled k⟩
    obtain ⟨hsettles', hall⟩ := ih hrest
    refine ⟨hturn.trans hsettles', fun p hp => ?_⟩
    rcases List.mem_cons.mp hp with rfl | hp
    · exact ⟨r, hsettles'.finished (hcache ▸ hfinished)⟩
    · exact hall p hp

/-- Keys keep their slots while targets are loaded and written. -/
theorem index_compile (requests : List (Target × Nat)) {s : Session} {key : Text} {n : Nat}
    (h : s.cache.index.get? key = some n) :
    (compile plan ctx requests s).2.cache.index.get? key = some n := by
  induction requests generalizing s with
  | nil => exact h
  | cons p rest ih =>
    obtain ⟨t, number⟩ := p
    rw [compile_cons]
    refine ih ?_
    rw [(turn_spec plan ctx t number s).2.1]
    exact (Memo.advances_load ctx s.bound number s).kept h

section Found

variable {f : Found}

/-- What a build has processed and requested when it is over. -/
theorem census_build (plan : Plan) (f : Found) :
    Memo.Census (Reached plan f) (processed plan f) (after plan f (requested f).1).cache ∧
      Memo.AllRequested (graph plan f) (processed plan f)
        (after plan f (requested f).1).cache := by
  have hrequested : Memo.Census (Reached plan f) [] (requested f).2.cache :=
    requestTargets_keeps f.targets (fun t ht c hc => hc.request ⟨t, ht, .refl⟩) Memo.census_empty
  exact compile_census (fun m hm ref href => hm.tail href) (requested f).1 hrequested
    (fun m hm => nomatch hm) fun m _ => rfl

/-- If no target is stalled, everything that was requested is finished. -/
theorem finished_of_not_stalled
    (h : none ∉ (compile plan plan.context (requested f).1 (requested f).2).1)
    {key : Text} {n : Nat}
    (hn : (after plan f (requested f).1).cache.index.get? key = some n) :
    ∃ r, (after plan f (requested f).1).cache.slot? n = some (.finished r) := by
  obtain ⟨hsettles, hall⟩ := settles_compile (requested f).1 h
  rcases hsettles.settled n with hsame | hfinished
  · rcases slot?_requestTargets f.targets { f.session with cache := .empty } n with
      hnone | ⟨p, hp, hk⟩
    · -- such a slot would not be there at all
      have hlt : n < (after plan f (requested f).1).cache.started :=
        (census_build plan f).1.inRange hn
      have hout : (after plan f (requested f).1).cache.slot? n = none := hsame.trans hnone
      exact absurd hlt (Nat.not_lt.mpr (List.getElem?_eq_none_iff.mp hout))
    · exact hk ▸ hall p hp
  · exact hfinished

/-- If no target is stalled, what was requested is what has been processed. -/
theorem mem_processed_iff
    (h : none ∉ (compile plan plan.context (requested f).1 (requested f).2).1) {key : Text} :
    key ∈ (processed plan f).map ModuleRef.key ↔
      ∃ n, (after plan f (requested f).1).cache.index.get? key = some n := by
  rw [(census_build plan f).1.begun, Memo.hasBegun_eq_true_iff]
  constructor
  · intro hbegun
    obtain ⟨n, slot, hn, _⟩ := hbegun
    exact ⟨n, hn⟩
  · intro hknown
    obtain ⟨n, hn⟩ := hknown
    obtain ⟨r, hr⟩ := finished_of_not_stalled h hn
    exact ⟨n, .finished r, hn, hr, rfl⟩

/-- The key of every module that a target reaches has been processed. -/
theorem mem_processed_of_reached
    (h : none ∉ (compile plan plan.context (requested f).1 (requested f).2).1)
    (hkeys : KeysDecide plan f) {m : ModuleRef} (hm : Reached plan f m) :
    m.key ∈ (processed plan f).map ModuleRef.key := by
  obtain ⟨hcensus, hall⟩ := census_build plan f
  obtain ⟨t, ht, hpath⟩ := hm
  have hstart : Reached plan f (.ofPath t.path) := ⟨t, ht, .refl⟩
  induction hpath with
  | refl =>
    obtain ⟨_, hfst, hslots⟩ :=
      requestTargets_spec f.targets { f.session with cache := .empty }
    rw [← hfst] at ht
    obtain ⟨p, hp, rfl⟩ := List.mem_map.mp ht
    exact (mem_processed_iff h).mpr ⟨p.2, index_compile (requested f).1 (hslots p hp)⟩
  | @tail m ref hpath hask ih =>
    -- the module that was processed under this key asks for the same
    obtain ⟨a, ha, hkey⟩ := List.mem_map.mp ih
    obtain ⟨ref', href', hsame⟩ :=
      hkeys m a ⟨t, ht, hpath⟩ (hcensus.members a ha) hkey.symm ref hask
    rw [← hsame]
    exact (mem_processed_iff h).mpr (hall a ha ref' href')

/-- With paths that are read from the directory of their module, only files are reached. -/
theorem Reached.isFile (hresolver : plan.options.resolver = .relative) {m : ModuleRef}
    (hm : Reached plan f m) : Memo.IsFile m := by
  obtain ⟨t, _, hpath⟩ := hm
  induction hpath with
  | refl => exact Memo.isFile_ofPath t.path
  | tail _ hask _ => exact isFile_of_mem_graph hresolver hask

theorem keysDecide_of_relative (hresolver : plan.options.resolver = .relative) :
    KeysDecide plan f := by
  intro a b ha hb hkey ref href
  rw [(ha.isFile hresolver).eq_of_key (hb.isFile hresolver) hkey] at href
  exact ⟨ref, href, rfl⟩

/-- As many loads are stored as modules are processed. -/
theorem started_eq_length
    (h : none ∉ (compile plan plan.context (requested f).1 (requested f).2).1) :
    (after plan f (requested f).1).cache.started = (processed plan f).length := by
  obtain ⟨hcensus, _⟩ := census_build plan f
  have hperm : ((processed plan f).map ModuleRef.key).Perm
      (after plan f (requested f).1).cache.index.keys := by
    refine (List.perm_ext_iff_of_nodup hcensus.once hcensus.keys).mpr fun key => ?_
    rw [mem_processed_iff h, Table.mem_keys_iff]
  rw [← hcensus.counted, ← hperm.length_eq, List.length_map]

end Found

/-- **Every module is processed once.** Let a build have gone through its input.
    * With import paths that are read from the directory of their module, it is not stalled if its
      targets lead to no cycle, and the key of a module decides what it asks for.
    * A build in which nothing is stalled processes one module for each key that its targets reach,
      and no other, if keys decide what modules ask for; it stores as many loads, whatever fails,
      and this is the number it reports. -/
theorem processed_once (plan : Plan) (s : Session) (f : Found)
    (hfound : findFiles plan ⟨[], [], s⟩ = .ok () f) :
    (plan.options.resolver = .relative →
      ((buildFiles plan s).1 = .stalled ↔
        ∃ t ∈ f.targets, LeadsToCycle (graph plan f) (.ofPath t.path)) ∧ KeysDecide plan f) ∧
    ((buildFiles plan s).1 ≠ .stalled → KeysDecide plan f →
      ((processed plan f).map ModuleRef.key).Nodup ∧
      (∀ key, key ∈ (processed plan f).map ModuleRef.key ↔
        ∃ m, Reached plan f m ∧ m.key = key) ∧
      (buildFiles plan s).2.cache.started = (processed plan f).length ∧
      ∀ output, (buildFiles plan s).1 = .done output →
        output.modules = (processed plan f).length) := by
  refine ⟨fun hresolver => ⟨buildFiles_eq_stalled_iff (.inl hresolver) hfound,
    keysDecide_of_relative hresolver⟩, fun hnot hkeys => ?_⟩
  obtain ⟨hcensus, _⟩ := census_build plan f
  rw [buildFiles_eq hfound] at hnot ⊢
  have hnone := (conclude_eq_stalled_iff _ _).not.mp hnot
  have hlength := started_eq_length hnone
  refine ⟨hcensus.once, fun key => ⟨fun hmem => ?_, ?_⟩, hlength, fun output hdone => ?_⟩
  · obtain ⟨m, hm, rfl⟩ := List.mem_map.mp hmem
    exact ⟨m, hcensus.members m hm, rfl⟩
  · rintro ⟨m, hm, rfl⟩
    exact mem_processed_of_reached hnone hkeys hm
  · rw [← hlength, ((conclude_eq_done_iff _ _ _).mp hdone).1]

/-- Three style sheets. One is composed by both others, by two import paths, and one asks for a
    fourth that is not there. -/
def sharedDisk : Disk where
  cwd := []
  entries := [
    (["in".toList], .dir),
    (["in".toList, "a.css".toList],
      .file (Text.utf8 ".a\x7bcomposes:b from './b.css'\x7d".toList)),
    (["in".toList, "b.css".toList], .file (Text.utf8 ".b\x7btop:0\x7d".toList)),
    (["in".toList, "c.css".toList], .file (Text.utf8
      ".c\x7bcomposes:b from './x/../b.css';composes:d from './d.css'\x7d".toList)),
    (["out".toList], .dir)]

def sharedFound : Found :=
  ⟨[⟨"/in/a.css".toList, "a.css".toList⟩, ⟨"/in/b.css".toList, "b.css".toList⟩,
    ⟨"/in/c.css".toList, "c.css".toList⟩], [], .ofDisk sharedDisk⟩

theorem findFiles_sharedDisk :
    findFiles loopPlan ⟨[], [], .ofDisk sharedDisk⟩ = .ok () sharedFound := by
  have hnames : sharedDisk.names ["in".toList] =
      ["a.css".toList, "b.css".toList, "c.css".toList] :=
    Disk.names_of_pairwise (by decide +kernel) (by decide +kernel)
  have hvisit : findFiles loopPlan ⟨[], [], .ofDisk sharedDisk⟩ =
      ((sharedDisk.names ["in".toList]).forM fun name => visit loopPlan Disk.maxPath [name])
        ⟨[], [], .ofDisk sharedDisk⟩ := rfl
  rw [hvisit, hnames]
  rfl

theorem processed_once_shared :
    (processed loopPlan sharedFound).map ModuleRef.key =
        ["/in/a.css".toList, "/in/b.css".toList, "/in/c.css".toList, "/in/d.css".toList] ∧
      (∀ m, Reached loopPlan sharedFound m → m.key ∈
        ["/in/a.css".toList, "/in/b.css".toList, "/in/c.css".toList, "/in/d.css".toList]) ∧
      (buildFiles loopPlan (.ofDisk sharedDisk)).2.cache.started = 4 := by
  obtain ⟨hrelative, honce⟩ :=
    processed_once loopPlan (.ofDisk sharedDisk) sharedFound findFiles_sharedDisk
  have hlist : (processed loopPlan sharedFound).map ModuleRef.key =
      ["/in/a.css".toList, "/in/b.css".toList, "/in/c.css".toList, "/in/d.css".toList] := by
    decide +kernel
  have hsome : ((compile loopPlan loopPlan.context (requested sharedFound).1
      (requested sharedFound).2).1.all Option.isSome) = true := by
    decide +kernel
  have hnot : (buildFiles loopPlan (.ofDisk sharedDisk)).1 ≠ .stalled := by
    rw [buildFiles_eq findFiles_sharedDisk, Ne, conclude_eq_stalled_iff]
    exact fun hnone => nomatch List.all_eq_true.mp hsome none hnone
  obtain ⟨_, hmem, hstarted, _⟩ := honce hnot (hrelative rfl).2
  refine ⟨hlist, fun m hm => ?_, ?_⟩
  · rw [← hlist, hmem]
    exact ⟨m, hm, rfl⟩
  · rw [hstarted, ← List.length_map, hlist]
    rfl

/-- A style sheet and a file that cannot be copied, because a directory has its place. -/
def blockedDisk : Disk where
  cwd := []
  entries := [
    (["in".toList], .dir),
    (["in".toList, "a.css".toList], .file (Text.utf8 ".a\x7b\x7d".toList)),
    (["in".toList, "b.txt".toList], .file (Text.utf8 "x".toList)),
    (["out".toList], .dir),
    (["out".toList, "b.txt".toList], .dir)]

theorem findFiles_blockedDisk : ∃ e f,
    findFiles loopPlan ⟨[], [], .ofDisk blockedDisk⟩ = .error e f ∧
      f.session.cache = .empty ∧ f.session.journal = [] := by
  have hnames : blockedDisk.names ["in".toList] = ["a.css".toList, "b.txt".toList] :=
    Disk.names_of_pairwise (by decide +kernel) (by decide +kernel)
  have hvisit : findFiles loopPlan ⟨[], [], .ofDisk blockedDisk⟩ =
      ((blockedDisk.names ["in".toList]).forM fun name => visit loopPlan Disk.maxPath [name])
        ⟨[], [], .ofDisk blockedDisk⟩ := rfl
  rw [hvisit, hnames]
  exact ⟨_, _, rfl, rfl, rfl⟩

/-- The conditions are needed.
    * Where a copy fails, no target is processed, though there is one that leads to no cycle.
    * Where modules with one key ask for different things, a module may be reached without a cycle
      and yet not be processed. -/
theorem reached_and_not_processed :
    (isTarget "a.css".toList loopPlan.options.extension = true ∧
      blockedDisk.read "/in/a.css".toList = .ok (Text.utf8 ".a\x7b\x7d".toList) ∧
      loopPlan.context.imports blockedDisk (.ofPath "/in/a.css".toList) = [] ∧
      (∃ e, (buildFiles loopPlan (.ofDisk blockedDisk)).1 = .failed e) ∧
      (buildFiles loopPlan (.ofDisk blockedDisk)).2.cache.started = 0 ∧
      (buildFiles loopPlan (.ofDisk blockedDisk)).2.journal = []) ∧
    findFiles doubledPlan ⟨[], [], .ofDisk (doubledDisk "./z.css")⟩ =
      .ok () (doubledFound "./z.css") ∧
    ¬LeadsToCycle (graph doubledPlan (doubledFound "./z.css")) (.ofPath "/in/b.css".toList) ∧
    Reached doubledPlan (doubledFound "./z.css") (.file "/z.css".toList) ∧
    (processed doubledPlan (doubledFound "./z.css")).map ModuleRef.key =
      ["/in/b.css".toList, "/x.css".toList, "/y.css".toList] ∧
    (buildFiles doubledPlan (.ofDisk (doubledDisk "./z.css"))).1 =
      .done ⟨["b.css".toList], [], 3⟩ := by
  refine ⟨?_, findFiles_doubledPlan _, fun hcycle => ?_, ?_, by decide +kernel, ?_⟩
  · obtain ⟨e, f, hfound, hcache, hjournal⟩ := findFiles_blockedDisk
    have hbuild : buildFiles loopPlan (.ofDisk blockedDisk) = (.failed e, f.session) := by
      rw [buildFiles, hfound]
    refine ⟨by decide +kernel, rfl, by decide +kernel, ?_⟩
    rw [hbuild]
    exact ⟨⟨e, rfl⟩, by rw [hcache]; rfl, hjournal⟩
  · exact absurd (hcycle.walks 3) (by decide +kernel)
  · have hx : .file "/x.css".toList ∈ graph doubledPlan (doubledFound "./z.css")
        (.ofPath "/in/b.css".toList) := by decide +kernel
    have hz : .file "/z.css".toList ∈ graph doubledPlan (doubledFound "./z.css")
        (.file "/x.css".toList) := by decide +kernel
    exact ⟨_, List.mem_cons_self, .tail (.single hx) hz⟩
  · exact buildFiles_eq_done (findFiles_doubledPlan _) (by decide +kernel) (by decide +kernel)

end Build

end StyleModules
