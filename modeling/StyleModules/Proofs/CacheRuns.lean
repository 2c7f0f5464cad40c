import StyleModules.Module.Cache
import StyleModules.Proofs.CacheSteps

/-!
What a client sees of a cache over any run of requests, awaits and clears.

* Section 1 plays the steps on a cache. Every load is tagged with the step that gave it, every
  result with the load it came from, and a log is kept of the loads that ran.
* `Client.Follows` is what ties the cache to the steps: its slots are those of the requests that
  found no entry, in order, and its index leads to the slots of `requested?`. A step keeps it
  (`Follows.step`), so a run does.
* `Client.play_sharing`: loads are shared as `source` says, run once, when they are due, and every
  handle gives the result of the load it stands for.
-/

namespace StyleModules

variable {Load Result : Type}

/-! ## 1. A client of a cache -/

/-- A load that ran: the request that gave it, the await at which it ran, the result. -/
structure LoadRun (Result : Type) where
  load : Nat
  time : Nat
  result : Result

/-- A client with its cache: how many steps it has taken, the handle of every request so far, those
    that wait for the next await, the loads that ran, and the answer to every request that was
    awaited, with the load it came from. -/
structure Client (Load Result : Type) where
  time : Nat
  cache : Cache (Nat × Load) (Nat × Result)
  handles : List (Nat × Nat)
  queue : List (Nat × Nat)
  runs : List (LoadRun Result)
  answers : List (Nat × Option (Nat × Result))

namespace Client

/-- Nothing done yet. -/
def start : Client Load Result :=
  ⟨0, .empty, [], [], [], []⟩

/-- Await the handle of one request. -/
def awaitHandle (run : Load → Result) (c : Client Load Result) (h : Nat × Nat) :
    Client Load Result :=
  let (answer, ran, cache) := c.cache.await (fun job => (job.1, run job.2)) h.2
  let runs := if ran then (answer.map fun a => LoadRun.mk a.1 c.time a.2).toList else []
  { c with cache, runs := c.runs ++ runs, answers := c.answers ++ [(h.1, answer)] }

/-- Take a step. An await is for all requests since the last one, in order. -/
def step (c : Client Load Result) : CacheStep Load Result → Client Load Result
  | .request m load =>
    let (number, cache) := c.cache.request m.key (c.time, load)
    { c with
      time := c.time + 1
      cache
      handles := c.handles ++ [(c.time, number)]
      queue := c.queue ++ [(c.time, number)] }
  | .awaitAll run =>
    { c.queue.foldl (awaitHandle run) c with time := c.time + 1, queue := [] }
  | .clear => { c with time := c.time + 1, cache := c.cache.clear }

/-- Take steps from the start. -/
def play (steps : List (CacheStep Load Result)) : Client Load Result :=
  steps.foldl step start

/-! ## 2. Awaiting several handles -/

/-- What an await leaves in a slot. -/
def settle (run : Load → Result) : Slot (Nat × Load) (Nat × Result) → Slot (Nat × Load) (Nat × Result)
  | .waiting job => .finished (job.1, run job.2)
  | s => s

/-- What a slot gives without running a load. -/
def result? : Slot (Nat × Load) (Nat × Result) → Option (Nat × Result)
  | .finished r => some r
  | _ => none

/-- Every slot waits or is finished. -/
def Settleable (c : Client Load Result) (number : Nat) : Prop :=
  ∃ s, c.cache.slot? number = some s ∧ s ≠ .running

/-- No load of a waiting slot has run, no two wait for the same, none ran twice. -/
structure Unrepeated (c : Client Load Result) : Prop where
  nodup : (c.runs.map LoadRun.load).Nodup
  waiting : ∀ n job, c.cache.slot? n = some (.waiting job) → job.1 ∉ c.runs.map LoadRun.load
  apart : ∀ n n' job job', c.cache.slot? n = some (.waiting job) →
    c.cache.slot? n' = some (.waiting job') → job.1 = job'.1 → n = n'

/-- What awaiting some handles makes of a client. -/
structure Awaits (run : Load → Result) (hs : List (Nat × Nat)) (c c' : Client Load Result) :
    Prop where
  handles : c'.handles = c.handles
  index : c'.cache.index = c.cache.index
  started : c'.cache.started = c.cache.started
  slot : ∀ n, c'.cache.slot? n =
    if n ∈ hs.map Prod.snd then (c.cache.slot? n).map (settle run) else c.cache.slot? n
  runs : ∀ x, x ∈ c'.runs ↔ x ∈ c.runs ∨ ∃ n ∈ hs.map Prod.snd, ∃ job,
    c.cache.slot? n = some (.waiting job) ∧ x = ⟨job.1, c.time, run job.2⟩
  answers : c'.answers = c.answers ++
    hs.map fun h => (h.1, ((c.cache.slot? h.2).map (settle run)).bind result?)
  unrepeated : c'.Unrepeated
  time : c'.time = c.time

variable {run : Load → Result} {c c' c'' : Client Load Result}

theorem settle_settle (s : Slot (Nat × Load) (Nat × Result)) :
    settle run (settle run s) = settle run s := by
  cases s <;> rfl

theorem settle_ne_waiting (s : Slot (Nat × Load) (Nat × Result)) (job : Nat × Load) :
    settle run s ≠ .waiting job := by
  cases s <;> simp [settle]

theorem awaitHandle_waiting {h : Nat × Nat} {job : Nat × Load}
    (hslot : c.cache.slot? h.2 = some (.waiting job)) :
    c.awaitHandle run h =
      { c with
        cache := c.cache.setSlot h.2 (.finished (job.1, run job.2))
        runs := c.runs ++ [⟨job.1, c.time, run job.2⟩]
        answers := c.answers ++ [(h.1, some (job.1, run job.2))] } := by
  rw [awaitHandle, Cache.await_waiting _ _ _ _ hslot]
  rfl

theorem awaitHandle_finished {h : Nat × Nat} {r : Nat × Result}
    (hslot : c.cache.slot? h.2 = some (.finished r)) :
    c.awaitHandle run h = { c with answers := c.answers ++ [(h.1, some r)] } := by
  rw [awaitHandle, Cache.await_finished _ _ _ _ hslot]
  simp

theorem slot?_setSlot_ite (n : Nat) (s : Slot (Nat × Load) (Nat × Result))
    (h : n < c.cache.started) (k : Nat) :
    (c.cache.setSlot n s).slot? k = if k = n then some s else c.cache.slot? k := by
  by_cases hk : k = n
  · rw [if_pos hk, hk, Cache.slot?_setSlot _ _ _ h]
  · rw [if_neg hk]
    exact List.getElem?_set_ne (Ne.symm hk)

/-- A load that waited and runs is added to the log for the first time. -/
theorem Unrepeated.concat (hc : c.Unrepeated) {n : Nat} {job : Nat × Load}
    (hslot : c.cache.slot? n = some (.waiting job)) (time : Nat) (r : Result)
    (answers : List (Nat × Option (Nat × Result))) :
    Unrepeated { c with
      cache := c.cache.setSlot n (.finished (job.1, r))
      runs := c.runs ++ [⟨job.1, time, r⟩]
      answers := answers } := by
  have hlt : n < c.cache.started := (List.getElem?_eq_some_iff.mp hslot).1
  have hother : ∀ k job', (c.cache.setSlot n (.finished (job.1, r))).slot? k =
      some (.waiting job') → k ≠ n ∧ c.cache.slot? k = some (.waiting job') := by
    intro k job' hk
    rw [slot?_setSlot_ite n _ hlt] at hk
    by_cases hkn : k = n
    · rw [if_pos hkn] at hk
      cases hk
    · rw [if_neg hkn] at hk
      exact ⟨hkn, hk⟩
  constructor
  · rw [List.map_append, List.map_singleton]
    refine List.nodup_append.mpr ⟨hc.nodup, by simp, ?_⟩
    intro p hp q hq heq
    obtain rfl := List.mem_singleton.mp hq
    rw [heq] at hp
    exact hc.waiting n job hslot hp
  · intro k job' hk hmem
    obtain ⟨hkn, hold⟩ := hother k job' hk
    rw [List.map_append, List.mem_append, List.map_singleton, List.mem_singleton] at hmem
    rcases hmem with hmem | hmem
    · exact hc.waiting k job' hold hmem
    · exact hkn (hc.apart k n job' job hold hslot hmem)
  · intro k k' job₁ job₂ hk hk' heq
    exact hc.apart k k' job₁ job₂ (hother k job₁ hk).2 (hother k' job₂ hk').2 heq

theorem awaits_awaitHandle (h : Nat × Nat) (hslot : c.Settleable h.2) (hc : c.Unrepeated) :
    Awaits run [h] c (c.awaitHandle run h) := by
  obtain ⟨s, hs, hne⟩ := hslot
  have hlt : h.2 < c.cache.started := (List.getElem?_eq_some_iff.mp hs).1
  cases s with
  | running => exact absurd rfl hne
  | finished r =>
    rw [awaitHandle_finished hs]
    refine ⟨rfl, rfl, rfl, ?_, ?_, ?_, ⟨hc.nodup, hc.waiting, hc.apart⟩, rfl⟩
    · intro n
      by_cases hn : n = h.2
      · simp [hn, hs, settle]
      · simp [hn]
    · intro x
      simp [hs]
    · simp [hs, settle, result?]
  | waiting job =>
    rw [awaitHandle_waiting hs]
    refine ⟨rfl, rfl, by simp [Cache.started, Cache.setSlot], ?_, ?_, ?_, hc.concat hs _ _ _, rfl⟩
    · intro n
      rw [slot?_setSlot_ite _ _ hlt]
      by_cases hn : n = h.2
      · simp [hn, hs, settle]
      · simp [hn]
    · intro x
      simp only [List.mem_append, List.mem_singleton, List.map_cons, List.map_nil, exists_eq_left, hs,
        Option.some.injEq, Slot.waiting.injEq, exists_eq_left']
    · simp [hs, settle, result?]

theorem Awaits.slot_waiting {hs : List (Nat × Nat)} (h : Awaits run hs c c') {n : Nat}
    {job : Nat × Load} : c'.cache.slot? n = some (.waiting job) ↔
      n ∉ hs.map Prod.snd ∧ c.cache.slot? n = some (.waiting job) := by
  rw [h.slot]
  by_cases hn : n ∈ hs.map Prod.snd
  · rw [if_pos hn]
    constructor
    · intro hmap
      obtain ⟨s, -, hs⟩ := Option.map_eq_some_iff.mp hmap
      exact absurd hs (settle_ne_waiting s job)
    · intro hboth
      exact absurd hn hboth.1
  · rw [if_neg hn]
    exact ⟨fun hs => ⟨hn, hs⟩, fun hs => hs.2⟩

theorem Awaits.settled {hs : List (Nat × Nat)} (h : Awaits run hs c c') (n : Nat) :
    (c'.cache.slot? n).map (settle run) = (c.cache.slot? n).map (settle run) := by
  rw [h.slot]
  by_cases hn : n ∈ hs.map Prod.snd
  · rw [if_pos hn, Option.map_map]
    congr 1
    funext s
    exact settle_settle s
  · rw [if_neg hn]

theorem Awaits.trans {hs hs' : List (Nat × Nat)} (h : Awaits run hs c c')
    (h' : Awaits run hs' c' c'') : Awaits run (hs ++ hs') c c'' := by
  refine ⟨h'.handles.trans h.handles, h'.index.trans h.index, h'.started.trans h.started, ?_, ?_, ?_,
    h'.unrepeated, h'.time.trans h.time⟩
  · intro n
    rw [h'.slot, h.settled, h.slot]
    simp only [List.map_append, List.mem_append]
    by_cases hn : n ∈ hs.map Prod.snd <;> by_cases hn' : n ∈ hs'.map Prod.snd <;> simp [hn, hn']
  · intro x
    rw [h'.runs, h.runs, h.time]
    simp only [h.slot_waiting, List.map_append, List.mem_append]
    constructor
    · rintro ((hold | ⟨n, hn, job, hjob⟩) | ⟨n, hn, job, hjob, hx⟩)
      · exact .inl hold
      · exact .inr ⟨n, .inl hn, job, hjob⟩
      · exact .inr ⟨n, .inr hn, job, hjob.2, hx⟩
    · rintro (hold | ⟨n, hn, job, hjob, hx⟩)
      · exact .inl (.inl hold)
      · by_cases hfirst : n ∈ hs.map Prod.snd
        · exact .inl (.inr ⟨n, hfirst, job, hjob, hx⟩)
        · exact .inr ⟨n, hn.resolve_left hfirst, job, ⟨hfirst, hjob⟩, hx⟩
  · rw [h'.answers, h.answers, List.append_assoc, List.map_append]
    congr 2
    apply List.map_congr_left
    intro k _
    rw [h.settled]

theorem Awaits.settleable {hs : List (Nat × Nat)} (h : Awaits run hs c c') {n : Nat}
    (hn : c.Settleable n) : c'.Settleable n := by
  obtain ⟨s, hslot, hne⟩ := hn
  rw [Settleable, h.slot, hslot]
  by_cases hmem : n ∈ hs.map Prod.snd
  · rw [if_pos hmem]
    refine ⟨settle run s, rfl, ?_⟩
    cases s with
    | running => exact absurd rfl hne
    | waiting _ => exact nofun
    | finished _ => exact nofun
  · rw [if_neg hmem]
    exact ⟨s, rfl, hne⟩

theorem awaits_foldl (hs : List (Nat × Nat)) (hslots : ∀ h ∈ hs, c.Settleable h.2)
    (hc : c.Unrepeated) : Awaits run hs c (hs.foldl (awaitHandle run) c) := by
  induction hs generalizing c with
  | nil => exact ⟨rfl, rfl, rfl, fun n => by simp, fun x => by simp, by simp, hc, rfl⟩
  | cons h hs ih =>
    have hfirst : Awaits run [h] c _ := awaits_awaitHandle h (hslots h List.mem_cons_self) hc
    have hrest := ih (fun k hk => hfirst.settleable (hslots k (List.mem_cons_of_mem _ hk)))
      hfirst.unrepeated
    exact hfirst.trans hrest

/-! ## 3. The cache follows the steps -/

open CacheStep

/-- The number of the slot of a request that found no entry. -/
def number (steps : List (CacheStep Load Result)) (p : Nat) : Nat :=
  (fresh steps).idxOf p

/-- The handle of a request. -/
def handle (steps : List (CacheStep Load Result)) (q : Nat) : Nat × Nat :=
  (q, number steps (source steps q))

/-- What the slot of a request that found no entry holds. -/
def Holds (steps : List (CacheStep Load Result)) (p : Nat)
    (s : Slot (Nat × Load) (Nat × Result)) : Prop :=
  (∃ m load, steps[p]? = some (.request m load) ∧ awaited? steps p = none ∧
    s = .waiting (p, load)) ∨
  ∃ time r, Resolves steps p time r ∧ s = .finished (p, r)

/-- An answer to a request is the result of the load it was handed. -/
def Answers (steps : List (CacheStep Load Result)) (answer : Nat × Option (Nat × Result)) : Prop :=
  ∃ time r, Resolves steps (source steps answer.1) time r ∧
    answer.2 = some (source steps answer.1, r)

/-- A client that has taken some steps. -/
structure Follows (steps : List (CacheStep Load Result)) (c : Client Load Result) : Prop where
  time : c.time = steps.length
  started : c.cache.started = (fresh steps).length
  slots : ∀ n p, (fresh steps)[n]? = some p → ∃ s, c.cache.slot? n = some s ∧ Holds steps p s
  index : ∀ key, c.cache.index.get? key = (requested? steps key).map (number steps)
  handles : c.handles = (requests steps).map (handle steps)
  queue : c.queue =
    ((requests steps).filter fun q => (awaited? steps q).isNone).map (handle steps)
  once : (c.runs.map LoadRun.load).Nodup
  runs : ∀ x, x ∈ c.runs ↔ x.load ∈ fresh steps ∧ Resolves steps x.load x.time x.result
  answered : c.answers.map Prod.fst ++ c.queue.map Prod.fst = requests steps
  answers : ∀ x ∈ c.answers, Answers steps x

theorem follows_start : Follows ([] : List (CacheStep Load Result)) start where
  time := rfl
  started := rfl
  slots n p h := by cases h
  index key := rfl
  handles := rfl
  queue := rfl
  once := List.nodup_nil
  runs x := by simp [start, fresh, requests]
  answered := rfl
  answers x h := by cases h

variable {steps : List (CacheStep Load Result)} {s : CacheStep Load Result}

theorem Holds.concat (hs : s.isAwait = false) {p : Nat} {x : Slot (Nat × Load) (Nat × Result)}
    (h : Holds steps p x) : Holds (steps ++ [s]) p x := by
  rcases h with ⟨m, load, hp, htime, hx⟩ | ⟨time, r, hr, hx⟩
  · have hlt := (List.getElem?_eq_some_iff.mp hp).1
    refine .inl ⟨m, load, ?_, ?_, hx⟩
    · rw [List.getElem?_append_left hlt, hp]
    · rw [awaited?_concat hlt, htime, hs]
      rfl
  · exact .inr ⟨time, r, hr.concat, hx⟩

theorem Answers.concat {x : Nat × Option (Nat × Result)} (hx : x.1 < steps.length)
    (h : Answers steps x) : Answers (steps ++ [s]) x := by
  obtain ⟨time, r, hr, hsnd⟩ := h
  rw [Answers, source_concat hx]
  exact ⟨time, r, hr.concat, hsnd⟩

theorem number_concat {p : Nat} (h : p ∈ fresh steps) :
    number (steps ++ [s]) p = number steps p := by
  rw [number, fresh_concat, List.idxOf_append_of_mem h, number]

theorem getElem?_number {p : Nat} (h : p ∈ fresh steps) :
    (fresh steps)[number steps p]? = some p := by
  rw [number, List.getElem?_eq_getElem (List.idxOf_lt_length_of_mem h), List.getElem_idxOf]

theorem number_of_getElem? {n p : Nat} (h : (fresh steps)[n]? = some p) : number steps p = n := by
  have hp := getElem?_number (List.mem_of_getElem? h)
  exact (List.getElem?_inj (List.getElem?_eq_some_iff.mp hp).1 nodup_fresh).mp (hp.trans h.symm)

theorem handle_concat {q : Nat} (h : q ∈ requests steps) :
    handle (steps ++ [s]) q = handle steps q := by
  rw [handle, source_concat (lt_of_mem_requests h), number_concat (source_mem_fresh h), handle]

theorem mem_fresh_of_lt {p : Nat} (h : p ∈ fresh (steps ++ [s])) (hlt : p < steps.length) :
    p ∈ fresh steps := by
  rw [fresh_concat] at h
  rcases List.mem_append.mp h with h | h
  · exact h
  · have hp : p = steps.length := by
      by_cases hs : s.key?.isSome ∧ s.key?.bind (requested? steps) = none
      · rw [if_pos hs] at h
        exact List.mem_singleton.mp h
      · rw [if_neg hs] at h
        cases h
    omega

/-- The requests that wait for an await, after a step that is none. -/
theorem pending_concat (hs : s.isAwait = false) :
    ((requests (steps ++ [s])).filter fun q => (awaited? (steps ++ [s]) q).isNone) =
      ((requests steps).filter fun q => (awaited? steps q).isNone) ++
        if s.key?.isSome then [steps.length] else [] := by
  have hold : ∀ q ∈ requests steps,
      (awaited? (steps ++ [s]) q).isNone = (awaited? steps q).isNone := by
    intro q hq
    rw [awaited?_concat (lt_of_mem_requests hq), hs]
    simp
  rw [requests_concat, List.filter_append, List.filter_congr hold]
  congr 1
  by_cases hkey : s.key?.isSome = true
  · rw [if_pos hkey, List.filter_singleton, awaited?_length]
    rfl
  · rw [if_neg hkey]
    rfl

theorem map_handle_concat (qs : List Nat) (h : ∀ q ∈ qs, q ∈ requests steps) :
    qs.map (handle (steps ++ [s])) = qs.map (handle steps) := by
  apply List.map_congr_left
  intro q hq
  exact handle_concat (h q hq)

theorem Follows.answers_concat (h : Follows steps c) :
    ∀ x ∈ c.answers, Answers (steps ++ [s]) x := by
  intro x hx
  have hmem : x.1 ∈ requests steps := by
    rw [← h.answered]
    exact List.mem_append_left _ (List.mem_map_of_mem hx)
  exact (h.answers x hx).concat (lt_of_mem_requests hmem)

/-- What a step that is no await keeps, whatever it does to the cache. -/
theorem Follows.quiet (h : Follows steps c) (hs : s.isAwait = false)
    (cache : Cache (Nat × Load) (Nat × Result)) (new : List (Nat × Nat))
    (hnew : new = if s.key?.isSome then [handle (steps ++ [s]) steps.length] else [])
    (hstarted : cache.started = (fresh (steps ++ [s])).length)
    (hslots : ∀ n p, (fresh (steps ++ [s]))[n]? = some p →
      ∃ x, cache.slot? n = some x ∧ Holds (steps ++ [s]) p x)
    (hindex : ∀ key, cache.index.get? key =
      (requested? (steps ++ [s]) key).map (number (steps ++ [s]))) :
    Follows (steps ++ [s])
      { c with
        time := c.time + 1
        cache := cache
        handles := c.handles ++ new
        queue := c.queue ++ new } where
  time := by rw [List.length_append, List.length_singleton, h.time]
  started := hstarted
  slots := hslots
  index := hindex
  handles := by
    simp only [h.handles, requests_concat, List.map_append, hnew]
    rw [map_handle_concat _ fun q hq => hq]
    by_cases hkey : s.key?.isSome = true <;> simp [hkey]
  queue := by
    simp only [h.queue, pending_concat hs, List.map_append, hnew]
    rw [map_handle_concat _ fun q hq => List.mem_of_mem_filter hq]
    by_cases hkey : s.key?.isSome = true <;> simp [hkey]
  once := h.once
  runs x := by
    rw [h.runs, resolves_concat_iff]
    constructor
    · intro hx
      exact ⟨mem_fresh_concat hx.1, .inl hx.2⟩
    · intro hx
      rcases hx.2 with hr | ⟨m, load, run, hp, hnone, rfl, -⟩
      · exact ⟨mem_fresh_of_lt hx.1 hr.lt, hr⟩
      · cases hs
  answered := by
    simp only [List.map_append, ← List.append_assoc, h.answered, requests_concat, hnew]
    by_cases hkey : s.key?.isSome = true <;> simp [hkey, handle]
  answers := h.answers_concat

theorem Follows.request_known (h : Follows steps c) {m : ModuleRef} {p : Nat}
    (hfound : requested? steps m.key = some p) (load : Load) :
    Follows (steps ++ [.request m load]) (c.step (.request m load)) := by
  have hfresh : fresh (steps ++ [.request m load]) = fresh steps :=
    fresh_of_requested rfl hfound
  have hnumber : number (steps ++ [.request m load]) = number steps := by
    funext q
    rw [number, hfresh, number]
  have hget := h.index m.key
  rw [hfound, Option.map_some] at hget
  have hsource : source (steps ++ [.request m load]) steps.length = p := by
    rw [source_length, key?, Option.bind_some, hfound, Option.getD_some]
  rw [step, Cache.request, hget]
  refine h.quiet rfl c.cache _ ?_ ?_ ?_ ?_
  · simp [key?, handle, hsource, hnumber, h.time]
  · rw [hfresh, h.started]
  · intro n q hq
    rw [hfresh] at hq
    obtain ⟨x, hx, hholds⟩ := h.slots n q hq
    exact ⟨x, hx, hholds.concat rfl⟩
  · intro key
    rw [requested?_concat, hnumber, h.index]
    by_cases hkey : m.key = key
    · rw [← hkey, hfound]
      rfl
    · simp [isClear, key?, hkey]

theorem Follows.request_new (h : Follows steps c) {m : ModuleRef}
    (hfound : requested? steps m.key = none) (load : Load) :
    Follows (steps ++ [.request m load]) (c.step (.request m load)) := by
  have hfresh : fresh (steps ++ [.request m load]) = fresh steps ++ [steps.length] :=
    fresh_of_not_requested rfl hfound
  have hget := h.index m.key
  rw [hfound, Option.map_none] at hget
  have hsource : source (steps ++ [.request m load]) steps.length = steps.length := by
    rw [source_length, key?, Option.bind_some, hfound, Option.getD_none]
  have hslots : c.cache.slots.length = (fresh steps).length := h.started
  have hself : number (steps ++ [.request m load]) steps.length = c.cache.slots.length := by
    rw [number, hfresh, hslots, List.idxOf_append_of_notMem]
    · simp
    · intro hmem
      exact Nat.lt_irrefl _ (lt_of_mem_requests (mem_requests_of_mem_fresh hmem))
  rw [step, Cache.request, hget]
  refine h.quiet rfl _ _ ?_ ?_ ?_ ?_
  · simp [key?, handle, hsource, hself, h.time]
  · simp [Cache.started, hfresh, hslots]
  · intro n q hq
    by_cases hn : n < c.cache.slots.length
    · rw [hfresh, List.getElem?_append_left (hslots ▸ hn)] at hq
      obtain ⟨x, hx, hholds⟩ := h.slots n q hq
      exact ⟨x, (List.getElem?_append_left hn).trans hx, hholds.concat rfl⟩
    · -- the slot that the request made, with its own load
      have hlt := (List.getElem?_eq_some_iff.mp hq).1
      rw [hfresh, List.length_append, List.length_singleton, ← hslots] at hlt
      obtain rfl : n = c.cache.slots.length := by omega
      rw [hfresh, hslots, List.getElem?_concat_length] at hq
      obtain rfl := Option.some.inj hq
      refine ⟨.waiting (steps.length, load), ?_, .inl ⟨m, load, ?_, awaited?_length, rfl⟩⟩
      · rw [Cache.slot?, List.getElem?_concat_length, h.time]
      · exact List.getElem?_concat_length
  · intro key
    rw [requested?_concat, Table.get?_insert, h.index, hself.symm]
    by_cases hkey : key = m.key
    · simp [isClear, key?, hkey, hfound]
    · have hother : ¬ m.key = key := fun heq => hkey heq.symm
      simp only [isClear, key?, hkey, hother, Option.some.injEq, if_false, Option.or_none,
        Bool.false_eq_true]
      cases hold : requested? steps key with
      | none => rfl
      | some p => rw [Option.map_some, Option.map_some, number_concat (mem_fresh_of_requested? hold)]

theorem Follows.clear (h : Follows steps c) : Follows (steps ++ [.clear]) (c.step .clear) := by
  have hfresh : fresh (steps ++ [.clear]) = fresh steps := fresh_of_not_request rfl
  have hquiet := h.quiet (s := .clear) rfl c.cache.clear [] rfl ?_ ?_ ?_
  · simpa only [step, List.append_nil] using hquiet
  · rw [hfresh]
    exact h.started
  · intro n q hq
    rw [hfresh] at hq
    obtain ⟨x, hx, hholds⟩ := h.slots n q hq
    exact ⟨x, hx, hholds.concat rfl⟩
  · intro key
    rw [requested?_concat]
    rfl

/-- A waiting slot holds the load of a request that found no entry and was not awaited. -/
theorem Follows.of_waiting (h : Follows steps c) {n : Nat} {job : Nat × Load}
    (hslot : c.cache.slot? n = some (.waiting job)) :
    (fresh steps)[n]? = some job.1 ∧ awaited? steps job.1 = none ∧
      ∃ m, steps[job.1]? = some (.request m job.2) := by
  have hlt : n < (fresh steps).length := h.started ▸ (List.getElem?_eq_some_iff.mp hslot).1
  have hp := List.getElem?_eq_getElem hlt
  obtain ⟨x, hx, hholds⟩ := h.slots n _ hp
  obtain rfl := Option.some.inj (hslot.symm.trans hx)
  rcases hholds with ⟨m, load, hm, hnone, heq⟩ | ⟨time, r, -, heq⟩
  · obtain rfl := Slot.waiting.inj heq
    exact ⟨hp, hnone, m, hm⟩
  · cases heq

theorem Follows.unrepeated (h : Follows steps c) : c.Unrepeated where
  nodup := h.once
  waiting n job hslot hmem := by
    obtain ⟨x, hx, heq⟩ := List.mem_map.mp hmem
    obtain ⟨-, -, -, -, htime, -⟩ := ((h.runs x).mp hx).2
    rw [heq, (h.of_waiting hslot).2.1] at htime
    cases htime
  apart n n' job job' hslot hslot' heq := by
    have hn := (h.of_waiting hslot).1
    have hn' := (h.of_waiting hslot').1
    rw [← number_of_getElem? hn, ← number_of_getElem? hn', heq]

theorem Follows.slot_of_queue (h : Follows steps c) {k : Nat × Nat} (hk : k ∈ c.queue) :
    k.1 ∈ requests steps ∧
      ∃ x, c.cache.slot? k.2 = some x ∧ Holds steps (source steps k.1) x := by
  rw [h.queue] at hk
  obtain ⟨q, hq, rfl⟩ := List.mem_map.mp hk
  have hmem : q ∈ requests steps := List.mem_of_mem_filter hq
  exact ⟨hmem, h.slots _ _ (getElem?_number (source_mem_fresh hmem))⟩

/-- The slot of a load that no await has reached is among those that are awaited. -/
theorem Follows.mem_queue (h : Follows steps c) {n p : Nat} (hp : (fresh steps)[n]? = some p)
    (hnone : awaited? steps p = none) : n ∈ c.queue.map Prod.snd := by
  have hfresh := List.mem_of_getElem? hp
  have hhandle : handle steps p = (p, n) := by
    rw [handle, source_of_mem_fresh hfresh, number_of_getElem? hp]
  rw [h.queue, List.mem_map]
  refine ⟨(p, n), List.mem_map.mpr ⟨p, List.mem_filter.mpr ⟨?_, ?_⟩, hhandle⟩, rfl⟩
  · exact mem_requests_of_mem_fresh hfresh
  · rw [hnone]
    rfl

theorem Follows.settleable (h : Follows steps c) : ∀ k ∈ c.queue, c.Settleable k.2 := by
  intro k hk
  obtain ⟨-, x, hx, hholds⟩ := h.slot_of_queue hk
  refine ⟨x, hx, ?_⟩
  rcases hholds with ⟨m, load, -, -, rfl⟩ | ⟨time, r, -, rfl⟩
  · exact nofun
  · exact nofun

/-- What a slot holds, settled by an await. -/
theorem Holds.settle {p : Nat} {x : Slot (Nat × Load) (Nat × Result)} (h : Holds steps p x)
    (run : Load → Result) :
    ∃ time r, Resolves (steps ++ [.awaitAll run]) p time r ∧
      Client.settle run x = .finished (p, r) := by
  rcases h with ⟨m, load, hp, hnone, rfl⟩ | ⟨time, r, hr, rfl⟩
  · refine ⟨steps.length, run load, ?_, rfl⟩
    exact resolves_concat_iff.mpr (.inr ⟨m, load, run, hp, hnone, rfl, rfl, rfl⟩)
  · exact ⟨time, r, hr.concat, rfl⟩

/-- After an await every slot is finished. -/
theorem Follows.slots_awaited (h : Follows steps c) (hawait : Awaits run c.queue c c') {n p : Nat}
    (hp : (fresh steps)[n]? = some p) :
    ∃ x, c'.cache.slot? n = some x ∧ Holds (steps ++ [.awaitAll run]) p x := by
  obtain ⟨x, hx, hholds⟩ := h.slots n p hp
  obtain ⟨time, r, hr, hsettle⟩ := hholds.settle run
  refine ⟨_, ?_, .inr ⟨time, r, hr, rfl⟩⟩
  rw [hawait.slot, hx]
  by_cases hn : n ∈ c.queue.map Prod.snd
  · rw [if_pos hn, Option.map_some, hsettle]
  · -- a slot that is not awaited now was awaited before
    rw [if_neg hn, ← hsettle]
    rcases hholds with ⟨m, load, -, hnone, -⟩ | ⟨_, _, -, rfl⟩
    · exact absurd (h.mem_queue hp hnone) hn
    · rfl

/-- The loads that run at an await are those that no await has reached before. -/
theorem Follows.runs_awaited (h : Follows steps c) (hawait : Awaits run c.queue c c')
    (x : LoadRun Result) :
    x ∈ c'.runs ↔
      x.load ∈ fresh steps ∧ Resolves (steps ++ [.awaitAll run]) x.load x.time x.result := by
  rw [hawait.runs, h.runs, resolves_concat_iff, h.time]
  constructor
  · intro hx
    rcases hx with ⟨hfresh, hr⟩ | ⟨n, -, job, hslot, rfl⟩
    · exact ⟨hfresh, .inl hr⟩
    · obtain ⟨hp, hnone, m, hm⟩ := h.of_waiting hslot
      exact ⟨List.mem_of_getElem? hp, .inr ⟨m, job.2, run, hm, hnone, rfl, rfl, rfl⟩⟩
  · intro hx
    rcases hx.2 with hr | ⟨m, load, run', hm, hnone, hrun, htime, hresult⟩
    · exact .inl ⟨hx.1, hr⟩
    · obtain rfl := CacheStep.awaitAll.inj hrun
      have hp := getElem?_number hx.1
      obtain ⟨y, hy, hholds⟩ := h.slots _ _ hp
      rcases hholds with ⟨m', load', hm', -, rfl⟩ | ⟨_, _, ⟨_, _, _, _, hsome, _⟩, -⟩
      · obtain ⟨rfl, rfl⟩ := CacheStep.request.inj (Option.some.inj (hm.symm.trans hm'))
        refine .inr ⟨_, h.mem_queue hp hnone, _, hy, ?_⟩
        rw [← htime, ← hresult]
      · rw [hnone] at hsome
        cases hsome

/-- Every request that is awaited gets the result of the load it was handed. -/
theorem Follows.answers_awaited (h : Follows steps c) {k : Nat × Nat} (hk : k ∈ c.queue) :
    Answers (steps ++ [.awaitAll run])
      (k.1, ((c.cache.slot? k.2).map (settle run)).bind result?) := by
  obtain ⟨hmem, x, hx, hholds⟩ := h.slot_of_queue hk
  obtain ⟨time, r, hr, hsettle⟩ := hholds.settle run
  rw [Answers, source_concat (lt_of_mem_requests hmem), hx, Option.map_some, hsettle]
  exact ⟨time, r, hr, rfl⟩

theorem Follows.awaitAll (h : Follows steps c) (run : Load → Result) :
    Follows (steps ++ [.awaitAll run]) (c.step (.awaitAll run)) := by
  have hfresh : fresh (steps ++ [.awaitAll run]) = fresh steps := fresh_of_not_request rfl
  have hrequests : requests (steps ++ [.awaitAll run]) = requests steps := by
    rw [requests_concat]
    exact List.append_nil _
  have hnumber : number (steps ++ [.awaitAll run]) = number steps := by
    funext q
    rw [number, hfresh, number]
  have hawait : Awaits run c.queue c _ := awaits_foldl c.queue h.settleable h.unrepeated
  refine ⟨?_, ?_, ?_, ?_, ?_, ?_, hawait.unrepeated.nodup, ?_, ?_, ?_⟩
  · rw [step, List.length_append, List.length_singleton, h.time]
  · rw [hfresh, ← h.started]
    exact hawait.started
  · intro n p hp
    rw [hfresh] at hp
    exact h.slots_awaited hawait hp
  · intro key
    rw [requested?_concat, hnumber]
    simp only [isClear, key?, Bool.false_eq_true, if_false, reduceCtorEq, Option.or_none]
    rw [← h.index]
    exact congrArg (Table.get? · key) hawait.index
  · rw [hrequests, map_handle_concat _ fun q hq => hq, ← h.handles]
    exact hawait.handles
  · -- no request has no await behind it now
    have hpending : ((requests steps).filter fun q =>
        (awaited? (steps ++ [.awaitAll run]) q).isNone) = [] := by
      rw [List.filter_eq_nil_iff]
      intro q hq
      rw [awaited?_concat (lt_of_mem_requests hq)]
      cases awaited? steps q <;> simp [isAwait]
    rw [hrequests, hpending]
    rfl
  · intro x
    rw [hfresh]
    exact h.runs_awaited hawait x
  · rw [hrequests, ← h.answered, step, hawait.answers, List.map_append, List.map_map]
    exact List.append_nil _
  · intro x hx
    rw [step, hawait.answers] at hx
    rcases List.mem_append.mp hx with hx | hx
    · exact h.answers_concat x hx
    · obtain ⟨k, hk, rfl⟩ := List.mem_map.mp hx
      exact h.answers_awaited hk

/-- Every step is followed. -/
theorem Follows.step (h : Follows steps c) (s : CacheStep Load Result) :
    Follows (steps ++ [s]) (c.step s) := by
  cases s with
  | request m load =>
    cases hfound : requested? steps m.key with
    | none => exact h.request_new hfound load
    | some p => exact h.request_known hfound load
  | awaitAll run => exact h.awaitAll run
  | clear => exact h.clear

theorem Follows.foldl (h : Follows steps c) (more : List (CacheStep Load Result)) :
    Follows (steps ++ more) (more.foldl Client.step c) := by
  induction more generalizing steps c with
  | nil => rwa [List.append_nil]
  | cons s more ih =>
    have hrest := ih (h.step s)
    rwa [List.append_assoc] at hrest

theorem follows_play (steps : List (CacheStep Load Result)) : Follows steps (play steps) :=
  follows_start.foldl steps

/-! ## 4. What the client sees -/

/-- How the requests of some steps share loads. -/
structure Sharing (steps : List (CacheStep Load Result)) (c : Client Load Result) : Prop where
  /-- Every request has a handle; two have the same handle if they are handed the same load. -/
  handles : c.handles.map Prod.fst = requests steps
  same : ∀ h ∈ c.handles, ∀ k ∈ c.handles,
    h.2 = k.2 ↔ source steps h.1 = source steps k.1
  /-- A request for a key that was requested since the last clear is handed the load of that
      earlier request, and its own load never runs; all others are handed their own. -/
  earlier : ∀ q, source steps q = q ∨ Shares steps (source steps q) q
  later : ∀ p q, Shares steps p q →
    source steps q = source steps p ∧ source steps q ≠ q ∧ ∀ x ∈ c.runs, x.load ≠ q
  /-- No load runs twice; those that run are those that were stored, each at the first await after
      its request. -/
  once : (c.runs.map LoadRun.load).Nodup
  runs : ∀ x, x ∈ c.runs ↔
    source steps x.load = x.load ∧ Resolves steps x.load x.time x.result
  /-- The requests that were awaited are answered in order, each with the result of the load it was
      handed; only those without an await behind them are left. -/
  answered : c.answers.map Prod.fst ++ c.queue.map Prod.fst = requests steps
  queue : c.queue.map Prod.fst = (requests steps).filter fun q => (awaited? steps q).isNone
  answers : ∀ a ∈ c.answers, ∃ x ∈ c.runs,
    x.load = source steps a.1 ∧ a.2 = some (x.load, x.result)
  /-- What is counted are the requests that were handed their own load. -/
  started : c.cache.started = ((requests steps).filter fun q => source steps q == q).length

theorem Follows.same_handle_iff (h : Follows steps c) :
    ∀ k ∈ c.handles, ∀ k' ∈ c.handles,
      k.2 = k'.2 ↔ source steps k.1 = source steps k'.1 := by
  intro k hk k' hk'
  rw [h.handles] at hk hk'
  obtain ⟨q, hq, rfl⟩ := List.mem_map.mp hk
  obtain ⟨q', hq', rfl⟩ := List.mem_map.mp hk'
  constructor
  · intro heq
    have hp := getElem?_number (source_mem_fresh hq)
    rw [show number steps (source steps q) = number steps (source steps q') from heq,
      getElem?_number (source_mem_fresh hq')] at hp
    exact (Option.some.inj hp).symm
  · intro heq
    exact congrArg (number steps) heq

theorem mem_fresh_iff_of_resolves {p time : Nat} {r : Result} (h : Resolves steps p time r) :
    p ∈ fresh steps ↔ source steps p = p := by
  obtain ⟨m, load, run, hp, -⟩ := h
  have hmem : p ∈ requests steps := by
    refine List.mem_filter.mpr ⟨List.mem_range.mpr (List.getElem?_eq_some_iff.mp hp).1, ?_⟩
    rw [keyAt, hp]
    rfl
  rw [fresh, List.mem_filter, beq_iff_eq]
  exact and_iff_right hmem

theorem Follows.sharing (h : Follows steps c) : Sharing steps c := by
  have hruns : ∀ x, x ∈ c.runs ↔
      source steps x.load = x.load ∧ Resolves steps x.load x.time x.result := by
    intro x
    rw [h.runs]
    exact and_congr_left mem_fresh_iff_of_resolves
  refine ⟨?_, h.same_handle_iff, source_shares steps, ?_, h.once, hruns, h.answered, ?_, ?_,
    h.started⟩
  · rw [h.handles, List.map_map]
    exact List.map_id _
  · intro p q hshares
    have hne : source steps q ≠ q := by
      have hle := source_le steps p
      have hlt := hshares.1
      rw [hshares.source_eq]
      omega
    refine ⟨hshares.source_eq, hne, ?_⟩
    intro x hx heq
    rw [← heq] at hne
    exact hne ((hruns x).mp hx).1
  · rw [h.queue, List.map_map]
    exact List.map_id _
  · intro a ha
    obtain ⟨time, r, hr, hanswer⟩ := h.answers a ha
    have hmem : a.1 ∈ requests steps := by
      rw [← h.answered]
      exact List.mem_append_left _ (List.mem_map_of_mem ha)
    exact ⟨⟨source steps a.1, time, r⟩, (h.runs _).mpr ⟨source_mem_fresh hmem, hr⟩, rfl, hanswer⟩

/-- **Over any run, loads are shared by key, run once, when first awaited, and give every handle
    the result of the load it stands for**; the number of loads never falls, and a clear leaves it
    as it is. -/
theorem play_sharing (steps : List (CacheStep Load Result)) :
    Sharing steps (play steps) ∧
      (play (steps ++ [.clear])).cache.started = (play steps).cache.started ∧
      ∀ more, (play steps).cache.started ≤ (play (steps ++ more)).cache.started := by
  refine ⟨(follows_play steps).sharing, ?_, ?_⟩
  · rw [(follows_play _).started, (follows_play _).started, fresh_of_not_request rfl]
  · intro more
    rw [(follows_play _).started, (follows_play _).started]
    exact length_fresh_append steps more

/-- A handle from before a clear keeps its load; the request after it has a load of its own. -/
example :
    (play [.request (.file ['a']) 1, .request (.handle ['a']) 2, .clear,
      .request (.virtual ['a']) 3, .awaitAll (· * 10)] : Client Nat Nat).answers =
        [(0, some (0, 10)), (1, some (0, 10)), (3, some (3, 30))] := by
  decide

end Client

end StyleModules
