import Mathlib.Data.List.Basic
import Mathlib.Data.List.Induction
import StyleModules.Module.Ref

/-!
Which requests to a cache share a load, read off the steps of a client alone.

* A request is handed the load of the first request for its key since the last clear (`source`), and
  this load is due at the first await after that request (`awaited?`).
* Section 2: what one more step behind the others changes of this.
* Section 3: a load is handed on exactly between requests for one key without a clear between them
  (`Shares.source_eq`, `source_shares`).
* Section 4: an await runs the loads that no earlier one ran (`resolves_concat_iff`).
-/

namespace StyleModules

variable {Load Result : Type}

/-- What a client does with a cache. Each await brings what loads give when they run then. -/
inductive CacheStep (Load Result : Type) where
  | request (m : ModuleRef) (load : Load)
  | awaitAll (run : Load → Result)
  | clear

namespace CacheStep

/-! ## 1. Which requests share a load -/

/-- The key of a request. -/
def key? : CacheStep Load Result → Option Text
  | request m _ => some m.key
  | _ => none

def isClear : CacheStep Load Result → Bool
  | clear => true
  | _ => false

def isAwait : CacheStep Load Result → Bool
  | awaitAll _ => true
  | _ => false

/-- The key that is requested at a position. -/
def keyAt (steps : List (CacheStep Load Result)) (q : Nat) : Option Text :=
  steps[q]?.bind key?

/-- The positions of the requests. -/
def requests (steps : List (CacheStep Load Result)) : List Nat :=
  (List.range steps.length).filter fun q => (keyAt steps q).isSome

/-- The first request for a key since the last clear. -/
def requested? (steps : List (CacheStep Load Result)) (key : Text) : Option Nat :=
  ((List.range steps.length).filter fun p =>
    keyAt steps p == some key && !(steps.drop p).any isClear).head?

/-- The request whose load the one at a position is handed: the first for its key since the last
    clear, itself if there was none. -/
def source (steps : List (CacheStep Load Result)) (q : Nat) : Nat :=
  ((keyAt steps q).bind (requested? (steps.take q))).getD q

/-- A request is for the key of an earlier one, without a clear between them. -/
def Shares (steps : List (CacheStep Load Result)) (p q : Nat) : Prop :=
  p < q ∧ (∃ key, keyAt steps p = some key ∧ keyAt steps q = some key) ∧
    ∀ i s, p < i → i < q → steps[i]? = some s → s.isClear = false

/-- The requests that are handed their own load. -/
def fresh (steps : List (CacheStep Load Result)) : List Nat :=
  (requests steps).filter fun q => source steps q == q

/-- The first await after a position. -/
def awaited? (steps : List (CacheStep Load Result)) (p : Nat) : Option Nat :=
  ((List.range steps.length).filter fun a => decide (p < a) && steps[a]?.any isAwait).head?

/-- The load given at a position runs at another with some result: the other is the first await
    after it. -/
def Resolves (steps : List (CacheStep Load Result)) (p time : Nat) (result : Result) : Prop :=
  ∃ m load run, steps[p]? = some (.request m load) ∧ awaited? steps p = some time ∧
    steps[time]? = some (.awaitAll run) ∧ result = run load

/-! ## 2. One more step -/

variable (steps : List (CacheStep Load Result)) (s : CacheStep Load Result)

theorem filter_range_concat (f : Nat → Bool) :
    (List.range (steps ++ [s]).length).filter f =
      (List.range steps.length).filter f ++ if f steps.length then [steps.length] else [] := by
  rw [List.length_append, List.length_singleton, List.range_succ, List.filter_append,
    List.filter_singleton, cond_eq_ite]

variable {steps s}

theorem keyAt_concat {q : Nat} (h : q < steps.length) : keyAt (steps ++ [s]) q = keyAt steps q := by
  rw [keyAt, List.getElem?_append_left h, keyAt]

theorem keyAt_length : keyAt (steps ++ [s]) steps.length = s.key? := by
  rw [keyAt, List.getElem?_concat_length, Option.bind_some]

theorem lt_of_mem_requests {q : Nat} (h : q ∈ requests steps) : q < steps.length :=
  List.mem_range.mp (List.mem_of_mem_filter h)

theorem mem_requests_of_mem_fresh {q : Nat} (h : q ∈ fresh steps) : q ∈ requests steps :=
  List.mem_of_mem_filter h

theorem source_of_mem_fresh {q : Nat} (h : q ∈ fresh steps) : source steps q = q :=
  eq_of_beq (List.mem_filter.mp h).2

theorem nodup_fresh : (fresh steps).Nodup :=
  (List.nodup_range.filter _).filter _

theorem source_concat {q : Nat} (h : q < steps.length) :
    source (steps ++ [s]) q = source steps q := by
  rw [source, source, keyAt_concat h, List.take_append_of_le_length (Nat.le_of_lt h)]

theorem source_length :
    source (steps ++ [s]) steps.length = (s.key?.bind (requested? steps)).getD steps.length := by
  rw [source, keyAt_length, List.take_left]

theorem requests_concat :
    requests (steps ++ [s]) = requests steps ++ if s.key?.isSome then [steps.length] else [] := by
  rw [requests, filter_range_concat, keyAt_length, requests]
  congr 1
  apply List.filter_congr
  intro q hq
  rw [keyAt_concat (List.mem_range.mp hq)]

/-- What is requested before a step stays requested unless the step is a clear. -/
theorem requested?_concat (key : Text) :
    requested? (steps ++ [s]) key =
      if s.isClear then none
      else (requested? steps key).or (if s.key? = some key then some steps.length else none) := by
  have hold : ∀ p ∈ List.range steps.length,
      (keyAt (steps ++ [s]) p == some key && !((steps ++ [s]).drop p).any isClear) =
        ((keyAt steps p == some key && !(steps.drop p).any isClear) && !s.isClear) := by
    intro p hp
    have hlt := List.mem_range.mp hp
    rw [keyAt_concat hlt, List.drop_append_of_le_length (Nat.le_of_lt hlt), List.any_append]
    simp [Bool.and_assoc]
  rw [requested?, filter_range_concat, List.filter_congr hold, List.head?_append, keyAt_length,
    List.drop_left]
  by_cases hs : s.isClear = true
  · simp [hs]
  · by_cases hkey : s.key? = some key <;> simp [hs, hkey, requested?]

theorem awaited?_concat {p : Nat} (h : p < steps.length) :
    awaited? (steps ++ [s]) p =
      (awaited? steps p).or (if s.isAwait then some steps.length else none) := by
  have hold : ∀ a ∈ List.range steps.length,
      (decide (p < a) && (steps ++ [s])[a]?.any isAwait) =
        (decide (p < a) && steps[a]?.any isAwait) := by
    intro a ha
    rw [List.getElem?_append_left (List.mem_range.mp ha)]
  rw [awaited?, filter_range_concat, List.filter_congr hold, List.head?_append,
    List.getElem?_concat_length]
  by_cases hs : s.isAwait = true <;> simp [h, hs, awaited?]

theorem awaited?_length : awaited? (steps ++ [s]) steps.length = none := by
  rw [awaited?, List.head?_eq_none_iff, List.filter_eq_nil_iff]
  intro a ha
  have hlt := List.mem_range.mp ha
  rw [List.length_append, List.length_singleton] at hlt
  simp only [Bool.and_eq_true, decide_eq_true_eq]
  omega

theorem lt_of_requested? {key : Text} {p : Nat} (h : requested? steps key = some p) :
    p < steps.length :=
  List.mem_range.mp (List.mem_of_mem_filter (List.mem_of_mem_head? h))

/-- A step adds itself to the requests that are handed their own load, or nothing. -/
theorem fresh_concat :
    fresh (steps ++ [s]) = fresh steps ++
      if s.key?.isSome ∧ s.key?.bind (requested? steps) = none then [steps.length] else [] := by
  have hold : ∀ q ∈ requests steps,
      (source (steps ++ [s]) q == q) = (source steps q == q) := by
    intro q hq
    rw [source_concat (lt_of_mem_requests hq)]
  rw [fresh, requests_concat, List.filter_append, List.filter_congr hold, ← fresh]
  congr 1
  cases hkey : s.key? with
  | none => simp
  | some key =>
    have hself : source (steps ++ [s]) steps.length = _ := source_length
    rw [hkey, Option.bind_some] at hself
    rw [Option.bind_some]
    cases hfound : requested? steps key with
    | none => simp [hself, hfound]
    | some p =>
      have hne : p ≠ steps.length := Nat.ne_of_lt (lt_of_requested? hfound)
      simp [hself, hfound, hne]

theorem fresh_of_not_request (h : s.key? = none) : fresh (steps ++ [s]) = fresh steps := by
  rw [fresh_concat, h, if_neg (by simp), List.append_nil]

theorem fresh_of_requested {key : Text} {p : Nat} (h : s.key? = some key)
    (hfound : requested? steps key = some p) : fresh (steps ++ [s]) = fresh steps := by
  rw [fresh_concat, h, if_neg (by simp [hfound]), List.append_nil]

theorem fresh_of_not_requested {key : Text} (h : s.key? = some key)
    (hfound : requested? steps key = none) : fresh (steps ++ [s]) = fresh steps ++ [steps.length] := by
  rw [fresh_concat, h, if_pos (by simp [hfound])]

theorem mem_fresh_concat {p : Nat} (h : p ∈ fresh steps) : p ∈ fresh (steps ++ [s]) := by
  rw [fresh_concat]
  exact List.mem_append_left _ h

theorem mem_fresh_of_requested? {key : Text} {p : Nat} (h : requested? steps key = some p) :
    p ∈ fresh steps := by
  induction steps using List.reverseRecOn generalizing p with
  | nil => cases h
  | append_singleton steps s ih =>
    rw [requested?_concat] at h
    by_cases hs : s.isClear = true
    · rw [if_pos hs] at h
      cases h
    · rw [if_neg hs] at h
      cases hfound : requested? steps key with
      | some p' =>
        rw [hfound, Option.some_or] at h
        exact mem_fresh_concat (ih (hfound.trans h))
      | none =>
        rw [hfound, Option.none_or] at h
        by_cases hkey : s.key? = some key
        · rw [if_pos hkey] at h
          obtain rfl := Option.some.inj h
          rw [fresh_of_not_requested hkey hfound]
          exact List.mem_append_right _ List.mem_cons_self
        · rw [if_neg hkey] at h
          cases h

/-! ## 3. The load a request is handed -/

/-- The load a request is handed is that of a request that found no entry. -/
theorem source_mem_fresh {q : Nat} (h : q ∈ requests steps) : source steps q ∈ fresh steps := by
  induction steps using List.reverseRecOn with
  | nil => cases h
  | append_singleton steps s ih =>
    rw [requests_concat] at h
    rcases List.mem_append.mp h with hq | hq
    · rw [source_concat (lt_of_mem_requests hq)]
      exact mem_fresh_concat (ih hq)
    · cases hkey : s.key? with
      | none => simp [hkey] at hq
      | some key =>
        obtain rfl : q = steps.length := by simpa [hkey] using hq
        rw [source_length, hkey, Option.bind_some]
        cases hfound : requested? steps key with
        | none =>
          rw [fresh_of_not_requested hkey hfound]
          exact List.mem_append_right _ List.mem_cons_self
        | some p => exact mem_fresh_concat (mem_fresh_of_requested? hfound)

theorem requested?_append {key : Text} {p : Nat} (h : requested? steps key = some p)
    {more : List (CacheStep Load Result)} (hmore : ∀ s ∈ more, s.isClear = false) :
    requested? (steps ++ more) key = some p := by
  induction more using List.reverseRecOn with
  | nil => rwa [List.append_nil]
  | append_singleton more s ih =>
    have hs : s.isClear = false := hmore s (List.mem_append_right _ List.mem_cons_self)
    have hfound := ih fun x hx => hmore x (List.mem_append_left _ hx)
    rw [← List.append_assoc, requested?_concat, hs, hfound]
    rfl

theorem source_le (steps : List (CacheStep Load Result)) (q : Nat) : source steps q ≤ q := by
  rw [source]
  cases hfound : (keyAt steps q).bind (requested? (steps.take q)) with
  | none => exact Nat.le_refl q
  | some p =>
    obtain ⟨key, -, hp⟩ := Option.bind_eq_some_iff.mp hfound
    have hlt := lt_of_requested? hp
    rw [List.length_take] at hlt
    rw [Option.getD_some]
    omega

/-- A request for a key that was requested since the last clear is handed the same load. -/
theorem Shares.source_eq {p q : Nat} (h : Shares steps p q) : source steps q = source steps p := by
  obtain ⟨hpq, ⟨key, hp, hq⟩, hclear⟩ := h
  obtain ⟨s, hs, hkey⟩ := Option.bind_eq_some_iff.mp hp
  obtain ⟨hlt, rfl⟩ := List.getElem?_eq_some_iff.mp hs
  -- the steps before `q` are those through `p` and then some without a clear
  have hsplit : steps.take q =
      (steps.take p ++ [steps[p]]) ++ (steps.drop (p + 1)).take (q - (p + 1)) := by
    rw [List.take_append_getElem, ← List.take_add, Nat.add_sub_cancel' hpq]
  have hmore : ∀ s ∈ (steps.drop (p + 1)).take (q - (p + 1)), s.isClear = false := by
    intro s hs
    obtain ⟨i, hi⟩ := List.mem_iff_getElem?.mp hs
    rw [List.getElem?_take, List.getElem?_drop] at hi
    by_cases hlast : i < q - (p + 1)
    · rw [if_pos hlast] at hi
      exact hclear (p + 1 + i) s (by omega) (by omega) hi
    · rw [if_neg hlast] at hi
      cases hi
  have hlength : (steps.take p).length = p := by
    rw [List.length_take]
    omega
  have hfound : requested? (steps.take p ++ [steps[p]]) key = some (source steps p) := by
    have hopen : steps[p].isClear = false := by
      cases hstep : steps[p] with
      | clear => simp [hstep, key?] at hkey
      | request _ _ => rfl
      | awaitAll _ => rfl
    rw [requested?_concat, hopen, hkey, source, hp, hlength, Option.bind_some]
    cases requested? (steps.take p) key <;> simp
  rw [source, hq, Option.bind_some, hsplit, requested?_append hfound hmore, Option.getD_some]

/-- The load a request is handed is its own or that of an earlier request that it shares with. -/
theorem source_shares (steps : List (CacheStep Load Result)) (q : Nat) :
    source steps q = q ∨ Shares steps (source steps q) q := by
  rw [source]
  cases hfound : (keyAt steps q).bind (requested? (steps.take q)) with
  | none => exact .inl rfl
  | some p =>
    obtain ⟨key, hq, hp⟩ := Option.bind_eq_some_iff.mp hfound
    have hlt := lt_of_requested? hp
    rw [List.length_take] at hlt
    have hfilter := (List.mem_filter.mp (List.mem_of_mem_head? hp)).2
    rw [Bool.and_eq_true, beq_iff_eq, Bool.not_eq_true', List.any_eq_false, keyAt, List.getElem?_take,
      if_pos (by omega)] at hfilter
    refine .inr ⟨by rw [Option.getD_some]; omega, ⟨key, hfilter.1, hq⟩, ?_⟩
    intro i s hi hiq hs
    refine Bool.eq_false_iff.mpr (hfilter.2 s (List.mem_iff_getElem?.mpr ⟨i - p, ?_⟩))
    rw [Option.getD_some] at hi
    rw [List.getElem?_drop, List.getElem?_take, if_pos (by omega), Nat.add_sub_cancel' (by omega), hs]

theorem length_fresh_append (steps more : List (CacheStep Load Result)) :
    (fresh steps).length ≤ (fresh (steps ++ more)).length := by
  induction more using List.reverseRecOn with
  | nil => exact Nat.le_of_eq (by rw [List.append_nil])
  | append_singleton more s ih =>
    rw [← List.append_assoc, fresh_concat, List.length_append]
    omega

/-! ## 4. When loads run -/

theorem lt_of_awaited? {p a : Nat} (h : awaited? steps p = some a) : a < steps.length :=
  List.mem_range.mp (List.mem_of_mem_filter (List.mem_of_mem_head? h))

theorem Resolves.lt {p time : Nat} {r : Result} (h : Resolves steps p time r) :
    p < steps.length := by
  obtain ⟨m, load, run, hp, -⟩ := h
  exact (List.getElem?_eq_some_iff.mp hp).1

theorem Resolves.concat {p time : Nat} {r : Result} (h : Resolves steps p time r) :
    Resolves (steps ++ [s]) p time r := by
  obtain ⟨m, load, run, hp, htime, hrun, hr⟩ := h
  have hlt := (List.getElem?_eq_some_iff.mp hp).1
  refine ⟨m, load, run, ?_, ?_, ?_, hr⟩
  · rw [List.getElem?_append_left hlt, hp]
  · rw [awaited?_concat hlt, htime, Option.some_or]
  · rw [List.getElem?_append_left (lt_of_awaited? htime), hrun]

/-- A load runs at a step if the step is an await and there was none since the load was given. -/
theorem resolves_concat_iff {p time : Nat} {r : Result} :
    Resolves (steps ++ [s]) p time r ↔ Resolves steps p time r ∨
      ∃ m load run, steps[p]? = some (.request m load) ∧ awaited? steps p = none ∧
        s = .awaitAll run ∧ time = steps.length ∧ r = run load := by
  constructor
  · intro h
    obtain ⟨m, load, run, hp, htime, hrun, hr⟩ := h
    have hne : p ≠ steps.length := by
      intro heq
      rw [heq, awaited?_length] at htime
      cases htime
    have hlt : p < steps.length := by
      have hle := (List.getElem?_eq_some_iff.mp hp).1
      rw [List.length_append, List.length_singleton] at hle
      omega
    rw [List.getElem?_append_left hlt] at hp
    rw [awaited?_concat hlt] at htime
    cases hold : awaited? steps p with
    | some a =>
      rw [hold, Option.some_or] at htime
      obtain rfl := Option.some.inj htime
      rw [List.getElem?_append_left (lt_of_awaited? hold)] at hrun
      exact .inl ⟨m, load, run, hp, hold, hrun, hr⟩
    | none =>
      rw [hold, Option.none_or] at htime
      by_cases hs : s.isAwait = true
      · rw [if_pos hs] at htime
        obtain rfl := Option.some.inj htime
        rw [List.getElem?_concat_length] at hrun
        exact .inr ⟨m, load, run, hp, rfl, Option.some.inj hrun, rfl, hr⟩
      · rw [if_neg hs] at htime
        cases htime
  · intro h
    rcases h with h | ⟨m, load, run, hp, hold, rfl, rfl, hr⟩
    · exact h.concat
    · have hlt := (List.getElem?_eq_some_iff.mp hp).1
      refine ⟨m, load, run, ?_, ?_, List.getElem?_concat_length, hr⟩
      · rw [List.getElem?_append_left hlt, hp]
      · rw [awaited?_concat hlt, hold]
        rfl

end CacheStep

end StyleModules
