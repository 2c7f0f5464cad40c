import Mathlib.Data.List.Basic
import StyleModules.Disk.Basic

/-!
Reading what was written.

* A path is followed one component at a time (`Disk.follow_cons`), and leads where it led when
  something new stands at a place that was no directory (`Disk.follow_put`).
* `Disk.of_write`: writing sets a place that is no directory, below one that is.
* `Disk.read_of_write`: what was written can be read.
-/

namespace StyleModules

namespace Disk

variable {d d' : Disk}

/-- A path is followed one component at a time. -/
theorem follow_cons (d : Disk) (start : Place) (c : Text) (cs : List Text) :
    d.follow start (c :: cs) = (d.follow start [c]).bind fun place => d.follow place cs := by
  simp only [follow]
  cases d.get? start with
  | none => rfl
  | some entry =>
    cases entry with
    | file bytes => rfl
    | dir =>
      dsimp only
      split
      · rfl
      · split
        · rfl
        · split
          · rfl
          · split
            · rfl
            · rfl

theorem follow_append {start middle : Place} {cs : List Text}
    (h : d.follow start cs = .ok middle) (cs' : List Text) :
    d.follow start (cs ++ cs') = d.follow middle cs' := by
  induction cs generalizing start with
  | nil =>
    cases h
    rfl
  | cons c cs ih =>
    rw [follow_cons] at h
    rw [List.cons_append, follow_cons]
    cases hstep : d.follow start [c] with
    | error e =>
      rw [hstep] at h
      cases h
    | ok place =>
      rw [hstep] at h
      exact ih h

/-- A component that led somewhere still leads there when something new stands at a place that was
    no directory. -/
theorem follow_singleton_put {place : Place} (hdir : d.get? place ≠ some .dir) (hne : place ≠ [])
    (e : Entry) {start target : Place} {c : Text} (h : d.follow start [c] = .ok target) :
    (d.put place e).follow start [c] = .ok target := by
  simp only [follow] at h ⊢
  cases hstart : d.get? start with
  | none =>
    rw [hstart] at h
    cases h
  | some entry =>
    cases entry with
    | file bytes =>
      rw [hstart] at h
      cases h
    | dir =>
      have hother : start ≠ place := fun heq => hdir (heq ▸ hstart)
      have hthere : ∀ other, (d.get? other).isNone = false →
          ((d.put place e).get? other).isNone = false := by
        intro other hother
        rw [get?_put d place other e hne]
        split
        · rfl
        · exact hother
      rw [get?_put d place start e hne, if_neg hother]
      simp only [hstart] at h ⊢
      split at h
      · next hhere => rwa [if_pos hhere]
      · next hhere =>
        rw [if_neg hhere]
        split at h
        · next habove => rwa [if_pos habove]
        · next habove =>
          rw [if_neg habove]
          split at h
          · cases h
          · next hsize =>
            rw [if_neg hsize]
            split at h
            · cases h
            · next hnone => rwa [hthere _ (Bool.eq_false_iff.mpr hnone)]

theorem follow_put {place : Place} (hdir : d.get? place ≠ some .dir) (hne : place ≠ []) (e : Entry)
    {start target : Place} {cs : List Text} (h : d.follow start cs = .ok target) :
    (d.put place e).follow start cs = .ok target := by
  induction cs generalizing start with
  | nil => exact h
  | cons c cs ih =>
    rw [follow_cons] at h ⊢
    cases hstep : d.follow start [c] with
    | error e =>
      rw [hstep] at h
      cases h
    | ok next =>
      rw [hstep] at h
      rw [follow_singleton_put hdir hne e hstep]
      exact ih h

/-- The place of a file that is to be written: below a directory that is there, by a name. -/
theorem of_slot {r : Route} {taken : IoError} {place : Place}
    (h : d.slot r true taken = .ok place) :
    ∃ dir name, r.components = r.components.dropLast ++ [name] ∧ r.slash = false ∧
      d.follow r.start r.components.dropLast = .ok dir ∧ d.get? dir = some .dir ∧
      name ≠ Path.here ∧ name ≠ Path.above ∧ ¬maxName < Text.size name ∧ place = dir ++ [name] := by
  unfold slot at h
  split at h
  · cases h
  · next name hname =>
    have hlast : r.components = r.components.dropLast ++ [name] :=
      (List.dropLast_append_getLast? name hname).symm
    cases hfollow : d.follow r.start r.components.dropLast with
    | error e =>
      rw [hfollow] at h
      cases h
    | ok dir =>
      rw [hfollow] at h
      simp only [Except.bind] at h
      split at h
      · cases h
      · next hdir =>
        split at h
        · cases h
        · next hwords =>
          split at h
          · cases h
          · next hsize =>
            simp only [Bool.or_eq_true, decide_eq_true_eq, Bool.true_and, not_or,
              Bool.not_eq_true] at hwords
            cases h
            exact ⟨dir, name, hlast, hwords.2, rfl, Decidable.not_not.mp hdir, hwords.1.1,
              hwords.1.2, hsize, rfl⟩

/-- Writing sets a place that is no directory. -/
theorem of_write {path : Text} {bytes : List UInt8} (h : write path bytes d = .ok () d') :
    ∃ r place, d.route path = .ok r ∧ d.slot r true .isADirectory = .ok place ∧
      d.get? place ≠ some .dir ∧ d' = d.put place (.file bytes) := by
  unfold write putAt at h
  cases hroute : d.route path with
  | error e =>
    simp only [hroute, Except.bind] at h
    cases h
  | ok r =>
    cases hslot : d.slot r true .isADirectory with
    | error e =>
      simp only [hroute, hslot, Except.bind] at h
      cases h
    | ok place =>
      simp only [hroute, hslot, Except.bind] at h
      by_cases hdir : d.get? place = some .dir
      · simp only [hdir, beq_self_eq_true, if_true] at h
        cases h
      · simp only [beq_eq_false_iff_ne.mpr hdir, Bool.false_eq_true, if_false] at h
        cases h
        exact ⟨r, place, rfl, hslot, hdir, rfl⟩

/-- **What was written can be read.** -/
theorem read_of_write {path : Text} {bytes : List UInt8} (h : write path bytes d = .ok () d') :
    d'.read path = .ok bytes := by
  obtain ⟨r, _, hroute, hslot, hdir, rfl⟩ := of_write h
  obtain ⟨dir, name, hlast, hslash, hfollow, hthere, hhere, habove, hsize, rfl⟩ := of_slot hslot
  have hne : dir ++ [name] ≠ [] := by simp
  have hother : dir ≠ dir ++ [name] := by simp
  have hput : (d.put (dir ++ [name]) (.file bytes)).get? (dir ++ [name]) = some (.file bytes) := by
    rw [get?_put _ _ _ _ hne, if_pos rfl]
  have hstep : (d.put (dir ++ [name]) (.file bytes)).follow dir [name] = .ok (dir ++ [name]) := by
    simp only [follow]
    rw [get?_put _ _ dir _ hne, if_neg hother, hthere]
    simp only [if_neg hhere, if_neg habove, if_neg hsize, hput, Option.isNone_some]
    rfl
  have hlocate : (d.put (dir ++ [name]) (.file bytes)).locate path = .ok (dir ++ [name]) := by
    have hroute' : (d.put (dir ++ [name]) (.file bytes)).route path = .ok r := hroute
    rw [locate, hroute']
    simp only [Except.bind, hslash, Bool.false_eq_true, if_false, List.append_nil]
    rw [hlast, follow_append (follow_put hdir hne _ hfollow), hstep]
  rw [read, hlocate]
  simp only [Except.bind, hput]

end Disk

end StyleModules
