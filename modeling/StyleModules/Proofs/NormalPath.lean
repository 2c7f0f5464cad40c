import Mathlib.Data.List.Perm.Subperm
import Mathlib.Data.List.ProdSigma
import StyleModules.Disk.Basic
import StyleModules.Proofs.Splitting

/-!
Normal paths, and how many of them can be read.

* `IsNormal` is the shape of what `Path.normalize` returns: names, with a run of `..` in front of
  them if the path is relative, and nothing else (`isNormal_normalize`). A second time `normalize`
  changes nothing (`normalize_normalize`).
* A normal path leads to a place that its names are the end of (`follow_ups`, `follow_names`), so
  the place and the number of `..` in front give the path back.
* A path that can be read is shorter than `Disk.maxPath`, and every file stands in the list of
  entries. So different normal paths that can be read are no more than the entries times that
  (`length_le_of_readable`).
-/

namespace StyleModules

namespace Path

/-! ## 1. Segments -/

/-- What a segment is made of: something, and no `/`. -/
def IsSegment (s : Text) : Prop :=
  s ≠ [] ∧ ∀ c ∈ s, (c == '/') = false

theorem isSegment_above : IsSegment above := by
  refine ⟨by decide, fun c hc => ?_⟩
  simp only [above, List.mem_cons, List.not_mem_nil, or_false, or_self] at hc
  rw [hc]
  rfl

theorem isSegment_of_mem_segments {t s : Text} (h : s ∈ segments t) : IsSegment s :=
  Text.of_mem_fields h

/-- Segments are found again in the path that is made of them. -/
theorem segments_ofSegments {segs : List Text} (h : ∀ s ∈ segs, IsSegment s) (absolute : Bool) :
    segments (ofSegments absolute segs) = segs := by
  have hjoin : segments (Text.join ['/'] segs) = segs := Text.fields_join (by decide) h
  cases absolute with
  | false => exact hjoin
  | true =>
    have hroot : segments ('/' :: Text.join ['/'] segs) = segments (Text.join ['/'] segs) := by
      simp [segments, Text.splitBy]
    exact hroot.trans hjoin

/-- A path made of segments is absolute if it was made so. -/
theorem isAbsolute_ofSegments {segs : List Text} (h : ∀ s ∈ segs, IsSegment s)
    (absolute : Bool) : isAbsolute (ofSegments absolute segs) = absolute := by
  cases absolute with
  | true => rfl
  | false =>
    cases segs with
    | nil => rfl
    | cons a rest =>
      obtain ⟨hne, hslash⟩ := h a List.mem_cons_self
      cases a with
      | nil => exact absurd rfl hne
      | cons c a =>
        have hc := hslash c List.mem_cons_self
        cases rest with
        | nil => simpa [isAbsolute, ofSegments] using hc
        | cons b rest => simpa [isAbsolute, ofSegments, Text.join_cons_cons] using hc

/-! ## 2. The shape of a normal path -/

/-- A number of `..`, none in an absolute path, and then names. -/
structure Shape (absolute : Bool) (ups : Nat) (names : List Text) : Prop where
  isName : ∀ s ∈ names, IsSegment s ∧ s ≠ here ∧ s ≠ above
  grounded : absolute = true → ups = 0

/-- The segments of a shape. -/
def shapeSegments (ups : Nat) (names : List Text) : List Text :=
  List.replicate ups above ++ names

/-- Whether a text is what `normalize` makes of some text. -/
def IsNormal (t : Text) : Prop :=
  ∃ absolute ups names, Shape absolute ups names ∧
    t = ofSegments absolute (shapeSegments ups names)

theorem Shape.isSegment {absolute : Bool} {ups : Nat} {names : List Text}
    (h : Shape absolute ups names) : ∀ s ∈ shapeSegments ups names, IsSegment s := by
  intro s hs
  rcases List.mem_append.mp hs with hs | hs
  · rw [List.eq_of_mem_replicate hs]
    exact isSegment_above
  · exact (h.isName s hs).1

/-- One more segment keeps the shape of the segments passed. -/
theorem enter_shape {absolute : Bool} {passed : List Text} {segment : Text}
    (hseg : IsSegment segment)
    (h : ∃ ups names, Shape absolute ups names ∧ passed.reverse = shapeSegments ups names) :
    ∃ ups names, Shape absolute ups names ∧
      (enter absolute passed segment).reverse = shapeSegments ups names := by
  obtain ⟨ups, names, hshape, hp⟩ := h
  unfold enter
  split
  · exact ⟨ups, names, hshape, hp⟩
  next hhere =>
  split
  · cases hpassed : passed with
    | nil =>
      cases absolute with
      | true => exact ⟨0, [], ⟨by simp, fun _ => rfl⟩, rfl⟩
      | false => exact ⟨1, [], ⟨by simp, by simp⟩, rfl⟩
    | cons last rest =>
      rw [hpassed, List.reverse_cons] at hp
      rcases List.eq_nil_or_concat names with rfl | ⟨front, name, rfl⟩
      · -- only `..` so far: the last of them is one, and one more follows
        simp only [shapeSegments, List.append_nil] at hp
        have hlast : last = above :=
          List.eq_of_mem_replicate (hp ▸ List.mem_append_right _ List.mem_cons_self)
        have hups : ups ≠ 0 := by
          rintro rfl
          simp at hp
        refine ⟨ups + 1, [], ⟨by simp, fun ha => absurd (hshape.grounded ha) hups⟩, ?_⟩
        simp only [hlast, if_true, List.reverse_cons, shapeSegments, List.append_nil]
        rw [← hlast, hp, hlast, List.replicate_succ']
      · -- the last name is taken back
        simp only [shapeSegments, List.concat_eq_append, ← List.append_assoc] at hp
        obtain ⟨hrest, hlast⟩ := List.append_inj' hp rfl
        have hlast : last = name := List.head_eq_of_cons_eq hlast
        have hname := hshape.isName name (by simp)
        simp only [hlast, hname.2.2, if_false]
        exact ⟨ups, front, ⟨fun s hs => hshape.isName s (by simp [hs]), hshape.grounded⟩, hrest⟩
  next habove =>
  refine ⟨ups, names ++ [segment], ⟨?_, hshape.grounded⟩, ?_⟩
  · intro s hs
    rcases List.mem_append.mp hs with hs | hs
    · exact hshape.isName s hs
    · rw [List.mem_singleton.mp hs]
      exact ⟨hseg, hhere, habove⟩
  · rw [List.reverse_cons, hp]
    simp [shapeSegments]

/-- Segments with `.` and `..` resolved have the shape of a normal path. -/
theorem resolve_shape (absolute : Bool) {segs : List Text} (h : ∀ s ∈ segs, IsSegment s) :
    ∃ ups names, Shape absolute ups names ∧ resolve absolute segs = shapeSegments ups names := by
  have hfold : ∀ (segs passed : List Text), (∀ s ∈ segs, IsSegment s) →
      (∃ ups names, Shape absolute ups names ∧ passed.reverse = shapeSegments ups names) →
      ∃ ups names, Shape absolute ups names ∧
        (segs.foldl (enter absolute) passed).reverse = shapeSegments ups names := by
    intro segs
    induction segs with
    | nil => exact fun _ _ hp => hp
    | cons s segs ih =>
      intro passed hs hp
      exact ih _ (fun x hx => hs x (List.mem_cons_of_mem s hx))
        (enter_shape (hs s List.mem_cons_self) hp)
  exact hfold segs [] h ⟨0, [], ⟨by simp, fun _ => rfl⟩, rfl⟩

/-- **What `normalize` returns is normal.** -/
theorem isNormal_normalize (t : Text) : IsNormal (normalize t) := by
  obtain ⟨ups, names, hshape, hr⟩ :=
    resolve_shape (isAbsolute (toPosix t)) fun s hs => isSegment_of_mem_segments hs
  exact ⟨isAbsolute (toPosix t), ups, names, hshape, by rw [← hr]; rfl⟩

/-- Names are entered as they are. -/
theorem foldl_enter_names {absolute : Bool} {names : List Text}
    (h : ∀ s ∈ names, s ≠ here ∧ s ≠ above) (passed : List Text) :
    names.foldl (enter absolute) passed = names.reverse ++ passed := by
  induction names generalizing passed with
  | nil => rfl
  | cons s names ih =>
    obtain ⟨hhere, habove⟩ := h s List.mem_cons_self
    have hstep : enter absolute passed s = s :: passed := by
      unfold enter
      rw [if_neg hhere, if_neg habove]
    rw [List.foldl_cons, hstep, ih fun s' hs' => h s' (List.mem_cons_of_mem s hs')]
    simp

/-- At the start of a relative path `..` stays. -/
theorem foldl_enter_ups (ups passed : Nat) :
    (List.replicate ups above).foldl (enter false) (List.replicate passed above) =
      List.replicate (ups + passed) above := by
  induction ups generalizing passed with
  | zero => simp
  | succ ups ih =>
    have hstep : enter false (List.replicate passed above) above =
        List.replicate (passed + 1) above := by
      cases passed <;> rfl
    rw [List.replicate_succ, List.foldl_cons, hstep, ih]
    congr 1
    omega

/-- In a normal path there is nothing to resolve. -/
theorem resolve_shapeSegments {absolute : Bool} {ups : Nat} {names : List Text}
    (h : Shape absolute ups names) :
    resolve absolute (shapeSegments ups names) = shapeSegments ups names := by
  have hups : (List.replicate ups above).foldl (enter absolute) [] = List.replicate ups above := by
    cases absolute with
    | true =>
      obtain rfl := h.grounded rfl
      rfl
    | false => exact foldl_enter_ups ups 0
  rw [resolve, shapeSegments, List.foldl_append, hups,
    foldl_enter_names fun s hs => (h.isName s hs).2]
  simp

/-- What is resolved was there, or goes up. -/
theorem of_mem_resolve {absolute : Bool} {segs : List Text} {s : Text}
    (h : s ∈ resolve absolute segs) : s = above ∨ s ∈ segs := by
  have hstep : ∀ (passed : List Text) (segment : Text), s ∈ enter absolute passed segment →
      s = above ∨ s ∈ passed ∨ s = segment := by
    intro passed segment hs
    unfold enter at hs
    split at hs
    · exact .inr (.inl hs)
    · split at hs
      · split at hs
        · split at hs
          · cases hs
          · exact .inl (List.mem_singleton.mp hs)
        · next last rest =>
          split at hs
          · rcases List.mem_cons.mp hs with hs | hs
            · exact .inl hs
            · exact .inr (.inl hs)
          · exact .inr (.inl (List.mem_cons_of_mem last hs))
      · rcases List.mem_cons.mp hs with hs | hs
        · exact .inr (.inr hs)
        · exact .inr (.inl hs)
  have hfold : ∀ (segs passed : List Text), s ∈ segs.foldl (enter absolute) passed →
      s = above ∨ s ∈ passed ∨ s ∈ segs := by
    intro segs
    induction segs with
    | nil => exact fun passed hs => .inr (.inl hs)
    | cons segment segs ih =>
      intro passed hs
      rcases ih _ hs with hs | hs | hs
      · exact .inl hs
      · rcases hstep passed segment hs with hs | hs | hs
        · exact .inl hs
        · exact .inr (.inl hs)
        · exact .inr (.inr (hs ▸ List.mem_cons_self))
      · exact .inr (.inr (List.mem_cons_of_mem segment hs))
  rcases hfold segs [] (List.mem_reverse.mp h) with hs | hs | hs
  · exact .inl hs
  · cases hs
  · exact .inr hs

/-- A normal path has no backslash. -/
theorem toPosix_normalize (t : Text) : toPosix (normalize t) = normalize t := by
  have hposix : ∀ c ∈ toPosix t, c ≠ '\\' := by
    intro c hc
    obtain ⟨d, _, rfl⟩ := List.mem_map.mp hc
    split
    · decide
    · assumption
  have habove : ∀ c ∈ above, c ≠ '\\' := by simp [above]
  have hchars : ∀ c ∈ normalize t, c ≠ '\\' := by
    intro c hc
    rcases List.mem_append.mp hc with hc | hc
    · split at hc
      · rw [List.mem_singleton.mp hc]
        decide
      · cases hc
    · rcases Text.of_mem_join hc with hc | ⟨s, hs, hc⟩
      · rw [List.mem_singleton.mp hc]
        decide
      · rcases of_mem_resolve hs with rfl | hs
        · exact habove c hc
        · exact hposix c (Text.mem_of_mem_splitBy (List.mem_of_mem_filter hs) hc)
  have hmap : toPosix (normalize t) = (normalize t).map id :=
    List.map_congr_left fun c hc => if_neg (hchars c hc)
  rw [hmap, List.map_id]

/-- A slash more in front of an absolute path makes no difference. -/
theorem normalize_slash {t : Text} (h : isAbsolute t = true) :
    normalize ('/' :: t) = normalize t := by
  obtain ⟨rest, rfl⟩ : ∃ rest, t = '/' :: rest := by
    cases t with
    | nil => cases h
    | cons c rest =>
      obtain rfl : c = '/' := by simpa [isAbsolute] using h
      exact ⟨rest, rfl⟩
  rfl

/-- **Normalizing twice is normalizing once.** -/
theorem normalize_normalize (t : Text) : normalize (normalize t) = normalize t := by
  obtain ⟨ups, names, hshape, hr⟩ :=
    resolve_shape (isAbsolute (toPosix t)) fun s hs => isSegment_of_mem_segments hs
  have hnormal : normalize t =
      ofSegments (isAbsolute (toPosix t)) (shapeSegments ups names) := by
    rw [← hr]
    rfl
  have hagain : normalize (normalize t) =
      ofSegments (isAbsolute (normalize t))
        (resolve (isAbsolute (normalize t)) (segments (normalize t))) := by
    rw [normalize, toPosix_normalize]
  rw [hagain, hnormal, isAbsolute_ofSegments hshape.isSegment,
    segments_ofSegments hshape.isSegment, resolve_shapeSegments hshape]

/-- Every `..` takes two bytes. -/
theorem size_ofSegments_ups (ups : Nat) (names : List Text) (absolute : Bool) :
    2 * ups ≤ Text.size (ofSegments absolute (shapeSegments ups names)) := by
  have hjoin : 2 * ups ≤ Text.size (Text.join ['/'] (shapeSegments ups names)) := by
    induction ups with
    | zero => simp
    | succ n ih =>
      have habove : Text.size above = 2 := rfl
      simp only [shapeSegments, List.replicate_succ, List.cons_append] at ih ⊢
      cases hrest : List.replicate n above ++ names with
      | nil =>
        rw [hrest] at ih
        simp only [Text.join_nil, Text.size_nil, Text.join_singleton] at ih ⊢
        omega
      | cons b rest =>
        rw [hrest] at ih
        rw [Text.join_cons_cons]
        simp only [Text.size_append, habove]
        omega
  unfold ofSegments
  rw [Text.size_append]
  omega

end Path

namespace Disk

/-! ## 3. Where a normal path leads -/

/-- A file stands in the list of entries. -/
theorem mem_entries_of_get? {d : Disk} {place : Place} {bytes : List UInt8}
    (h : d.get? place = some (.file bytes)) : place ∈ d.entries.map Prod.fst := by
  unfold get? at h
  split at h
  · cases h
  · generalize d.entries = es at h
    induction es with
    | nil => cases h
    | cons e es ih =>
      obtain ⟨p, entry⟩ := e
      rw [findEntry] at h
      split at h
      · next hp => exact hp ▸ List.mem_cons_self
      · exact List.mem_cons_of_mem p (ih h)

/-- Every `..` goes up once. -/
theorem follow_ups {d : Disk} {place target : Place} {ups : Nat} {cs : List Text}
    (h : d.follow place (List.replicate ups Path.above ++ cs) = .ok target) :
    d.follow (place.take (place.length - ups)) cs = .ok target := by
  induction ups generalizing place with
  | zero => simpa using h
  | succ n ih =>
    rw [List.replicate_succ, List.cons_append, follow] at h
    have hne : Path.above ≠ Path.here := by decide
    split at h
    · cases h
    · cases h
    · simp only [hne, if_false, if_true] at h
      have := ih h
      rw [List.length_dropLast, List.dropLast_eq_take, List.take_take] at this
      rwa [show min (place.length - 1 - n) (place.length - 1) = place.length - (n + 1) by omega]
        at this

/-- Names lead down; a `.` behind them changes nothing. -/
theorem follow_names {d : Disk} {place target : Place} {names tail : List Text}
    (hn : ∀ s ∈ names, s ≠ Path.here ∧ s ≠ Path.above) (ht : tail = [] ∨ tail = [Path.here])
    (h : d.follow place (names ++ tail) = .ok target) : target = place ++ names := by
  induction names generalizing place with
  | nil =>
    rcases ht with rfl | rfl
    · simp only [List.nil_append, follow, Except.ok.injEq] at h
      rw [List.append_nil, h]
    · simp only [List.nil_append, follow, if_true] at h
      split at h
      · cases h
      · cases h
      · rw [List.append_nil, Except.ok.inj h]
  | cons s names ih =>
    obtain ⟨hhere, habove⟩ := hn s List.mem_cons_self
    rw [List.cons_append, follow] at h
    split at h
    · cases h
    · cases h
    · simp only [hhere, habove, if_false] at h
      split at h
      · cases h
      · split at h
        · cases h
        · have := ih (fun x hx => hn x (List.mem_cons_of_mem s hx)) h
          rw [this, List.append_assoc, List.singleton_append]

/-- Where the names of a normal path begin. -/
def base (d : Disk) (absolute : Bool) (ups : Nat) : Place :=
  if absolute then [] else d.cwd.take (d.cwd.length - ups)

/-- A normal path that can be read leads to a file at the end of its names, and is not too long. -/
theorem of_read_normal {d : Disk} {absolute : Bool} {ups : Nat} {names : List Text}
    {bytes : List UInt8} (hs : Path.Shape absolute ups names)
    (h : d.read (Path.ofSegments absolute (Path.shapeSegments ups names)) = .ok bytes) :
    d.base absolute ups ++ names ∈ d.entries.map Prod.fst ∧ ups + 1 < maxPath := by
  have hsize := Path.size_ofSegments_ups ups names absolute
  unfold read locate route at h
  split at h
  · cases h
  split at h
  · cases h
  split at h
  · cases h
  next hlong =>
  refine ⟨?_, by unfold maxPath at hlong ⊢; omega⟩
  simp only [Except.bind, Path.isAbsolute_ofSegments hs.isSegment,
    Path.segments_ofSegments hs.isSegment] at h
  split at h
  · cases h
  next place hplace =>
  have htarget : place = d.base absolute ups ++ names := by
    rw [Path.shapeSegments, List.append_assoc] at hplace
    have hups := follow_ups hplace
    have hplace' := follow_names (fun s hs' => (hs.isName s hs').2) (by split <;> simp) hups
    rw [hplace']
    unfold base
    cases absolute with
    | false => rfl
    | true => simp
  split at h
  · next bs hget => exact htarget ▸ mem_entries_of_get? hget
  · cases h
  · cases h

/-! ## 4. How many can be read -/

/-- The normal path to a place with a number of `..` in front; the largest number stands for the
    absolute path. -/
def pathTo (d : Disk) (code : Place × Nat) : Text :=
  if code.2 + 1 = maxPath then Path.ofSegments true code.1
  else
    Path.ofSegments false
      (Path.shapeSegments code.2 (code.1.drop (d.base false code.2).length))

/-- The normal paths under which something might be read. -/
def readablePaths (d : Disk) : List Text :=
  ((d.entries.map Prod.fst) ×ˢ (List.range maxPath)).map d.pathTo

theorem mem_readablePaths {d : Disk} {path : Text} (hn : Path.IsNormal path) {bytes : List UInt8}
    (h : d.read path = .ok bytes) : path ∈ d.readablePaths := by
  obtain ⟨absolute, ups, names, hs, rfl⟩ := hn
  obtain ⟨hmem, hups⟩ := of_read_normal hs h
  cases absolute with
  | true =>
    obtain rfl := hs.grounded rfl
    refine List.mem_map.mpr ⟨(names, maxPath - 1), ?_, ?_⟩
    · exact List.mem_product.mpr ⟨hmem, List.mem_range.mpr (by decide)⟩
    · exact if_pos (show maxPath - 1 + 1 = maxPath by decide)
  | false =>
    refine List.mem_map.mpr ⟨(d.base false ups ++ names, ups), ?_, ?_⟩
    · exact List.mem_product.mpr ⟨hmem, List.mem_range.mpr (by omega)⟩
    · unfold pathTo
      rw [if_neg (by omega), List.drop_left]

/-- **Different normal paths that can be read are no more than the entries times the length of a
    path.** -/
theorem length_le_of_readable {d : Disk} {paths : List Text} (hnodup : paths.Nodup)
    (h : ∀ p ∈ paths, Path.IsNormal p ∧ ∃ bytes, d.read p = .ok bytes) :
    paths.length ≤ d.entries.length * maxPath := by
  have hsub : paths ⊆ d.readablePaths := by
    intro p hp
    obtain ⟨hn, bytes, hread⟩ := h p hp
    exact mem_readablePaths hn hread
  have hlen := (List.subperm_of_subset hnodup hsub).length_le
  rwa [readablePaths, List.length_map, List.length_product, List.length_map, List.length_range]
    at hlen

end Disk

end StyleModules
