import StyleModules.Proofs.NormalPath

/-!
Paths that are joined, and their normal form.

* Section 1: a path that is read from a directory has the segments of both
  (`segments_toPosix_join`). Where it starts is said by the directory, unless the path itself is
  absolute.
* Section 2: `IsCanonical` is the normal form as it shows in the text of a path, piece by piece
  between the slashes. The canonical paths are those that `normalize` leaves as they are
  (`normalize_eq_self_iff`).
* Section 3: segments that were resolved once need not be resolved again before one goes on from
  there (`resolve_append`). So it makes no difference to a joined path whether its directory was
  normal (`normalize_through_join`).
-/

namespace StyleModules.Path

/-! ## 1. Segments of joined paths -/

theorem segments_append_slash (a b : Text) :
    segments (a ++ '/' :: b) = segments a ++ segments b :=
  Text.fields_append_cons (by decide) a b

/-- A relative path is put behind its directory, with one `/` between them. -/
theorem join_cases (dir : Text) {path : Text} (h : isAbsolute path = false) :
    dir = [] ∧ join dir path = path ∨
      ∃ front, (dir = front ∨ dir = front ++ ['/']) ∧ join dir path = front ++ '/' :: path := by
  unfold join
  rw [if_neg (by rw [h]; exact Bool.false_ne_true)]
  split
  · next hend =>
    rcases List.eq_nil_or_concat dir with rfl | ⟨front, c, rfl⟩
    · exact .inl ⟨rfl, rfl⟩
    · have hc : c = '/' := by simpa using hend
      rw [hc, List.concat_eq_append]
      exact .inr ⟨front, .inr rfl, by rw [List.append_assoc, List.singleton_append]⟩
  · exact .inr ⟨dir, .inl rfl, rfl⟩

theorem segments_slash (front : Text) : segments (front ++ ['/']) = segments front := by
  rw [segments_append_slash]
  exact List.append_nil _

/-- A path that is read from a directory has the segments of both. -/
theorem segments_join {dir path : Text} (h : isAbsolute path = false) :
    segments (join dir path) = segments dir ++ segments path := by
  rcases join_cases dir h with ⟨rfl, hjoin⟩ | ⟨front, rfl | rfl, hjoin⟩
  · rw [hjoin]
    rfl
  · rw [hjoin, segments_append_slash]
  · rw [hjoin, segments_append_slash, segments_slash]

/-- So it has with `/` for every backslash. -/
theorem segments_toPosix_join {dir path : Text} (h : isAbsolute path = false) :
    segments (toPosix (join dir path)) = segments (toPosix dir) ++ segments (toPosix path) := by
  have hslash : ∀ a b : Text, toPosix (a ++ '/' :: b) = toPosix a ++ '/' :: toPosix b :=
    fun a b => List.map_append
  rcases join_cases dir h with ⟨rfl, hjoin⟩ | ⟨front, rfl | rfl, hjoin⟩
  · rw [hjoin]
    rfl
  · rw [hjoin, hslash, segments_append_slash]
  · have hend : toPosix (front ++ ['/']) = toPosix front ++ ['/'] := hslash front []
    rw [hjoin, hslash, segments_append_slash, hend, segments_slash]

theorem isAbsolute_join {dir : Text} (h : isAbsolute dir = true) (path : Text) :
    isAbsolute (join dir path) = true := by
  cases dir with
  | nil => cases h
  | cons c dir =>
    unfold join
    split
    · assumption
    · split
      · exact h
      · exact h

theorem isAbsolute_toPosix {t : Text} (h : isAbsolute t = true) :
    isAbsolute (toPosix t) = true := by
  cases t with
  | nil => cases h
  | cons c t =>
    have hc : c = '/' := by simpa [isAbsolute] using h
    rw [hc]
    rfl

theorem toPosix_of_not_mem {t : Text} (h : '\\' ∉ t) : toPosix t = t := by
  have hmap : toPosix t = t.map id :=
    List.map_congr_left fun c hc => if_neg fun (e : c = '\\') => h (e ▸ hc)
  rw [hmap, List.map_id]

/-- A relative path without backslashes starts where its directory starts. -/
theorem isAbsolute_toPosix_join (dir : Text) {path : Text} (h : isAbsolute path = false)
    (hpath : '\\' ∉ path) :
    isAbsolute (toPosix (join dir path)) = isAbsolute (toPosix dir) := by
  cases dir with
  | nil =>
    have hjoin : join [] path = path := by
      unfold join
      rw [if_neg (by rw [h]; exact Bool.false_ne_true)]
      rfl
    rw [hjoin, toPosix_of_not_mem hpath, h]
    rfl
  | cons c dir =>
    unfold join
    rw [if_neg (by rw [h]; exact Bool.false_ne_true)]
    split
    · rfl
    · rfl

/-! ## 2. Canonical paths -/

/-- What stands between the slashes of a path, behind the one of the root; nothing in a path that
    ends there. -/
def pieces (t : Text) : List Text :=
  let rest := if isAbsolute t then t.tail else t
  if rest.isEmpty then [] else Text.splitBy (· == '/') rest

/-- A path in its shortest spelling: no backslash, no empty piece and no `.`, and `..` only at the
    start of a relative path. -/
structure IsCanonical (t : Text) : Prop where
  posix : '\\' ∉ t
  solid : ∀ s ∈ pieces t, s ≠ [] ∧ s ≠ here
  leading : ∃ ups names, pieces t = List.replicate ups above ++ names ∧ above ∉ names ∧
    (isAbsolute t = true → ups = 0)

/-- Segments are the pieces of the path that is made of them. -/
theorem pieces_ofSegments {segs : List Text} (h : ∀ s ∈ segs, IsSegment s) (absolute : Bool) :
    pieces (ofSegments absolute segs) = segs := by
  have hrest : (if isAbsolute (ofSegments absolute segs) then (ofSegments absolute segs).tail
      else ofSegments absolute segs) = Text.join ['/'] segs := by
    rw [isAbsolute_ofSegments h]
    cases absolute with
    | true => rfl
    | false => rfl
  unfold pieces
  simp only [hrest]
  cases segs with
  | nil => rfl
  | cons s segs =>
    have hne : Text.join ['/'] (s :: segs) ≠ [] := by
      intro hnil
      have hsegments := segments_ofSegments h false
      rw [show ofSegments false (s :: segs) = [] from hnil] at hsegments
      cases hsegments
    rw [if_neg (by simpa using hne)]
    exact Text.splitBy_join_of_forall (by decide) (List.cons_ne_nil s segs) fun x hx => (h x hx).2

/-- A path is made of its pieces. -/
theorem ofSegments_pieces (t : Text) : ofSegments (isAbsolute t) (pieces t) = t := by
  have hjoin : ∀ rest : Text,
      Text.join ['/'] (if rest.isEmpty then [] else Text.splitBy (· == '/') rest) = rest := by
    intro rest
    split
    · next hempty => exact (List.isEmpty_iff.mp hempty).symm
    · exact Text.join_splitBy '/' rest
  unfold ofSegments pieces
  simp only [hjoin]
  cases t with
  | nil => rfl
  | cons c t =>
    by_cases hc : c = '/'
    · rw [hc]
      rfl
    · have habs : isAbsolute (c :: t) = false := by simpa [isAbsolute] using hc
      rw [habs]
      rfl

/-- Without empty pieces the pieces are the segments. -/
theorem segments_of_pieces {t : Text} (h : ∀ s ∈ pieces t, s ≠ []) : segments t = pieces t := by
  have hslash : ∀ s ∈ pieces t, IsSegment s := by
    intro s hs
    refine ⟨h s hs, ?_⟩
    unfold pieces at hs
    generalize (if isAbsolute t then t.tail else t) = rest at hs
    simp only at hs
    split at hs
    · cases hs
    · exact Text.of_mem_splitBy hs
  rw [← segments_ofSegments hslash (isAbsolute t), ofSegments_pieces]

/-- What `normalize` returns is canonical. -/
theorem isCanonical_normalize (t : Text) : IsCanonical (normalize t) := by
  obtain ⟨absolute, ups, names, hshape, hnormal⟩ := isNormal_normalize t
  have hpieces : pieces (normalize t) = List.replicate ups above ++ names := by
    rw [hnormal]
    exact pieces_ofSegments hshape.isSegment absolute
  refine ⟨?_, ?_, ups, names, hpieces, fun h => (hshape.isName above h).2.2 rfl, ?_⟩
  · intro hmem
    rw [← toPosix_normalize] at hmem
    obtain ⟨c, -, hc⟩ := List.mem_map.mp hmem
    split at hc
    · cases hc
    · next hne => exact hne hc
  · intro s hs
    rw [hpieces] at hs
    rcases List.mem_append.mp hs with hs | hs
    · rw [List.eq_of_mem_replicate hs]
      decide
    · exact ⟨(hshape.isName s hs).1.1, (hshape.isName s hs).2.1⟩
  · intro habs
    rw [hnormal, isAbsolute_ofSegments hshape.isSegment] at habs
    exact hshape.grounded habs

/-- The canonical paths are those that have nothing to resolve. -/
theorem normalize_eq_self_iff {t : Text} : normalize t = t ↔ IsCanonical t := by
  constructor
  · intro h
    rw [← h]
    exact isCanonical_normalize t
  · intro h
    obtain ⟨ups, names, hpieces, hnames, hups⟩ := h.leading
    have hsegments : segments t = shapeSegments ups names := by
      rw [segments_of_pieces fun s hs => (h.solid s hs).1, hpieces]
      rfl
    have hshape : Shape (isAbsolute t) ups names := by
      refine ⟨fun s hs => ?_, hups⟩
      have hmem : s ∈ shapeSegments ups names := List.mem_append_right _ hs
      have hsegment : IsSegment s := isSegment_of_mem_segments (hsegments ▸ hmem)
      have hsolid := h.solid s (hpieces ▸ hmem)
      exact ⟨hsegment, hsolid.2, fun e => hnames (e ▸ hs)⟩
    rw [normalize, toPosix_of_not_mem h.posix]
    simp only [hsegments]
    rw [resolve_shapeSegments hshape, shapeSegments, ← hpieces, ofSegments_pieces]

/-! ## 3. Going on from a normal path -/

/-- Segments that are resolved do not change when they are resolved again. -/
theorem resolve_resolve (absolute : Bool) {segs : List Text} (h : ∀ s ∈ segs, IsSegment s) :
    resolve absolute (resolve absolute segs) = resolve absolute segs := by
  obtain ⟨ups, names, hshape, hresolve⟩ := resolve_shape absolute h
  rw [hresolve, resolve_shapeSegments hshape]

/-- Whoever goes on from segments may as well go on from what they are resolved to. -/
theorem resolve_append (absolute : Bool) {segs : List Text} (h : ∀ s ∈ segs, IsSegment s)
    (more : List Text) :
    resolve absolute (resolve absolute segs ++ more) = resolve absolute (segs ++ more) := by
  have hpassed : (resolve absolute segs).foldl (enter absolute) [] =
      segs.foldl (enter absolute) [] :=
    List.reverse_injective (resolve_resolve absolute h)
  unfold resolve at hpassed ⊢
  rw [List.foldl_append, List.foldl_append, hpassed]

/-- A normal path starts where the path starts, and its segments are resolved. -/
theorem segments_normalize (t : Text) :
    isAbsolute (normalize t) = isAbsolute (toPosix t) ∧
      segments (normalize t) = resolve (isAbsolute (toPosix t)) (segments (toPosix t)) := by
  obtain ⟨ups, names, hshape, hresolve⟩ :=
    resolve_shape (isAbsolute (toPosix t)) fun s hs => isSegment_of_mem_segments hs
  have hnormal : normalize t =
      ofSegments (isAbsolute (toPosix t)) (shapeSegments ups names) := by
    rw [← hresolve]
    rfl
  rw [hnormal, hresolve]
  exact ⟨isAbsolute_ofSegments hshape.isSegment _, segments_ofSegments hshape.isSegment _⟩

/-- The normal form of a joined path, by the segments of its parts. -/
theorem normalize_join {dir path : Text} (h : isAbsolute path = false) (hpath : '\\' ∉ path) :
    normalize (join dir path) = ofSegments (isAbsolute (toPosix dir))
      (resolve (isAbsolute (toPosix dir)) (segments (toPosix dir) ++ segments path)) := by
  unfold normalize
  simp only [isAbsolute_toPosix_join dir h hpath, segments_toPosix_join h,
    toPosix_of_not_mem hpath]

/-- **A path is normalized to its shortest spelling, and normalizing goes together with joining.**
    A path without backslashes that is read from a directory leads to the same normal path as from
    the normal form of the directory. The normal form is canonical and absolute if the path is,
    with `/` for every backslash; it is the path itself exactly if that is canonical. -/
theorem normalize_through_join (a : Text) :
    (∀ b, '\\' ∉ b → normalize (join a b) = normalize (join (normalize a) b)) ∧
      normalize (normalize a) = normalize a ∧
      IsCanonical (normalize a) ∧
      (isAbsolute (normalize a) = true ↔ (toPosix a).head? = some '/') ∧
      (normalize a = a ↔ IsCanonical a) := by
  obtain ⟨habs, hsegments⟩ := segments_normalize a
  refine ⟨fun b hb => ?_, normalize_normalize a, isCanonical_normalize a, ?_,
    normalize_eq_self_iff⟩
  · cases h : isAbsolute b with
    | true =>
      have hjoin : ∀ dir, join dir b = b := fun dir => if_pos h
      rw [hjoin, hjoin]
    | false =>
      rw [normalize_join h hb, normalize_join h hb, toPosix_normalize, habs, hsegments,
        resolve_append _ fun s hs => isSegment_of_mem_segments hs]
  · rw [habs]
    exact beq_iff_eq

theorem normalize_through_join_dots :
    normalize (join "\\x\\..\\..\\y/.\\".toList "../../z//./w".toList) =
        normalize (join (normalize "\\x\\..\\..\\y/.\\".toList) "../../z//./w".toList) ∧
      normalize (join "\\x\\..\\..\\y/.\\".toList "../../z//./w".toList) = "/z/w".toList ∧
      IsCanonical "/z/w".toList := by
  have hvalue : normalize (join "\\x\\..\\..\\y/.\\".toList "../../z//./w".toList) =
      "/z/w".toList := by decide +kernel
  refine ⟨(normalize_through_join _).1 _ (by decide +kernel), hvalue, ?_⟩
  rw [← hvalue]
  exact (normalize_through_join _).2.2.1

end StyleModules.Path
