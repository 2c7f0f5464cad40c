import StyleModules.Module.Load
import StyleModules.Proofs.JoinedPath

/-!
Relative paths.

* Section 1: the way from a directory to a path takes back the names of the directory that the path
  does not share, and goes on with those of the path. Read from the directory, it leads to the path
  (`resolve_relativeTo`).
* Section 2: one segment more or less at the end of a list changes by one what two lists do not
  share (`apart_concat`). So no way is shorter (`apart_foldl`).
* Section 3: whether a path goes on from a directory by segments can be seen from the texts, if the
  directory has no `/` at its end (`strip_iff`). So the path of a file relative to the input tells
  the file (`Context.relativePath_identifies`).
-/

namespace StyleModules

namespace Path

/-! ## 1. The way from a directory -/

/-- Two lists are what they share at their start and what they do not. -/
theorem exists_shared (as bs : List Text) :
    ∃ shared, as = shared ++ (dropShared as bs).1 ∧ bs = shared ++ (dropShared as bs).2 := by
  induction as generalizing bs with
  | nil => exact ⟨[], rfl, rfl⟩
  | cons a as ih =>
    cases bs with
    | nil => exact ⟨[], rfl, rfl⟩
    | cons b bs =>
      by_cases heq : a = b
      · obtain ⟨shared, has, hbs⟩ := ih bs
        rw [dropShared, if_pos heq, ← heq]
        exact ⟨a :: shared, congrArg (a :: ·) has, congrArg (a :: ·) hbs⟩
      · rw [dropShared, if_neg heq]
        exact ⟨[], rfl, rfl⟩

/-- As many `..` as names take the names back. -/
theorem foldl_enter_back {absolute : Bool} {names : List Text} (h : ∀ s ∈ names, s ≠ above)
    (passed : List Text) :
    (List.replicate names.length above).foldl (enter absolute) (names.reverse ++ passed) =
      passed := by
  induction names generalizing passed with
  | nil => rfl
  | cons s names ih =>
    obtain ⟨hs, hnames⟩ := List.forall_mem_cons.mp h
    have hback : enter absolute (s :: passed) above = passed := by
      simp [enter, hs, show above ≠ here by decide]
    rw [List.length_cons, List.replicate_succ', List.foldl_append, List.reverse_cons,
      List.append_assoc, List.singleton_append, ih hnames]
    exact hback

/-- The segments of the way: as many `..` as there are segments to take back, and then names. -/
theorem segments_relativeTo (p b : Text) :
    isAbsolute (relativeTo p b) = false ∧ segments (relativeTo p b) =
      List.replicate (dropShared (segments p) (segments b)).2.length above ++
        (dropShared (segments p) (segments b)).1 := by
  have hsegs : ∀ s ∈ List.replicate (dropShared (segments p) (segments b)).2.length above ++
      (dropShared (segments p) (segments b)).1, IsSegment s := by
    intro s hs
    rcases List.mem_append.mp hs with hs | hs
    · rw [List.eq_of_mem_replicate hs]
      exact isSegment_above
    · obtain ⟨shared, hp, -⟩ := exists_shared (segments p) (segments b)
      exact isSegment_of_mem_segments (t := p) (hp ▸ List.mem_append_right shared hs)
  exact ⟨isAbsolute_ofSegments hsegs false, segments_ofSegments hsegs false⟩

theorem not_mem_relativeTo {p : Text} (hp : '\\' ∉ p) (b : Text) : '\\' ∉ relativeTo p b := by
  intro hmem
  rcases Text.of_mem_join hmem with hslash | ⟨s, hs, hc⟩
  · exact absurd (List.mem_singleton.mp hslash) (by decide)
  · rcases List.mem_append.mp hs with hs | hs
    · rw [List.eq_of_mem_replicate hs] at hc
      exact absurd hc (by decide)
    · obtain ⟨shared, hshared, -⟩ := exists_shared (segments p) (segments b)
      have hseg : s ∈ segments p := hshared ▸ List.mem_append_right shared hs
      exact hp (Text.mem_of_mem_splitBy (List.mem_of_mem_filter hseg) hc)

/-- **Whoever goes on from a directory by the way to a path comes where the path leads.** -/
theorem resolve_relativeTo (p : Text) {b : Text}
    (hb : ∀ s ∈ segments b, s ≠ here ∧ s ≠ above) :
    resolve false (segments b ++ segments (relativeTo p b)) = resolve false (segments p) := by
  rw [(segments_relativeTo p b).2]
  obtain ⟨shared, hdown, hup⟩ := exists_shared (segments p) (segments b)
  generalize (dropShared (segments p) (segments b)).1 = down at hdown ⊢
  generalize (dropShared (segments p) (segments b)).2 = up at hup ⊢
  rw [hdown, hup]
  rw [hup] at hb
  have hshared : ∀ s ∈ shared, s ≠ here ∧ s ≠ above :=
    fun s hs => hb s (List.mem_append_left up hs)
  have hback : ∀ s ∈ up, s ≠ above := fun s hs => (hb s (List.mem_append_right shared hs)).2
  unfold resolve
  rw [List.foldl_append, List.foldl_append, foldl_enter_names hb, List.reverse_append,
    List.append_assoc, foldl_enter_back hback, List.foldl_append, foldl_enter_names hshared]

/-! ## 2. The shortest way -/

/-- How many segments two lists do not share. -/
def apart (as bs : List Text) : Nat :=
  (dropShared as bs).1.length + (dropShared as bs).2.length

theorem apart_self (as : List Text) : apart as as = 0 := by
  induction as with
  | nil => rfl
  | cons a as ih =>
    unfold apart at ih ⊢
    rw [dropShared, if_pos rfl, ih]

theorem apart_nil_left (bs : List Text) : apart [] bs = bs.length := by
  simp [apart, dropShared]

theorem apart_nil_right (as : List Text) : apart as [] = as.length := by
  cases as <;> simp [apart, dropShared]

theorem apart_cons_cons (a b : Text) (as bs : List Text) :
    apart (a :: as) (b :: bs) =
      if a = b then apart as bs else as.length + 1 + (bs.length + 1) := by
  unfold apart
  rw [dropShared]
  split <;> rfl

/-- One segment more or less changes by one what is not shared. -/
theorem apart_concat (as bs : List Text) (s : Text) :
    apart as (bs ++ [s]) ≤ apart as bs + 1 ∧ apart as bs ≤ apart as (bs ++ [s]) + 1 := by
  induction as generalizing bs with
  | nil => simp only [apart_nil_left, List.length_append, List.length_singleton]; omega
  | cons a as ih =>
    cases bs with
    | nil =>
      rw [List.nil_append, apart_cons_cons, apart_nil_right, apart_nil_right]
      split <;> simp only [List.length_cons, List.length_nil] <;> omega
    | cons b bs =>
      rw [List.cons_append, apart_cons_cons, apart_cons_cons]
      split
      · exact ih bs
      · simp only [List.length_append, List.length_singleton]; omega

/-- A segment that is entered takes nobody nearer by more than one. -/
theorem apart_enter (target passed : List Text) (segment : Text) :
    apart target passed.reverse ≤ apart target (enter false passed segment).reverse + 1 := by
  have hcons : ∀ s, apart target passed.reverse ≤ apart target (s :: passed).reverse + 1 := by
    intro s
    rw [List.reverse_cons]
    exact (apart_concat target passed.reverse s).2
  unfold enter
  split
  · exact Nat.le_succ _
  · split
    · split
      · exact hcons above
      · next last rest =>
        split
        · exact hcons above
        · rw [List.reverse_cons]
          exact (apart_concat target rest.reverse last).1
    · exact hcons segment

/-- **Segments lead over no greater distance than there are of them.** -/
theorem apart_foldl (target segs passed : List Text) :
    apart target passed.reverse ≤
      apart target (segs.foldl (enter false) passed).reverse + segs.length := by
  induction segs generalizing passed with
  | nil => exact Nat.le_refl _
  | cons s segs ih =>
    have hstep := apart_enter target passed s
    have hrest := ih (enter false passed s)
    rw [List.foldl_cons, List.length_cons]
    omega

/-- A canonical path is its segments. -/
theorem IsCanonical.eq_ofSegments {t : Text} (h : IsCanonical t) :
    ofSegments (isAbsolute t) (segments t) = t := by
  rw [segments_of_pieces fun s hs => (h.solid s hs).1, ofSegments_pieces]

/-- In a canonical directory without `..` there are names only. -/
theorem IsCanonical.isName {t : Text} (h : IsCanonical t) (hbelow : above ∉ segments t) :
    ∀ s ∈ segments t, s ≠ here ∧ s ≠ above := by
  intro s hs
  refine ⟨?_, fun heq => hbelow (heq ▸ hs)⟩
  rw [segments_of_pieces fun s hs => (h.solid s hs).1] at hs
  exact (h.solid s hs).2

/-- **The way from a directory to a path leads to the path, and no way is shorter.** The directory
    and the path are relative and in normal form, and the directory has no `..`. -/
theorem normalize_join_relativeTo {p b : Text} (hp : normalize p = p)
    (hprelative : isAbsolute p = false) (hb : normalize b = b) (hbrelative : isAbsolute b = false)
    (hbelow : above ∉ segments b) :
    normalize (join b (relativeTo p b)) = p ∧
      ∀ way, isAbsolute way = false → '\\' ∉ way → normalize (join b way) = p →
        (segments (relativeTo p b)).length ≤ (segments way).length := by
  have hpcanon := normalize_eq_self_iff.mp hp
  have hbcanon := normalize_eq_self_iff.mp hb
  have hbposix := toPosix_of_not_mem hbcanon.posix
  have hnames := hbcanon.isName hbelow
  have hjoin : ∀ way, isAbsolute way = false → '\\' ∉ way → normalize (join b way) =
      ofSegments false (resolve false (segments b ++ segments way)) := by
    intro way hrelative hposix
    rw [normalize_join hrelative hposix, hbposix, hbrelative]
  constructor
  · have hsegments : resolve false (segments p) = segments p := by
      have hnormal := (segments_normalize p).2
      rwa [hp, toPosix_of_not_mem hpcanon.posix, hprelative, eq_comm] at hnormal
    rw [hjoin _ (segments_relativeTo p b).1 (not_mem_relativeTo hpcanon.posix b),
      resolve_relativeTo p hnames, hsegments, ← hprelative, hpcanon.eq_ofSegments]
  · intro way hrelative hposix hleads
    have hend : (segments way).foldl (enter false) (segments b).reverse =
        (segments p).reverse := by
      have hsegments := (segments_normalize (join b way)).2
      rw [hleads, isAbsolute_toPosix_join b hrelative hposix, segments_toPosix_join hrelative,
        hbposix, hbrelative, toPosix_of_not_mem hposix] at hsegments
      rw [hsegments, resolve, List.reverse_reverse, List.foldl_append, foldl_enter_names hnames,
        List.append_nil]
    have hfar := apart_foldl (segments p) (segments way) (segments b).reverse
    rw [hend, List.reverse_reverse, List.reverse_reverse, apart_self] at hfar
    rw [(segments_relativeTo p b).2, List.length_append, List.length_replicate]
    unfold apart at hfar
    omega

/-- A path above the directory that it is read from. -/
theorem normalize_join_relativeTo_above :
    relativeTo "../x/a.css".toList "x/y".toList = "../../../x/a.css".toList ∧
      normalize (join "x/y".toList (relativeTo "../x/a.css".toList "x/y".toList)) =
        "../x/a.css".toList ∧
      ∀ way, isAbsolute way = false → '\\' ∉ way →
        normalize (join "x/y".toList way) = "../x/a.css".toList → 5 ≤ (segments way).length := by
  have hway : relativeTo "../x/a.css".toList "x/y".toList = "../../../x/a.css".toList := by
    decide +kernel
  have hlength : (segments (relativeTo "../x/a.css".toList "x/y".toList)).length = 5 := by
    decide +kernel
  obtain ⟨hleads, hshort⟩ := normalize_join_relativeTo (p := "../x/a.css".toList)
    (b := "x/y".toList) (by decide +kernel) (by decide +kernel) (by decide +kernel)
    (by decide +kernel) (by decide +kernel)
  rw [hlength] at hshort
  exact ⟨hway, hleads, hshort⟩

/-! ## 3. Paths below a directory -/

/-- Segments with `/` in front of each. -/
def rooted (segs : List Text) : Text :=
  segs.flatMap ('/' :: ·)

/-- A path that goes on from a directory, by further segments. -/
def Below (dir path : Text) (rest : List Text) : Prop :=
  rest ≠ [] ∧ segments path = segments dir ++ rest

theorem Below.isSegment {dir path : Text} {rest : List Text} (h : Below dir path rest) :
    ∀ s ∈ rest, IsSegment s := fun _ hs =>
  isSegment_of_mem_segments (t := path) (h.2 ▸ List.mem_append_right (segments dir) hs)

theorem ofSegments_eq_rooted {segs : List Text} (hne : segs ≠ []) :
    ofSegments true segs = rooted segs := by
  induction segs with
  | nil => exact absurd rfl hne
  | cons s segs ih =>
    cases segs with
    | nil => simp [ofSegments, rooted]
    | cons s' segs =>
      have hrest := ih (List.cons_ne_nil s' segs)
      rw [rooted, List.flatMap_cons]
      change _ = '/' :: s ++ rooted (s' :: segs)
      rw [← hrest]
      simp [ofSegments, Text.join_cons_cons]

theorem segments_rooted {segs : List Text} (h : ∀ s ∈ segs, IsSegment s) :
    segments (rooted segs) = segs := by
  cases segs with
  | nil => rfl
  | cons s segs => rw [← ofSegments_eq_rooted (List.cons_ne_nil s segs), segments_ofSegments h]

/-- An absolute path without a `/` at its end; only the root has one. -/
theorem trimEndBy_ofSegments {segs : List Text} (h : ∀ s ∈ segs, IsSegment s) :
    Text.trimEndBy (· == '/') (ofSegments true segs) = rooted segs := by
  cases segs with
  | nil => rfl
  | cons s segs =>
    rw [← ofSegments_eq_rooted (List.cons_ne_nil s segs)]
    refine Text.trimEndBy_of_getLast? fun c hc => ?_
    have hne : Text.join ['/'] (s :: segs) ≠ [] :=
      Text.join_ne_nil (h s List.mem_cons_self).1 segs
    have hlast : (ofSegments true (s :: segs)).getLast? =
        (Text.join ['/'] (s :: segs)).getLast? := by
      change (['/'] ++ Text.join ['/'] (s :: segs)).getLast? = _
      rw [List.getLast?_append, List.getLast?_eq_some_getLast hne, Option.some_or]
    rw [hlast] at hc
    obtain ⟨part, hpart, hmem⟩ := Text.of_mem_getLast?_join (fun s hs => (h s hs).1) hc
    exact (h part hpart).2 c hmem

/-- **A path begins with a directory and a further `/` if it goes on from the directory by
    segments**, and only then. -/
theorem strip_iff {dir path r : Text} :
    ((rooted (segments dir)).isPrefixOf? (rooted (segments path))).bind
        ("/".toList.isPrefixOf? ·) = some r ↔
      ∃ rest, Below dir path rest ∧ r = ofSegments false rest := by
  have happend : ∀ rest, rooted (segments dir ++ rest) = rooted (segments dir) ++ rooted rest :=
    fun rest => List.flatMap_append
  have hsegments : ∀ t : Text, segments (rooted (segments t)) = segments t :=
    fun t => segments_rooted fun _ => isSegment_of_mem_segments
  constructor
  · intro h
    obtain ⟨tail, htail, hr⟩ := Option.bind_eq_some_iff.mp h
    have htext : rooted (segments dir) ++ '/' :: r = rooted (segments path) := by
      rw [← Text.append_of_isPrefixOf? htail, ← Text.append_of_isPrefixOf? hr]
      rfl
    have hpath : segments path = segments dir ++ segments r := by
      rw [← hsegments path, ← htext, segments_append_slash, hsegments]
    have hrest : '/' :: r = rooted (segments r) := by
      rw [hpath, happend] at htext
      exact List.append_cancel_left htext
    have hne : segments r ≠ [] := by
      intro hnil
      rw [hnil] at hrest
      cases hrest
    refine ⟨segments r, ⟨hne, hpath⟩, ?_⟩
    rw [← ofSegments_eq_rooted hne] at hrest
    exact (List.cons.inj hrest).2
  · intro ⟨rest, ⟨hne, hpath⟩, hr⟩
    have hslash : rooted rest = "/".toList ++ ofSegments false rest :=
      (ofSegments_eq_rooted hne).symm
    rw [hpath, hr, happend, Text.isPrefixOf?_append, Option.bind_some, hslash,
      Text.isPrefixOf?_append]

end Path

/-- A file with an absolute path, which is not the root itself. -/
structure ModuleRef.IsAbsoluteFile (m : ModuleRef) : Prop where
  file : ∃ path, m = .ofPath path
  absolute : Path.isAbsolute m.key = true
  proper : m.key ≠ ['/']

theorem ModuleRef.IsAbsoluteFile.isCanonical {m : ModuleRef} (h : m.IsAbsoluteFile) :
    Path.IsCanonical m.key := by
  obtain ⟨path, rfl⟩ := h.file
  exact Path.isCanonical_normalize path

theorem ModuleRef.IsAbsoluteFile.key_eq {m : ModuleRef} (h : m.IsAbsoluteFile) :
    m.key = Path.rooted (Path.segments m.key) := by
  have hkey := h.isCanonical.eq_ofSegments
  rw [h.absolute] at hkey
  have hne : Path.segments m.key ≠ [] := by
    intro hnil
    rw [hnil] at hkey
    exact h.proper hkey.symm
  rw [← Path.ofSegments_eq_rooted hne, hkey]

theorem ModuleRef.IsAbsoluteFile.eq_of_key {m m' : ModuleRef} (h : m.IsAbsoluteFile)
    (h' : m'.IsAbsoluteFile) (hkey : m.key = m'.key) : m = m' := by
  obtain ⟨path, rfl⟩ := h.file
  obtain ⟨path', rfl⟩ := h'.file
  exact congrArg ModuleRef.file hkey

namespace Context

variable {root : Text} {options : Options} {m m' : ModuleRef}

/-- The path of a file relative to the input, by the segments of both. -/
theorem relativePath_eq (hroot : Path.isAbsolute (ofRoot root options).root = true)
    (hm : m.IsAbsoluteFile) : (ofRoot root options).relativePath m =
      (((Path.rooted (Path.segments (ofRoot root options).root)).isPrefixOf?
        (Path.rooted (Path.segments m.key))).bind ("/".toList.isPrefixOf? ·)).getD m.key := by
  have htrim : Text.trimEndBy (· == '/') (ofRoot root options).root =
      Path.rooted (Path.segments (ofRoot root options).root) := by
    have hcanon : Path.IsCanonical (ofRoot root options).root := Path.isCanonical_normalize root
    have heq := hcanon.eq_ofSegments
    rw [hroot] at heq
    rw [← Path.trimEndBy_ofSegments fun _ => Path.isSegment_of_mem_segments, heq]
  rw [relativePath, htrim, Path.toPosix_of_not_mem hm.isCanonical.posix, ← hm.key_eq]

theorem relativePath_of_below (hroot : Path.isAbsolute (ofRoot root options).root = true)
    (hm : m.IsAbsoluteFile) {rest : List Text}
    (h : Path.Below (ofRoot root options).root m.key rest) :
    (ofRoot root options).relativePath m = Path.ofSegments false rest := by
  rw [relativePath_eq hroot hm, Path.strip_iff.mpr ⟨rest, h, rfl⟩]
  rfl

theorem relativePath_of_not_below (hroot : Path.isAbsolute (ofRoot root options).root = true)
    (hm : m.IsAbsoluteFile) (h : ∀ rest, ¬Path.Below (ofRoot root options).root m.key rest) :
    (ofRoot root options).relativePath m = m.key := by
  rw [relativePath_eq hroot hm]
  cases hstrip : Option.bind _ _ with
  | none => rfl
  | some r =>
    obtain ⟨rest, hbelow, -⟩ := Path.strip_iff.mp hstrip
    exact absurd hbelow (h rest)

/-- A path relative to the input is absolute if the file is not below it, and only then. -/
theorem isAbsolute_relativePath (hroot : Path.isAbsolute (ofRoot root options).root = true)
    (hm : m.IsAbsoluteFile) : Path.isAbsolute ((ofRoot root options).relativePath m) = true ↔
      ∀ rest, ¬Path.Below (ofRoot root options).root m.key rest := by
  constructor
  · intro habs rest hbelow
    rw [relativePath_of_below hroot hm hbelow, Path.isAbsolute_ofSegments hbelow.isSegment] at habs
    cases habs
  · intro hnot
    rw [relativePath_of_not_below hroot hm hnot]
    exact hm.absolute

/-- What a path relative to the input tells about the segments of the file. -/
theorem segments_of_below (hroot : Path.isAbsolute (ofRoot root options).root = true)
    (hm : m.IsAbsoluteFile) {rest : List Text}
    (h : Path.Below (ofRoot root options).root m.key rest) :
    Path.segments m.key = Path.segments (ofRoot root options).root ++
      Path.segments ((ofRoot root options).relativePath m) := by
  rw [relativePath_of_below hroot hm h, Path.segments_ofSegments h.isSegment, h.2]

/-- **The path relative to the input identifies a file.** For an absolute input and a file with an
    absolute path it is the rest of the path if this goes on from the input by further segments, and
    the path itself if it does not. Files with the same path relative to the input are the same. -/
theorem relativePath_identifies (hroot : Path.isAbsolute (ofRoot root options).root = true)
    (hm : m.IsAbsoluteFile) :
    (∀ rest, Path.Below (ofRoot root options).root m.key rest →
        (ofRoot root options).relativePath m = Path.ofSegments false rest) ∧
      ((∀ rest, ¬Path.Below (ofRoot root options).root m.key rest) →
        (ofRoot root options).relativePath m = m.key) ∧
      ∀ m', m'.IsAbsoluteFile →
        (ofRoot root options).relativePath m = (ofRoot root options).relativePath m' → m = m' := by
  refine ⟨fun rest => relativePath_of_below hroot hm, relativePath_of_not_below hroot hm, ?_⟩
  intro m' hm' heq
  refine hm.eq_of_key hm' ?_
  have habs : (∀ rest, ¬Path.Below (ofRoot root options).root m.key rest) ↔
      ∀ rest, ¬Path.Below (ofRoot root options).root m'.key rest := by
    rw [← isAbsolute_relativePath hroot hm, heq, isAbsolute_relativePath hroot hm']
  by_cases hnot : ∀ rest, ¬Path.Below (ofRoot root options).root m.key rest
  · rwa [relativePath_of_not_below hroot hm hnot,
      relativePath_of_not_below hroot hm' (habs.mp hnot)] at heq
  · obtain ⟨rest, hbelow⟩ := not_forall_not.mp hnot
    obtain ⟨rest', hbelow'⟩ := not_forall_not.mp (mt habs.mpr hnot)
    have hsegments : Path.segments m.key = Path.segments m'.key := by
      rw [segments_of_below hroot hm hbelow, segments_of_below hroot hm' hbelow', heq]
    rw [hm.key_eq, hm'.key_eq, hsegments]

/-- An input with `..` in it and `/` at its end, a file below it, and a file in a directory beside it
    whose name begins alike. -/
theorem relativePath_identifies_beside :
    (ofRoot "/in/x/..//".toList .default).relativePath (.ofPath "/in/./dir/a.css".toList) =
        "dir/a.css".toList ∧
      (ofRoot "/in/x/..//".toList .default).relativePath (.ofPath "/inner/a.css".toList) =
        "/inner/a.css".toList ∧
      ∀ m', m'.IsAbsoluteFile →
        "dir/a.css".toList = (ofRoot "/in/x/..//".toList .default).relativePath m' →
          .ofPath "/in/./dir/a.css".toList = m' := by
  have hroot : Path.isAbsolute (ofRoot "/in/x/..//".toList .default).root = true := by
    decide +kernel
  have hfile : ModuleRef.IsAbsoluteFile (.ofPath "/in/./dir/a.css".toList) :=
    ⟨⟨_, rfl⟩, by decide +kernel, by decide +kernel⟩
  have hbeside : ModuleRef.IsAbsoluteFile (.ofPath "/inner/a.css".toList) :=
    ⟨⟨_, rfl⟩, by decide +kernel, by decide +kernel⟩
  have hpath : (ofRoot "/in/x/..//".toList .default).relativePath
      (.ofPath "/in/./dir/a.css".toList) = "dir/a.css".toList :=
    (relativePath_identifies hroot hfile).1 ["dir".toList, "a.css".toList]
      ⟨by decide, by decide +kernel⟩
  refine ⟨hpath, (relativePath_identifies hroot hbeside).2.1 fun rest hbelow => ?_, ?_⟩
  · have hfirst := congrArg List.head? hbelow.2
    rw [show (Path.segments (ofRoot "/in/x/..//".toList .default).root) = ["in".toList] by
      decide +kernel, show Path.segments (ModuleRef.ofPath "/inner/a.css".toList).key =
      ["inner".toList, "a.css".toList] by decide +kernel] at hfirst
    cases hfirst
  · rw [← hpath]
    exact (relativePath_identifies hroot hfile).2.2

end Context

end StyleModules
