import Mathlib.Data.List.Nodup
import StyleModules.Proofs.DiskChanges
import StyleModules.Proofs.JoinedPath

/-!
How a build goes through its input.

* `Build.copyPlace` is where a file of the input is copied to. It is told by the names on the way to
  the file (`Build.copyPlace_of_isClean`), unless one of them has a backslash, which stands for `/`.
* `Disk.names` lists what stands in a directory, each name once and in order.
* `Build.Visited plan ways` is what a visit does that finds the files at `ways`: it adds targets,
  copies the others, and leaves everything else as it was. Two visits in a row are one
  (`Visited.append`).
* `Build.visit_spec`, by induction on the depth: a visit finds each file below its place once, the
  files in the order of their names. `Build.findFiles_spec` says so of the whole input.
-/

namespace StyleModules

/-! ## 1. Full paths -/

namespace Path

/-- A path that is absolute and in normal form. -/
structure IsFull (t : Text) : Prop where
  absolute : isAbsolute t = true
  normal : normalize t = t

namespace IsFull

variable {t : Text}

theorem posix (h : IsFull t) : toPosix t = t := by
  rw [← h.normal]
  exact toPosix_normalize t

theorem isName (h : IsFull t) : ∀ s ∈ segments t, Path.isName s = true := by
  obtain ⟨absolute, ups, names, hshape, heq⟩ := isNormal_normalize t
  rw [h.normal] at heq
  have habs := h.absolute
  rw [heq, isAbsolute_ofSegments hshape.isSegment] at habs
  obtain rfl := hshape.grounded habs
  rw [heq, segments_ofSegments hshape.isSegment]
  exact fun s hs => isName_iff.mpr (hshape.isName s hs)

end IsFull

/-- Names are resolved to themselves. -/
theorem resolve_names {names : List Text} (h : ∀ s ∈ names, Path.isName s = true) :
    resolve true names = names := by
  rw [resolve, foldl_enter_names fun s hs => (isName_iff.mp (h s hs)).2, List.append_nil,
    List.reverse_reverse]

/-- The segments of joined names are the names. -/
theorem segments_names {names : List Text} (h : ∀ s ∈ names, Path.isName s = true) :
    segments (Text.join ['/'] names) = names ∧ isAbsolute (Text.join ['/'] names) = false := by
  have hsegments : ∀ s ∈ names, IsSegment s := fun s hs => (isName_iff.mp (h s hs)).1
  exact ⟨segments_ofSegments hsegments false, isAbsolute_ofSegments hsegments false⟩

end Path

namespace Build

/-- The place of the input. -/
def Plan.inputPlace (plan : Plan) : Place :=
  Path.segments plan.input

/-- The place of the output. -/
def Plan.outputPlace (plan : Plan) : Place :=
  Path.segments plan.output

/-- The paths of a plan are absolute and in normal form. -/
structure Plan.IsFull (plan : Plan) : Prop where
  input : Path.IsFull plan.input
  output : Path.IsFull plan.output

/-- The path of a file relative to the input, by the names on the way to it. -/
def relativeOf (way : List Text) : Text :=
  Path.toPosix (Text.join ['/'] way)

/-- Whether the file at the end of a way is compiled. -/
def isTargetWay (plan : Plan) (way : List Text) : Bool :=
  isTarget (relativeOf way) plan.options.extension

/-- The path by which a file of the input is read. -/
def pathOf (plan : Plan) (way : List Text) : Text :=
  if way = [] then plan.input else Path.join plan.input (Text.join ['/'] way)

/-- The style sheet at the end of a way. -/
def targetOf (plan : Plan) (way : List Text) : Target :=
  ⟨Path.normalize (pathOf plan way), relativeOf way⟩

/-- The path by which a file of the input is copied. -/
def copyPath (plan : Plan) (way : List Text) : Text :=
  Path.join plan.output (relativeOf way)

/-- The place that a file of the input is copied to. -/
def copyPlace (plan : Plan) (way : List Text) : Place :=
  Path.place (copyPath plan way)

section Paths

variable {plan : Plan} {way : List Text}

theorem visitFile_eq (plan : Plan) (way : List Text) :
    visitFile plan way =
      if isTargetWay plan way then addTarget (targetOf plan way)
      else copyOver plan (pathOf plan way) (relativeOf way) :=
  rfl

/-- A file of the input is read by a path that leads to its place. -/
theorem place_pathOf (hplan : plan.IsFull) (hway : ∀ s ∈ way, Path.isName s = true) :
    Path.isAbsolute (pathOf plan way) = true ∧
      Path.place (pathOf plan way) = plan.inputPlace ++ way := by
  unfold pathOf
  split
  · next hnil =>
    rw [hnil, List.append_nil]
    exact ⟨hplan.input.absolute, Path.resolve_names hplan.input.isName⟩
  · obtain ⟨hsegments, hrelative⟩ := Path.segments_names hway
    refine ⟨Path.isAbsolute_join hplan.input.absolute _, ?_⟩
    rw [Path.place, Path.segments_join hrelative, hsegments]
    refine Path.resolve_names fun s hs => ?_
    rcases List.mem_append.mp hs with hs | hs
    · exact hplan.input.isName s hs
    · exact hway s hs

theorem isAbsolute_copyPath (hplan : plan.IsFull) (way : List Text) :
    Path.isAbsolute (copyPath plan way) = true :=
  Path.isAbsolute_join hplan.output.absolute _

/-- No name on the way has a backslash. -/
def IsClean (way : List Text) : Prop :=
  ∀ s ∈ way, '\\' ∉ s

theorem relativeOf_of_isClean (h : IsClean way) : relativeOf way = Text.join ['/'] way := by
  have hchars : ∀ c ∈ Text.join ['/'] way, (if c = '\\' then '/' else c) = c := by
    intro c hc
    refine if_neg ?_
    rintro rfl
    rcases Text.of_mem_join hc with hc | ⟨s, hs, hc⟩
    · simp at hc
    · exact h s hs hc
  exact (List.map_congr_left hchars).trans (List.map_id _)

/-- **A file is copied to the place with the same names**, if none of them has a backslash. -/
theorem copyPlace_of_isClean (hplan : plan.IsFull) (hway : ∀ s ∈ way, Path.isName s = true)
    (h : IsClean way) : copyPlace plan way = plan.outputPlace ++ way := by
  obtain ⟨hsegments, hrelative⟩ := Path.segments_names hway
  rw [copyPlace, copyPath, relativeOf_of_isClean h, Path.place, Path.segments_join hrelative,
    hsegments]
  refine Path.resolve_names fun s hs => ?_
  rcases List.mem_append.mp hs with hs | hs
  · exact hplan.output.isName s hs
  · exact hway s hs

/-- The path of a target is told by its relative path. -/
theorem path_targetOf (hplan : plan.IsFull) (hway : ∀ s ∈ way, Path.isName s = true) :
    (targetOf plan way).path = Path.ofSegments true
      (Path.resolve true (plan.inputPlace ++ Path.segments (relativeOf way))) := by
  have hnormal : ∀ {t : Text}, Path.isAbsolute t = true →
      Path.normalize t =
        Path.ofSegments true (Path.resolve true (Path.segments (Path.toPosix t))) := by
    intro t ht
    rw [Path.normalize]
    simp only [Path.isAbsolute_toPosix ht]
  obtain ⟨habsolute, _⟩ := place_pathOf hplan hway
  have hsegments : Path.segments (Path.toPosix (pathOf plan way)) =
      plan.inputPlace ++ Path.segments (relativeOf way) := by
    unfold pathOf
    split
    · next hnil =>
      rw [hnil, hplan.input.posix]
      exact (List.append_nil _).symm
    · rw [Path.segments_toPosix_join (Path.segments_names hway).2, hplan.input.posix]
      rfl
  rw [targetOf, hnormal habsolute, hsegments]

end Paths

end Build

/-! ## 2. The names in a directory -/

namespace Disk

variable {d : Disk}

/-- Names are in the order of their characters. -/
theorem nameLE_iff {a b : Text} :
    nameLE a b = true ↔ @LE.le (List Char) List.instLE a b := by
  have hlt : ∀ c d : Char, decide (c.toNat < d.toNat) = true ↔ c < d := by
    intro c d
    rw [decide_eq_true_eq]
    exact UInt32.lt_iff_toNat_lt.symm
  unfold nameLE
  rw [List.lex_eq_decide_lex]
  simp only [hlt, List.lex_lt, Bool.not_eq_true', decide_eq_false_iff_not]
  exact List.not_lt

theorem nameLE_trans (a b c : Text) (hab : nameLE a b = true) (hbc : nameLE b c = true) :
    nameLE a c = true := by
  rw [nameLE_iff] at *
  exact List.le_trans hab hbc

theorem nameLE_total (a b : Text) : (nameLE a b || nameLE b a) = true := by
  rw [Bool.or_eq_true, nameLE_iff, nameLE_iff]
  exact List.le_total a b

theorem childName?_eq_some_iff {p below : Place} {name : Text} :
    childName? p below = some name ↔ below = p ++ [name] := by
  unfold childName?
  constructor
  · intro h
    split at h
    · next hrest =>
      cases h
      exact (List.isPrefixOf?_eq_some_iff_append_eq.mp hrest).symm
    · cases h
  · intro h
    rw [List.isPrefixOf?_eq_some_iff_append_eq.mpr h.symm]

/-- The names in a directory are those of what stands there. -/
theorem mem_names_iff {p : Place} {name : Text} :
    name ∈ d.names p ↔ (d.get? (p ++ [name])).isSome := by
  rw [mem_entries_of_isSome (by simp), names, List.mem_mergeSort, List.mem_filterMap]
  simp only [childName?_eq_some_iff, List.mem_map]

/-- **The names in a directory are listed in order, each once.** -/
theorem names_pairwise (h : d.IsTree) (p : Place) :
    (d.names p).Pairwise fun a b => a ≠ b ∧ nameLE a b = true := by
  have hsorted := List.pairwise_mergeSort nameLE_trans nameLE_total
    (d.entries.filterMap fun e => childName? p e.1)
  have hnodup : (d.entries.filterMap fun e => childName? p e.1).Nodup := by
    have hmap : (d.entries.filterMap fun e => childName? p e.1) =
        (d.entries.map Prod.fst).filterMap (childName? p) := by
      rw [List.filterMap_map]
      rfl
    rw [hmap]
    refine h.nodup.filterMap fun a b name ha hb => ?_
    rw [childName?_eq_some_iff.mp ha, childName?_eq_some_iff.mp hb]
  exact ((List.mergeSort_perm _ _).nodup_iff.mpr hnodup).and hsorted

end Disk

/-! ## 3. What a visit does -/

namespace Build

/-- The copies of the files at some ways. -/
def copies (plan : Plan) (ways : List (List Text)) : Place → List UInt8 → Prop :=
  fun p _ => ∃ way ∈ ways, isTargetWay plan way = false ∧ p = copyPlace plan way

/-- No other of some ways has its copy at the place of a file or of its copy. -/
def Apart (plan : Plan) (ways : List (List Text)) (way : List Text) : Prop :=
  ∀ other ∈ ways, other ≠ way → isTargetWay plan other = false →
    copyPlace plan other ≠ plan.inputPlace ++ way ∧ copyPlace plan other ≠ copyPlace plan way

/-- What a visit does that finds the files at some ways. -/
structure Visited (plan : Plan) (ways : List (List Text)) (f f' : Found) : Prop where
  targets : f'.targets = f.targets ++ (ways.filter (isTargetWay plan)).map (targetOf plan)
  copied : f'.copied = f.copied ++ (ways.filter (!isTargetWay plan ·)).map relativeOf
  keeps : Disk.Keeps (copies plan ways) f.session.disk f'.session.disk
  files : ∀ way ∈ ways,
    ∃ bytes, f'.session.disk.get? (plan.inputPlace ++ way) = some (.file bytes)
  source : ∀ front way rest, ways = front ++ way :: rest →
    (∃ bytes, f.session.disk.get? (plan.inputPlace ++ way) = some (.file bytes)) ∨
      ∃ other ∈ front, isTargetWay plan other = false ∧
        plan.inputPlace ++ way = copyPlace plan other
  copy : ∀ way ∈ ways, isTargetWay plan way = false → ∀ bytes,
    f.session.disk.get? (plan.inputPlace ++ way) = some (.file bytes) → Apart plan ways way →
    f'.session.disk.get? (copyPlace plan way) = some (.file bytes)

section Visited

variable {plan : Plan} {ways ways' : List (List Text)} {f f' f'' : Found}

theorem Visited.refl (plan : Plan) (f : Found) : Visited plan [] f f where
  targets := (List.append_nil _).symm
  copied := (List.append_nil _).symm
  keeps := .refl _
  files _ h := nomatch h
  source _ _ _ h := absurd h (by simp)
  copy _ h := nomatch h

/-- Two visits in a row, of different files. -/
theorem Visited.append (h : Visited plan ways f f') (h' : Visited plan ways' f' f'')
    (hne : ∀ a ∈ ways, ∀ b ∈ ways', a ≠ b) : Visited plan (ways ++ ways') f f'' where
  targets := by
    rw [h'.targets, h.targets, List.filter_append, List.map_append, List.append_assoc]
  copied := by
    rw [h'.copied, h.copied, List.filter_append, List.map_append, List.append_assoc]
  keeps := by
    refine (h.keeps.mono ?_).trans (h'.keeps.mono ?_)
    · intro p bytes hcopy
      obtain ⟨way, hway, hrest⟩ := hcopy
      exact ⟨way, List.mem_append_left _ hway, hrest⟩
    · intro p bytes hcopy
      obtain ⟨way, hway, hrest⟩ := hcopy
      exact ⟨way, List.mem_append_right _ hway, hrest⟩
  files way hway := by
    rcases List.mem_append.mp hway with hway | hway
    · obtain ⟨bytes, hbytes⟩ := h.files way hway
      obtain ⟨bytes', hbytes', _⟩ := h'.keeps.file hbytes
      exact ⟨bytes', hbytes'⟩
    · exact h'.files way hway
  source front way rest hsplit := by
    have hsecond : ∀ front', ways' = front' ++ way :: rest →
        (∃ bytes, f.session.disk.get? (plan.inputPlace ++ way) = some (.file bytes)) ∨
          ∃ other ∈ ways ++ front', isTargetWay plan other = false ∧
            plan.inputPlace ++ way = copyPlace plan other := by
      intro front' hsplit'
      rcases h'.source front' way rest hsplit' with ⟨bytes, hfile⟩ | ⟨other, hother, hcopy⟩
      · rcases h.keeps.fresh hfile with hold | ⟨other, hother, hcopy⟩
        · exact .inl ⟨bytes, hold⟩
        · exact .inr ⟨other, List.mem_append_left _ hother, hcopy⟩
      · exact .inr ⟨other, List.mem_append_right _ hother, hcopy⟩
    rcases List.append_eq_append_iff.mp hsplit with ⟨front', rfl, hsplit'⟩ | ⟨rest', hways, hrest⟩
    · exact hsecond front' hsplit'
    · cases rest' with
      | nil =>
        have hfirst := hsecond [] hrest.symm
        rwa [List.append_nil, hways, List.append_nil] at hfirst
      | cons way' rest' =>
        obtain ⟨rfl, _⟩ := List.cons.inj hrest
        exact h.source front way rest' hways
  copy way hway hcopied bytes hbytes hapart := by
    rcases List.mem_append.mp hway with hway | hway
    · have hfirst := h.copy way hway hcopied bytes hbytes
        fun other hother => hapart other (List.mem_append_left _ hother)
      refine h'.keeps.file_of_not hfirst ?_
      intro bytes' hcopy
      obtain ⟨other, hother, hcopied', hplace⟩ := hcopy
      exact absurd hplace.symm (hapart other (List.mem_append_right _ hother)
        (hne way hway other hother).symm hcopied').2
    · have hmiddle : f'.session.disk.get? (plan.inputPlace ++ way) = some (.file bytes) := by
        refine h.keeps.file_of_not hbytes ?_
        intro bytes' hcopy
        obtain ⟨other, hother, hcopied', hplace⟩ := hcopy
        exact absurd hplace.symm (hapart other (List.mem_append_left _ hother)
          (hne other hother way hway) hcopied').1
      exact h'.copy way hway hcopied bytes hmiddle
        fun other hother => hapart other (List.mem_append_right _ hother)

theorem eq_of_split {way w : List Text} {front rest : List (List Text)}
    (h : [way] = front ++ w :: rest) : w = way :=
  List.mem_singleton.mp (h ▸ List.mem_append_right front List.mem_cons_self)

/-- A file with the extension is added to the targets. -/
theorem visited_addTarget {way : List Text} (htarget : isTargetWay plan way = true)
    {bytes : List UInt8} (hfile : f.session.disk.get? (plan.inputPlace ++ way) = some (.file bytes))
    (h : addTarget (targetOf plan way) f = .ok () f') : Visited plan [way] f f' := by
  cases h
  exact {
    targets := by simp [htarget]
    copied := by simp [htarget]
    keeps := .refl _
    files := fun w hw => ⟨bytes, List.mem_singleton.mp hw ▸ hfile⟩
    source := fun front w rest hsplit => .inl ⟨bytes, eq_of_split hsplit ▸ hfile⟩
    copy := fun w hw hcopied => by
      obtain rfl := List.mem_singleton.mp hw
      rw [htarget] at hcopied
      cases hcopied }

theorem of_copyOver {path relative : Text} (h : copyOver plan path relative f = .ok () f') :
    ∃ disk, copyFile path (Path.join plan.output relative) f.session.disk = .ok () disk ∧
      f' = ⟨f.targets, f.copied ++ [relative],
        { f.session with disk }.note [.copied (Path.join plan.output relative)]⟩ := by
  unfold copyOver at h
  obtain ⟨_, middle, hcopy, hnote⟩ := bind_ok h
  obtain ⟨disk, hdisk, rfl⟩ := of_onFiles hcopy
  cases hnote
  exact ⟨disk, hdisk, rfl⟩

/-- Any other file is copied. -/
theorem visited_copyOver (hplan : plan.IsFull) (htree : f.session.disk.IsTree) {way : List Text}
    (htarget : isTargetWay plan way = false) {bytes : List UInt8}
    (hfile : f.session.disk.get? (plan.inputPlace ++ way) = some (.file bytes))
    (h : copyOver plan (pathOf plan way) (relativeOf way) f = .ok () f') :
    Visited plan [way] f f' := by
  obtain ⟨disk, hcopy, rfl⟩ := of_copyOver h
  have hnames : ∀ s ∈ way, Path.isName s = true :=
    fun s hs => htree.isName hfile s (List.mem_append_right _ hs)
  obtain ⟨habsolute, hplace⟩ := place_pathOf hplan hnames
  have hcopyPath := isAbsolute_copyPath hplan way
  obtain ⟨middle, read, hmiddle, hread, hwritten, hcopied⟩ := of_copyFile hcopyPath hcopy
  have hkeeps : Disk.Keeps (copies plan [way]) f.session.disk disk := by
    refine (hmiddle.mono fun _ _ hnone => absurd hnone id).trans (hwritten.mono ?_)
    rintro p _ ⟨rfl, _⟩
    exact ⟨way, List.mem_cons_self, htarget, rfl⟩
  -- what is read is what stood at the place
  have hbytes : read = bytes := by
    have hstays := hmiddle.file_of_not hfile fun _ hnone => absurd hnone id
    have hget := (Disk.get?_of_read habsolute hread).2
    rw [hplace, hstays] at hget
    cases hget
    rfl
  obtain ⟨bytes', hbytes', _⟩ := hkeeps.file hfile
  exact {
    targets := by simp [htarget]
    copied := by simp [htarget]
    keeps := hkeeps
    files := fun w hw => ⟨bytes', List.mem_singleton.mp hw ▸ hbytes'⟩
    source := fun front w rest hsplit => .inl ⟨bytes, eq_of_split hsplit ▸ hfile⟩
    copy := fun w hw _ other hother _ => by
      obtain rfl := List.mem_singleton.mp hw
      rw [hfile] at hother
      cases hother
      exact hbytes ▸ (Disk.get?_of_read hcopyPath hcopied).2 }

theorem visited_visitFile (hplan : plan.IsFull) (htree : f.session.disk.IsTree) {way : List Text}
    {bytes : List UInt8} (hfile : f.session.disk.get? (plan.inputPlace ++ way) = some (.file bytes))
    (h : visitFile plan way f = .ok () f') : Visited plan [way] f f' := by
  rw [visitFile_eq] at h
  cases htarget : isTargetWay plan way with
  | true =>
    rw [htarget] at h
    exact visited_addTarget htarget hfile h
  | false =>
    rw [htarget] at h
    exact visited_copyOver hplan htree htarget hfile h

end Visited

/-! ## 4. The order of a walk -/

/-- One way comes before another: where they part, its name comes first. -/
def WalkBefore (a b : List Text) : Prop :=
  ∃ shared x y a' b', a = shared ++ x :: a' ∧ b = shared ++ y :: b' ∧ x ≠ y ∧
    Disk.nameLE x y = true

theorem WalkBefore.ne {a b : List Text} (h : WalkBefore a b) : a ≠ b := by
  obtain ⟨shared, x, y, a', b', rfl, rfl, hne, _⟩ := h
  intro heq
  exact hne (List.cons.inj (List.append_cancel_left heq)).1

/-- What a visit finds below the end of some names, among the files that are there. -/
structure Covers (plan : Plan) (bound : Nat) (start : List Text) (d : Disk)
    (ways : List (List Text)) : Prop where
  ordered : ways.Pairwise WalkBefore
  below : ∀ way ∈ ways, start <+: way
  outside : ∀ way ∈ ways, ∀ q, q <+: way → start.length ≤ q.length →
    plan.inputPlace ++ q ≠ plan.outputPlace
  complete : ∀ rest bytes, d.get? (plan.inputPlace ++ (start ++ rest)) = some (.file bytes) →
    ¬plan.outputPlace <+: plan.inputPlace ++ (start ++ rest) → rest.length < bound →
    start ++ rest ∈ ways

/-- So for what is below one of several names. -/
structure CoversNames (plan : Plan) (bound : Nat) (start names : List Text) (d : Disk)
    (ways : List (List Text)) : Prop where
  ordered : ways.Pairwise WalkBefore
  below : ∀ way ∈ ways, ∃ name ∈ names, start ++ [name] <+: way
  outside : ∀ way ∈ ways, ∀ q, q <+: way → start.length < q.length →
    plan.inputPlace ++ q ≠ plan.outputPlace
  complete : ∀ name ∈ names, ∀ rest bytes,
    d.get? (plan.inputPlace ++ (start ++ name :: rest)) = some (.file bytes) →
    ¬plan.outputPlace <+: plan.inputPlace ++ (start ++ name :: rest) → rest.length < bound →
    start ++ name :: rest ∈ ways

section Walk

variable {plan : Plan} {bound : Nat} {start : List Text} {f f' : Found}

theorem walkBefore_of_names {a b : List Text} {x y : Text} (ha : start ++ [x] <+: a)
    (hb : start ++ [y] <+: b) (hxy : x ≠ y ∧ Disk.nameLE x y = true) : WalkBefore a b := by
  obtain ⟨a', rfl⟩ := ha
  obtain ⟨b', rfl⟩ := hb
  exact ⟨start, x, y, a', b', by simp, by simp, hxy.1, hxy.2⟩

/-- The names in a directory are visited one after the other. -/
theorem forM_visit_spec
    (hvisit : ∀ {start f f'}, f.session.disk.IsTree → visit plan bound start f = .ok () f' →
      ∃ ways, Visited plan ways f f' ∧ Covers plan bound start f.session.disk ways)
    (names : List Text) (hnames : names.Pairwise fun a b => a ≠ b ∧ Disk.nameLE a b = true)
    (htree : f.session.disk.IsTree)
    (h : (names.forM fun name => visit plan bound (start ++ [name])) f = .ok () f') :
    ∃ ways, Visited plan ways f f' ∧ CoversNames plan bound start names f.session.disk ways := by
  induction names generalizing f with
  | nil =>
    cases h
    exact ⟨[], .refl plan f', .nil, fun _ h => (nomatch h), fun _ h => (nomatch h),
      fun _ h => (nomatch h)⟩
  | cons name names ih =>
    obtain ⟨hfirst, hrest⟩ := List.pairwise_cons.mp hnames
    have hbind : (visit plan bound (start ++ [name]) >>= fun _ =>
        names.forM fun name => visit plan bound (start ++ [name])) f = .ok () f' := h
    obtain ⟨_, middle, hname, hothers⟩ := bind_ok hbind
    obtain ⟨ways, hvisited, hcovers⟩ := hvisit htree hname
    obtain ⟨ways', hvisited', hcovers'⟩ := ih hrest (hvisited.keeps.tree htree) hothers
    have hbefore : ∀ a ∈ ways, ∀ b ∈ ways', WalkBefore a b := by
      intro a ha b hb
      obtain ⟨y, hy, hyb⟩ := hcovers'.below b hb
      exact walkBefore_of_names (hcovers.below a ha) hyb (hfirst y hy)
    refine ⟨ways ++ ways', hvisited.append hvisited' fun a ha b hb => (hbefore a ha b hb).ne, ?_⟩
    exact {
      ordered := List.pairwise_append.mpr ⟨hcovers.ordered, hcovers'.ordered, hbefore⟩
      below := fun way hway => by
        rcases List.mem_append.mp hway with hway | hway
        · exact ⟨name, List.mem_cons_self, hcovers.below way hway⟩
        · obtain ⟨y, hy, hyw⟩ := hcovers'.below way hway
          exact ⟨y, List.mem_cons_of_mem name hy, hyw⟩
      outside := fun way hway q hq hlong => by
        rcases List.mem_append.mp hway with hway | hway
        · exact hcovers.outside way hway q hq (by simp; omega)
        · exact hcovers'.outside way hway q hq hlong
      complete := fun y hy rest bytes hfile hout hshort => by
        rw [List.mem_append]
        rcases List.mem_cons.mp hy with rfl | hy
        · have hsplit : start ++ y :: rest = (start ++ [y]) ++ rest := by simp
          rw [hsplit] at hfile hout ⊢
          exact .inl (hcovers.complete rest bytes hfile hout hshort)
        · obtain ⟨bytes', hfile', _⟩ := hvisited.keeps.file hfile
          exact .inr (hcovers'.complete y hy rest bytes' hfile' hout hshort) }

/-- A visit, one step of it. -/
theorem visit_succ (plan : Plan) (bound : Nat) (start : List Text) (f : Found) :
    visit plan (bound + 1) start f =
      if plan.inputPlace ++ start = plan.outputPlace then .ok () f
      else
        match f.session.disk.get? (plan.inputPlace ++ start) with
        | none => .ok () f
        | some (.file _) => visitFile plan start f
        | some .dir => ((f.session.disk.names (plan.inputPlace ++ start)).forM fun name =>
            visit plan bound (start ++ [name])) f := by
  have hget : ∀ next : Found → Visit Unit, (get >>= next) f = next f f := fun _ => rfl
  rw [visit, Plan.inputPlace, Plan.outputPlace]
  dsimp only
  split
  · rfl
  · rw [hget]
    cases f.session.disk.get? (Path.segments plan.input ++ start) with
    | none => rfl
    | some e => cases e <;> rfl

/-- Nothing is found where no file is to be. -/
theorem covers_nil {d : Disk}
    (h : ∀ rest bytes, d.get? (plan.inputPlace ++ (start ++ rest)) = some (.file bytes) →
      plan.outputPlace <+: plan.inputPlace ++ (start ++ rest) ∨ bound ≤ rest.length) :
    Covers plan bound start d [] where
  ordered := .nil
  below _ h := nomatch h
  outside _ h := nomatch h
  complete rest bytes hfile hout hshort := by
    rcases h rest bytes hfile with hbelow | hlong
    · exact absurd hbelow hout
    · omega

/-- At a file there is this file. -/
theorem covers_file {d : Disk} (htree : d.IsTree) {bytes : List UInt8}
    (hfile : d.get? (plan.inputPlace ++ start) = some (.file bytes))
    (hout : plan.inputPlace ++ start ≠ plan.outputPlace) :
    Covers plan (bound + 1) start d [start] where
  ordered := List.pairwise_singleton _ _
  below way hway := List.mem_singleton.mp hway ▸ List.prefix_rfl
  outside way hway q hq hlong := by
    obtain rfl := List.mem_singleton.mp hway
    rwa [hq.eq_of_length (Nat.le_antisymm hq.length_le hlong)]
  complete rest bytes' hfile' _ _ := by
    by_cases hrest : rest = []
    · rw [hrest, List.append_nil]
      exact List.mem_cons_self
    · rw [← List.append_assoc] at hfile'
      rw [htree.ancestor hrest hfile'] at hfile
      cases hfile

/-- In a directory there is what its names lead to. -/
theorem covers_dir {d : Disk} (htree : d.IsTree) {ways : List (List Text)}
    (hdir : d.get? (plan.inputPlace ++ start) = some .dir)
    (hout : plan.inputPlace ++ start ≠ plan.outputPlace)
    (h : CoversNames plan bound start (d.names (plan.inputPlace ++ start)) d ways) :
    Covers plan (bound + 1) start d ways where
  ordered := h.ordered
  below way hway := by
    obtain ⟨name, _, hname⟩ := h.below way hway
    exact (List.prefix_append start [name]).trans hname
  outside way hway q hq hlong := by
    rcases Nat.lt_or_eq_of_le hlong with hlt | heq
    · exact h.outside way hway q hq hlt
    · obtain ⟨name, _, hname⟩ := h.below way hway
      have hstart : start <+: way := (List.prefix_append start [name]).trans hname
      rwa [(List.prefix_of_prefix_length_le hq hstart heq.ge).eq_of_length heq.symm]
  complete rest bytes hfile hbelow hshort := by
    cases rest with
    | nil =>
      rw [List.append_nil, hdir] at hfile
      cases hfile
    | cons name rest =>
      have hthere : (d.get? (plan.inputPlace ++ start ++ [name])).isSome := by
        have hsplit : plan.inputPlace ++ (start ++ name :: rest) =
            plan.inputPlace ++ start ++ [name] ++ rest := by simp
        rw [hsplit] at hfile
        by_cases hrest : rest = []
        · rw [hrest, List.append_nil] at hfile
          exact Option.isSome_of_eq_some hfile
        · exact Option.isSome_of_eq_some (htree.ancestor hrest hfile)
      exact h.complete name (Disk.mem_names_iff.mpr hthere) rest bytes hfile hbelow
        (Nat.lt_of_succ_lt_succ hshort)

/-- **A visit finds every file below its place once, in the order of the names.** -/
theorem visit_spec (hplan : plan.IsFull) (bound : Nat) (htree : f.session.disk.IsTree)
    (h : visit plan bound start f = .ok () f') :
    ∃ ways, Visited plan ways f f' ∧ Covers plan bound start f.session.disk ways := by
  induction bound generalizing start f f' with
  | zero =>
    cases h
    exact ⟨[], .refl plan f, covers_nil fun rest _ _ => .inr (Nat.zero_le _)⟩
  | succ bound ih =>
    rw [visit_succ] at h
    split at h
    · next hout =>
      cases h
      refine ⟨[], .refl plan f, covers_nil fun rest _ _ => .inl ?_⟩
      rw [← List.append_assoc, hout]
      exact List.prefix_append _ _
    · next hout =>
      split at h
      · next hnone =>
        cases h
        refine ⟨[], .refl plan f, covers_nil fun rest bytes hfile => ?_⟩
        rw [← List.append_assoc] at hfile
        by_cases hrest : rest = []
        · rw [hrest, List.append_nil, hnone] at hfile
          cases hfile
        · rw [htree.ancestor hrest hfile] at hnone
          cases hnone
      · next bytes hfile =>
        exact ⟨[start], visited_visitFile hplan htree hfile h, covers_file htree hfile hout⟩
      · next hdir =>
        obtain ⟨ways, hvisited, hcovers⟩ :=
          forM_visit_spec ih _ (Disk.names_pairwise htree _) htree h
        exact ⟨ways, hvisited, covers_dir htree hdir hout hcovers⟩

/-- No way is longer than the depth says. -/
theorem length_le_depth {d : Disk} {p : Place} (h : p ∈ d.entries.map Prod.fst) :
    p.length ≤ d.depth := by
  have hfold : ∀ (es : List (Place × Entry)) (n : Nat),
      n ≤ es.foldl (fun n e => max n e.1.length) n ∧
        ∀ e ∈ es, e.1.length ≤ es.foldl (fun n e => max n e.1.length) n := by
    intro es
    induction es with
    | nil => exact fun n => ⟨Nat.le_refl n, fun _ he => nomatch he⟩
    | cons x es ih =>
      intro n
      obtain ⟨hn, hes⟩ := ih (max n x.1.length)
      refine ⟨Nat.le_trans (Nat.le_max_left _ _) hn, fun e he => ?_⟩
      rcases List.mem_cons.mp he with rfl | he
      · exact Nat.le_trans (Nat.le_max_right _ _) hn
      · exact hes e he
  obtain ⟨e, he, rfl⟩ := List.mem_map.mp h
  exact (hfold d.entries 0).2 e he

/-- A way that passes the output nowhere does not lead below it, if the input does not lie there. -/
theorem not_prefix_of_outside (hroots : plan.outputPlace <+: plan.inputPlace →
      plan.outputPlace = plan.inputPlace) {way : List Text}
    (h : ∀ q, q <+: way → plan.inputPlace ++ q ≠ plan.outputPlace) :
    ¬plan.outputPlace <+: plan.inputPlace ++ way := by
  intro hbelow
  rcases Nat.le_total plan.outputPlace.length plan.inputPlace.length with hle | hle
  · have hprefix := List.prefix_of_prefix_length_le hbelow (List.prefix_append _ way) hle
    exact h [] (List.nil_prefix) (by rw [List.append_nil, hroots hprefix])
  · obtain ⟨q, hq⟩ := List.prefix_of_prefix_length_le (List.prefix_append _ way) hbelow hle
    rw [← hq, List.prefix_append_right_inj] at hbelow
    exact h q hbelow hq

/-- **What a build finds in its input.** -/
structure Scanned (plan : Plan) (ways : List (List Text)) (s : Session) (f : Found) : Prop
    extends Visited plan ways ⟨[], [], s⟩ f where
  ordered : ways.Pairwise WalkBefore
  outside : ∀ way ∈ ways, ¬plan.outputPlace <+: plan.inputPlace ++ way
  complete : ∀ way bytes, s.disk.get? (plan.inputPlace ++ way) = some (.file bytes) →
    ¬plan.outputPlace <+: plan.inputPlace ++ way → way ∈ ways

theorem findFiles_spec (hplan : plan.IsFull) {s : Session} (htree : s.disk.IsTree)
    (hroots : plan.outputPlace <+: plan.inputPlace → plan.outputPlace = plan.inputPlace)
    (h : findFiles plan ⟨[], [], s⟩ = .ok () f) : ∃ ways, Scanned plan ways s f := by
  unfold findFiles at h
  obtain ⟨_, middle, hcreate, hvisit⟩ := bind_ok h
  obtain ⟨disk, hdisk, rfl⟩ := of_onFiles hcreate
  have hcreated : Disk.Keeps (copies plan []) s.disk disk :=
    (touches_createDir plan.output).ok hdisk
  have hget : ∀ next : Found → Visit Unit,
      (get >>= next) ⟨[], [], { s with disk }⟩ =
        next ⟨[], [], { s with disk }⟩ ⟨[], [], { s with disk }⟩ := fun _ => rfl
  rw [hget] at hvisit
  cases hlocate : disk.locate plan.input with
  | error e =>
    simp only [hlocate] at hvisit
    cases hvisit
  | ok target =>
    simp only [hlocate] at hvisit
    obtain ⟨ways, hvisited, hcovers⟩ := visit_spec hplan _ (hcreated.tree htree) hvisit
    have hprepared : Visited plan [] ⟨[], [], s⟩ ⟨[], [], { s with disk }⟩ :=
      ⟨rfl, rfl, hcreated, fun _ h => (nomatch h), fun _ _ _ h => absurd h (by simp),
        fun _ h => (nomatch h)⟩
    refine ⟨ways, hprepared.append hvisited fun _ h => (nomatch h), hcovers.ordered,
      fun way hway => ?_, fun way bytes hfile hout => ?_⟩
    · exact not_prefix_of_outside hroots fun q hq =>
        hcovers.outside way hway q hq (Nat.zero_le _)
    · obtain ⟨bytes', hfile', _⟩ := hcreated.file hfile
      refine hcovers.complete way bytes' hfile' hout ?_
      have hne : plan.inputPlace ++ way ≠ [] := by
        intro hnil
        rw [hnil] at hfile
        cases hfile
      have hdepth := length_le_depth
        ((Disk.mem_entries_of_isSome hne).mp (Option.isSome_of_eq_some hfile'))
      rw [List.length_append] at hdepth
      show way.length < visitBound disk
      rw [visitBound]
      omega

end Walk

/-- No file of the input has a name with a backslash on its way. -/
def CleanInput (plan : Plan) (d : Disk) : Prop :=
  ∀ way bytes, d.get? (plan.inputPlace ++ way) = some (.file bytes) →
    ¬plan.outputPlace <+: plan.inputPlace ++ way → IsClean way

namespace Scanned

variable {plan : Plan} {ways : List (List Text)} {s : Session} {f : Found}

theorem isName (h : Scanned plan ways s f) (htree : s.disk.IsTree) {way : List Text}
    (hway : way ∈ ways) : ∀ name ∈ way, Path.isName name = true := by
  obtain ⟨bytes, hfile⟩ := h.files way hway
  exact fun name hname =>
    (h.keeps.tree htree).isName hfile name (List.mem_append_right _ hname)

/-- In an input without backslashes, files are found that were there before, since all copies are
    made below the output. -/
theorem of_cleanInput (h : Scanned plan ways s f) (hplan : plan.IsFull) (htree : s.disk.IsTree)
    (hclean : CleanInput plan s.disk) :
    ∀ way ∈ ways, IsClean way ∧
      ∃ bytes, s.disk.get? (plan.inputPlace ++ way) = some (.file bytes) := by
  -- by induction on the files that were found before
  have hfront : ∀ front rest, ways = front ++ rest → ∀ way ∈ front, IsClean way ∧
      ∃ bytes, s.disk.get? (plan.inputPlace ++ way) = some (.file bytes) := by
    intro front
    induction front using List.reverseRecOn with
    | nil => exact fun rest _ way hway => nomatch hway
    | append_singleton front way ih =>
      intro rest hsplit
      rw [List.append_assoc, List.singleton_append] at hsplit
      have hbefore := ih (way :: rest) hsplit
      have hway : way ∈ ways := by
        rw [hsplit]
        exact List.mem_append_right _ List.mem_cons_self
      refine List.forall_mem_append.mpr ⟨hbefore, List.forall_mem_singleton.mpr ?_⟩
      rcases h.source front way rest hsplit with ⟨bytes, hfile⟩ | ⟨other, hother, _, hcopy⟩
      · exact ⟨hclean way bytes hfile (h.outside way hway), bytes, hfile⟩
      · have hmem : other ∈ ways := by
          rw [hsplit]
          exact List.mem_append_left _ hother
        rw [copyPlace_of_isClean hplan (h.isName htree hmem) (hbefore other hother).1] at hcopy
        exact absurd (hcopy ▸ List.prefix_append _ _) (h.outside way hway)
  exact hfront ways [] (List.append_nil _).symm

theorem copyPlace_eq (h : Scanned plan ways s f) (hplan : plan.IsFull) (htree : s.disk.IsTree)
    (hclean : CleanInput plan s.disk) {way : List Text} (hway : way ∈ ways) :
    copyPlace plan way = plan.outputPlace ++ way :=
  copyPlace_of_isClean hplan (h.isName htree hway) (h.of_cleanInput hplan htree hclean way hway).1

end Scanned

end Build

end StyleModules
