import StyleModules.Proofs.BuildOutcome

/-!
What becomes of the files that a build copies.

* `Build.get?_copyPlace`: a copy has the bytes of its file in the end, unless something else is
  written over the copy or, before it is copied, over the file.
* In an input without backslashes a file is copied to the same names below the output, and the
  script of `x.css` stands beside it as `x.js` (`Build.exists_scriptPlace`). So one thing only is
  written over a copy: the script of the style sheet with the same name.
* `Build.copies_survive`: every file that is not compiled is copied, and its copy is there in the
  end, or the script that took its place.
-/

namespace StyleModules

namespace Build

variable {plan : Plan} {f : Found} {ways : List (List Text)} {s : Session} {way : List Text}
  {bytes : List UInt8}

/-! ## 1. What is written over a copy -/

/-- No style sheet among some ways is written to the place of a copy. -/
def Untouched (plan : Plan) (ways : List (List Text)) (way : List Text) : Prop :=
  ∀ target ∈ ways, isTargetWay plan target = true →
    cssPlace plan (relativeOf target) ≠ copyPlace plan way ∧
      scriptPlace plan (relativeOf target) ≠ copyPlace plan way

/-- **A copy that nothing is written over is there in the end.** -/
theorem get?_copyPlace (h : Scanned plan ways s f) (hplan : plan.IsFull) (hway : way ∈ ways)
    (hcopied : isTargetWay plan way = false)
    (hfile : s.disk.get? (plan.inputPlace ++ way) = some (.file bytes))
    (hapart : Apart plan ways way) (huntouched : Untouched plan ways way) :
    (after plan f (requested f).1).disk.get? (copyPlace plan way) = some (.file bytes) := by
  have hcopy := h.copy way hway hcopied bytes hfile hapart
  rw [← disk_requested f] at hcopy
  refine (keeps_compile hplan plan.context (requested f).1 (requested f).2).file_of_not hcopy ?_
  rintro bytes' ⟨front, t, number, rest, m, hsplit, _, hproduct⟩
  have hmem : (t, number) ∈ (requested f).1 := by
    rw [hsplit]
    exact List.mem_append_right _ List.mem_cons_self
  obtain ⟨target, htarget, hcompiled, hrelative⟩ := exists_way h hmem
  obtain ⟨hcss, hscript⟩ := huntouched target htarget hcompiled
  rw [show t = targetOf plan target from hrelative] at hproduct
  rcases hproduct with ⟨hplace, _⟩ | ⟨hplace, _⟩
  · exact absurd hplace.symm hcss
  · exact absurd hplace.symm hscript

/-- The copied files whose copies were made at a place. -/
def copiedTo (plan : Plan) (o : BuildOutput) (p : Place) : List Text :=
  o.copied.filter fun relative => Path.place (Path.join plan.output relative) = p

/-! ## 2. An input without backslashes -/

/-- Names without backslashes make an input without. -/
theorem cleanInput_of_all {d : Disk}
    (h : (d.entries.all fun e => e.1.all fun name => name.all (· != '\\')) = true) :
    CleanInput plan d := by
  intro way bytes hfile _ name hname
  have hne : plan.inputPlace ++ way ≠ [] := by
    intro hnil
    rw [hnil] at hfile
    cases hfile
  have hmem := (Disk.mem_entries_of_isSome hne).mp (Option.isSome_of_eq_some hfile)
  obtain ⟨e, he, heq⟩ := List.mem_map.mp hmem
  have hall := List.all_eq_true.mp (List.all_eq_true.mp h e he) name
    (heq ▸ List.mem_append_right _ hname)
  exact fun hslash => absurd rfl (bne_iff_ne.mp (List.all_eq_true.mp hall _ hslash))

/-- The last of joined names ends them. -/
theorem exists_join_concat (front : List Text) :
    ∃ head, ∀ name, Text.join ['/'] (front ++ [name]) = head ++ name := by
  induction front with
  | nil => exact ⟨[], fun name => Text.join_singleton _ name⟩
  | cons first front ih =>
    obtain ⟨head, hhead⟩ := ih
    refine ⟨first ++ ['/'] ++ head, fun name => ?_⟩
    have hne := List.append_ne_nil_of_right_ne_nil front (List.cons_ne_nil name [])
    obtain ⟨second, rest, hrest⟩ := List.exists_cons_of_ne_nil hne
    rw [List.cons_append, hrest, Text.join_cons_cons, ← hrest, hhead]
    exact (List.append_assoc _ _ _).symm

/-- A file with the extension is compiled. -/
theorem isTargetWay_of_name (hplan : plan.IsStandard) {dir : List Text} {name : Text}
    (hclean : IsClean (dir ++ [name ++ ".css".toList])) :
    isTargetWay plan (dir ++ [name ++ ".css".toList]) = true := by
  obtain ⟨head, hhead⟩ := exists_join_concat dir
  rw [isTargetWay, isTarget_eq, relativeOf_of_isClean hclean, hhead, hplan.extension,
    List.isSuffixOf_iff_suffix, ← List.append_assoc]
  exact List.suffix_append _ _

/-- **The script of a style sheet stands beside it.** -/
theorem exists_scriptPlace (hplan : plan.IsStandard) {target : List Text}
    (hnames : ∀ name ∈ target, Path.isName name = true) (hclean : IsClean target)
    (htarget : isTargetWay plan target = true) :
    ∃ dir name, target = dir ++ [name ++ ".css".toList] ∧
      scriptPlace plan (relativeOf target) =
        plan.outputPlace ++ (dir ++ [name ++ ".js".toList]) := by
  obtain ⟨dir, last, hcss, hscript⟩ := places_of_target hplan htarget
  have hplace : plan.outputPlace ++ target = dir ++ [last ++ ".css".toList] :=
    (copyPlace_of_isClean hplan.toIsFull hnames hclean).symm.trans hcss
  rcases List.eq_nil_or_concat target with rfl | ⟨front, name, rfl⟩
  · rw [isTargetWay, isTarget_eq, List.isSuffixOf_iff_suffix] at htarget
    cases List.suffix_nil.mp htarget
  · rw [List.concat_eq_append, ← List.append_assoc] at hplace
    obtain ⟨rfl, hname⟩ := List.append_inj' hplace rfl
    obtain rfl := List.singleton_inj.mp hname
    refine ⟨front, last, List.concat_eq_append, ?_⟩
    rw [hscript, List.append_assoc]

theorem scriptPlace_of_name (hplan : plan.IsStandard) {dir : List Text} {name : Text}
    (hnames : ∀ part ∈ dir ++ [name ++ ".css".toList], Path.isName part = true)
    (hclean : IsClean (dir ++ [name ++ ".css".toList])) :
    scriptPlace plan (relativeOf (dir ++ [name ++ ".css".toList])) =
      plan.outputPlace ++ (dir ++ [name ++ ".js".toList]) := by
  obtain ⟨dir', name', hsame, hscript⟩ :=
    exists_scriptPlace hplan hnames hclean (isTargetWay_of_name hplan hclean)
  obtain ⟨rfl, hname⟩ := List.append_inj' hsame rfl
  obtain rfl := List.append_cancel_right (List.singleton_inj.mp hname)
  exact hscript

/-- Copies are made apart from each other and from the input. -/
theorem apart_of_cleanInput (h : Scanned plan ways s f) (hplan : plan.IsFull)
    (htree : s.disk.IsTree) (hclean : CleanInput plan s.disk) (hway : way ∈ ways) :
    Apart plan ways way := by
  intro other hother hne _
  rw [h.copyPlace_eq hplan htree hclean hother, h.copyPlace_eq hplan htree hclean hway]
  refine ⟨fun heq => ?_, fun heq => hne (List.append_cancel_left heq)⟩
  exact h.outside way hway (heq ▸ List.prefix_append _ _)

/-- What lies beside a file that was copied is not the output, since a copy lies in a directory. -/
theorem outside_of_beside (h : Scanned plan ways s f) (hplan : plan.IsFull)
    (htree : s.disk.IsTree) (hclean : CleanInput plan s.disk) {dir : List Text} {name other : Text}
    (hway : dir ++ [name] ∈ ways) (hcopied : isTargetWay plan (dir ++ [name]) = false)
    (hother : s.disk.get? (plan.inputPlace ++ (dir ++ [other])) = some (.file bytes)) :
    ¬plan.outputPlace <+: plan.inputPlace ++ (dir ++ [other]) := by
  intro hbelow
  rw [← List.append_assoc] at hbelow hother
  rcases List.prefix_concat_iff.mp hbelow with hsame | hbelow
  · obtain ⟨_, hfile⟩ := (h.of_cleanInput hplan htree hclean _ hway).2
    have hcopy := h.copy _ hway hcopied _ hfile (apart_of_cleanInput h hplan htree hclean hway)
    rw [h.copyPlace_eq hplan htree hclean hway] at hcopy
    have hdir := (h.keeps.tree htree).ancestor (by simp) hcopy
    obtain ⟨_, hstays, _⟩ := h.keeps.file (hsame ▸ hother)
    rw [hdir] at hstays
    cases hstays
  · refine h.outside _ hway (hbelow.trans ?_)
    rw [← List.append_assoc]
    exact List.prefix_append _ _

/-- Only the script of the style sheet with its name is written over a copy. -/
theorem untouched_of_cleanInput (h : Scanned plan ways s f) (hplan : plan.IsStandard)
    (htree : s.disk.IsTree) (hclean : CleanInput plan s.disk) (hway : way ∈ ways)
    (hcopied : isTargetWay plan way = false)
    (halone : ∀ dir name css, way = dir ++ [name ++ ".js".toList] →
      s.disk.get? (plan.inputPlace ++ (dir ++ [name ++ ".css".toList])) ≠ some (.file css)) :
    Untouched plan ways way := by
  have hplace := h.copyPlace_eq hplan.toIsFull htree hclean hway
  intro target htarget hcompiled
  obtain ⟨hnames, css, hcss⟩ := h.of_cleanInput hplan.toIsFull htree hclean target htarget
  constructor
  · intro heq
    have hsame : plan.outputPlace ++ target = plan.outputPlace ++ way :=
      (h.copyPlace_eq hplan.toIsFull htree hclean htarget).symm.trans (heq.trans hplace)
    rw [List.append_cancel_left hsame, hcopied] at hcompiled
    cases hcompiled
  · intro heq
    obtain ⟨dir, name, rfl, hscript⟩ :=
      exists_scriptPlace hplan (h.isName htree htarget) hnames hcompiled
    rw [hscript, hplace] at heq
    exact halone dir name css (List.append_cancel_left heq).symm hcss

/-! ## 3. Builds that are done -/

/-- A build that is done has gone through its input. -/
theorem exists_found {input output : Text} {options : Options} {o : BuildOutput}
    (h : (build input output options s).1 = .done o) :
    ∃ f, findFiles (planOf s.disk input output options) ⟨[], [], s.note [.started]⟩ =
      .ok () f := by
  rw [(build_spec input output options s).1, buildFiles] at h
  cases hfound : findFiles (planOf s.disk input output options) ⟨[], [], s.note [.started]⟩ with
  | ok u f => exact ⟨f, rfl⟩
  | error e f =>
    simp only [hfound] at h
    cases h

/-- The copies at a place are those of the files that are copied there. -/
theorem copiedTo_eq (h : Scanned plan ways s f) {o : BuildOutput} (ho : o.copied = f.copied)
    (p : Place) :
    copiedTo plan o p =
      ((ways.filter (!isTargetWay plan ·)).filter (copyPlace plan · = p)).map relativeOf := by
  rw [copiedTo, ho, h.copied, List.nil_append, List.filter_map]
  rfl

/-- If one copy only was made at its place, it was made apart from the others. -/
theorem apart_of_copiedTo (h : Scanned plan ways s f) (hway : way ∈ ways)
    (hcopied : isTargetWay plan way = false) {o : BuildOutput} (ho : o.copied = f.copied)
    (hone : (copiedTo plan o (copyPlace plan way)).length = 1)
    (hnone : copiedTo plan o (plan.inputPlace ++ way) = []) : Apart plan ways way := by
  have hmem : ∀ {other p}, other ∈ ways → isTargetWay plan other = false →
      copyPlace plan other = p →
      other ∈ (ways.filter (!isTargetWay plan ·)).filter (copyPlace plan · = p) := by
    intro other p hother hfalse hplace
    exact List.mem_filter.mpr ⟨List.mem_filter.mpr ⟨hother, by rw [hfalse]; rfl⟩,
      decide_eq_true hplace⟩
  intro other hother hne hfalse
  constructor
  · intro hplace
    rw [copiedTo_eq h ho, List.map_eq_nil_iff] at hnone
    have hother' := hmem hother hfalse hplace
    rw [hnone] at hother'
    cases hother'
  · intro hplace
    rw [copiedTo_eq h ho, List.length_map, List.length_eq_one_iff] at hone
    obtain ⟨only, honly⟩ := hone
    have hother' := hmem hother hfalse hplace
    have hway' := hmem hway hcopied rfl
    rw [honly, List.mem_singleton] at hother' hway'
    exact hne (hother'.trans hway'.symm)

theorem mem_targets (h : Scanned plan ways s f) {target : List Text} (htarget : target ∈ ways)
    (hcompiled : isTargetWay plan target = true) : targetOf plan target ∈ f.targets := by
  rw [h.targets, List.nil_append]
  exact List.mem_map_of_mem (List.mem_filter.mpr ⟨htarget, hcompiled⟩)

theorem mem_copied (h : Scanned plan ways s f) (hway : way ∈ ways)
    (hcopied : isTargetWay plan way = false) : relativeOf way ∈ f.copied := by
  rw [h.copied, List.nil_append]
  exact List.mem_map_of_mem (List.mem_filter.mpr ⟨hway, by rw [hcopied]; rfl⟩)

/-- In a build that is done, every style sheet has its script in the end. -/
theorem get?_scriptPlace (h : Scanned plan ways s f) (hplan : plan.IsStandard)
    (htree : s.disk.IsTree) (hclean : CleanInput plan s.disk)
    (hall : ∀ front p rest, (requested f).1 = front ++ p :: rest → Succeeds plan f front p)
    {target : List Text} (htarget : target ∈ ways) (hcompiled : isTargetWay plan target = true) :
    ∃ front number rest m, (requested f).1 = front ++ (targetOf plan target, number) :: rest ∧
      (loadedAt plan f front number).1 = some (.ok m) ∧
      (after plan f (requested f).1).disk.get? (scriptPlace plan (relativeOf target)) =
        some (.file (plan.options.encoding.encode
          (plan.options.scriptFormat m.exports (relativeOf target)))) := by
  have hmem := mem_targets h htarget hcompiled
  rw [← map_fst_requested f] at hmem
  obtain ⟨⟨t, number⟩, hp, rfl⟩ := List.mem_map.mp hmem
  obtain ⟨front, rest, hsplit⟩ := List.append_of_mem hp
  obtain ⟨m, disk, hload, hwrite⟩ := hall front _ rest hsplit
  have hnone : none ∉ (compile plan plan.context (requested f).1 (requested f).2).1 :=
    fun hmem => nomatch forall_succeeds_iff.mpr hall none hmem
  have hread := (read_after_build h hplan htree hnone hsplit (.inl hclean) hload hwrite).2
  have hpath := (isAbsolute_outputs hplan.toIsFull (relativeOf target)).2
  exact ⟨front, number, rest, m, hsplit, hload, (Disk.get?_of_read hpath hread).2⟩

/-- The script of a style sheet takes the place of the copy of `x.js`, if this lies beside it. -/
theorem get?_beside (h : Scanned plan ways s f) (hplan : plan.IsStandard)
    (htree : s.disk.IsTree) (hclean : CleanInput plan s.disk)
    (hall : ∀ front p rest, (requested f).1 = front ++ p :: rest → Succeeds plan f front p)
    {dir : List Text} {name : Text} (hway : dir ++ [name ++ ".js".toList] ∈ ways)
    (hcopied : isTargetWay plan (dir ++ [name ++ ".js".toList]) = false)
    (hcss : s.disk.get? (plan.inputPlace ++ (dir ++ [name ++ ".css".toList])) =
      some (.file bytes)) :
    let t := targetOf plan (dir ++ [name ++ ".css".toList])
    ∃ front number rest m, (requested f).1 = front ++ (t, number) :: rest ∧
      (loadedAt plan f front number).1 = some (.ok m) ∧
      (after plan f (requested f).1).disk.get?
          (plan.outputPlace ++ (dir ++ [name ++ ".js".toList])) =
        some (.file (plan.options.encoding.encode
          (plan.options.scriptFormat m.exports t.relative))) := by
  have houtside := outside_of_beside h hplan.toIsFull htree hclean hway hcopied hcss
  have htarget := h.complete _ bytes hcss houtside
  have hways := hclean _ bytes hcss houtside
  rw [← scriptPlace_of_name hplan (h.isName htree htarget) hways]
  exact get?_scriptPlace h hplan htree hclean hall htarget (isTargetWay_of_name hplan hways)

/-- **What becomes of copied files.** Let scripts be named after their style sheets, which have the
    extension `css`. After a build that is done, for every file of the input that lies not below the
    output (none does, if the two lie apart) and that is not compiled:
    * Its path is listed as copied. If nothing else was copied to its place, nothing was copied over
      the file itself, and no style sheet has a file there, then its copy is there with its bytes.
    * In an input without backslashes the place has the same names below the output. The copy is
      there with the bytes of the file unless the file is some `x.js` and `x.css` lies beside it;
      then the script of this style sheet has taken its place. -/
theorem copies_survive (input output : Text) (options : Options) (s : Session) (o : BuildOutput)
    (htree : s.disk.IsTree) (hnaming : options.scriptPath = none)
    (hextension : options.extension = "css".toList)
    (hdone : (build input output options s).1 = .done o) :
    let plan := planOf s.disk input output options
    let final := (build input output options s).2.disk
    ∀ way bytes, s.disk.get? (plan.inputPlace ++ way) = some (.file bytes) →
      ¬plan.outputPlace <+: plan.inputPlace ++ way →
      ".css".toList.isSuffixOf (relativeOf way) = false →
      relativeOf way ∈ o.copied ∧
      ((copiedTo plan o (copyPlace plan way)).length = 1 →
        copiedTo plan o (plan.inputPlace ++ way) = [] →
        (∀ relative ∈ o.compiled, cssPlace plan relative ≠ copyPlace plan way ∧
          scriptPlace plan relative ≠ copyPlace plan way) →
        final.get? (copyPlace plan way) = some (.file bytes)) ∧
      (CleanInput plan s.disk → copyPlace plan way = plan.outputPlace ++ way ∧
        ((∀ dir name css, way = dir ++ [name ++ ".js".toList] →
            s.disk.get? (plan.inputPlace ++ (dir ++ [name ++ ".css".toList])) ≠
              some (.file css)) →
          final.get? (plan.outputPlace ++ way) = some (.file bytes)) ∧
        ∀ dir name css, way = dir ++ [name ++ ".js".toList] →
          s.disk.get? (plan.inputPlace ++ (dir ++ [name ++ ".css".toList])) =
            some (.file css) →
          let t := targetOf plan (dir ++ [name ++ ".css".toList])
          ∃ f front number rest m, findFiles plan ⟨[], [], s.note [.started]⟩ = .ok () f ∧
            (requested f).1 = front ++ (t, number) :: rest ∧
            (loadedAt plan f front number).1 = some (.ok m) ∧
            final.get? (plan.outputPlace ++ way) =
              some (.file (options.encoding.encode
                (options.scriptFormat m.exports t.relative)))) := by
  intro plan final way bytes hfile houtside hsuffix
  have hplan : plan.IsStandard := isStandard_planOf s.disk input output hnaming hextension
  obtain ⟨f, hfound⟩ := exists_found hdone
  obtain ⟨ways, hscan⟩ := findFiles_spec (s := s.note [.started]) hplan.toIsFull htree
    (fun hbelow => absurd (hbelow.trans (List.prefix_append _ way)) houtside) hfound
  obtain ⟨hresult, hdisk, _⟩ := build_spec input output options s
  obtain ⟨ho, hall⟩ := (buildFiles_eq_done_iff hfound o).mp (hresult.symm.trans hdone)
  have hfinal : final = (after plan f (requested f).1).disk :=
    hdisk.trans (congrArg (fun r => r.2.disk) (buildFiles_eq hfound))
  have hcopied : isTargetWay plan way = false := by
    rw [isTargetWay, isTarget_eq, hplan.extension]
    exact hsuffix
  have hway := hscan.complete way bytes hfile houtside
  rw [hfinal]
  refine ⟨?_, fun hone hnone hcompiled => ?_, fun hclean => ?_⟩
  · rw [ho]
    exact mem_copied hscan hway hcopied
  · have hapart := apart_of_copiedTo hscan hway hcopied (by rw [ho]) hone hnone
    refine get?_copyPlace hscan hplan.toIsFull hway hcopied hfile hapart fun target htarget hc => ?_
    refine hcompiled (relativeOf target) ?_
    rw [ho]
    exact List.mem_map_of_mem (mem_targets hscan htarget hc)
  · have hplace := hscan.copyPlace_eq hplan.toIsFull htree hclean hway
    refine ⟨hplace, fun halone => ?_, fun dir name css hsplit hcss => ?_⟩
    · rw [← hplace]
      exact get?_copyPlace hscan hplan.toIsFull hway hcopied hfile
        (apart_of_cleanInput hscan hplan.toIsFull htree hclean hway)
        (untouched_of_cleanInput hscan hplan htree hclean hway hcopied halone)
    · subst hsplit
      obtain ⟨front, number, rest, m, hrequests, hload, hget⟩ :=
        get?_beside hscan hplan htree hclean hall hway hcopied hcss
      exact ⟨f, front, number, rest, m, hfound, hrequests, hload, hget⟩

/-- A style sheet, a script with its name, and another script. -/
def besideDisk : Disk where
  cwd := []
  entries := [
    (["in".toList], .dir),
    (["in".toList, "a.css".toList], .file (Text.utf8 ".a\x7b\x7d".toList)),
    (["in".toList, "a.js".toList], .file (Text.utf8 "hello".toList)),
    (["in".toList, "b.js".toList], .file (Text.utf8 "hello".toList)),
    (["out".toList], .dir)]

def besidePlan : Plan :=
  planOf besideDisk "in".toList "out".toList .default

/-- What is found there, when the scripts have been copied. -/
def besideFound : Found where
  targets := [⟨"/in/a.css".toList, "a.css".toList⟩]
  copied := ["a.js".toList, "b.js".toList]
  session :=
    ⟨(besideDisk.put ["out".toList, "a.js".toList] (.file (Text.utf8 "hello".toList))).put
        ["out".toList, "b.js".toList] (.file (Text.utf8 "hello".toList)), .empty,
      [.started, .copied "/out/a.js".toList, .copied "/out/b.js".toList], 0⟩

theorem findFiles_besideDisk :
    findFiles besidePlan ⟨[], [], (Session.ofDisk besideDisk).note [.started]⟩ =
      .ok () besideFound := by
  have hnames : besideDisk.names ["in".toList] =
      ["a.css".toList, "a.js".toList, "b.js".toList] :=
    Disk.names_of_pairwise (by decide +kernel) (by decide +kernel)
  have hvisit : findFiles besidePlan ⟨[], [], (Session.ofDisk besideDisk).note [.started]⟩ =
      ((besideDisk.names ["in".toList]).forM fun name => visit besidePlan Disk.maxPath [name])
        ⟨[], [], (Session.ofDisk besideDisk).note [.started]⟩ := rfl
  rw [hvisit, hnames]
  rfl

theorem build_besideDisk :
    (build "in".toList "out".toList .default (.ofDisk besideDisk)).1 =
        .done ⟨["a.css".toList], ["a.js".toList, "b.js".toList], 1⟩ ∧
      (build "in".toList "out".toList .default (.ofDisk besideDisk)).2.disk =
        (after besidePlan besideFound (requested besideFound).1).disk := by
  obtain ⟨hresult, hdisk, _⟩ := build_spec "in".toList "out".toList .default (.ofDisk besideDisk)
  have hfiles := buildFiles_eq findFiles_besideDisk
  refine ⟨(hresult.trans (congrArg Prod.fst hfiles)).trans ?_,
    hdisk.trans (congrArg (fun r => r.2.disk) hfiles)⟩
  decide +kernel

theorem copies_survive_beside :
    (build "in".toList "out".toList .default (.ofDisk besideDisk)).1 =
        .done ⟨["a.css".toList], ["a.js".toList, "b.js".toList], 1⟩ ∧
      (build "in".toList "out".toList .default (.ofDisk besideDisk)).2.disk.get?
        ["out".toList, "b.js".toList] = some (.file (Text.utf8 "hello".toList)) := by
  obtain ⟨hdone, _⟩ := build_besideDisk
  have htree : besideDisk.IsTree := ⟨by decide +kernel, by decide +kernel⟩
  obtain ⟨_, _, hclean⟩ := copies_survive "in".toList "out".toList .default (.ofDisk besideDisk) _
    htree rfl rfl hdone ["b.js".toList] (Text.utf8 "hello".toList) (by decide +kernel)
    (by decide +kernel) (by decide +kernel)
  refine ⟨hdone, (hclean (cleanInput_of_all (by decide +kernel))).2.1 fun dir name css hsplit => ?_⟩
  have hlast : [] ++ ["b".toList ++ ".js".toList] = dir ++ [name ++ ".js".toList] := hsplit
  obtain ⟨rfl, hname⟩ := List.append_inj' hlast rfl
  obtain rfl := List.append_cancel_right (List.singleton_inj.mp hname)
  have hnone : besideDisk.get? ["in".toList, "b.css".toList] = none := by decide +kernel
  exact fun hsome => nomatch hnone.symm.trans hsome

/-- The copy of a file can be lost: `a.js` is copied, the build is done, and in the end the script
    of `a.css` stands in its place. -/
theorem copy_overwritten_by_script :
    (∃ o, (build "in".toList "out".toList .default (.ofDisk besideDisk)).1 = .done o ∧
      "a.js".toList ∈ o.copied) ∧
    besideDisk.get? ["in".toList, "a.js".toList] = some (.file (Text.utf8 "hello".toList)) ∧
    (build "in".toList "out".toList .default (.ofDisk besideDisk)).2.disk.get?
        ["out".toList, "a.js".toList] =
      some (.file (Text.utf8 "export default \x7b\n  \"a\": \"_a__a\"\n\x7d;".toList)) := by
  obtain ⟨hdone, hdisk⟩ := build_besideDisk
  rw [hdisk]
  exact ⟨⟨_, hdone, by decide +kernel⟩, by decide +kernel, by decide +kernel⟩

end Build

end StyleModules
