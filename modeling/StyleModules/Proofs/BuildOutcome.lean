import StyleModules.Proofs.InputWalk
import StyleModules.Proofs.ProcessedOnce

/-!
How a build ends, and what it leaves.

* `Build.Succeeds` and `Build.FailsWith` say what becomes of one target at its turn.
* A target is written to two places (`Build.cssPlace`, `Build.scriptPlace`). With the extension
  `css` a style sheet never stands where a script does, and two targets share one place exactly if
  they share both.
* `Build.keeps_compile`: the turns of targets write to their places and leave everything else as it
  was. A target that comes twice is loaded once, so it is written alike (`Build.load_again`).
* `Build.build_outcome`: what is listed, how the build ends, and that every target that can be
  loaded and written has its files in the end.
-/

namespace StyleModules

namespace Build

variable {plan : Plan} {ctx : Context}

/-! ## 1. One target -/

/-- What loading a target gives at its turn, which is after those in front of it. -/
def loadedAt (plan : Plan) (f : Found) (front : List (Target × Nat)) (number : Nat) :
    Option LoadResult × Session :=
  (after plan f front).load plan.context (after plan f front).bound number

/-- A target is loaded, and both of its files are written. -/
def Succeeds (plan : Plan) (f : Found) (front : List (Target × Nat)) (p : Target × Nat) : Prop :=
  ∃ m disk, (loadedAt plan f front p.2).1 = some (.ok m) ∧
    outputs plan m p.1.relative (loadedAt plan f front p.2).2.disk = .ok () disk

/-- A target cannot be loaded, or one of its files cannot be written. -/
def FailsWith (plan : Plan) (f : Found) (front : List (Target × Nat)) (p : Target × Nat)
    (e : BuildError) : Prop :=
  (∃ cause, (loadedAt plan f front p.2).1 = some (.error cause) ∧ e = .load cause) ∨
    ∃ m disk, (loadedAt plan f front p.2).1 = some (.ok m) ∧
      outputs plan m p.1.relative (loadedAt plan f front p.2).2.disk = .error e disk

section Turn

variable {f : Found} {front : List (Target × Nat)} {p : Target × Nat}

/-- What a turn results in: a failure to load, or what writing results in. -/
theorem turn_cases (plan : Plan) (ctx : Context) (t : Target) (number : Nat) (s : Session) :
    ((s.load ctx s.bound number).1 = none ∧ (turn plan ctx t number s).1 = none) ∨
    (∃ cause, (s.load ctx s.bound number).1 = some (.error cause) ∧
      (turn plan ctx t number s).1 = some (.error (.load cause))) ∨
    ∃ m, (s.load ctx s.bound number).1 = some (.ok m) ∧
      ((∃ disk, outputs plan m t.relative (s.load ctx s.bound number).2.disk = .ok () disk ∧
          (turn plan ctx t number s).1 = some (.ok ())) ∨
        ∃ e disk, outputs plan m t.relative (s.load ctx s.bound number).2.disk = .error e disk ∧
          (turn plan ctx t number s).1 = some (.error e)) := by
  unfold turn
  rcases s.load ctx s.bound number with ⟨loaded, s'⟩
  cases loaded with
  | none => exact .inl ⟨rfl, rfl⟩
  | some result =>
    cases result with
    | error cause => exact .inr (.inl ⟨cause, rfl, rfl⟩)
    | ok m =>
      refine .inr (.inr ⟨m, rfl, ?_⟩)
      simp only [writeOutputs_eq]
      cases outputs plan m t.relative s'.disk with
      | ok _ disk => exact .inl ⟨disk, rfl, rfl⟩
      | error e disk => exact .inr ⟨e, disk, rfl, rfl⟩

theorem succeeds_iff :
    Succeeds plan f front p ↔
      (turn plan plan.context p.1 p.2 (after plan f front)).1 = some (.ok ()) := by
  unfold Succeeds loadedAt
  rcases turn_cases plan plan.context p.1 p.2 (after plan f front) with ⟨hload, hturn⟩ |
    ⟨cause, hload, hturn⟩ | ⟨m, hload, ⟨disk, hwrite, hturn⟩ | ⟨e, disk, hwrite, hturn⟩⟩
  · simp [hload, hturn]
  · simp [hload, hturn]
  · exact iff_of_true ⟨m, disk, hload, hwrite⟩ hturn
  · simp [hload, hturn, hwrite]

theorem succeeds_of_turn
    (h : (turn plan plan.context p.1 p.2 (after plan f front)).1.bind Except.toOption = some ()) :
    Succeeds plan f front p :=
  of_turn_ok h

theorem failsWith_iff {e : BuildError} :
    FailsWith plan f front p e ↔
      (turn plan plan.context p.1 p.2 (after plan f front)).1 = some (.error e) := by
  unfold FailsWith loadedAt
  rcases turn_cases plan plan.context p.1 p.2 (after plan f front) with ⟨hload, hturn⟩ |
    ⟨cause, hload, hturn⟩ | ⟨m, hload, ⟨disk, hwrite, hturn⟩ | ⟨e', disk, hwrite, hturn⟩⟩
  · simp [hload, hturn]
  · simp [hload, hturn, eq_comm]
  · simp [hload, hturn, hwrite]
  · simp [hload, hturn, hwrite]

/-- The results of the targets, each with the target it belongs to. -/
theorem compile_split {requests : List (Target × Nat)} {s : Session}
    {results results' : List (Option (Except BuildError Unit))}
    {r : Option (Except BuildError Unit)}
    (h : (compile plan ctx requests s).1 = results ++ r :: results') :
    ∃ front p rest, requests = front ++ p :: rest ∧ results = (compile plan ctx front s).1 ∧
      r = (turn plan ctx p.1 p.2 (compile plan ctx front s).2).1 := by
  induction requests generalizing s results with
  | nil =>
    rw [compile] at h
    cases results <;> cases h
  | cons p requests ih =>
    obtain ⟨t, number⟩ := p
    rw [compile_cons] at h
    cases results with
    | nil =>
      obtain ⟨hr, _⟩ := List.cons.inj h
      exact ⟨[], (t, number), requests, rfl, rfl, hr.symm⟩
    | cons r' results =>
      obtain ⟨hr', hrest⟩ := List.cons.inj h
      obtain ⟨front, p, rest, rfl, rfl, hr⟩ := ih hrest
      refine ⟨(t, number) :: front, p, rest, rfl, ?_, ?_⟩
      · rw [compile_cons, hr']
      · rw [compile_cons]
        exact hr

/-- All of the first targets succeed. -/
theorem forall_succeeds_iff {front : List (Target × Nat)} :
    (∀ r ∈ (compile plan plan.context front (requested f).2).1, r = some (.ok ())) ↔
      ∀ front' p rest, front = front' ++ p :: rest → Succeeds plan f front' p := by
  constructor
  · rintro h front' ⟨t, number⟩ rest rfl
    rw [succeeds_iff]
    refine h _ ?_
    rw [compile_append, compile_cons]
    exact List.mem_append_right _ List.mem_cons_self
  · intro h r hr
    obtain ⟨results, results', hsplit⟩ := List.append_of_mem hr
    obtain ⟨front', p, rest, rfl, _, rfl⟩ := compile_split hsplit
    exact succeeds_iff.mp (h front' p rest rfl)

end Turn

/-! ## 2. Where targets are written -/

/-- The place of the style sheet of a target. -/
def cssPlace (plan : Plan) (relative : Text) : Place :=
  Path.place (cssFile plan relative)

/-- The place of the script of a target. -/
def scriptPlace (plan : Plan) (relative : Text) : Place :=
  Path.place (scriptFile plan relative)

/-- Scripts have the names of their style sheets, and style sheets are those with the extension
    `css`. -/
structure Plan.IsStandard (plan : Plan) : Prop extends plan.IsFull where
  naming : plan.options.scriptPath = none
  extension : plan.options.extension = "css".toList

/-- The part of a path behind its last `/`. -/
theorem exists_last_part (stem : Text) :
    (∀ c ∈ stem, (c == '/') = false) ∨
      ∃ front last, stem = front ++ '/' :: last ∧ ∀ c ∈ last, (c == '/') = false := by
  induction stem with
  | nil => exact .inl fun _ h => nomatch h
  | cons c stem ih =>
    rcases ih with hnone | ⟨front, last, rfl, hlast⟩
    · by_cases hc : c = '/'
      · exact .inr ⟨[], stem, by rw [hc]; rfl, hnone⟩
      · exact .inl (List.forall_mem_cons.mpr ⟨beq_eq_false_iff_ne.mpr hc, hnone⟩)
    · exact .inr ⟨c :: front, last, rfl, hlast⟩

/-- What is put behind a path changes its last segment only. -/
theorem segments_append_ending (stem : Text) :
    ∃ front last, ∀ ending, Path.IsSegment ending →
      Path.segments (stem ++ ending) = front ++ [last ++ ending] := by
  have hone : ∀ {last ending : Text}, (∀ c ∈ last, (c == '/') = false) → Path.IsSegment ending →
      Path.segments (last ++ ending) = [last ++ ending] := by
    intro last ending hlast hending
    unfold Path.segments
    rw [Text.splitBy_of_forall (List.forall_mem_append.mpr ⟨hlast, hending.2⟩)]
    simp [hending.1]
  rcases exists_last_part stem with hnone | ⟨front, last, rfl, hlast⟩
  · exact ⟨[], stem, fun ending hending => hone hnone hending⟩
  · refine ⟨Path.segments front, last, fun ending hending => ?_⟩
    rw [List.append_assoc, List.cons_append, Path.segments_append_slash, hone hlast hending]

/-- What is put behind a path of the output changes the last name of its place only. -/
theorem place_append_ending (plan : Plan) (stem : Text) :
    ∃ dir last, ∀ ending, Path.IsSegment ending → last ++ ending ≠ Path.here →
      last ++ ending ≠ Path.above →
      Path.place (Path.join plan.output (stem ++ ending)) = dir ++ [last ++ ending] := by
  obtain ⟨front, last, hsegments⟩ := segments_append_ending stem
  have hresolve : ∀ (segs : List Text) {name : Text}, name ≠ Path.here → name ≠ Path.above →
      Path.resolve true (segs ++ [name]) = Path.resolve true segs ++ [name] := by
    intro segs name hhere habove
    rw [Path.resolve, Path.resolve, List.foldl_append, List.foldl_cons, List.foldl_nil,
      Path.enter_name true _ hhere habove, List.reverse_cons]
  have habsolute : ∀ ending, Path.IsSegment ending →
      Path.isAbsolute (stem ++ ending) = Path.isAbsolute stem := by
    intro ending hending
    cases stem with
    | nil =>
      cases ending with
      | nil => rfl
      | cons c ending => simpa [Path.isAbsolute] using hending.2 c List.mem_cons_self
    | cons c stem => rfl
  cases hstem : Path.isAbsolute stem with
  | true =>
    refine ⟨Path.resolve true front, last, fun ending hending hhere habove => ?_⟩
    have hjoin : Path.join plan.output (stem ++ ending) = stem ++ ending := by
      rw [Path.join, if_pos ((habsolute ending hending).trans hstem)]
    rw [Path.place, hjoin, hsegments ending hending, hresolve _ hhere habove]
  | false =>
    refine ⟨Path.resolve true (plan.outputPlace ++ front), last,
      fun ending hending hhere habove => ?_⟩
    rw [Path.place, Path.segments_join ((habsolute ending hending).trans hstem),
      hsegments ending hending, ← List.append_assoc, hresolve _ hhere habove]
    rfl

/-- The path of a target has the extension, and that of its script has another. -/
theorem stem_of_target (hplan : plan.IsStandard) {relative : Text}
    (h : isTarget relative plan.options.extension = true) :
    ∃ stem, relative = stem ++ ".css".toList ∧
      scriptPath plan.options relative = stem ++ ".js".toList := by
  unfold isTarget at h
  obtain ⟨stem, hstem⟩ := Option.isSome_iff_exists.mp h
  obtain ⟨dotted, hdotted, hdot⟩ := Option.bind_eq_some_iff.mp hstem
  refine ⟨stem, ?_, ?_⟩
  · rw [← Text.append_of_isSuffixOf? hdotted, ← Text.append_of_isSuffixOf? hdot, hplan.extension,
      List.append_assoc]
    rfl
  · rw [scriptPath, hplan.naming]
    simp only [Output.scriptPath, hstem, Option.getD_some]

/-- The two places of a target: in one directory, by one name with two extensions. -/
theorem places_of_target (hplan : plan.IsStandard) {relative : Text}
    (h : isTarget relative plan.options.extension = true) :
    ∃ dir last, cssPlace plan relative = dir ++ [last ++ ".css".toList] ∧
      scriptPlace plan relative = dir ++ [last ++ ".js".toList] := by
  obtain ⟨stem, rfl, hscript⟩ := stem_of_target hplan h
  obtain ⟨dir, last, hplace⟩ := place_append_ending plan stem
  have hlong : ∀ {ending : Text}, 2 < ending.length →
      last ++ ending ≠ Path.here ∧ last ++ ending ≠ Path.above := by
    intro ending hlength
    have hne : ∀ name : Text, name.length ≤ 2 → last ++ ending ≠ name := by
      rintro name hshort rfl
      rw [List.length_append] at hshort
      omega
    exact ⟨hne Path.here (by decide), hne Path.above (by decide)⟩
  have hcss : Path.isName ".css".toList = true := by decide
  have hjs : Path.isName ".js".toList = true := by decide
  refine ⟨dir, last, ?_, ?_⟩
  · exact hplace _ (Path.isName_iff.mp hcss).1 (hlong (by decide)).1 (hlong (by decide)).2
  · rw [scriptPlace, scriptFile, hscript]
    exact hplace _ (Path.isName_iff.mp hjs).1 (hlong (by decide)).1 (hlong (by decide)).2

/-- A style sheet never stands where a script does. -/
theorem cssPlace_ne_scriptPlace (hplan : plan.IsStandard) {relative other : Text}
    (h : isTarget relative plan.options.extension = true)
    (ho : isTarget other plan.options.extension = true) :
    cssPlace plan relative ≠ scriptPlace plan other := by
  obtain ⟨dir, last, hcss, _⟩ := places_of_target hplan h
  obtain ⟨dir', last', _, hscript⟩ := places_of_target hplan ho
  intro heq
  rw [hcss, hscript] at heq
  have hname := congrArg List.reverse (List.singleton_inj.mp (List.append_inj' heq rfl).2)
  simp at hname

/-- Targets that share the place of their scripts share that of their style sheets. -/
theorem cssPlace_eq_of_scriptPlace (hplan : plan.IsStandard) {relative other : Text}
    (h : isTarget relative plan.options.extension = true)
    (ho : isTarget other plan.options.extension = true)
    (heq : scriptPlace plan relative = scriptPlace plan other) :
    cssPlace plan relative = cssPlace plan other := by
  obtain ⟨dir, last, hcss, hscript⟩ := places_of_target hplan h
  obtain ⟨dir', last', hcss', hscript'⟩ := places_of_target hplan ho
  rw [hscript, hscript'] at heq
  obtain ⟨rfl, hname⟩ := List.append_inj' heq rfl
  obtain ⟨rfl, _⟩ := List.append_inj' (List.singleton_inj.mp hname) rfl
  rw [hcss, hcss']

/-! ## 3. What the turns of targets leave -/

/-- What is written for a target. -/
def product (plan : Plan) (m : LoadedModule) (relative : Text) : Place → List UInt8 → Prop :=
  fun p bytes =>
    p = cssPlace plan relative ∧
        bytes = plan.options.encoding.encode (cssText plan.options m relative) ∨
      p = scriptPlace plan relative ∧
        bytes = plan.options.encoding.encode (plan.options.scriptFormat m.exports relative)

/-- What is written at the turns of targets. -/
def products (plan : Plan) (ctx : Context) (requests : List (Target × Nat)) (s : Session) :
    Place → List UInt8 → Prop :=
  fun p bytes => ∃ front t number rest m, requests = front ++ (t, number) :: rest ∧
    ((compile plan ctx front s).2.load ctx (compile plan ctx front s).2.bound number).1 =
      some (.ok m) ∧
    product plan m t.relative p bytes

theorem isAbsolute_outputs (hplan : plan.IsFull) (relative : Text) :
    Path.isAbsolute (cssFile plan relative) = true ∧
      Path.isAbsolute (scriptFile plan relative) = true :=
  ⟨Path.isAbsolute_join hplan.output.absolute _, Path.isAbsolute_join hplan.output.absolute _⟩

/-- Writing the files of a target writes to their places. -/
theorem touches_outputs (hplan : plan.IsFull) (m : LoadedModule) (relative : Text) :
    Disk.Touches (product plan m relative) (outputs plan m relative) := by
  obtain ⟨hcss, hscript⟩ := isAbsolute_outputs hplan relative
  refine Disk.touches_bind ((touches_writeFile hcss _ _).mono fun p bytes h => .inl h)
    ((touches_writeFile hscript _ _).mono fun p bytes h => .inr h)

theorem keeps_turn (hplan : plan.IsFull) (ctx : Context) (t : Target) (number : Nat) (s : Session) :
    Disk.Keeps
      (fun p bytes => ∃ m, (s.load ctx s.bound number).1 = some (.ok m) ∧
        product plan m t.relative p bytes)
      s.disk (turn plan ctx t number s).2.disk := by
  have hdisk := (Memo.advances_load ctx s.bound number s).disk
  unfold turn
  generalize s.load ctx s.bound number = answer at hdisk ⊢
  obtain ⟨loaded, s'⟩ := answer
  have hsame : s'.disk = s.disk := hdisk
  rw [← hsame]
  cases loaded with
  | none => exact .refl _
  | some result =>
    cases result with
    | error cause => exact .refl _
    | ok m =>
      have hproduct : ∀ p bytes, product plan m t.relative p bytes →
          ∃ m', some (Except.ok m) = some (Except.ok m' : LoadResult) ∧
            product plan m' t.relative p bytes := fun p bytes h => ⟨m, rfl, h⟩
      simp only [writeOutputs_eq]
      cases hwrite : outputs plan m t.relative s'.disk with
      | ok _ disk => exact ((touches_outputs hplan m t.relative).ok hwrite).mono hproduct
      | error e disk => exact ((touches_outputs hplan m t.relative).error hwrite).mono hproduct

/-- **The turns of targets write to their places and change nothing else.** -/
theorem keeps_compile (hplan : plan.IsFull) (ctx : Context) (requests : List (Target × Nat))
    (s : Session) :
    Disk.Keeps (products plan ctx requests s) s.disk (compile plan ctx requests s).2.disk := by
  induction requests generalizing s with
  | nil => exact .refl _
  | cons p requests ih =>
    obtain ⟨t, number⟩ := p
    rw [compile_cons]
    refine ((keeps_turn hplan ctx t number s).mono ?_).trans ((ih _).mono ?_)
    · rintro p bytes ⟨m, hload, hproduct⟩
      exact ⟨[], t, number, requests, m, rfl, hload, hproduct⟩
    · rintro p bytes ⟨front, t', number', rest, m, rfl, hload, hproduct⟩
      refine ⟨(t, number) :: front, t', number', rest, m, rfl, ?_, hproduct⟩
      rw [compile_cons]
      exact hload

theorem load_of_finished {s : Session} {number : Nat} {r : LoadResult}
    (h : s.cache.slot? number = some (.finished r)) :
    (s.load ctx s.bound number).1 = some r := by
  obtain ⟨bound, hbound⟩ : ∃ bound, s.bound = bound + 1 := by
    refine Nat.exists_eq_succ_of_ne_zero (Nat.ne_of_gt ?_)
    exact Nat.add_pos_left (Nat.mul_pos (Nat.succ_pos _) (by decide)) _
  rw [hbound, Session.load, h]

/-- What was loaded is loaded alike from then on, if nothing is stalled. -/
theorem load_again {t : Target} {number : Nat} {middle : List (Target × Nat)} {s : Session}
    (h : none ∉ (compile plan ctx ((t, number) :: middle) s).1) {r : LoadResult}
    (hload : (s.load ctx s.bound number).1 = some r) :
    ((compile plan ctx ((t, number) :: middle) s).2.load ctx
      (compile plan ctx ((t, number) :: middle) s).2.bound number).1 = some r := by
  obtain ⟨_, hcache, _⟩ := turn_spec plan ctx t number s
  rw [compile_cons] at h ⊢
  have hmiddle := (not_or.mp (List.mem_cons.not.mp h)).2
  have hfinished := (Memo.load_completes ctx s.bound number s r hload).2
  rw [← hcache] at hfinished
  exact load_of_finished ((settles_compile middle hmiddle).1.finished hfinished)

/-- Right after a target was written, both of its files can be read. -/
theorem read_of_outputs (hplan : plan.IsStandard) {m : LoadedModule} {relative : Text}
    (htarget : isTarget relative plan.options.extension = true) {d d' : Disk}
    (h : outputs plan m relative d = .ok () d') :
    d'.read (cssFile plan relative) =
        .ok (plan.options.encoding.encode (cssText plan.options m relative)) ∧
      d'.read (scriptFile plan relative) =
        .ok (plan.options.encoding.encode (plan.options.scriptFormat m.exports relative)) := by
  obtain ⟨middle, _, hcss, hscript, hread⟩ := written_of_outputs h
  obtain ⟨hcssPath, hscriptPath⟩ := isAbsolute_outputs hplan.toIsFull relative
  refine ⟨((touches_writeFile hscriptPath _ _).ok hscript).read hcssPath hcss ?_, hread⟩
  rintro _ ⟨hplace, _⟩
  exact absurd hplace (cssPlace_ne_scriptPlace hplan htarget htarget)

section Rewritten

variable {t : Target} {number : Nat} {rest : List (Target × Nat)} {s : Session} {m : LoadedModule}

/-- What is written to the places of a target at later turns is what was written at its own. -/
theorem product_of_products (hplan : plan.IsStandard)
    (htargets : ∀ p ∈ (t, number) :: rest, isTarget p.1.relative plan.options.extension = true)
    (hnone : none ∉ (compile plan ctx ((t, number) :: rest) s).1)
    (hsame : ∀ p ∈ rest, cssPlace plan p.1.relative = cssPlace plan t.relative →
      p.1.relative = t.relative ∧ p.2 = number)
    (hload : (s.load ctx s.bound number).1 = some (.ok m)) {p : Place} {bytes : List UInt8}
    (hplace : p = cssPlace plan t.relative ∨ p = scriptPlace plan t.relative)
    (hp : products plan ctx rest (turn plan ctx t number s).2 p bytes) :
    product plan m t.relative p bytes := by
  obtain ⟨middle, t', number', rest', m', rfl, hload', hproduct⟩ := hp
  have htarget := htargets _ List.mem_cons_self
  have htarget' := htargets (t', number') (by simp)
  have hcss : cssPlace plan t'.relative = cssPlace plan t.relative := by
    rcases hproduct with ⟨hp, _⟩ | ⟨hp, _⟩ <;> rcases hplace with hp' | hp'
    · exact hp.symm.trans hp'
    · exact absurd (hp.symm.trans hp') (cssPlace_ne_scriptPlace hplan htarget' htarget)
    · exact absurd (hp'.symm.trans hp) (cssPlace_ne_scriptPlace hplan htarget htarget')
    · exact cssPlace_eq_of_scriptPlace hplan htarget' htarget (hp.symm.trans hp')
  obtain ⟨hrelative, rfl⟩ := hsame (t', number') (by simp) hcss
  -- it is the same target, so it is loaded as it was at its own turn
  have hagain : none ∉ (compile plan ctx ((t, number') :: middle) s).1 := by
    rw [← List.cons_append, compile_append] at hnone
    exact fun h => hnone (List.mem_append_left _ h)
  have hm := load_again hagain hload
  rw [compile_cons] at hm
  obtain rfl : m' = m := by
    rw [hload'] at hm
    cases hm
    rfl
  rwa [hrelative] at hproduct

/-- **A target that was written keeps its files**, if no other target is written to its places. -/
theorem read_after_compile (hplan : plan.IsStandard)
    (htargets : ∀ p ∈ (t, number) :: rest, isTarget p.1.relative plan.options.extension = true)
    (hnone : none ∉ (compile plan ctx ((t, number) :: rest) s).1)
    (hsame : ∀ p ∈ rest, cssPlace plan p.1.relative = cssPlace plan t.relative →
      p.1.relative = t.relative ∧ p.2 = number)
    (hload : (s.load ctx s.bound number).1 = some (.ok m)) {disk : Disk}
    (hwrite : outputs plan m t.relative (s.load ctx s.bound number).2.disk = .ok () disk) :
    (compile plan ctx ((t, number) :: rest) s).2.disk.read (cssFile plan t.relative) =
        .ok (plan.options.encoding.encode (cssText plan.options m t.relative)) ∧
      (compile plan ctx ((t, number) :: rest) s).2.disk.read (scriptFile plan t.relative) =
        .ok (plan.options.encoding.encode
          (plan.options.scriptFormat m.exports t.relative)) := by
  have htarget := htargets _ List.mem_cons_self
  have hne := cssPlace_ne_scriptPlace hplan htarget htarget
  obtain ⟨hcssPath, hscriptPath⟩ := isAbsolute_outputs hplan.toIsFull t.relative
  have hturn : (turn plan ctx t number s).2.disk = disk := by
    rw [turn_of_ok (Prod.ext hload rfl) hwrite]
    rfl
  obtain ⟨hcss, hscript⟩ := read_of_outputs hplan htarget hwrite
  have hkeeps := keeps_compile hplan.toIsFull ctx rest (turn plan ctx t number s).2
  rw [hturn] at hkeeps
  have hproducts := fun p bytes =>
    @product_of_products plan ctx t number rest s m hplan htargets hnone hsame hload p bytes
  rw [compile_cons]
  refine ⟨hkeeps.read hcssPath hcss fun bytes hp => ?_,
    hkeeps.read hscriptPath hscript fun bytes hp => ?_⟩
  · rcases hproducts _ bytes (.inl rfl) hp with ⟨_, hbytes⟩ | ⟨hplace, _⟩
    · exact hbytes
    · exact absurd hplace hne
  · rcases hproducts _ bytes (.inr rfl) hp with ⟨hplace, _⟩ | ⟨_, hbytes⟩
    · exact absurd hplace.symm hne
    · exact hbytes

end Rewritten

/-! ## 4. The whole build -/

/-- What is built, the paths being read from the working directory. -/
def planOf (d : Disk) (input output : Text) (options : Options) : Plan :=
  ⟨absolute d input, absolute d output, options⟩

theorem isFull_absolute (d : Disk) (path : Text) : Path.IsFull (absolute d path) := by
  have hnormal : ∀ {t : Text}, Path.isAbsolute t = true → Path.IsFull (Path.normalize t) := by
    intro t ht
    refine ⟨?_, Path.normalize_normalize t⟩
    rw [Path.normalize]
    simp only [Path.isAbsolute_toPosix ht]
    rfl
  unfold absolute
  split
  · next hpath => exact hnormal hpath
  · exact hnormal (Path.isAbsolute_join rfl path)

theorem isFull_planOf (d : Disk) (input output : Text) (options : Options) :
    (planOf d input output options).IsFull :=
  ⟨isFull_absolute d input, isFull_absolute d output⟩

theorem isStandard_planOf (d : Disk) (input output : Text) {options : Options}
    (hnaming : options.scriptPath = none) (hextension : options.extension = "css".toList) :
    (planOf d input output options).IsStandard :=
  { isFull_planOf d input output options with naming := hnaming, extension := hextension }

/-- What a build says of its end changes neither the files nor the loads. -/
theorem build_spec (input output : Text) (options : Options) (s : Session) :
    let files := buildFiles (planOf s.disk input output options) (s.note [.started])
    (build input output options s).1 = files.1 ∧
      (build input output options s).2.disk = files.2.disk ∧
      (build input output options s).2.cache = files.2.cache := by
  dsimp only [build, planOf]
  generalize buildFiles ⟨absolute s.disk input, absolute s.disk output, options⟩
    (s.note [.started]) = files
  obtain ⟨result, s'⟩ := files
  cases result with
  | done output => exact ⟨rfl, rfl, rfl⟩
  | failed e => exact ⟨rfl, rfl, rfl⟩
  | stalled => exact ⟨rfl, rfl, rfl⟩

/-- A file is compiled exactly if its path ends in the extension, behind a dot. -/
theorem isTarget_eq (relative extension : Text) :
    isTarget relative extension = ('.' :: extension).isSuffixOf relative := by
  rw [Bool.eq_iff_iff, List.isSuffixOf_iff_suffix]
  constructor
  · intro h
    obtain ⟨stem, hstem⟩ := Option.isSome_iff_exists.mp h
    obtain ⟨dotted, hdotted, hdot⟩ := Option.bind_eq_some_iff.mp hstem
    refine ⟨stem, ?_⟩
    rw [← Text.append_of_isSuffixOf? hdotted, ← Text.append_of_isSuffixOf? hdot,
      List.append_assoc]
    rfl
  · rintro ⟨stem, rfl⟩
    have hdot : stem ++ '.' :: extension = (stem ++ ".".toList) ++ extension := by
      rw [List.append_assoc]
      rfl
    unfold isTarget Output.stripExtension?
    rw [hdot, Text.isSuffixOf?_append, Option.bind_some, Text.isSuffixOf?_append]
    rfl

section Found

variable {f : Found} {ways : List (List Text)} {s : Session} {p q : Target × Nat}

/-- Every request is for a file that was found. -/
theorem exists_way (h : Scanned plan ways s f) (hp : p ∈ (requested f).1) :
    ∃ way ∈ ways, isTargetWay plan way = true ∧ p.1 = targetOf plan way := by
  have hmem : p.1 ∈ f.targets := map_fst_requested f ▸ List.mem_map_of_mem hp
  rw [h.targets, List.nil_append] at hmem
  obtain ⟨way, hway, htarget⟩ := List.mem_map.mp hmem
  obtain ⟨hmem, hway⟩ := List.mem_filter.mp hway
  exact ⟨way, hmem, hway, htarget.symm⟩

theorem isTarget_of_request (h : Scanned plan ways s f) (hp : p ∈ (requested f).1) :
    isTarget p.1.relative plan.options.extension = true := by
  obtain ⟨way, _, hway, htarget⟩ := exists_way h hp
  rw [htarget]
  exact hway

/-- Targets with one relative path are loaded under one number. -/
theorem number_of_relative (h : Scanned plan ways s f) (hplan : plan.IsFull)
    (htree : s.disk.IsTree) (hp : p ∈ (requested f).1) (hq : q ∈ (requested f).1)
    (hpq : p.1.relative = q.1.relative) : p.2 = q.2 := by
  obtain ⟨_, _, hslots⟩ := requestTargets_spec f.targets { f.session with cache := .empty }
  obtain ⟨way, hway, _, htarget⟩ := exists_way h hp
  obtain ⟨way', hway', _, htarget'⟩ := exists_way h hq
  have hpath : p.1.path = q.1.path := by
    have hrelative : relativeOf way = relativeOf way' := by
      rwa [htarget, htarget'] at hpq
    rw [htarget, htarget', path_targetOf hplan (h.isName htree hway),
      path_targetOf hplan (h.isName htree hway'), hrelative]
  have hslot := hslots p hp
  rw [hpath, hslots q hq] at hslot
  exact (Option.some.inj hslot).symm

/-- In an input without backslashes, every target has its own places. -/
theorem relative_of_cssPlace (h : Scanned plan ways s f) (hplan : plan.IsFull)
    (htree : s.disk.IsTree) (hclean : CleanInput plan s.disk) (hp : p ∈ (requested f).1)
    (hq : q ∈ (requested f).1) (hpq : cssPlace plan p.1.relative = cssPlace plan q.1.relative) :
    p.1.relative = q.1.relative := by
  have hplace : ∀ {way}, way ∈ ways → cssPlace plan (relativeOf way) = plan.outputPlace ++ way :=
    fun hway => h.copyPlace_eq hplan htree hclean hway
  obtain ⟨way, hway, _, htarget⟩ := exists_way h hp
  obtain ⟨way', hway', _, htarget'⟩ := exists_way h hq
  rw [htarget, htarget'] at hpq ⊢
  have hways : plan.outputPlace ++ way = plan.outputPlace ++ way' := by
    rw [← hplace hway, ← hplace hway']
    exact hpq
  rw [List.append_cancel_left hways]

/-- A target that succeeds has its files when the build is over. -/
theorem read_after_build (h : Scanned plan ways s f) (hplan : plan.IsStandard)
    (htree : s.disk.IsTree)
    (hnone : none ∉ (compile plan plan.context (requested f).1 (requested f).2).1)
    {front rest : List (Target × Nat)} {t : Target} {number : Nat}
    (hsplit : (requested f).1 = front ++ (t, number) :: rest)
    (hplaces : CleanInput plan s.disk ∨ ∀ q ∈ rest,
      cssPlace plan q.1.relative = cssPlace plan t.relative → q.1.relative = t.relative)
    {m : LoadedModule} (hload : (loadedAt plan f front number).1 = some (.ok m)) {disk : Disk}
    (hwrite : outputs plan m t.relative (loadedAt plan f front number).2.disk = .ok () disk) :
    (after plan f (requested f).1).disk.read (cssFile plan t.relative) =
        .ok (plan.options.encoding.encode (cssText plan.options m t.relative)) ∧
      (after plan f (requested f).1).disk.read (scriptFile plan t.relative) =
        .ok (plan.options.encoding.encode
          (plan.options.scriptFormat m.exports t.relative)) := by
  have hmem : ∀ q ∈ (t, number) :: rest, q ∈ (requested f).1 := by
    intro q hq
    rw [hsplit]
    exact List.mem_append_right _ hq
  have hself := hmem _ List.mem_cons_self
  have hrest : ∀ q ∈ rest, q ∈ (requested f).1 := fun q hq => hmem q (List.mem_cons_of_mem _ hq)
  rw [hsplit, compile_append] at hnone
  rw [hsplit, after_append]
  refine read_after_compile hplan (fun q hq => isTarget_of_request h (hmem q hq))
    (fun hmem => hnone (List.mem_append_right _ hmem)) (fun q hq hplace => ?_) hload hwrite
  have hrelative : q.1.relative = t.relative := by
    rcases hplaces with hclean | hplaces
    · exact relative_of_cssPlace h hplan.toIsFull htree hclean (hrest q hq) hself hplace
    · exact hplaces q hq hplace
  exact ⟨hrelative, number_of_relative h hplan.toIsFull htree (hrest q hq) hself hrelative⟩

/-- A file that was found was there before or is a copy of another that was found. -/
theorem source_of_scanned (h : Scanned plan ways s f) (hplan : plan.IsFull)
    (htree : s.disk.IsTree) {way : List Text} (hway : way ∈ ways) :
    (∃ bytes, s.disk.get? (plan.inputPlace ++ way) = some (.file bytes)) ∨
      ¬CleanInput plan s.disk ∧ ∃ other ∈ ways, isTargetWay plan other = false ∧
        plan.inputPlace ++ way = copyPlace plan other := by
  by_cases hclean : CleanInput plan s.disk
  · exact .inl (h.of_cleanInput hplan htree hclean way hway).2
  · obtain ⟨front, rest, hsplit⟩ := List.append_of_mem hway
    refine (h.source front way rest hsplit).imp_right fun ⟨other, hother, hcopy⟩ => ?_
    rw [hsplit]
    exact ⟨hclean, other, List.mem_append_left _ hother, hcopy⟩

/-- What is listed, in the order in which it was found. -/
theorem lists_of_scanned (h : Scanned plan ways s f) :
    f.targets.map Target.relative =
        (ways.map relativeOf).filter (('.' :: plan.options.extension).isSuffixOf ·) ∧
      f.copied =
        (ways.map relativeOf).filter (!('.' :: plan.options.extension).isSuffixOf ·) := by
  have hway : ∀ way, isTargetWay plan way =
      ('.' :: plan.options.extension).isSuffixOf (relativeOf way) :=
    fun way => isTarget_eq (relativeOf way) plan.options.extension
  have hrelative : Target.relative ∘ targetOf plan = relativeOf := rfl
  rw [h.targets, h.copied, List.nil_append, List.nil_append, List.map_map, hrelative,
    List.filter_map, List.filter_map]
  constructor
  · exact congrArg (List.map relativeOf) (List.filter_congr fun way _ => hway way)
  · refine congrArg (List.map relativeOf) (List.filter_congr fun way _ => ?_)
    rw [hway way]
    rfl

/-- A build is done exactly if all its targets succeed. -/
theorem buildFiles_eq_done_iff (hfound : findFiles plan ⟨[], [], s⟩ = .ok () f) (o : BuildOutput) :
    (buildFiles plan s).1 = .done o ↔
      o = ⟨f.targets.map Target.relative, f.copied, (buildFiles plan s).2.cache.started⟩ ∧
        ∀ front p rest, (requested f).1 = front ++ p :: rest → Succeeds plan f front p := by
  rw [buildFiles_eq hfound, conclude_eq_done_iff, forall_succeeds_iff]

/-- A build that is not stalled fails exactly with the failure of the first target that fails. -/
theorem buildFiles_eq_failed_iff (hfound : findFiles plan ⟨[], [], s⟩ = .ok () f)
    (hnone : none ∉ (compile plan plan.context (requested f).1 (requested f).2).1)
    (e : BuildError) :
    (buildFiles plan s).1 = .failed e ↔
      ∃ front p rest, (requested f).1 = front ++ p :: rest ∧ FailsWith plan f front p e ∧
        ∀ front' q rest', front = front' ++ q :: rest' → Succeeds plan f front' q := by
  rw [buildFiles_eq hfound, conclude_eq_failed_iff _ _ hnone]
  constructor
  · rintro ⟨results, results', hsplit, hresults⟩
    obtain ⟨front, p, rest, hrequests, rfl, hp⟩ := compile_split hsplit
    exact ⟨front, p, rest, hrequests, failsWith_iff.mpr hp.symm,
      forall_succeeds_iff.mp hresults⟩
  · rintro ⟨front, ⟨t, number⟩, rest, hrequests, hfails, hfront⟩
    have hturn : (turn plan plan.context t number
        (compile plan plan.context front (requested f).2).2).1 = some (.error e) :=
      failsWith_iff.mp hfails
    rw [hrequests, compile_append, compile_cons, hturn]
    exact ⟨_, _, rfl, forall_succeeds_iff.mpr hfront⟩

end Found

/-- **How a build ends.** Let scripts be named after their style sheets, which have the extension
    `css`, and let the input not lie below the output. If the input could be gone through and all
    copies were made:
    * Every file below the input and not below the output is listed once, in the order of the walk,
      as compiled if its path ends in `.css` and as copied otherwise. Besides the files that were
      there before, only copies are found, and none in an input without backslashes. The targets
      have their turns in this order.
    * With import paths that are read from the directory of their module, the build is stalled
      exactly if a target leads to a cycle.
    * Otherwise it is done exactly if all targets are loaded and written, and fails exactly with the
      failure of the first target that is not.
    * In both cases a target that is loaded and written has its two files in the end, if the input
      has no backslashes or if no later target with another path is written to its place. -/
theorem build_outcome (input output : Text) (options : Options) (s : Session) (f : Found)
    (htree : s.disk.IsTree) (hnaming : options.scriptPath = none)
    (hextension : options.extension = "css".toList) :
    let plan := planOf s.disk input output options
    (plan.outputPlace <+: plan.inputPlace → plan.outputPlace = plan.inputPlace) →
    findFiles plan ⟨[], [], s.note [.started]⟩ = .ok () f →
    let result := build input output options s
    (∃ ways : List (List Text), ways.Pairwise WalkBefore ∧
      (∀ way bytes, s.disk.get? (plan.inputPlace ++ way) = some (.file bytes) →
        ¬plan.outputPlace <+: plan.inputPlace ++ way → way ∈ ways) ∧
      (∀ way ∈ ways, ¬plan.outputPlace <+: plan.inputPlace ++ way ∧
        ((∃ bytes, s.disk.get? (plan.inputPlace ++ way) = some (.file bytes)) ∨
          ¬CleanInput plan s.disk ∧ ∃ other ∈ ways, isTargetWay plan other = false ∧
            plan.inputPlace ++ way = copyPlace plan other)) ∧
      f.targets.map Target.relative =
        (ways.map relativeOf).filter (".css".toList.isSuffixOf ·) ∧
      f.copied = (ways.map relativeOf).filter (!".css".toList.isSuffixOf ·)) ∧
    (requested f).1.map Prod.fst = f.targets ∧
    (options.resolver = .relative →
      (result.1 = .stalled ↔ ∃ t ∈ f.targets, LeadsToCycle (graph plan f) (.ofPath t.path))) ∧
    (result.1 ≠ .stalled →
      (∀ o, result.1 = .done o ↔
        o = ⟨f.targets.map Target.relative, f.copied, result.2.cache.started⟩ ∧
          ∀ front p rest, (requested f).1 = front ++ p :: rest → Succeeds plan f front p) ∧
      (∀ e, result.1 = .failed e ↔
        ∃ front p rest, (requested f).1 = front ++ p :: rest ∧ FailsWith plan f front p e ∧
          ∀ front' q rest', front = front' ++ q :: rest' → Succeeds plan f front' q) ∧
      ∀ front t number rest, (requested f).1 = front ++ (t, number) :: rest →
        ∀ m disk, (loadedAt plan f front number).1 = some (.ok m) →
          outputs plan m t.relative (loadedAt plan f front number).2.disk = .ok () disk →
          (CleanInput plan s.disk ∨ ∀ q ∈ rest,
            cssPlace plan q.1.relative = cssPlace plan t.relative →
              q.1.relative = t.relative) →
          result.2.disk.read (cssFile plan t.relative) =
              .ok (options.encoding.encode (cssText options m t.relative)) ∧
            result.2.disk.read (scriptFile plan t.relative) =
              .ok (options.encoding.encode (options.scriptFormat m.exports t.relative))) := by
  intro plan hroots hfound result
  have hplan : plan.IsStandard := isStandard_planOf s.disk input output hnaming hextension
  obtain ⟨ways, hscan⟩ :=
    findFiles_spec (s := s.note [.started]) hplan.toIsFull htree hroots hfound
  obtain ⟨hresult, hdisk, hcache⟩ : result.1 = (buildFiles plan (s.note [.started])).1 ∧
      result.2.disk = (buildFiles plan (s.note [.started])).2.disk ∧
      result.2.cache = (buildFiles plan (s.note [.started])).2.cache :=
    build_spec input output options s
  obtain ⟨hcompiled, hcopied⟩ := lists_of_scanned hscan
  have hdot : '.' :: plan.options.extension = ".css".toList := congrArg ('.' :: ·) hextension
  rw [hdot] at hcompiled hcopied
  rw [hresult, hdisk, hcache]
  refine ⟨⟨ways, hscan.ordered, hscan.complete, fun way hway => ⟨hscan.outside way hway, ?_⟩,
    hcompiled, hcopied⟩, map_fst_requested f,
    fun hresolver => buildFiles_eq_stalled_iff (.inl hresolver) hfound, fun hnot => ?_⟩
  · exact source_of_scanned hscan hplan.toIsFull htree hway
  · rw [buildFiles_eq hfound] at hnot
    have hnone := (conclude_eq_stalled_iff _ _).not.mp hnot
    refine ⟨buildFiles_eq_done_iff hfound, buildFiles_eq_failed_iff hfound hnone, ?_⟩
    intro front t number rest hsplit m disk hload hwrite hplaces
    rw [buildFiles_eq hfound]
    exact read_after_build hscan hplan htree hnone hsplit hplaces hload hwrite

/-- A style sheet that asks for one that is not there, a style sheet by itself, and a text. -/
def mixedDisk : Disk where
  cwd := []
  entries := [
    (["in".toList], .dir),
    (["in".toList, "a.css".toList],
      .file (Text.utf8 ".a\x7bcomposes:x from './x.css'\x7d".toList)),
    (["in".toList, "b.css".toList], .file (Text.utf8 ".b\x7btop:0\x7d".toList)),
    (["in".toList, "c.txt".toList], .file (Text.utf8 "c".toList)),
    (["out".toList], .dir)]

def mixedPlan : Plan :=
  planOf mixedDisk "in".toList "out".toList .default

/-- The target that cannot be loaded, with the number of its load. -/
def mixedFirst : Target × Nat :=
  (⟨"/in/a.css".toList, "a.css".toList⟩, 0)

/-- The target that can be loaded and written. -/
def mixedSecond : Target × Nat :=
  (⟨"/in/b.css".toList, "b.css".toList⟩, 1)

/-- What is found there, when the text has been copied. -/
def mixedFound : Found where
  targets := [mixedFirst.1, mixedSecond.1]
  copied := ["c.txt".toList]
  session :=
    ⟨mixedDisk.put ["out".toList, "c.txt".toList] (.file (Text.utf8 "c".toList)), .empty,
      [.started, .copied "/out/c.txt".toList], 0⟩

theorem findFiles_mixedDisk :
    findFiles mixedPlan ⟨[], [], (Session.ofDisk mixedDisk).note [.started]⟩ =
      .ok () mixedFound := by
  have hnames : mixedDisk.names ["in".toList] =
      ["a.css".toList, "b.css".toList, "c.txt".toList] :=
    Disk.names_of_pairwise (by decide +kernel) (by decide +kernel)
  have hvisit : findFiles mixedPlan ⟨[], [], (Session.ofDisk mixedDisk).note [.started]⟩ =
      ((mixedDisk.names ["in".toList]).forM fun name => visit mixedPlan Disk.maxPath [name])
        ⟨[], [], (Session.ofDisk mixedDisk).note [.started]⟩ := rfl
  rw [hvisit, hnames]
  rfl

theorem build_outcome_mixed :
    let result := build "in".toList "out".toList .default (.ofDisk mixedDisk)
    (∃ ways : List (List Text), ways.Pairwise WalkBefore ∧ ["c.txt".toList] ∈ ways ∧
      (ways.map relativeOf).filter (".css".toList.isSuffixOf ·) =
        ["a.css".toList, "b.css".toList]) ∧
    (∃ cause, result.1 = .failed (.load cause)) ∧
    result.2.disk.read "/out/b.css".toList =
      .ok (Text.utf8 "/* styles for b.css */\n._b__b\x7btop:0\x7d".toList) := by
  intro result
  have htree : mixedDisk.IsTree := ⟨by decide +kernel, by decide +kernel⟩
  obtain ⟨⟨ways, hordered, hcomplete, _, hcompiled, _⟩, _, _, hend⟩ :=
    build_outcome "in".toList "out".toList .default (.ofDisk mixedDisk) mixedFound htree rfl rfl
      (by decide +kernel) findFiles_mixedDisk
  have hplan : planOf (Session.ofDisk mixedDisk).disk "in".toList "out".toList .default =
      mixedPlan := rfl
  rw [hplan] at hend
  have hrequests : (requested mixedFound).1 = [mixedFirst, mixedSecond] := by decide +kernel
  have hnot : result.1 ≠ .stalled := by
    have hsome : (compile mixedPlan mixedPlan.context (requested mixedFound).1
        (requested mixedFound).2).1.all Option.isSome = true := by decide +kernel
    have hresult := (build_spec "in".toList "out".toList .default (.ofDisk mixedDisk)).1.trans
      (congrArg Prod.fst (buildFiles_eq findFiles_mixedDisk))
    rw [hresult, Ne, conclude_eq_stalled_iff]
    exact fun hnone => nomatch List.all_eq_true.mp hsome none hnone
  obtain ⟨_, hfailed, hread⟩ := hend hnot
  refine ⟨⟨ways, hordered, ?_, hcompiled.symm⟩, ?_, ?_⟩
  · exact hcomplete ["c.txt".toList] (Text.utf8 "c".toList) (by decide +kernel) (by decide +kernel)
  · have herror : (loadedAt mixedPlan mixedFound [] 0).1.map Except.isOk = some false := by
      decide +kernel
    obtain ⟨loaded, hloaded, hisOk⟩ := Option.map_eq_some_iff.mp herror
    cases loaded with
    | ok m => cases hisOk
    | error cause =>
      refine ⟨cause, (hfailed _).mpr ⟨[], mixedFirst, [mixedSecond], hrequests,
        .inl ⟨cause, hloaded, rfl⟩, fun front q rest hsplit => ?_⟩⟩
      exact absurd hsplit (by simp)
  · have hok : (turn mixedPlan mixedPlan.context mixedSecond.1 mixedSecond.2
        (after mixedPlan mixedFound [mixedFirst])).1.bind Except.toOption = some () := by
      decide +kernel
    have htext : ((loadedAt mixedPlan mixedFound [mixedFirst] mixedSecond.2).1.bind
        Except.toOption).map (fun m => Text.utf8 (cssText .default m mixedSecond.1.relative)) =
        some (Text.utf8 "/* styles for b.css */\n._b__b\x7btop:0\x7d".toList) := by
      decide +kernel
    obtain ⟨m, disk, hload, hwrite⟩ := succeeds_of_turn hok
    have hcss := (hread [mixedFirst] mixedSecond.1 mixedSecond.2 [] hrequests m disk hload hwrite
      (.inr nofun)).1
    rw [hload] at htext
    exact hcss.trans (congrArg Except.ok (Option.some.inj htext))

/-- Two files whose paths differ in a `.` only, once their backslashes are read as `/`. -/
def twinDisk : Disk where
  cwd := []
  entries := [
    (["in".toList], .dir),
    (["in".toList, "d".toList], .dir),
    (["in".toList, "d".toList, "a.css".toList], .file (Text.utf8 ".a\x7b\x7d".toList)),
    (["in".toList, "d\\.\\a.css".toList], .file []),
    (["out".toList], .dir)]

def twinPlan : Plan :=
  planOf twinDisk "in".toList "out".toList .default

/-- The first of them, with the number of its load. -/
def twinFirst : Target × Nat :=
  (⟨"/in/d/a.css".toList, "d/a.css".toList⟩, 0)

/-- The other, which is written to the same place. -/
def twinSecond : Target × Nat :=
  (⟨"/in/d/a.css".toList, "d/./a.css".toList⟩, 0)

def twinFound : Found :=
  ⟨[twinFirst.1, twinSecond.1], [], (Session.ofDisk twinDisk).note [.started]⟩

theorem findFiles_twinDisk :
    findFiles twinPlan ⟨[], [], (Session.ofDisk twinDisk).note [.started]⟩ =
      .ok () twinFound := by
  have hnames : twinDisk.names ["in".toList] = ["d".toList, "d\\.\\a.css".toList] :=
    Disk.names_of_pairwise (by decide +kernel) (by decide +kernel)
  have hbelow : twinDisk.names ["in".toList, "d".toList] = ["a.css".toList] :=
    Disk.names_of_pairwise (by decide +kernel) (by decide +kernel)
  have hvisit : findFiles twinPlan ⟨[], [], (Session.ofDisk twinDisk).note [.started]⟩ =
      ((twinDisk.names ["in".toList]).forM fun name => visit twinPlan Disk.maxPath [name])
        ⟨[], [], (Session.ofDisk twinDisk).note [.started]⟩ := rfl
  have hfirst : visit twinPlan Disk.maxPath ["d".toList]
      ⟨[], [], (Session.ofDisk twinDisk).note [.started]⟩ =
      ((twinDisk.names ["in".toList, "d".toList]).forM fun name =>
        visit twinPlan 4095 (["d".toList] ++ [name]))
        ⟨[], [], (Session.ofDisk twinDisk).note [.started]⟩ := rfl
  rw [hvisit, hnames]
  rw [hbelow] at hfirst
  exact bind_of_ok hfirst

/-- The condition on the places is needed: both targets are loaded and written, and the build is
    done, but in the end the style sheet of the second stands at the place of the first. -/
theorem overwritten_by_other_path :
    let result := build "in".toList "out".toList .default (.ofDisk twinDisk)
    (∃ o, result.1 = .done o) ∧
      Succeeds twinPlan twinFound [] twinFirst ∧
      Succeeds twinPlan twinFound [twinFirst] twinSecond ∧
      ∃ m, (loadedAt twinPlan twinFound [] twinFirst.2).1 = some (.ok m) ∧
        result.2.disk.read (cssFile twinPlan twinFirst.1.relative) =
          .ok (Text.utf8 "/* styles for d/./a.css */\n._d_a__a\x7b\x7d".toList) ∧
        result.2.disk.read (cssFile twinPlan twinFirst.1.relative) ≠
          .ok (Text.utf8 (cssText .default m twinFirst.1.relative)) := by
  intro result
  obtain ⟨hresult, hdisk, _⟩ := build_spec "in".toList "out".toList .default (.ofDisk twinDisk)
  have hfiles := buildFiles_eq findFiles_twinDisk
  have hdone : result.1 = .done ⟨["d/a.css".toList, "d/./a.css".toList], [], 1⟩ := by
    refine (hresult.trans (congrArg Prod.fst hfiles)).trans ?_
    decide +kernel
  have hfirst : Succeeds twinPlan twinFound [] twinFirst := succeeds_of_turn (by decide +kernel)
  have hsecond : Succeeds twinPlan twinFound [twinFirst] twinSecond :=
    succeeds_of_turn (by decide +kernel)
  have htext : ((loadedAt twinPlan twinFound [] twinFirst.2).1.bind Except.toOption).map
      (fun m => Text.utf8 (cssText .default m twinFirst.1.relative)) =
      some (Text.utf8 "/* styles for d/a.css */\n._d_a__a\x7b\x7d".toList) := by decide +kernel
  have hread : result.2.disk.read (cssFile twinPlan twinFirst.1.relative) =
      .ok (Text.utf8 "/* styles for d/./a.css */\n._d_a__a\x7b\x7d".toList) := by
    rw [hdisk.trans (congrArg (fun r => r.2.disk) hfiles)]
    exact ok_of_toOption (by decide +kernel)
  refine ⟨⟨_, hdone⟩, hfirst, hsecond, ?_⟩
  obtain ⟨m, _, hload, _⟩ := hfirst
  refine ⟨m, hload, hread, ?_⟩
  rw [hload] at htext
  have hcss : Text.utf8 (cssText .default m twinFirst.1.relative) = _ := Option.some.inj htext
  rw [hread, hcss, Ne, Except.ok.injEq]
  decide +kernel

end Build

end StyleModules
