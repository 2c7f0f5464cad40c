import StyleModules.Build.Basic
import StyleModules.Proofs.Outcomes
import StyleModules.Proofs.StalledLoads
import StyleModules.Proofs.WrittenFiles

/-!
What the turns of the targets of a build do.

* A target whose outputs were written has them (`Build.Written`).
* `Build.turn` loads and writes one target, and `compile` is one turn after the other
  (`Build.compile_cons`).
* `Build.conclude_eq_stalled_iff`, `conclude_eq_done_iff` and `conclude_eq_failed_iff`: what becomes
  of a build, by what becomes of its targets.
* `Build.keepsRoom_findFiles`: going through the input leaves the room of a session as it is.
-/

namespace StyleModules

namespace Build

/-! ## 1. One target -/

/-- Where the style sheet of a target is written. -/
def cssFile (plan : Plan) (relative : Text) : Text :=
  Path.join plan.output relative

/-- Where the script of a target is written. -/
def scriptFile (plan : Plan) (relative : Text) : Text :=
  Path.join plan.output (scriptPath plan.options relative)

/-- Write both files of a target. -/
def outputs (plan : Plan) (m : LoadedModule) (relative : Text) : FileStep Unit := do
  writeFile plan.options.encoding (cssFile plan relative) (cssText plan.options m relative)
  writeFile plan.options.encoding (scriptFile plan relative)
    (plan.options.scriptFormat m.exports relative)

/-- Both files of a target were written, one after the other, and each could then be read. -/
def Written (plan : Plan) (m : LoadedModule) (relative : Text) (d d' : Disk) : Prop :=
  ∃ middle,
    writeFile plan.options.encoding (cssFile plan relative) (cssText plan.options m relative) d =
      .ok () middle ∧
    middle.read (cssFile plan relative) =
      .ok (plan.options.encoding.encode (cssText plan.options m relative)) ∧
    writeFile plan.options.encoding (scriptFile plan relative)
      (plan.options.scriptFormat m.exports relative) middle = .ok () d' ∧
    d'.read (scriptFile plan relative) =
      .ok (plan.options.encoding.encode (plan.options.scriptFormat m.exports relative))

variable {plan : Plan} {ctx : Context}

theorem read_of_writeFile {encoding : Encoding} {path contents : Text} {d d' : Disk}
    (h : writeFile encoding path contents d = .ok () d') :
    d'.read path = .ok (encoding.encode contents) := by
  obtain ⟨_, middle, _, hwrite⟩ := bind_ok h
  unfold fileStep at hwrite
  split at hwrite
  · next d'' hok =>
    cases hwrite
    exact Disk.read_of_write hok
  · cases hwrite

theorem written_of_outputs {m : LoadedModule} {relative : Text} {d d' : Disk}
    (h : outputs plan m relative d = .ok () d') : Written plan m relative d d' := by
  obtain ⟨_, middle, hcss, hscript⟩ := bind_ok h
  exact ⟨middle, hcss, read_of_writeFile hcss, hscript, read_of_writeFile hscript⟩

/-- Load and write one target. -/
def turn (plan : Plan) (ctx : Context) (t : Target) (number : Nat) (s : Session) :
    Option (Except BuildError Unit) × Session :=
  match s.load ctx s.bound number with
  | (none, s) => (none, s)
  | (some (.error e), s) => (some (.error (.load e)), s)
  | (some (.ok m), s) =>
    let (written, s) := writeOutputs plan m t.relative s
    (some written, s)

theorem compile_cons (t : Target) (number : Nat) (rest : List (Target × Nat)) (s : Session) :
    compile plan ctx ((t, number) :: rest) s =
      ((turn plan ctx t number s).1 :: (compile plan ctx rest (turn plan ctx t number s).2).1,
        (compile plan ctx rest (turn plan ctx t number s).2).2) := by
  rw [compile, turn]
  rcases s.load ctx s.bound number with ⟨loaded, s'⟩
  cases loaded with
  | none => rfl
  | some result => cases result <;> rfl

theorem compile_append (front rest : List (Target × Nat)) (s : Session) :
    compile plan ctx (front ++ rest) s =
      ((compile plan ctx front s).1 ++ (compile plan ctx rest (compile plan ctx front s).2).1,
        (compile plan ctx rest (compile plan ctx front s).2).2) := by
  induction front generalizing s with
  | nil => rfl
  | cons p front ih =>
    obtain ⟨t, number⟩ := p
    rw [List.cons_append, compile_cons, compile_cons, ih]
    rfl

theorem writeOutputs_eq (plan : Plan) (m : LoadedModule) (relative : Text) (s : Session) :
    writeOutputs plan m relative s =
      match outputs plan m relative s.disk with
      | .ok () disk => (.ok (),
          { s with disk }.note [.wrote (cssFile plan relative) (scriptFile plan relative)])
      | .error e disk => (.error e, { s with disk }) :=
  rfl

/-- Writing touches no load, and takes back nothing that has happened. -/
theorem writeOutputs_keeps (plan : Plan) (m : LoadedModule) (relative : Text) (s : Session) :
    (writeOutputs plan m relative s).2.cache = s.cache ∧
      (writeOutputs plan m relative s).2.room = s.room ∧
      s.journal <+: (writeOutputs plan m relative s).2.journal := by
  rw [writeOutputs_eq]
  split
  · exact ⟨rfl, rfl, List.prefix_append _ _⟩
  · exact ⟨rfl, rfl, List.prefix_rfl⟩

/-- What the turn of a target does to the loads is what loading it does. -/
theorem turn_spec (plan : Plan) (ctx : Context) (t : Target) (number : Nat) (s : Session) :
    ((turn plan ctx t number s).1 = none ↔ (s.load ctx s.bound number).1 = none) ∧
      (turn plan ctx t number s).2.cache = (s.load ctx s.bound number).2.cache ∧
      (turn plan ctx t number s).2.room = (s.load ctx s.bound number).2.room ∧
      (s.load ctx s.bound number).2.journal <+: (turn plan ctx t number s).2.journal := by
  unfold turn
  rcases s.load ctx s.bound number with ⟨loaded, s'⟩
  cases loaded with
  | none => exact ⟨iff_of_true rfl rfl, rfl, rfl, List.prefix_rfl⟩
  | some result =>
    cases result with
    | error e => exact ⟨by simp, rfl, rfl, List.prefix_rfl⟩
    | ok m => exact ⟨by simp, writeOutputs_keeps plan m t.relative s'⟩

theorem turn_of_ok {t : Target} {number : Nat} {s s' : Session} {m : LoadedModule} {disk : Disk}
    (hload : s.load ctx s.bound number = (some (.ok m), s'))
    (hwrite : outputs plan m t.relative s'.disk = .ok () disk) :
    turn plan ctx t number s = (some (.ok ()), { s' with disk }.note
      [.wrote (cssFile plan t.relative) (scriptFile plan t.relative)]) := by
  rw [turn, hload]
  simp only [writeOutputs_eq, hwrite]

/-- A turn succeeds only if the target was loaded and its outputs could be written. -/
theorem of_turn_ok {t : Target} {number : Nat} {s : Session}
    (h : (turn plan ctx t number s).1.bind Except.toOption = some ()) :
    ∃ m disk, (s.load ctx s.bound number).1 = some (.ok m) ∧
      outputs plan m t.relative (s.load ctx s.bound number).2.disk = .ok () disk := by
  rcases hload : s.load ctx s.bound number with ⟨loaded, s'⟩
  rw [turn, hload] at h
  cases loaded with
  | none => cases h
  | some result =>
    cases result with
    | error e => cases h
    | ok m =>
      cases hwrite : outputs plan m t.relative s'.disk with
      | ok _ disk => exact ⟨m, disk, rfl, hwrite⟩
      | error e disk =>
        simp only [writeOutputs_eq, hwrite] at h
        cases h

theorem length_compile (plan : Plan) (ctx : Context) (requests : List (Target × Nat))
    (s : Session) :
    (compile plan ctx requests s).1.length = requests.length := by
  induction requests generalizing s with
  | nil => rfl
  | cons p rest ih =>
    obtain ⟨t, number⟩ := p
    rw [compile_cons, List.length_cons, ih, List.length_cons]

theorem journal_compile (plan : Plan) (ctx : Context) (requests : List (Target × Nat))
    (s : Session) :
    s.journal <+: (compile plan ctx requests s).2.journal := by
  induction requests generalizing s with
  | nil => exact List.prefix_rfl
  | cons p rest ih =>
    obtain ⟨t, number⟩ := p
    rw [compile_cons]
    have hload := (Memo.advances_load ctx s.bound number s).journal
    exact (hload.trans (turn_spec plan ctx t number s).2.2.2).trans (ih _)

/-! ## 2. Requests and results -/

/-- Requests for targets keep what the request for each of them keeps. -/
theorem requestTargets_keeps {I : Memo.Loads → Prop} (targets : List Target)
    (hkeeps : ∀ t ∈ targets, ∀ c, I c →
      I (c.request (ModuleRef.ofPath t.path).key (.ofPath t.path)).2) {s : Session}
    (h : I s.cache) : I (requestTargets targets s).2.cache := by
  induction targets generalizing s with
  | nil => exact h
  | cons t targets ih =>
    exact ih (s := ((s.note [.processing t.path]).request (.ofPath t.path)).2)
      (fun t' ht' => hkeeps t' (List.mem_cons_of_mem t ht')) (hkeeps t List.mem_cons_self _ h)

/-- Every target is requested, and its request has the slot of its key. -/
theorem requestTargets_spec (targets : List Target) (s : Session) :
    Memo.Advances s (requestTargets targets s).2 ∧
      (requestTargets targets s).1.map Prod.fst = targets ∧
      ∀ p ∈ (requestTargets targets s).1, (requestTargets targets s).2.cache.index.get?
        (ModuleRef.ofPath p.1.path).key = some p.2 := by
  induction targets generalizing s with
  | nil => exact ⟨.refl s, rfl, fun p hp => nomatch hp⟩
  | cons t targets ih =>
    have hadv₁ : Memo.Advances s ((s.note [.processing t.path]).request (.ofPath t.path)).2 :=
      (Memo.advances_note s _).trans (Memo.advances_request _ _)
    obtain ⟨hadv₂, hfst, hslots⟩ := ih ((s.note [.processing t.path]).request (.ofPath t.path)).2
    refine ⟨hadv₁.trans hadv₂, congrArg (t :: ·) hfst, fun p hp => ?_⟩
    rcases List.mem_cons.mp hp with rfl | hp
    · exact hadv₂.kept (Memo.index_request s.cache (.ofPath t.path))
    · exact hslots p hp

/-- A build is stalled exactly if one of its targets is. -/
theorem conclude_eq_stalled_iff (output : BuildOutput)
    (results : List (Option (Except BuildError Unit))) :
    conclude output results = .stalled ↔ none ∈ results := by
  have hmap : ∀ rs : List (Option (Except BuildError Unit)),
      rs.mapM id = none ↔ none ∈ rs := by
    intro rs
    induction rs with
    | nil => simp
    | cons r rs ih =>
      cases r with
      | none => simp
      | some result =>
        rw [List.mapM_cons]
        simp only [id, List.mem_cons, reduceCtorEq, false_or, ← ih]
        cases rs.mapM id <;> simp
  rw [← hmap, conclude]
  cases results.mapM id with
  | none => simp
  | some rs =>
    simp only [reduceCtorEq, iff_false]
    split <;> simp

theorem conclude_cons_ok (output : BuildOutput) (results : List (Option (Except BuildError Unit))) :
    conclude output (some (.ok ()) :: results) = conclude output results := by
  rw [conclude, conclude, List.mapM_cons]
  cases results.mapM id with
  | none => rfl
  | some rs => rfl

theorem conclude_cons_error (output : BuildOutput) (e : BuildError)
    {results : List (Option (Except BuildError Unit))} (h : none ∉ results) :
    conclude output (some (.error e) :: results) = .failed e := by
  cases hresults : results.mapM id with
  | none =>
    have hstalled : conclude output results = .stalled := by rw [conclude, hresults]
    exact absurd ((conclude_eq_stalled_iff output results).mp hstalled) h
  | some rs =>
    rw [conclude, List.mapM_cons, hresults]
    rfl

/-- A build is done exactly if all its targets are. -/
theorem conclude_eq_done_iff (output o : BuildOutput)
    (results : List (Option (Except BuildError Unit))) :
    conclude output results = .done o ↔ o = output ∧ ∀ r ∈ results, r = some (.ok ()) := by
  by_cases hnone : none ∈ results
  · rw [(conclude_eq_stalled_iff output results).mpr hnone]
    exact iff_of_false nofun fun h => nomatch h.2 none hnone
  · induction results with
    | nil =>
      have hnil : conclude output [] = .done output := rfl
      rw [hnil, BuildResult.done.injEq, eq_comm]
      simp
    | cons r results ih =>
      obtain ⟨hr, hrest⟩ := not_or.mp (List.mem_cons.not.mp hnone)
      cases r with
      | none => exact absurd rfl hr
      | some result =>
        cases result with
        | ok _ =>
          rw [conclude_cons_ok, ih hrest, List.forall_mem_cons]
          simp
        | error e =>
          rw [conclude_cons_error output e hrest]
          exact iff_of_false nofun fun h => nomatch h.2 _ List.mem_cons_self

/-- A build that is not stalled fails exactly with the failure of the first target that fails. -/
theorem conclude_eq_failed_iff (output : BuildOutput) (e : BuildError)
    {results : List (Option (Except BuildError Unit))} (hnone : none ∉ results) :
    conclude output results = .failed e ↔
      ∃ front rest, results = front ++ some (.error e) :: rest ∧
        ∀ r ∈ front, r = some (.ok ()) := by
  induction results with
  | nil =>
    refine iff_of_false nofun ?_
    intro hfirst
    obtain ⟨front, rest, hsplit, _⟩ := hfirst
    cases front <;> cases hsplit
  | cons r results ih =>
    obtain ⟨hr, hrest⟩ := not_or.mp (List.mem_cons.not.mp hnone)
    cases r with
    | none => exact absurd rfl hr
    | some result =>
      cases result with
      | ok _ =>
        rw [conclude_cons_ok, ih hrest]
        constructor
        · rintro ⟨front, rest, rfl, hfront⟩
          exact ⟨some (.ok ()) :: front, rest, rfl, List.forall_mem_cons.mpr ⟨rfl, hfront⟩⟩
        · intro hfirst
          obtain ⟨front, rest, hsplit, hfront⟩ := hfirst
          cases front with
          | nil => cases hsplit
          | cons r' front =>
            obtain ⟨_, rfl⟩ := List.cons.inj hsplit
            exact ⟨front, rest, rfl, (List.forall_mem_cons.mp hfront).2⟩
      | error e' =>
        rw [conclude_cons_error output e' hrest]
        constructor
        · intro h
          cases h
          exact ⟨[], results, rfl, fun _ h => nomatch h⟩
        · intro hfirst
          obtain ⟨front, rest, hsplit, hfront⟩ := hfirst
          cases front with
          | nil =>
            cases hsplit
            rfl
          | cons r' front =>
            obtain ⟨hr', _⟩ := List.cons.inj hsplit
            have hok := hfront r' List.mem_cons_self
            rw [← hr'] at hok
            cases hok

/-! ## 3. The room of a session -/

theorem of_onFiles {step : FileStep Unit} {f f' : Found} (h : onFiles step f = .ok () f') :
    ∃ disk, step f.session.disk = .ok () disk ∧
      f' = { f with session := { f.session with disk } } := by
  unfold onFiles at h
  split at h
  · next disk hstep =>
    cases h
    exact ⟨disk, hstep, rfl⟩
  · cases h

/-- A step through the input leaves the room of the session as it is. -/
def KeepsRoom (x : Visit Unit) : Prop :=
  ∀ ⦃f f'⦄, x f = .ok () f' → f'.session.room = f.session.room

theorem KeepsRoom.bind {x y : Visit Unit} (hx : KeepsRoom x) (hy : KeepsRoom y) :
    KeepsRoom (x >>= fun _ => y) := by
  intro f f' h
  obtain ⟨_, middle, hfirst, hrest⟩ := bind_ok h
  exact (hy hrest).trans (hx hfirst)

theorem keepsRoom_onFiles (step : FileStep Unit) : KeepsRoom (onFiles step) := by
  intro f f' h
  obtain ⟨_, _, rfl⟩ := of_onFiles h
  rfl

theorem keepsRoom_visitFile (plan : Plan) (names : List Text) :
    KeepsRoom (visitFile plan names) := by
  intro f f' h
  unfold visitFile at h
  split at h
  · cases h
    rfl
  · obtain ⟨_, middle, hcopy, hnote⟩ := bind_ok h
    have hmiddle := keepsRoom_onFiles _ hcopy
    cases hnote
    exact hmiddle

theorem keepsRoom_forM {visit : Text → Visit Unit} (hvisit : ∀ name, KeepsRoom (visit name))
    (names : List Text) : KeepsRoom (names.forM visit) := by
  induction names with
  | nil =>
    intro f f' h
    cases h
    rfl
  | cons name names ih => exact (hvisit name).bind ih

theorem keepsRoom_visit (plan : Plan) (bound : Nat) (names : List Text) :
    KeepsRoom (visit plan bound names) := by
  induction bound generalizing names with
  | zero =>
    intro f f' h
    cases h
    rfl
  | succ bound ih =>
    intro f f' h
    have hget : ∀ next : Found → Visit Unit, (get >>= next) f = next f f := fun _ => rfl
    rw [visit] at h
    dsimp only at h
    split at h
    · cases h
      rfl
    · rw [hget] at h
      cases hentry : f.session.disk.get? (Path.segments plan.input ++ names) with
      | none =>
        rw [hentry] at h
        cases h
        rfl
      | some entry =>
        rw [hentry] at h
        cases entry with
        | file bytes => exact keepsRoom_visitFile plan names h
        | dir => exact keepsRoom_forM (fun name => ih (names ++ [name])) _ h

/-- Going through the input leaves the room of the session as it is. -/
theorem keepsRoom_findFiles (plan : Plan) : KeepsRoom (findFiles plan) := by
  intro f f' h
  obtain ⟨_, middle, hcreate, hvisit⟩ := bind_ok h
  have hget : ∀ next : Found → Visit Unit, (get >>= next) middle = next middle middle :=
    fun _ => rfl
  rw [hget] at hvisit
  cases hlocate : middle.session.disk.locate plan.input with
  | error e =>
    rw [hlocate] at hvisit
    cases hvisit
  | ok place =>
    rw [hlocate] at hvisit
    exact (keepsRoom_visit plan _ _ hvisit).trans (keepsRoom_onFiles _ hcreate)

end Build

end StyleModules
