import StyleModules.Proofs.BuildTurns

/-!
Builds in which some loads never finish.

* In a build the files change from one target to the next. `Build.asked` is the graph of imports as
  the build sees it: what each module asked for when it was read.
* `Build.compile_told`: a target never finishes exactly if it leads to a cycle of this graph.
* `Build.stalls_iff_cycle`: the loads of a client and the targets of a build that never finish are
  those that lead to a cycle, and all other targets that can be loaded and written are written.
* `Build.stalling_of_other_keys` is what a resolver can do that reaches ever new keys, or by one key
  modules that ask for different things.
-/

namespace StyleModules

namespace Build

variable {plan : Plan} {ctx : Context}

/-! ## 1. All targets -/

/-- What a module asked for when it was read, which was at the turn of the first target that led to
    it. A module that was not read has what it would ask for in the end. -/
def asked (plan : Plan) (ctx : Context) :
    List (Target × Nat) → Session → ModuleRef → List ModuleRef
  | [], s, m => ctx.imports s.disk m
  | (t, number) :: rest, s, m =>
    if (s.load ctx s.bound number).2.cache.hasBegun m.key then ctx.imports s.disk m
    else asked plan ctx rest (turn plan ctx t number s).2 m

/-- What a module asks for was read from some state of the files. -/
theorem exists_asked (plan : Plan) (ctx : Context) (requests : List (Target × Nat)) (s : Session)
    (m : ModuleRef) :
    ∃ d, asked plan ctx requests s m = ctx.imports d m := by
  induction requests generalizing s with
  | nil => exact ⟨s.disk, rfl⟩
  | cons p rest ih =>
    obtain ⟨t, number⟩ := p
    rw [asked]
    split
    · exact ⟨s.disk, rfl⟩
    · exact ih _

/-- **A target never finishes exactly if it leads to a cycle.** -/
theorem compile_told {asks : ModuleRef → List ModuleRef} {V : ModuleRef → Prop} {room : Nat}
    (ho : Orderly asks V)
    (hfits : ∀ s : Session, s.room = room → Memo.Fits ctx s.disk V s.bound)
    (requests : List (Target × Nat)) (hV : ∀ p ∈ requests, V (.ofPath p.1.path)) {s : Session}
    (hroom : s.room = room) (hs : Memo.Ledger asks V [] s.cache)
    (hslots : ∀ p ∈ requests, s.cache.index.get? (ModuleRef.ofPath p.1.path).key = some p.2)
    (hasks : ∀ m, s.cache.hasBegun m.key = false → asks m = asked plan ctx requests s m) :
    List.Forall₂ (fun (p : Target × Nat) (result : Option (Except BuildError Unit)) =>
        result = none ↔ LeadsToCycle asks (.ofPath p.1.path))
      requests (compile plan ctx requests s).1 := by
  induction requests generalizing s with
  | nil => exact .nil
  | cons p rest ih =>
    obtain ⟨t, number⟩ := p
    have hadv := Memo.advances_load ctx s.bound number s
    obtain ⟨hnone, hcache, hturn, _⟩ := turn_spec plan ctx t number s
    have hread : Memo.ReadAs ctx asks V s (s.load ctx s.bound number).2 := by
      intro m _ hbefore hbegun
      rw [hasks m hbefore, asked, if_pos hbegun]
    obtain ⟨hstalls, hs'⟩ := Memo.load_idle ho (hfits s hroom) hs (hV _ List.mem_cons_self)
      (hslots _ List.mem_cons_self) hread
    rw [compile_cons]
    refine .cons (hnone.trans hstalls) (ih (fun p hp => hV p (List.mem_cons_of_mem _ hp))
      (hturn.trans (hadv.room.trans hroom)) (hcache ▸ hs') (fun p hp => ?_) fun m hm => ?_)
    · rw [hcache]
      exact hadv.kept (hslots p (List.mem_cons_of_mem _ hp))
    · rw [hcache] at hm
      rw [hasks m (hadv.hasBegun_eq_false hm), asked,
        if_neg (by rw [hm]; exact Bool.false_ne_true)]

/-- Where the files change in nothing that modules ask for, the graph is that of the files. -/
theorem asked_of_steady {requests : List (Target × Nat)} {s : Session}
    (h : ∀ front rest, requests = front ++ rest →
      ctx.imports (compile plan ctx front s).2.disk = ctx.imports s.disk) :
    asked plan ctx requests s = ctx.imports s.disk := by
  induction requests generalizing s with
  | nil => rfl
  | cons p rest ih =>
    obtain ⟨t, number⟩ := p
    have hturn : ctx.imports (turn plan ctx t number s).2.disk = ctx.imports s.disk := by
      have hone := h [(t, number)] rest rfl
      rwa [compile_cons] at hone
    have hrest : asked plan ctx rest (turn plan ctx t number s).2 =
        ctx.imports (turn plan ctx t number s).2.disk := by
      refine ih fun front rest' hsplit => ?_
      have hmore := h ((t, number) :: front) rest' (by rw [hsplit]; rfl)
      rw [compile_cons] at hmore
      exact hmore.trans hturn.symm
    funext m
    rw [asked, hrest, hturn]
    split <;> rfl

/-! ## 2. The whole build -/

/-- The context of a build. -/
def Plan.context (plan : Plan) : Context :=
  .ofRoot plan.input plan.options

/-- The requests of a build for the targets that were found, and the session after them. -/
def requested (f : Found) : List (Target × Nat) × Session :=
  requestTargets f.targets { f.session with cache := .empty }

/-- The session after the turns of the first targets. -/
def after (plan : Plan) (f : Found) (front : List (Target × Nat)) : Session :=
  (compile plan plan.context front (requested f).2).2

theorem after_append (f : Found) (front rest : List (Target × Nat)) :
    after plan f (front ++ rest) = (compile plan plan.context rest (after plan f front)).2 := by
  rw [after, compile_append]
  rfl

/-- The graph of imports as a build sees it. -/
def graph (plan : Plan) (f : Found) : ModuleRef → List ModuleRef :=
  asked plan plan.context (requested f).1 (requested f).2

/-- A module is reached from a target, in the graph of imports that the build sees. -/
def Reached (plan : Plan) (f : Found) (m : ModuleRef) : Prop :=
  ∃ t ∈ f.targets, Relation.ReflTransGen (AsksFor (graph plan f)) (.ofPath t.path) m

theorem buildFiles_eq {s : Session} {f : Found} (h : findFiles plan ⟨[], [], s⟩ = .ok () f) :
    buildFiles plan s =
      (conclude
        ⟨f.targets.map Target.relative, f.copied, (after plan f (requested f).1).cache.started⟩
        (compile plan plan.context (requested f).1 (requested f).2).1,
        after plan f (requested f).1) := by
  rw [buildFiles, h]
  rfl

/-- A build in which all targets succeed is done. -/
theorem buildFiles_eq_done {s : Session} {f : Found} (h : findFiles plan ⟨[], [], s⟩ = .ok () f)
    (hall : (compile plan plan.context (requested f).1 (requested f).2).1.all
      (fun r => (r.bind Except.toOption).isSome) = true) {o : BuildOutput}
    (ho : o = ⟨f.targets.map Target.relative, f.copied,
      (after plan f (requested f).1).cache.started⟩) : (buildFiles plan s).1 = .done o := by
  rw [buildFiles_eq h, conclude_eq_done_iff]
  refine ⟨ho, fun r hr => ?_⟩
  obtain ⟨_, hok⟩ := Option.isSome_iff_exists.mp (List.all_eq_true.mp hall r hr)
  obtain ⟨result, rfl, hresult⟩ := Option.bind_eq_some_iff.mp hok
  rw [ok_of_toOption hresult]

section Found

variable {f : Found}

theorem map_fst_requested (f : Found) : (requested f).1.map Prod.fst = f.targets :=
  (requestTargets_spec f.targets { f.session with cache := .empty }).2.1

theorem disk_requested (f : Found) : (requested f).2.disk = f.session.disk :=
  (requestTargets_spec f.targets { f.session with cache := .empty }).1.disk

/-- What the resolver of a build has to be: it reads import paths from the directory of their
    module, or else there is room for the keys of all modules that it reaches from the targets, and
    these decide what the modules ask for. -/
def Tame (plan : Plan) (f : Found) : Prop :=
  plan.options.resolver = .relative ∨ FewKeys (graph plan f) (Reached plan f) f.session.room

theorem Reached.tail {m ref : ModuleRef} (h : Reached plan f m) (href : ref ∈ graph plan f m) :
    Reached plan f ref := by
  obtain ⟨t, ht, hpath⟩ := h
  exact ⟨t, ht, hpath.tail href⟩

/-- With paths that are read from the directory of their module, only files are asked for. -/
theorem isFile_of_mem_graph (hresolver : plan.options.resolver = .relative) {m other : ModuleRef}
    (h : other ∈ graph plan f m) : Memo.IsFile other := by
  obtain ⟨d, hd⟩ := exists_asked plan plan.context (requested f).1 (requested f).2 m
  exact Memo.isFile_of_mem_imports hresolver (hd ▸ h : other ∈ plan.context.imports d m)

/-- The targets are in an orderly set, for which there is room at all times. -/
theorem Tame.exists_orderly (h : Tame plan f) : ∃ V, Orderly (graph plan f) V ∧
    (∀ t ∈ f.targets, V (.ofPath t.path)) ∧
    ∀ s : Session, s.room = f.session.room → Memo.Fits plan.context s.disk V s.bound := by
  rcases h with hresolver | hfew
  · exact ⟨Memo.IsFile, Memo.orderly_files fun _ hask => isFile_of_mem_graph hresolver hask,
      fun t _ => Memo.isFile_ofPath t.path, fun s _ => Memo.fits_files plan.context s⟩
  · exact ⟨Reached plan f, orderly_of_fewKeys (fun hm hask => hm.tail hask) hfew,
      fun t ht => ⟨t, ht, .refl⟩, fun s hroom => Memo.fits_of_fewKeys hfew hroom⟩

theorem told_requested (h : Tame plan f) :
    List.Forall₂ (fun (p : Target × Nat) (result : Option (Except BuildError Unit)) =>
        result = none ↔ LeadsToCycle (graph plan f) (.ofPath p.1.path))
      (requested f).1 (compile plan plan.context (requested f).1 (requested f).2).1 := by
  obtain ⟨V, ho, hV, hfits⟩ := h.exists_orderly
  obtain ⟨hadv, hfst, hslots⟩ :=
    requestTargets_spec f.targets { f.session with cache := .empty }
  have hs : Memo.Ledger (graph plan f) V [] (requested f).2.cache :=
    requestTargets_keeps f.targets (fun t ht c hc => hc.request (hV t ht)) Memo.ledger_empty
  have htargets : ∀ p ∈ (requested f).1, V (.ofPath p.1.path) :=
    fun p hp => hV p.1 (map_fst_requested f ▸ List.mem_map_of_mem hp)
  exact compile_told ho hfits (requested f).1 htargets hadv.room hs hslots fun m _ => rfl

/-- A build is stalled exactly if a target leads to a cycle. -/
theorem buildFiles_eq_stalled_iff (h : Tame plan f) {s : Session}
    (hfound : findFiles plan ⟨[], [], s⟩ = .ok () f) : (buildFiles plan s).1 = .stalled ↔
      ∃ t ∈ f.targets, LeadsToCycle (graph plan f) (.ofPath t.path) := by
  rw [buildFiles_eq hfound, conclude_eq_stalled_iff, ← map_fst_requested f]
  have hall := told_requested h
  generalize (compile plan plan.context (requested f).1 (requested f).2).1 = results at hall ⊢
  generalize (requested f).1 = requests at hall ⊢
  induction hall with
  | nil => simp
  | cons hone _ ih =>
    rw [List.mem_cons, List.map_cons, List.exists_mem_cons_iff]
    exact or_congr (eq_comm.trans hone) ih

/-- The turn of a target, whatever became of those in front of it. -/
theorem load_eq_none_iff (h : Tame plan f) {t : Target} {number : Nat}
    {front rest : List (Target × Nat)} (hsplit : (requested f).1 = front ++ (t, number) :: rest) :
    ((after plan f front).load plan.context (after plan f front).bound number).1 = none ↔
      LeadsToCycle (graph plan f) (.ofPath t.path) := by
  have hall := told_requested h
  rw [hsplit, compile_append, compile_cons] at hall
  rw [← (turn_spec plan plan.context t number (after plan f front)).1]
  have hlength := length_compile plan plan.context front (requested f).2
  have hget := (List.forall₂_iff_get.mp hall).2 front.length (by simp) (by simp [hlength])
  simpa [hlength, after] using hget

/-- A target that was loaded and can be written is written, and the build says so. -/
theorem written_of_load {s : Session} (hfound : findFiles plan ⟨[], [], s⟩ = .ok () f) {t : Target}
    {number : Nat} {front rest : List (Target × Nat)}
    (hsplit : (requested f).1 = front ++ (t, number) :: rest) {m : LoadedModule} {s' : Session}
    (hload : (after plan f front).load plan.context (after plan f front).bound number =
      (some (.ok m), s')) {disk : Disk}
    (hwrite : outputs plan m t.relative s'.disk = .ok () disk) :
    Written plan m t.relative (after plan f front).disk disk ∧
      (after plan f (front ++ [(t, number)])).disk = disk ∧
      .wrote (cssFile plan t.relative) (scriptFile plan t.relative) ∈
        (buildFiles plan s).2.journal := by
  have hdisk := (Memo.advances_load plan.context (after plan f front).bound number
    (after plan f front)).disk
  rw [hload] at hdisk
  have hturn := turn_of_ok hload hwrite
  have hafter : after plan f (front ++ [(t, number)]) = { s' with disk }.note
      [.wrote (cssFile plan t.relative) (scriptFile plan t.relative)] := by
    rw [after_append, compile_cons]
    exact congrArg Prod.snd hturn
  refine ⟨hdisk ▸ written_of_outputs hwrite, by rw [hafter]; rfl, ?_⟩
  have hjournal : (after plan f (front ++ [(t, number)])).journal <+:
      (buildFiles plan s).2.journal := by
    have hrest := journal_compile plan plan.context rest
      (after plan f (front ++ [(t, number)]))
    have hlist : (requested f).1 = (front ++ [(t, number)]) ++ rest := by
      rw [hsplit, List.append_assoc]
      rfl
    have hfinal : (buildFiles plan s).2 = after plan f (requested f).1 :=
      congrArg Prod.snd (buildFiles_eq hfound)
    rwa [← after_append, ← hlist, ← hfinal] at hrest
  refine hjournal.subset ?_
  rw [hafter]
  exact List.mem_append_right _ List.mem_cons_self

end Found

/-- **Stalling is reaching a cycle.** Let import paths be read from the directory of their module,
    or let there be finitely many keys of the modules that are reached, with room for them in the
    session, and let these decide what the modules ask for.
    * While the files stay as they are, a client that asks for files, or for what import paths lead
      to, is answered each time it waits, exactly if what it waits for leads to no cycle.
    * A build is stalled exactly if one of its targets leads to a cycle of the graph that the build
      sees, which is that of the files unless the build changes what some module asks for.
    * Whatever became of the targets in front of it, a target never finishes exactly if it leads to
      a cycle; and if it is loaded and its outputs can be written, they are written, and the build
      says so, whatever becomes of the targets behind it. -/
theorem stalls_iff_cycle (plan : Plan) :
    (∀ (root : Text) (d : Disk) (room : Nat) (steps : List ClientStep),
      (plan.options.resolver = .relative ∧
          ∀ m, .ask (.load m) ∈ steps → ∃ path, m = .ofPath path) ∨
        FewKeys (Context.imports ⟨root, plan.options⟩ d)
          (ClientStep.Involved ⟨root, plan.options⟩ d steps) room →
      List.Forall₂ (fun (a : Ask) (answer : Option Answer) =>
          answer.isSome ↔ a.Finishes ⟨root, plan.options⟩ d)
        (ClientStep.awaited steps [])
        (Session.play ⟨root, plan.options⟩ steps [] ⟨d, .empty, [], room⟩)) ∧
    ∀ (s : Session) (f : Found), findFiles plan ⟨[], [], s⟩ = .ok () f →
      (requested f).1.map Prod.fst = f.targets ∧
      ((∀ front rest, (requested f).1 = front ++ rest →
          plan.context.imports (after plan f front).disk = plan.context.imports f.session.disk) →
        graph plan f = plan.context.imports f.session.disk) ∧
      (plan.options.resolver = .relative ∨ FewKeys (graph plan f) (Reached plan f) s.room →
        ((buildFiles plan s).1 = .stalled ↔
          ∃ t ∈ f.targets, LeadsToCycle (graph plan f) (.ofPath t.path)) ∧
        ∀ front t number rest, (requested f).1 = front ++ (t, number) :: rest →
          (((after plan f front).load plan.context (after plan f front).bound number).1 = none ↔
            LeadsToCycle (graph plan f) (.ofPath t.path))) ∧
      ∀ front t number rest, (requested f).1 = front ++ (t, number) :: rest →
        let loaded := (after plan f front).load plan.context (after plan f front).bound number
        ∀ m disk, loaded.1 = some (.ok m) →
          outputs plan m t.relative loaded.2.disk = .ok () disk →
          Written plan m t.relative (after plan f front).disk disk ∧
          (after plan f (front ++ [(t, number)])).disk = disk ∧
          .wrote (cssFile plan t.relative) (scriptFile plan t.relative) ∈
            (buildFiles plan s).2.journal := by
  refine ⟨fun root d room steps => Session.isSome_play_iff ⟨root, plan.options⟩ d room steps,
    fun s f hfound => ⟨map_fst_requested f, fun hsteady => ?_, fun h => ?_, ?_⟩⟩
  · rw [← disk_requested f] at hsteady ⊢
    exact asked_of_steady hsteady
  · have htame : Tame plan f := by
      rw [Tame, keepsRoom_findFiles plan hfound]
      exact h
    exact ⟨buildFiles_eq_stalled_iff htame hfound,
      fun front t number rest hsplit => load_eq_none_iff htame hsplit⟩
  · intro front t number rest hsplit loaded m disk hload
    exact written_of_load hfound hsplit (Prod.ext hload rfl)

/-- Two style sheets that compose each other, and one by itself. -/
def loopDisk : Disk where
  cwd := []
  entries := [
    (["in".toList], .dir),
    (["in".toList, "a.css".toList],
      .file (Text.utf8 ".a\x7bcomposes:b from './b.css'\x7d".toList)),
    (["in".toList, "b.css".toList],
      .file (Text.utf8 ".b\x7bcomposes:a from './a.css'\x7d".toList)),
    (["in".toList, "c.css".toList], .file (Text.utf8 ".c\x7btop:0\x7d".toList)),
    (["out".toList], .dir)]

def loopPlan : Plan :=
  ⟨"/in".toList, "/out".toList, .default⟩

/-- The target that is on no cycle. -/
def loopTarget : Target :=
  ⟨"/in/c.css".toList, "c.css".toList⟩

/-- The targets in front of it, with the numbers of their loads. -/
def loopFront : List (Target × Nat) :=
  [(⟨"/in/a.css".toList, "a.css".toList⟩, 0), (⟨"/in/b.css".toList, "b.css".toList⟩, 1)]

def loopFound : Found :=
  ⟨loopFront.map Prod.fst ++ [loopTarget], [], .ofDisk loopDisk⟩

/-- A client that asks for a style sheet on the cycle and for the one that is on none. -/
def loopSteps : List ClientStep :=
  [.ask (.load (.ofPath "/in/a.css".toList)), .ask (.load (.ofPath loopTarget.path)),
    .await 0, .await 1]

/-- A plan in which every import leads to one module that is no file. -/
def turnedPlan : Plan :=
  ⟨"/in".toList, "/out".toList,
    { Options.default with resolver := fun _ _ => .handle "/in/a.css".toList }⟩

/-- A client that asks for this module. -/
def turnedSteps : List ClientStep :=
  [.ask (.load (.handle "/in/a.css".toList)), .await 0]

theorem fewKeys_turnedPlan : FewKeys (Context.imports ⟨"/in".toList, turnedPlan.options⟩ loopDisk)
    (ClientStep.Involved ⟨"/in".toList, turnedPlan.options⟩ loopDisk turnedSteps) 1 := by
  have hall : ∀ m, ClientStep.Involved ⟨"/in".toList, turnedPlan.options⟩ loopDisk turnedSteps m →
      m = .handle "/in/a.css".toList := by
    intro m hm
    refine hm.of_closed (V := (· = .handle "/in/a.css".toList)) (fun a ha ref href => ?_)
      fun a ha b hb => ?_
    · simp only [turnedSteps, List.mem_cons, ClientStep.ask.injEq, reduceCtorEq, List.not_mem_nil,
        or_false] at ha
      subst ha
      exact (Option.some.inj href).symm
    · have himports : Context.imports ⟨"/in".toList, turnedPlan.options⟩ loopDisk
          (.handle "/in/a.css".toList) = [.handle "/in/a.css".toList] := by decide +kernel
      rw [ha, Context.Imports, himports] at hb
      exact List.mem_singleton.mp hb
  refine ⟨⟨["/in/a.css".toList], Nat.le_refl 1, fun m hm => ?_⟩, fun a b ha hb _ ref href => ?_⟩
  · rw [hall m hm]
    exact List.mem_cons_self
  · rw [hall b hb, ← hall a ha]
    exact ⟨ref, href, rfl⟩

theorem findFiles_loopPlan :
    findFiles loopPlan ⟨[], [], .ofDisk loopDisk⟩ = .ok () loopFound := by
  -- sorting does not compute, but these names are in order already
  have hnames : loopDisk.names ["in".toList] =
      ["a.css".toList, "b.css".toList, "c.css".toList] :=
    Disk.names_of_pairwise (by decide +kernel) (by decide +kernel)
  have hvisit : findFiles loopPlan ⟨[], [], .ofDisk loopDisk⟩ =
      ((loopDisk.names ["in".toList]).forM fun name => visit loopPlan Disk.maxPath [name])
        ⟨[], [], .ofDisk loopDisk⟩ := rfl
  rw [hvisit, hnames]
  rfl

theorem stalls_iff_cycle_loop :
    (Session.play ⟨loopPlan.input, loopPlan.options⟩ loopSteps [] (.ofDisk loopDisk)).map
        Option.isSome = [false, true] ∧
      (Session.play ⟨"/in".toList, turnedPlan.options⟩ turnedSteps []
        ⟨loopDisk, .empty, [], 1⟩).map Option.isSome = [false] ∧
      (buildFiles loopPlan (.ofDisk loopDisk)).1 = .stalled ∧
      .wrote "/out/c.css".toList "/out/c.js".toList ∈
        (buildFiles loopPlan (.ofDisk loopDisk)).2.journal := by
  obtain ⟨hclient, hbuild⟩ := stalls_iff_cycle loopPlan
  obtain ⟨-, -, htold, hturn⟩ := hbuild (.ofDisk loopDisk) loopFound findFiles_loopPlan
  obtain ⟨hstalled, -⟩ := htold (.inl rfl)
  have hloop : ∀ asks : ModuleRef → List ModuleRef,
      .ofPath "/in/b.css".toList ∈ asks (.ofPath "/in/a.css".toList) →
      .ofPath "/in/a.css".toList ∈ asks (.ofPath "/in/b.css".toList) →
      LeadsToCycle asks (.ofPath "/in/a.css".toList) :=
    fun _ hb ha => .of_loop (.tail (.single hb) ha)
  have hlone : ∀ asks : ModuleRef → List ModuleRef,
      asks (.ofPath loopTarget.path) = [] → ¬LeadsToCycle asks (.ofPath loopTarget.path) := by
    intro asks hnone hcycle
    obtain ⟨other, hmem, _⟩ := leadsToCycle_iff.mp hcycle
    rw [hnone] at hmem
    cases hmem
  refine ⟨?_, ?_, ?_, ?_⟩
  · have hfiles : ∀ m, .ask (.load m) ∈ loopSteps → ∃ path, m = .ofPath path := by
      intro m hm
      simp only [loopSteps, List.mem_cons, ClientStep.ask.injEq, Ask.load.injEq, reduceCtorEq,
        List.not_mem_nil, or_false] at hm
      rcases hm with rfl | rfl
      · exact ⟨_, rfl⟩
      · exact ⟨_, rfl⟩
    have hanswers : List.Forall₂ _ [_, _]
        (Session.play ⟨loopPlan.input, loopPlan.options⟩ loopSteps [] (.ofDisk loopDisk)) :=
      hclient loopPlan.input loopDisk 0 loopSteps (.inl ⟨rfl, hfiles⟩)
    obtain ⟨a, _, ha, hrest, hplay⟩ := List.forall₂_cons_left_iff.mp hanswers
    obtain ⟨c, _, hc, hnil, rfl⟩ := List.forall₂_cons_left_iff.mp hrest
    obtain rfl := List.forall₂_nil_left_iff.mp hnil
    have hstuck : a.isSome = false := by
      refine Bool.eq_false_iff.mpr fun hsome => ha.mp hsome _ rfl (hloop _ ?_ ?_)
      · decide +kernel
      · decide +kernel
    have hdone : c.isSome = true := by
      refine hc.mpr fun m hm => ?_
      cases hm
      exact hlone _ (by decide +kernel)
    rw [hplay, List.map_cons, List.map_cons, List.map_nil, hstuck, hdone]
  · have hanswers : List.Forall₂ _ [_] (Session.play ⟨"/in".toList, turnedPlan.options⟩
        turnedSteps [] ⟨loopDisk, .empty, [], 1⟩) :=
      (stalls_iff_cycle turnedPlan).1 "/in".toList loopDisk 1 turnedSteps (.inr fewKeys_turnedPlan)
    obtain ⟨a, _, ha, hnil, hplay⟩ := List.forall₂_cons_left_iff.mp hanswers
    obtain rfl := List.forall₂_nil_left_iff.mp hnil
    have hloop : .handle "/in/a.css".toList ∈ Context.imports
        ⟨"/in".toList, turnedPlan.options⟩ loopDisk (.handle "/in/a.css".toList) := by
      decide +kernel
    have hstuck : a.isSome = false :=
      Bool.eq_false_iff.mpr fun hsome => ha.mp hsome _ rfl (.of_loop (.single hloop))
    rw [hplay, List.map_cons, List.map_nil, hstuck]
  · exact hstalled.mpr ⟨_, List.mem_cons_self, hloop _ (by decide +kernel) (by decide +kernel)⟩
  · have hsplit : (requested loopFound).1 = loopFront ++ [(loopTarget, 2)] := by decide +kernel
    have hok : (turn loopPlan loopPlan.context loopTarget 2
        (after loopPlan loopFound loopFront)).1.bind Except.toOption = some () := by
      decide +kernel
    obtain ⟨m, disk, hload, hwrite⟩ := of_turn_ok hok
    exact (hturn loopFront loopTarget 2 [] hsplit m disk hload hwrite).2.2

/-! ## 3. Other resolvers -/

/-- A file by its path, and by the path with more slashes in front of it. -/
def slashed : Nat → ModuleRef
  | 0 => .file "/in/a.css".toList
  | n + 1 => .handle (List.replicate (n + 1) '/' ++ "/in/a.css".toList)

/-- Every import leads back to the module that it stands in, by a key with one more slash. -/
def endless : Context :=
  ⟨"/in".toList, { Options.default with
    resolver := fun _ importer => .handle ('/' :: importer.key)
    scopedName := fun name _ _ _ => name }⟩

theorem key_slashed (n : Nat) : (slashed n).key = List.replicate n '/' ++ "/in/a.css".toList := by
  cases n <;> rfl

theorem eq_of_key_slashed {m n : Nat} (h : (slashed m).key = (slashed n).key) : m = n := by
  have hlength := congrArg List.length h
  simpa [key_slashed] using hlength

/-- By all its keys the file is read from one path. -/
theorem loadPath_slashed (n : Nat) : (slashed n).loadPath? = some "/in/a.css".toList := by
  have hnormal : ∀ n, Path.normalize (List.replicate n '/' ++ "/in/a.css".toList) =
      "/in/a.css".toList := by
    intro n
    induction n with
    | zero => decide
    | succ n ih =>
      refine (Path.normalize_slash ?_).trans ih
      cases n <;> rfl
  cases n with
  | zero => rfl
  | succ n => exact congrArg some (hnormal (n + 1))

/-- By each key the sheet of the file has one import. -/
theorem prepare_slashed (n : Nat) : ∃ sheet block,
    (endless.prepare loopDisk (slashed n)).1 = .ok sheet ∧ Link.importBlocks sheet = [block] := by
  obtain ⟨input, hinput, hprepared⟩ := exists_ok_of_map
    (x := endless.readSheet loopDisk (slashed 0))
    (f := fun input => (endless.runPasses (slashed 0) input).toOption.map fun sheet =>
      (Link.importBlocks sheet).length) (b := some 1) (by decide +kernel)
  obtain ⟨sheet, hpasses, hlength⟩ := exists_ok_of_map hprepared
  obtain ⟨block, hblock⟩ := List.length_eq_one_iff.mp hlength
  have hread : endless.readSheet loopDisk (slashed n) = .ok input :=
    Context.readSheet_of_loadPath ((loadPath_slashed n).trans (loadPath_slashed 0).symm) hinput
  -- the names that are generated do not depend on the module
  have hsame : endless.runPasses (slashed n) input = .ok sheet := hpasses
  refine ⟨sheet, block, ?_, hblock⟩
  rw [Context.prepare, hread]
  show Context.passFailed (slashed n) (endless.runPasses (slashed n) input) = .ok sheet
  rw [hsame]
  rfl

theorem imported_slashed (n : Nat) (path : Text) :
    endless.imported? (slashed n) path = some (slashed (n + 1)) := by
  have hlocate : locate endless.options.virtuals endless.options.resolver path (slashed n) =
      .module (.handle ('/' :: (slashed n).key)) := rfl
  rw [Context.imported?, hlocate, key_slashed]
  rfl

theorem imports_slashed (n : Nat) : endless.imports loopDisk (slashed n) = [slashed (n + 1)] := by
  obtain ⟨sheet, block, hprepare, hblocks⟩ := prepare_slashed n
  rw [Context.imports, hprepare]
  simp only [hblocks, List.filterMap_cons, List.filterMap_nil, imported_slashed]

/-- On and on there are new keys, and never a cycle. -/
theorem not_leadsToCycle_slashed (n : Nat) :
    ¬LeadsToCycle (endless.imports loopDisk) (slashed n) := by
  have hstep : ∀ {k m}, Relation.TransGen (AsksFor (endless.imports loopDisk)) (slashed k) m →
      ∃ j, k < j ∧ m = slashed j := by
    intro k m h
    induction h with
    | single hask =>
      rw [AsksFor, imports_slashed] at hask
      exact ⟨k + 1, Nat.lt_succ_self k, List.mem_singleton.mp hask⟩
    | tail _ hask ih =>
      obtain ⟨j, hlt, rfl⟩ := ih
      rw [AsksFor, imports_slashed] at hask
      exact ⟨j + 1, by omega, List.mem_singleton.mp hask⟩
  intro ⟨a, hreach, hloop⟩
  obtain ⟨k, rfl⟩ : ∃ k, a = slashed k := by
    rcases Relation.reflTransGen_iff_eq_or_transGen.mp hreach with rfl | hpath
    · exact ⟨n, rfl⟩
    · obtain ⟨j, _, rfl⟩ := hstep hpath
      exact ⟨j, rfl⟩
  obtain ⟨j, hlt, heq⟩ := hstep hloop
  have := eq_of_key_slashed (congrArg ModuleRef.key heq)
  omega

/-- No bound is enough for the load of a module that asks for ever new keys. -/
theorem load_slashed (bound : Nat) {k n : Nat} {s : Session} (hdisk : s.disk = loopDisk)
    (hslot : s.cache.slot? k = some (.waiting (slashed n)))
    (hnew : ∀ j, n < j → s.cache.index.get? (slashed j).key = none) :
    (Session.load endless bound k s).1 = none := by
  induction bound generalizing k n s with
  | zero => rfl
  | succ bound ih =>
    obtain ⟨sheet, block, hprepare, hblocks⟩ := prepare_slashed n
    rw [← hdisk] at hprepare
    obtain ⟨hhandle, hcache⟩ := Memo.requestImport_of_new (s := Memo.begun endless s k (slashed n))
      (imported_slashed n block.path) (hnew (n + 1) (Nat.lt_succ_self n))
    have hadv : Memo.Advances (Memo.begun endless s k (slashed n))
        ((Memo.begun endless s k (slashed n)).requestImport endless (slashed n) block.path).2 :=
      Memo.advances_requestImport _ _ _
    have hinner : (Session.load endless bound (Memo.begun endless s k (slashed n)).cache.started
        ((Memo.begun endless s k (slashed n)).requestImport endless (slashed n) block.path).2).1 =
          none := by
      refine ih (n := n + 1) (hadv.disk.trans hdisk) ?_ fun j hj => ?_
      · rw [hcache]
        exact List.getElem?_concat_length
      · rw [hcache, Memo.index_store, if_neg fun heq => ?_]
        · exact hnew j (by omega)
        · have := eq_of_key_slashed heq
          omega
    rw [Memo.load_waiting hslot, hprepare]
    simp only [hblocks, Session.requestAll, hhandle]
    have hawait := (Memo.awaitAll_eq_none_iff (Session.load endless bound) block _ []
      ((Memo.begun endless s k (slashed n)).requestImport endless (slashed n) block.path).2).mpr
        (.inl hinner)
    generalize Session.awaitAll _ _ _ = answer at hawait
    obtain ⟨fetched, s₂⟩ := answer
    cases hawait
    rfl

/-- A resolver that knows a file by its path and also, under the same key, as `x`, and sends what
    stands in it elsewhere if it is read as the latter. -/
def doubledPlan : Plan :=
  ⟨"/in".toList, "/out".toList, { Options.default with
    resolver := fun path importer =>
      match importer with
      | .handle _ => .file "/y.css".toList
      | _ =>
        if path = "x".toList then .handle "/x.css".toList else Resolver.relative path importer }⟩

/-- A style sheet that imports another one as `x` and by its path. -/
def doubledDisk (path : String) : Disk where
  cwd := []
  entries := [
    (["in".toList], .dir),
    (["in".toList, "b.css".toList],
      .file (Text.utf8 ":import('x')\x7b\x7d:import('../x.css')\x7b\x7d".toList)),
    (["x.css".toList],
      .file (Text.utf8 (":import('".toList ++ path.toList ++ "')\x7b\x7d".toList))),
    (["y.css".toList], .file []),
    (["z.css".toList], .file []),
    (["out".toList], .dir)]

def doubledFound (path : String) : Found :=
  ⟨[⟨"/in/b.css".toList, "b.css".toList⟩], [], .ofDisk (doubledDisk path)⟩

theorem findFiles_doubledPlan (path : String) :
    findFiles doubledPlan ⟨[], [], .ofDisk (doubledDisk path)⟩ = .ok () (doubledFound path) := by
  have hnames : (doubledDisk path).names ["in".toList] = ["b.css".toList] :=
    Disk.names_of_pairwise rfl (by decide +kernel)
  have hvisit : findFiles doubledPlan ⟨[], [], .ofDisk (doubledDisk path)⟩ =
      (((doubledDisk path).names ["in".toList]).forM fun name =>
        visit doubledPlan Disk.maxPath [name]) ⟨[], [], .ofDisk (doubledDisk path)⟩ := rfl
  rw [hvisit, hnames]
  rfl

/-- The conditions are needed.
    * Where every import leads to a new key, a load never finishes, whatever there is room for,
      though it leads to no cycle.
    * Where modules with one key ask for different things, only the one is read that was requested
      first, and a build may finish though its target leads to a cycle. -/
theorem stalling_of_other_keys :
    ((∀ room, (Session.loadModule endless ⟨loopDisk, .empty, [], room⟩ (slashed 0)).1 = none) ∧
      ¬LeadsToCycle (endless.imports loopDisk) (slashed 0)) ∧
    findFiles doubledPlan ⟨[], [], .ofDisk (doubledDisk "./x.css")⟩ =
      .ok () (doubledFound "./x.css") ∧
    LeadsToCycle (graph doubledPlan (doubledFound "./x.css")) (.ofPath "/in/b.css".toList) ∧
    (buildFiles doubledPlan (.ofDisk (doubledDisk "./x.css"))).1 =
      .done ⟨["b.css".toList], [], 3⟩ := by
  refine ⟨⟨fun room => ?_, not_leadsToCycle_slashed 0⟩, findFiles_doubledPlan _, ?_, ?_⟩
  · refine load_slashed _ rfl rfl fun j hj => ?_
    refine (Memo.index_store .empty (slashed 0) (slashed j).key).trans (if_neg fun heq => ?_)
    have := eq_of_key_slashed heq
    omega
  · have hx : .file "/x.css".toList ∈ graph doubledPlan (doubledFound "./x.css")
        (.ofPath "/in/b.css".toList) := by decide +kernel
    have hloop : .file "/x.css".toList ∈ graph doubledPlan (doubledFound "./x.css")
        (.file "/x.css".toList) := by decide +kernel
    exact leadsToCycle_iff.mpr ⟨_, hx, .of_loop (.single hloop)⟩
  · exact buildFiles_eq_done (findFiles_doubledPlan _) (by decide +kernel) (by decide +kernel)

end Build

end StyleModules
