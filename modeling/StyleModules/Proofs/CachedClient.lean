import StyleModules.Proofs.MemoLoading

/-!
A client of the loader cannot see the cache.

* `Session.play` is a client that asks for modules, or for what import paths lead to, and waits for
  its requests, in any order and as often as it likes.
* `Ask.plain` is the answer of plain recursion, which keeps nothing.
* `Session.play_eq_plain`: without cycles, and with keys that stand for one path each, all answers
  are those of plain recursion. `Session.play_of_shared_key` is what happens with other keys.
-/

namespace StyleModules

/-! ## 1. Requests and answers -/

/-- What can be asked for: a module, or what an import path in a module leads to. -/
inductive Ask where
  | load (m : ModuleRef)
  | fetch (importer : ModuleRef) (path : Text)

/-- What is answered: text and exports of a module, or exports only. -/
inductive Answer where
  | loaded (outcome : Except LoadError (Text × Exports))
  | fetched (exports : Except LoadError Exports)
  deriving DecidableEq

/-- A client asks for something, or waits for what it asked for earlier, by the number of the
    request. -/
inductive ClientStep where
  | ask (a : Ask)
  | await (number : Nat)

namespace Ask

/-- The module that is asked for, unless it is a virtual one. -/
def target? (ctx : Context) : Ask → Option ModuleRef
  | load m => some m
  | fetch importer path => ctx.imported? importer path

/-- The answer of plain recursion. -/
def plain (ctx : Context) (d : Disk) (depth : Nat) : Ask → Option Answer
  | load m => (ctx.process d depth m).map fun r => .loaded (LoadResult.outcome r)
  | fetch importer path => (ctx.fetch (ctx.process d depth) importer path).map .fetched

/-- Plain recursion gives an answer, to every depth from some one on. -/
def Answers (ctx : Context) (d : Disk) (a : Ask) (answer : Answer) : Prop :=
  ∃ n, ∀ depth, n ≤ depth → a.plain ctx d depth = some answer

/-- What an answer shows of a result. -/
def answer : Ask → LoadResult → Answer
  | load _, r => .loaded (LoadResult.outcome r)
  | fetch _ _, r => .fetched (r.map LoadedModule.exports)

end Ask

namespace Session

/-- Ask in a session. -/
def ask (ctx : Context) (s : Session) : Ask → Handle × Session
  | .load m =>
    let (number, s) := s.request m
    (.slot number, s)
  | .fetch importer path => s.requestImport ctx importer path

/-- Wait in a session; no answer if it never comes. -/
def awaitAnswer (ctx : Context) (s : Session) (a : Ask) : Handle → Option Answer × Session
  | .ready exports => (some (.fetched exports), s)
  | .slot number =>
    let (result, s) := load ctx s.bound number s
    (result.map a.answer, s)

/-- The answers that a client gets, one for each time it waits. -/
def play (ctx : Context) :
    List ClientStep → List (Ask × Handle) → Session → List (Option Answer)
  | [], _, _ => []
  | .ask a :: steps, held, s =>
    let (handle, s) := s.ask ctx a
    play ctx steps (held ++ [(a, handle)]) s
  | .await number :: steps, held, s =>
    match held[number]? with
    | none => play ctx steps held s
    | some (a, handle) =>
      let (answer, s) := s.awaitAnswer ctx a handle
      answer :: play ctx steps held s

end Session

namespace ClientStep

/-- What a client waits for, in order, given what it has asked for already. -/
def awaited : List ClientStep → List Ask → List Ask
  | [], _ => []
  | ask a :: steps, asks => awaited steps (asks ++ [a])
  | await number :: steps, asks =>
    match asks[number]? with
    | none => awaited steps asks
    | some a => a :: awaited steps asks

/-- The modules that a client's requests lead to, directly or through imports. -/
def Involved (ctx : Context) (d : Disk) (steps : List ClientStep) (m : ModuleRef) : Prop :=
  ∃ a, ask a ∈ steps ∧ ∃ ref, a.target? ctx = some ref ∧ ctx.Reaches d ref m

end ClientStep

/-! ## 2. A client's run -/

namespace Memo

variable {ctx : Context} {d : Disk} {V : ModuleRef → Prop}

/-- What a client has in hand for a request. -/
def Held (ctx : Context) (c : Loads) : Ask → Handle → Prop
  | .load m, .slot n => c.index.get? m.key = some n
  | .load _, .ready _ => False
  | .fetch importer path, handle => Asked ctx c importer path handle

theorem Held.grows {c c' : Loads} {a : Ask} {handle : Handle} (h : Held ctx c a handle)
    (hg : Grows c c') : Held ctx c' a handle := by
  cases a with
  | fetch importer path => exact Asked.grows h hg
  | load m =>
    cases handle with
    | slot n => exact hg.kept h
    | ready exports => exact h

/-- A client's request. -/
theorem SoundSession.ask {s : Session} (hs : SoundSession ctx d V s) (a : Ask)
    (hv : ∀ ref, a.target? ctx = some ref → V ref) :
    SoundSession ctx d V (s.ask ctx a).2 ∧ Grows s.cache (s.ask ctx a).2.cache ∧
      Held ctx (s.ask ctx a).2.cache a (s.ask ctx a).1 := by
  cases a with
  | load m => exact ⟨hs.request (hv m rfl), grows_request s.cache m, index_request s.cache m⟩
  | fetch importer path =>
    refine requestImport_keeps (fun ref hl _ hs => hs.request (hv ref ?_)) hs
    rw [Ask.target?, Context.imported?, hl]

/-- What is in a slot that a client holds is loaded for the module it asked for. -/
theorem Held.target {c : Loads} {a : Ask} {n : Nat} (h : Held ctx c a (.slot n)) :
    ∃ ref, a.target? ctx = some ref ∧ c.index.get? ref.key = some n ∧
      ∀ r, ctx.Yields d ref r → a.Answers ctx d (a.answer r) := by
  cases a with
  | load m =>
    refine ⟨m, rfl, h, fun r ⟨n, plain, hp, hout⟩ => ⟨n, fun depth hle => ?_⟩⟩
    rw [Ask.plain, Context.process_of_le hle hp, Option.map_some, Ask.answer, hout]
  | fetch importer path =>
    obtain ⟨ref, hl, hn⟩ := h
    refine ⟨ref, by rw [Ask.target?, Context.imported?, hl], hn,
      fun r ⟨n, plain, hp, hout⟩ => ⟨n, fun depth hle => ?_⟩⟩
    rw [Ask.plain, Context.fetch, hl]
    simp only [Context.process_of_le hle hp, Option.map_some, Ask.answer,
      LoadResult.exports_of_outcome hout]

/-- A client that waits is answered as plain recursion would. -/
theorem SoundSession.awaitAnswer (hctx : ctx.Standard) (hw : ctx.World d V) {s : Session}
    (hs : SoundSession ctx d V s) (hidle : Idle s) {a : Ask} {handle : Handle}
    (hv : ∀ ref, a.target? ctx = some ref → V ref) (hheld : Held ctx s.cache a handle) :
    ∃ answer s', s.awaitAnswer ctx a handle = (some answer, s') ∧ a.Answers ctx d answer ∧
      SoundSession ctx d V s' ∧ Grows s.cache s'.cache := by
  cases handle with
  | ready exports =>
    refine ⟨_, s, rfl, ?_, hs, .refl _⟩
    cases a with
    | load m => exact hheld.elim
    | fetch importer path => exact ⟨0, fun _ _ => by rw [Ask.plain, hheld, Option.map_some]⟩
  | slot n =>
    obtain ⟨ref, htarget, hn, hanswers⟩ := hheld.target (d := d)
    obtain ⟨r, hr, hyields, hs', hg⟩ := hidle.load hctx hw hs (hv ref htarget) hn
    refine ⟨a.answer r, (Session.load ctx s.bound n s).2, ?_, hanswers r hyields, hs', hg⟩
    rw [Session.awaitAnswer]
    simp only [hr, Option.map_some]

/-- A client in the middle of its run. -/
theorem play_spec (hctx : ctx.Standard) (hw : ctx.World d V) (steps : List ClientStep)
    (hsteps : ∀ a, .ask a ∈ steps → ∀ ref, a.target? ctx = some ref → V ref)
    {held : List (Ask × Handle)} {s : Session} (hs : SoundSession ctx d V s) (hidle : Idle s)
    (hheld : ∀ p ∈ held, Held ctx s.cache p.1 p.2 ∧
      ∀ ref, p.1.target? ctx = some ref → V ref) :
    ∃ answers, Session.play ctx steps held s = answers.map some ∧
      List.Forall₂ (Ask.Answers ctx d) (ClientStep.awaited steps (held.map Prod.fst)) answers := by
  induction steps generalizing held s with
  | nil => exact ⟨[], rfl, .nil⟩
  | cons step steps ih =>
    have hrest := fun a ha => hsteps a (List.mem_cons_of_mem step ha)
    cases step with
    | ask a =>
      have hv := hsteps a List.mem_cons_self
      obtain ⟨hs', hg, hnew⟩ := hs.ask a hv
      have hheld' : ∀ p ∈ held ++ [(a, (s.ask ctx a).1)],
          Held ctx (s.ask ctx a).2.cache p.1 p.2 ∧ ∀ ref, p.1.target? ctx = some ref → V ref := by
        intro p hp
        rcases List.mem_append.mp hp with hp | hp
        · exact ⟨(hheld p hp).1.grows hg, (hheld p hp).2⟩
        · obtain rfl := List.mem_singleton.mp hp
          exact ⟨hnew, hv⟩
      obtain ⟨answers, hplay, hall⟩ := ih hrest hs' (hidle.grows hg) hheld'
      rw [List.map_append] at hall
      exact ⟨answers, hplay, hall⟩
    | await n =>
      rw [Session.play, ClientStep.awaited, List.getElem?_map]
      cases hn : held[n]? with
      | none => exact ih hrest hs hidle hheld
      | some p =>
        obtain ⟨hp, hv⟩ := hheld p (List.mem_of_getElem? hn)
        obtain ⟨answer, s', hawait, hanswer, hs', hg⟩ := hs.awaitAnswer hctx hw hidle hv hp
        obtain ⟨answers, hplay, hall⟩ := ih hrest hs' (hidle.grows hg) fun q hq =>
          ⟨(hheld q hq).1.grows hg, (hheld q hq).2⟩
        refine ⟨answer :: answers, ?_, .cons hanswer hall⟩
        simp only [hawait, hplay, List.map_cons]

end Memo

/-! ## 3. The cache cannot be seen -/

namespace ClientStep

variable {ctx : Context} {d : Disk}

/-- What a client's requests lead to is in every set that holds their modules and is closed under
    imports. -/
theorem Involved.of_closed {steps : List ClientStep} {V : ModuleRef → Prop}
    (hsteps : ∀ a, ask a ∈ steps → ∀ ref, a.target? ctx = some ref → V ref)
    (hclosed : ∀ a, V a → ∀ b, ctx.Imports d a b → V b) {m : ModuleRef}
    (h : Involved ctx d steps m) : V m := by
  obtain ⟨a, ha, ref, htarget, hr⟩ := h
  exact hr.of_closed hclosed (hsteps a ha ref htarget)

end ClientStep

/-- **A client cannot tell the cache from plain recursion**: whatever it asks for, in whatever order
    and how often, it gets an answer each time it waits, and it is the one of plain recursion. There
    must be no cycle among the modules involved, and of these no two may share a key and yet be
    read from different paths. -/
theorem Session.play_eq_plain {ctx : Context} (hctx : ctx.Standard) (d : Disk)
    (steps : List ClientStep)
    (hacyclic : ∀ m, ClientStep.Involved ctx d steps m → ¬ctx.Needs d m m)
    (hkeys : ∀ a b, ClientStep.Involved ctx d steps a → ClientStep.Involved ctx d steps b →
      a.key = b.key → a.loadPath? = b.loadPath?) :
    ∃ answers, Session.play ctx steps [] (.ofDisk d) = answers.map some ∧
      List.Forall₂ (Ask.Answers ctx d) (ClientStep.awaited steps []) answers := by
  have hw : ctx.World d (ClientStep.Involved ctx d steps) :=
    ⟨fun a b ⟨ask, hask, ref, htarget, hr⟩ hi => ⟨ask, hask, ref, htarget, hr.tail hi⟩,
      hkeys, hacyclic⟩
  have hsteps : ∀ a, .ask a ∈ steps → ∀ ref, a.target? ctx = some ref →
      ClientStep.Involved ctx d steps ref :=
    fun a ha ref htarget => ⟨a, ha, ref, htarget, .refl⟩
  exact Memo.play_spec hctx hw steps hsteps ⟨rfl, Memo.sound_empty⟩ (Memo.idle_ofDisk d)
    fun p hp => absurd hp List.not_mem_nil

/-- A page whose two parts share what they compose. -/
def diamond : Disk where
  cwd := []
  entries := [
    (["page.css".toList], .file (Text.utf8
      ".page\x7bcomposes:nav from './nav.css';composes:bar from './bar.css'\x7d".toList)),
    (["nav.css".toList], .file (Text.utf8 ".nav\x7bcomposes:a from './a.css'\x7d".toList)),
    (["bar.css".toList], .file (Text.utf8 ".bar\x7bcomposes:a from './a.css'\x7d".toList)),
    (["a.css".toList], .file (Text.utf8 ".a\x7btop:0\x7d".toList))]

/-- The modules of the page. -/
def diamondModules : List ModuleRef :=
  ["/page.css", "/nav.css", "/bar.css", "/a.css"].map fun path => .file path.toList

/-- A client asks for a part of the page, then for the page, and waits for both, twice for the
    page. -/
def diamondSteps : List ClientStep :=
  [.ask (.fetch (.file "/page.css".toList) "./nav.css".toList),
    .ask (.load (.file "/page.css".toList)), .await 1, .await 0, .await 1]

theorem Session.play_eq_plain_diamond :
    ∃ answers, Session.play (.ofRoot "/".toList .default) diamondSteps [] (.ofDisk diamond) =
        answers.map some ∧
      List.Forall₂ (Ask.Answers (.ofRoot "/".toList .default) diamond)
        [.load (.file "/page.css".toList),
          .fetch (.file "/page.css".toList) "./nav.css".toList,
          .load (.file "/page.css".toList)] answers := by
  have hranked : ∀ a ∈ diamondModules,
      ∀ b ∈ Context.imports (.ofRoot "/".toList .default) diamond a,
        b ∈ diamondModules ∧ b.key.length < a.key.length := by decide +kernel
  have htargets : ∀ a, .ask a ∈ diamondSteps →
      ∀ ref, a.target? (.ofRoot "/".toList .default) = some ref → ref ∈ diamondModules := by
    intro a ha
    simp only [diamondSteps, List.mem_cons, ClientStep.ask.injEq, List.not_mem_nil, or_false,
      reduceCtorEq] at ha
    rcases ha with rfl | rfl <;> decide +kernel
  have hmem : ∀ m, ClientStep.Involved (.ofRoot "/".toList .default) diamond diamondSteps m →
      m ∈ diamondModules :=
    fun m hm => hm.of_closed htargets fun a ha b hb => (hranked a ha b hb).1
  have hkeys : ∀ a ∈ diamondModules, ∀ b ∈ diamondModules,
      a.key = b.key → a.loadPath? = b.loadPath? := by decide
  exact Session.play_eq_plain ⟨rfl, rfl, rfl, rfl⟩ diamond diamondSteps
    (fun m hm => Context.not_needs_of_rank _ hranked (hmem m hm))
    fun a b ha hb => hkeys a (hmem a ha) b (hmem b hb)

/-- Keys do matter: a virtual module whose name is the path of a file takes its place in the cache,
    and the file cannot be loaded. -/
theorem Session.play_of_shared_key :
    let path := "/a.css".toList
    Session.play (.ofRoot "/".toList .default)
        [.ask (.load (.virtual path)), .ask (.load (.file path)), .await 1] [] (.ofDisk diamond) =
      [some (.loaded (.error (.noSuchModule path)))] ∧
    Context.imports (.ofRoot "/".toList .default) diamond (.virtual path) = [] ∧
    Context.imports (.ofRoot "/".toList .default) diamond (.file path) = [] ∧
    Ask.Answers (.ofRoot "/".toList .default) diamond (.load (.file path))
      (.loaded (.ok ("._a__a\x7btop:0\x7d".toList, ⟨[("a".toList, "_a__a".toList)]⟩))) := by
  refine ⟨by decide +kernel, by decide +kernel, by decide +kernel, 1, fun depth hle => ?_⟩
  have hplain : Context.process (.ofRoot "/".toList .default) diamond 1 (.file "/a.css".toList) =
      some (.ok ⟨.file "/a.css".toList, "._a__a\x7btop:0\x7d".toList,
        ⟨[("a".toList, "_a__a".toList)]⟩⟩) := by decide +kernel
  rw [Ask.plain, Context.process_of_le hle hplain]
  rfl

end StyleModules
