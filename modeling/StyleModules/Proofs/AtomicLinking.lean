import Mathlib.Data.List.Forall2
import StyleModules.Module.Linking
import StyleModules.Proofs.LastBinding
import StyleModules.Proofs.Outcomes

/-!
What is left of linking that fails, and what linking looks at.

* `Linking.link_eq`: linking a sheet at hand requests everything first, and then does to the sheet
  what `Link.linkFetched` says, or nothing.
* `Link.bindAll_append` and `Link.bindAll_fails`: where binding stops.
* `Linking.link_atomic`: linking fails exactly if a failure is not tolerated, and then the sheet is
  as it was.
* `Linking.link_of_agreeing`: of what a module exports, linking looks at the symbols that are bound
  and at nothing else.
-/

namespace StyleModules

namespace Link

variable {tolerance : Tolerance} {importer : Text}

/-! ## 1. Where binding stops -/

/-- Blocks whose modules were loaded are bound, whatever follows. -/
theorem bindAll_append {front : List (ImportBlock × Except LoadError Exports)}
    (h : ∀ f ∈ front, ∃ exports, f.2 = .ok exports)
    (rest : List (ImportBlock × Except LoadError Exports)) (t : Table Text) :
    bindAll tolerance importer (front ++ rest) t =
      ((bindAll tolerance importer rest (t.insertAll (settings tolerance front))).1,
        reports tolerance importer front ++
          (bindAll tolerance importer rest (t.insertAll (settings tolerance front))).2) := by
  induction front generalizing t with
  | nil => rfl
  | cons f front ih =>
    obtain ⟨block, answer⟩ := f
    obtain ⟨exports, hanswer⟩ := h _ List.mem_cons_self
    obtain rfl : answer = .ok exports := hanswer
    have hsettings : settings tolerance ((block, .ok exports) :: front) =
        blockSettings tolerance (block, .ok exports) ++ settings tolerance front := rfl
    have hreports : reports tolerance importer ((block, .ok exports) :: front) =
        blockReports tolerance importer (block, .ok exports) ++
          reports tolerance importer front := rfl
    have hinsert : t.insertAll (settings tolerance ((block, .ok exports) :: front)) =
        (t.insertAll (blockSettings tolerance (block, .ok exports))).insertAll
          (settings tolerance front) := by
      rw [hsettings]
      exact List.foldl_append
    rw [List.cons_append, bindAll]
    simp only [bindBlock_eq]
    rw [ih fun g hg => h g (List.mem_cons_of_mem _ hg), hinsert, hreports, List.append_assoc]

/-- Binding that fails stops at the first block whose module was not loaded. -/
theorem bindAll_fails (hmodules : tolerance.modules = false)
    {front rest : List (ImportBlock × Except LoadError Exports)}
    (hfront : ∀ f ∈ front, ∃ exports, f.2 = .ok exports) (block : ImportBlock) (e : LoadError)
    (t : Table Text) :
    bindAll tolerance importer (front ++ (block, .error e) :: rest) t =
      (.error e, reports tolerance importer front) := by
  have hstop : ∀ t',
      bindAll tolerance importer ((block, .error e) :: rest) t' = (.error e, []) := by
    intro t'
    rw [bindAll, hmodules]
    rfl
  rw [bindAll_append hfront, hstop, List.append_nil]

/-- Blocks either were all loaded, or there is a first one that was not. -/
theorem loaded_or_first_failure (fetched : List (ImportBlock × Except LoadError Exports)) :
    (∀ f ∈ fetched, ∃ exports, f.2 = .ok exports) ∨
      ∃ front block e rest, fetched = front ++ (block, .error e) :: rest ∧
        ∀ f ∈ front, ∃ exports, f.2 = .ok exports := by
  induction fetched with
  | nil => exact .inl fun f hf => by cases hf
  | cons f fetched ih =>
    obtain ⟨block, answer⟩ := f
    cases answer with
    | error e => exact .inr ⟨[], block, e, fetched, rfl, fun f hf => by cases hf⟩
    | ok exports =>
      rcases ih with hall | ⟨front, block', e, rest, rfl, hfront⟩
      · exact .inl (List.forall_mem_cons.mpr ⟨⟨exports, rfl⟩, hall⟩)
      · exact .inr ⟨(block, .ok exports) :: front, block', e, rest, rfl,
          List.forall_mem_cons.mpr ⟨⟨exports, rfl⟩, hfront⟩⟩

/-- Binding is safe, with tolerance for failures or without failures, or there is a first failure
    that is not tolerated. -/
theorem safe_or_first_failure (tolerance : Tolerance)
    (fetched : List (ImportBlock × Except LoadError Exports)) :
    (tolerance.modules = true ∨ ∀ f ∈ fetched, ∃ exports, f.2 = .ok exports) ∨
      tolerance.modules = false ∧ ∃ front block e rest,
        fetched = front ++ (block, .error e) :: rest ∧
          ∀ f ∈ front, ∃ exports, f.2 = .ok exports := by
  cases hmodules : tolerance.modules with
  | true => exact .inl (.inl rfl)
  | false =>
    rcases loaded_or_first_failure fetched with hloaded | hfailure
    · exact .inl (.inr hloaded)
    · exact .inr ⟨rfl, hfailure⟩

/-- Where binding is safe, it succeeds. -/
theorem bindAll_succeeds (importer : Text)
    {fetched : List (ImportBlock × Except LoadError Exports)}
    (h : tolerance.modules = true ∨ ∀ f ∈ fetched, ∃ exports, f.2 = .ok exports) (t : Table Text) :
    ∃ table, (bindAll tolerance importer fetched t).1 = .ok table := by
  induction fetched generalizing t with
  | nil => exact ⟨t, rfl⟩
  | cons f fetched ih =>
    obtain ⟨block, answer⟩ := f
    have hrest := ih (h.imp_right fun hall g hg => hall g (List.mem_cons_of_mem _ hg))
    cases answer with
    | ok exports => exact hrest _
    | error e =>
      have hmodules : tolerance.modules = true := by
        rcases h with hmodules | hall
        · exact hmodules
        · obtain ⟨exports, hexports⟩ := hall _ List.mem_cons_self
          cases hexports
      rw [bindAll, if_pos hmodules]
      exact hrest t

/-- Of a block whose module was loaded, missing symbols are reported and nothing else. -/
theorem of_mem_reports {front : List (ImportBlock × Except LoadError Exports)}
    (hfront : ∀ f ∈ front, ∃ exports, f.2 = .ok exports) {notice : Notice}
    (h : notice ∈ reports tolerance importer front) :
    ∃ f ∈ front, ∃ b ∈ f.1.bindings, notice = .symbolMissing b.2 f.1.path importer := by
  obtain ⟨f, hf, hnotice⟩ := List.mem_flatMap.mp h
  obtain ⟨exports, hexports⟩ := hfront f hf
  rw [blockReports, hexports] at hnotice
  cases hsymbols : tolerance.symbols with
  | false =>
    rw [hsymbols] at hnotice
    cases hnotice
  | true =>
    rw [hsymbols] at hnotice
    obtain ⟨b, hb, rfl⟩ := List.mem_map.mp hnotice
    exact ⟨f, hf, b, List.mem_of_mem_filter hb, rfl⟩

end Link

namespace Linking

variable {tolerance : Tolerance} {importer : Text}

/-! ## 2. Linking at hand -/

theorem after_after (w : Linking) (events more : List LinkEvent) :
    (w.after events).after more = w.after (events ++ more) := by
  rw [after, after, after, List.append_assoc]

/-- The requests for blocks. -/
def requests (blocks : List ImportBlock) : List LinkEvent :=
  blocks.map fun block => .requested block.path

/-- All exports are requested, and the sheet is left alone. -/
theorem requestAll_eq (fetch : Nat → Text → Except LoadError Exports) (number : Nat)
    (blocks : List ImportBlock) (w : Linking) :
    requestAll fetch number blocks w =
      .ok (blocks.mapIdx fun i block => (block, fetch (i + number) block.path))
        (w.after (requests blocks)) := by
  induction blocks generalizing number w with
  | nil =>
    rw [requests, List.map_nil, after, List.append_nil]
    rfl
  | cons block blocks ih =>
    have htell : tell [.requested block.path] w = .ok () (w.after [.requested block.path]) := rfl
    rw [requestAll, bind_of_ok htell, bind_of_ok (ih (number + 1) _), after_after, List.mapIdx_cons,
      Nat.zero_add]
    simp only [Nat.add_right_comm _ 1 number, Nat.add_assoc]
    rfl

/-- How binding ends: the table or the failure, and the reports, which have been seen by then. -/
def ended (w : Linking) (outcome : Except LoadError (Table Text) × List Notice) :
    EStateM.Result LoadError Linking (Table Text) :=
  match outcome.1 with
  | .ok t => .ok t (w.after (outcome.2.map .reported))
  | .error e => .error e (w.after (outcome.2.map .reported))

theorem ended_after (w : Linking) (notices : List Notice)
    (outcome : Except LoadError (Table Text) × List Notice) :
    (w.after (notices.map .reported)).ended outcome =
      w.ended (outcome.1, notices ++ outcome.2) := by
  unfold ended
  rw [List.map_append, ← after_after]

/-- Blocks are bound as in a sheet that is not at hand; the sheet is left alone. -/
theorem bindAll_eq (fetched : List (ImportBlock × Except LoadError Exports)) (t : Table Text)
    (w : Linking) :
    bindAll tolerance importer fetched t w =
      w.ended (Link.bindAll tolerance importer fetched t) := by
  induction fetched generalizing t w with
  | nil =>
    show EStateM.Result.ok t w = .ok t (w.after [])
    rw [after, List.append_nil]
  | cons f fetched ih =>
    obtain ⟨block, answer⟩ := f
    have htell : ∀ events, tell events w = .ok () (w.after events) := fun _ => rfl
    cases answer with
    | error e =>
      rw [bindAll, Link.bindAll]
      split
      · rw [bind_of_ok (htell _), ih]
        exact ended_after w [_] _
      · show EStateM.Result.error e w = .error e (w.after [])
        rw [after, List.append_nil]
    | ok exports =>
      rw [bindAll, Link.bindAll, bind_of_ok (htell _), ih]
      exact ended_after w _ _

theorem translate_eq (t : Table Text) (w : Linking) :
    translate t w = .ok (Link.exportsOf (Link.replaceAliases t w.sheet))
      ⟨(Link.replaceAliases t w.sheet).retain fun n => !Interface.isExportBlock n, w.events⟩ :=
  rfl

/-- Linking is binding between the requests and the edits. -/
theorem link_of_bindAll (fetch : Nat → Text → Except LoadError Exports) (sheet : Stylesheet) :
    link tolerance importer fetch ⟨sheet, []⟩ =
      (bindAll tolerance importer (Link.fetchAll fetch sheet) .empty >>= translate)
        ⟨sheet, requests (Link.importBlocks sheet)⟩ := by
  have hget : (get : Action Linking) ⟨sheet, []⟩ = .ok ⟨sheet, []⟩ ⟨sheet, []⟩ := rfl
  have hfetch : requestAll fetch 0 (Link.importBlocks sheet) ⟨sheet, []⟩ =
      .ok (Link.fetchAll fetch sheet) ⟨sheet, requests (Link.importBlocks sheet)⟩ :=
    requestAll_eq fetch 0 _ _
  rw [link, bind_of_ok hget, bind_of_ok hfetch]

/-- **Linking a sheet at hand**: everything is requested, then reports are made, and then the sheet
    becomes what it is linked to. If it cannot be linked, it stays as it is. -/
theorem link_eq (tolerance : Tolerance) (importer : Text)
    (fetch : Nat → Text → Except LoadError Exports) (sheet : Stylesheet) :
    let outcome := Link.linkFetched tolerance importer (Link.fetchAll fetch sheet) sheet
    let events := requests (Link.importBlocks sheet) ++ outcome.2.map .reported
    link tolerance importer fetch ⟨sheet, []⟩ =
      match outcome.1 with
      | .ok (linked, exports) => .ok exports ⟨linked, events⟩
      | .error e => .error e ⟨sheet, events⟩ := by
  intro outcome events
  have hbind : bindAll tolerance importer (Link.fetchAll fetch sheet) .empty
      ⟨sheet, requests (Link.importBlocks sheet)⟩ = _ := bindAll_eq _ _ _
  have houtcome : outcome.1 =
      (Link.bindAll tolerance importer (Link.fetchAll fetch sheet) .empty).1.map _ := rfl
  rw [link_of_bindAll, houtcome]
  cases htable : (Link.bindAll tolerance importer (Link.fetchAll fetch sheet) .empty).1 with
  | error e =>
    rw [ended, htable] at hbind
    exact bind_of_error hbind
  | ok table =>
    rw [ended, htable] at hbind
    exact bind_of_ok hbind

/-! ## 3. Failures -/

section Failures

variable {fetch : Nat → Text → Except LoadError Exports} {sheet : Stylesheet}

/-- Linking ends at the first failure that is not tolerated, before the sheet is edited. -/
theorem link_of_failure (importer : Text) (hmodules : tolerance.modules = false)
    {front rest : List (ImportBlock × Except LoadError Exports)} {block : ImportBlock}
    {e : LoadError} (hfetched : Link.fetchAll fetch sheet = front ++ (block, .error e) :: rest)
    (hfront : ∀ f ∈ front, ∃ exports, f.2 = .ok exports) :
    link tolerance importer fetch ⟨sheet, []⟩ =
      .error e ⟨sheet, requests (Link.importBlocks sheet) ++
        (Link.reports tolerance importer front).map .reported⟩ := by
  rw [link_of_bindAll, hfetched]
  refine bind_of_error ?_
  rw [bindAll_eq, Link.bindAll_fails hmodules hfront]
  rfl

theorem link_succeeds (importer : Text) (h : tolerance.modules = true ∨
      ∀ f ∈ Link.fetchAll fetch sheet, ∃ exports, f.2 = .ok exports) :
    ∃ exports w, link tolerance importer fetch ⟨sheet, []⟩ = .ok exports w := by
  obtain ⟨table, htable⟩ := Link.bindAll_succeeds importer h .empty
  have hbind : bindAll tolerance importer (Link.fetchAll fetch sheet) .empty
      ⟨sheet, requests (Link.importBlocks sheet)⟩ = _ := bindAll_eq _ _ _
  rw [ended, htable] at hbind
  rw [link_of_bindAll, bind_of_ok hbind]
  exact ⟨_, _, translate_eq _ _⟩

end Failures

/-- **Linking that fails leaves the sheet as it was.** It fails exactly if failures of modules are
    not tolerated and the module of some import block was not loaded. Then
    * the sheet is the one that there was,
    * the failure is that of the first such block,
    * all exports have been requested, in order, and after that only symbols have been reported that
      are missing in the blocks in front of that block. -/
theorem link_atomic (tolerance : Tolerance) (importer : Text)
    (fetch : Nat → Text → Except LoadError Exports) (sheet : Stylesheet) :
    let fetched := Link.fetchAll fetch sheet
    ((∃ e w, link tolerance importer fetch ⟨sheet, []⟩ = .error e w) ↔
      tolerance.modules = false ∧ ∃ f ∈ fetched, ∃ e, f.2 = .error e) ∧
    ∀ e w, link tolerance importer fetch ⟨sheet, []⟩ = .error e w →
      w.sheet = sheet ∧
      ∃ front block rest, fetched = front ++ (block, .error e) :: rest ∧
        (∀ f ∈ front, ∃ exports, f.2 = .ok exports) ∧
        w.events = requests (Link.importBlocks sheet) ++
          (Link.reports tolerance importer front).map .reported ∧
        ∀ notice ∈ Link.reports tolerance importer front, ∃ f ∈ front, ∃ b ∈ f.1.bindings,
          notice = .symbolMissing b.2 f.1.path importer := by
  intro fetched
  rcases Link.safe_or_first_failure tolerance fetched with
    hsafe | ⟨hmodules, front, block, e, rest, hfetched, hfront⟩
  · obtain ⟨exports, w', hok⟩ := link_succeeds importer hsafe
    have hnever : ∀ e w, link tolerance importer fetch ⟨sheet, []⟩ ≠ .error e w := by
      intro e w herror
      rw [hok] at herror
      cases herror
    refine ⟨⟨fun ⟨e, w, herror⟩ => absurd herror (hnever e w), ?_⟩,
      fun e w herror => absurd herror (hnever e w)⟩
    intro ⟨hmodules, f, hf, e, he⟩
    rcases hsafe with htolerant | hloaded
    · rw [hmodules] at htolerant
      cases htolerant
    · obtain ⟨exports, hexports⟩ := hloaded f hf
      rw [he] at hexports
      cases hexports
  · have hfail := link_of_failure importer hmodules hfetched hfront
    have hmem : (block, Except.error e) ∈ fetched := by
      rw [hfetched]
      exact List.mem_append_right _ List.mem_cons_self
    refine ⟨⟨fun _ => ⟨hmodules, _, hmem, e, rfl⟩, fun _ => ⟨e, _, hfail⟩⟩, fun e' w' hfail' => ?_⟩
    rw [hfail] at hfail'
    cases hfail'
    exact ⟨rfl, front, block, rest, hfetched, hfront, rfl,
      fun notice hnotice => Link.of_mem_reports hfront hnotice⟩

/-- A sheet whose first import block asks for too much, whose second fails and whose third has a
    module again. -/
def brokenPage : Stylesheet where
  nodes := [
    Interface.importBlock "a".toList [("i".toList, "x".toList), ("j".toList, "missing".toList)],
    Interface.importBlock "lost".toList [("k".toList, "y".toList)],
    Interface.importBlock "b".toList [("l".toList, "absent".toList)],
    .ofRule ".i".toList [.ofDecl "color".toList "i".toList]]
  after := []
  semicolon := false
  input := []

/-- There are modules `a` and `b`, and both export `x`. -/
def brokenAnswer (_ : Nat) (path : Text) : Except LoadError Exports :=
  if path = "lost".toList then .error (.noSuchModule path) else .ok ⟨[("x".toList, "red".toList)]⟩

theorem importBlocks_brokenPage : Link.importBlocks brokenPage = [
    ⟨"a".toList, [("i".toList, "x".toList), ("j".toList, "missing".toList)]⟩,
    ⟨"lost".toList, [("k".toList, "y".toList)]⟩,
    ⟨"b".toList, [("l".toList, "absent".toList)]⟩] := by
  decide +kernel

theorem link_atomic_page :
    ∃ e w, link ⟨false, true⟩ "m".toList brokenAnswer ⟨brokenPage, []⟩ = .error e w ∧
      w.sheet = brokenPage ∧ .requested "b".toList ∈ w.events := by
  obtain ⟨hfails, hleft⟩ := link_atomic ⟨false, true⟩ "m".toList brokenAnswer brokenPage
  have hfailed : ∃ f ∈ Link.fetchAll brokenAnswer brokenPage, ∃ e, f.2 = .error e := by
    rw [Link.fetchAll, importBlocks_brokenPage]
    exact ⟨_, .tail _ (.head _), .noSuchModule "lost".toList, rfl⟩
  obtain ⟨e, w, hlink⟩ := hfails.mpr ⟨rfl, hfailed⟩
  obtain ⟨hsheet, front, block, rest, -, -, hevents, -⟩ := hleft e w hlink
  refine ⟨e, w, hlink, hsheet, ?_⟩
  rw [hevents, requests, importBlocks_brokenPage]
  exact List.mem_append_left _ (by decide)

end Linking

/-! ## 4. What linking looks at -/

namespace Link

variable {tolerance : Tolerance} {importer : Text}

/-- Answers to the request of a block that it cannot tell apart: the same failure, or exports that
    agree on the symbols that it binds. -/
inductive Agree (block : ImportBlock) :
    Except LoadError Exports → Except LoadError Exports → Prop where
  | failed (e : LoadError) : Agree block (.error e) (.error e)
  | loaded {exports exports' : Exports}
      (h : ∀ b ∈ block.bindings, exports.get? b.2 = exports'.get? b.2) :
      Agree block (.ok exports) (.ok exports')

/-- A binding sees one symbol of the exports. -/
theorem bindBlock_of_agreeing (path : Text) {exports exports' : Exports}
    {bindings : List (Text × Text)} (h : ∀ b ∈ bindings, exports.get? b.2 = exports'.get? b.2)
    (t : Table Text) : bindBlock tolerance importer path exports bindings t =
      bindBlock tolerance importer path exports' bindings t := by
  induction bindings generalizing t with
  | nil => rfl
  | cons b bindings ih =>
    obtain ⟨aliasName, symbol⟩ := b
    have hsymbol : exports.get? symbol = exports'.get? symbol := h _ List.mem_cons_self
    have hrest := ih fun b hb => h b (List.mem_cons_of_mem _ hb)
    rw [bindBlock, bindBlock, hsymbol]
    simp only [hrest]

theorem bindAll_of_agreeing {fetched fetched' : List (ImportBlock × Except LoadError Exports)}
    (h : List.Forall₂ (fun f f' => f.1 = f'.1 ∧ Agree f.1 f.2 f'.2) fetched fetched')
    (t : Table Text) :
    bindAll tolerance importer fetched t = bindAll tolerance importer fetched' t := by
  induction h generalizing t with
  | nil => rfl
  | @cons f f' fetched fetched' hf _ ih =>
    obtain ⟨block, answer⟩ := f
    obtain ⟨block', answer'⟩ := f'
    obtain ⟨rfl, hagree⟩ : block = block' ∧ Agree block answer answer' := hf
    cases hagree with
    | failed e => rw [bindAll, bindAll, ih]
    | loaded hsymbols =>
      rw [bindAll, bindAll, bindBlock_of_agreeing _ hsymbols]
      simp only [ih]

end Link

namespace Linking

/-- **Linking looks at the symbols that are bound**: whatever else the imported modules export, and
    in whatever order, makes no difference to the exports or the failure, to the sheet, or to what
    others see. -/
theorem link_of_agreeing (tolerance : Tolerance) (importer : Text)
    {fetch fetch' : Nat → Text → Except LoadError Exports} {sheet : Stylesheet}
    (h : ∀ i block, (Link.importBlocks sheet)[i]? = some block →
      Link.Agree block (fetch i block.path) (fetch' i block.path)) :
    link tolerance importer fetch ⟨sheet, []⟩ = link tolerance importer fetch' ⟨sheet, []⟩ := by
  have hfetched : List.Forall₂ (fun f f' => f.1 = f'.1 ∧ Link.Agree f.1 f.2 f'.2)
      (Link.fetchAll fetch sheet) (Link.fetchAll fetch' sheet) := by
    unfold Link.fetchAll
    refine List.forall₂_iff_get.mpr ⟨by simp, fun i hi hi' => ?_⟩
    rw [List.get_eq_getElem, List.get_eq_getElem, List.getElem_mapIdx, List.getElem_mapIdx]
    exact ⟨rfl, h i _ (List.getElem?_eq_getElem _)⟩
  rw [link_of_bindAll, link_of_bindAll]
  have hbind : ∀ w, bindAll tolerance importer (Link.fetchAll fetch sheet) .empty w =
      bindAll tolerance importer (Link.fetchAll fetch' sheet) .empty w := by
    intro w
    rw [bindAll_eq, bindAll_eq, Link.bindAll_of_agreeing hfetched]
  rw [funext hbind]

/-- The modules of the same page, exporting more, and in another order. -/
def widerAnswer (number : Nat) (path : Text) : Except LoadError Exports :=
  if path = "lost".toList then .error (.noSuchModule path)
  else .ok ⟨[("other".toList, Text.ofNat number), ("x".toList, "red".toList)]⟩

theorem link_of_agreeing_page :
    (∀ i block, (Link.importBlocks brokenPage)[i]? = some block →
      Link.Agree block (brokenAnswer i block.path) (widerAnswer i block.path)) ∧
    (brokenAnswer 0 "a".toList).toOption ≠ (widerAnswer 0 "a".toList).toOption ∧
    link ⟨true, false⟩ "m".toList brokenAnswer ⟨brokenPage, []⟩ =
      link ⟨true, false⟩ "m".toList widerAnswer ⟨brokenPage, []⟩ := by
  have hagree : ∀ i block, (Link.importBlocks brokenPage)[i]? = some block →
      Link.Agree block (brokenAnswer i block.path) (widerAnswer i block.path) := by
    rw [importBlocks_brokenPage]
    intro i block hblock
    match i with
    | 0 =>
      obtain rfl := Option.some.inj hblock
      exact .loaded (by decide)
    | 1 =>
      obtain rfl := Option.some.inj hblock
      exact .failed _
    | 2 =>
      obtain rfl := Option.some.inj hblock
      exact .loaded (by decide)
    | i + 3 => cases hblock
  exact ⟨hagree, by decide, link_of_agreeing ⟨true, false⟩ "m".toList hagree⟩

end Linking

end StyleModules
