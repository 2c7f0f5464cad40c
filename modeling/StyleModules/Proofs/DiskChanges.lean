import StyleModules.Proofs.StalledBuild

/-!
What changes of the files leave as it was.

* `Path.place` is where an absolute path leads by its text alone. If it leads anywhere, it leads
  there (`Disk.follow_place`), so that two paths can be told apart without the files.
* `Disk.IsTree` is what holds of files: what is there stands in a directory, under a name.
* `Disk.Keeps W` says what a change may do: directories stay, and a file is what it was before or
  what `W` says was written to its place. What can be read can then be read again
  (`Disk.Keeps.read`).
* `Disk.Touches W` says so of a step, whether it succeeds or fails; there is one lemma for each step
  of a build.
-/

namespace StyleModules

/-! ## 1. Where a path leads -/

namespace Path

/-- Whether a text is a name that something can have in a directory. -/
def isName (s : Text) : Bool :=
  !s.isEmpty && s.all (· != '/') && s != here && s != above

theorem isName_iff {s : Text} : isName s = true ↔ IsSegment s ∧ s ≠ here ∧ s ≠ above := by
  unfold isName IsSegment
  simp [and_assoc]

theorem enter_here (absolute : Bool) (passed : List Text) :
    enter absolute passed here = passed := by
  rw [enter.eq_def, if_pos rfl]

/-- Above the root there is nothing, and above anything else is what it is in. -/
theorem enter_above {passed : List Text} (h : ∀ s ∈ passed, s ≠ above) :
    enter true passed above = passed.tail := by
  rw [enter.eq_def, if_neg (by decide), if_pos rfl]
  cases passed with
  | nil => rfl
  | cons last rest => exact if_neg (h last List.mem_cons_self)

theorem enter_name (absolute : Bool) (passed : List Text) {s : Text} (hhere : s ≠ here)
    (habove : s ≠ above) : enter absolute passed s = s :: passed := by
  rw [enter.eq_def, if_neg hhere, if_neg habove]

/-- The place that an absolute path leads to. -/
def place (path : Text) : Place :=
  resolve true (segments path)

end Path

namespace Disk

variable {d d' d'' : Disk}

/-- From a place of names a path leads where it says. -/
theorem follow_place {start target : Place} {cs : List Text}
    (hstart : ∀ s ∈ start, s ≠ Path.above) (h : d.follow start cs = .ok target) :
    target = (cs.foldl (Path.enter true) start.reverse).reverse := by
  induction cs generalizing start with
  | nil =>
    cases h
    rw [List.foldl_nil, List.reverse_reverse]
  | cons c cs ih =>
    rw [follow] at h
    rw [List.foldl_cons]
    split at h
    · cases h
    · cases h
    · split at h
      · next hhere =>
        rw [hhere, Path.enter_here]
        exact ih hstart h
      · next hhere =>
        split at h
        · next habove =>
          rw [habove, Path.enter_above (fun s hs => hstart s (List.mem_reverse.mp hs)),
            List.tail_reverse]
          exact ih (fun s hs => hstart s ((List.dropLast_sublist start).subset hs)) h
        · next habove =>
          split at h
          · cases h
          · split at h
            · cases h
            · have hnext : ∀ s ∈ start ++ [c], s ≠ Path.above := by
                intro s hs
                rcases List.mem_append.mp hs with hs | hs
                · exact hstart s hs
                · rw [List.mem_singleton.mp hs]
                  exact habove
              have htarget := ih hnext h
              rw [List.reverse_append, List.reverse_singleton, List.singleton_append] at htarget
              rw [htarget, Path.enter_name true _ hhere habove]

theorem route_components {path : Text} {r : Route} (h : d.route path = .ok r) :
    r.components = Path.segments path := by
  unfold route at h
  split at h
  · cases h
  split at h
  · cases h
  split at h
  · cases h
  cases h
  rfl

theorem route_of_isAbsolute {path : Text} {r : Route} (hpath : Path.isAbsolute path = true)
    (h : d.route path = .ok r) : r.start = [] ∧ r.components = Path.segments path := by
  unfold route at h
  split at h
  · cases h
  split at h
  · cases h
  split at h
  · cases h
  cases h
  exact ⟨rfl, rfl⟩

/-- An absolute path that leads anywhere leads to its place. -/
theorem place_of_locate {path : Text} {target : Place} (hpath : Path.isAbsolute path = true)
    (h : d.locate path = .ok target) : target = Path.place path := by
  unfold locate at h
  cases hroute : d.route path with
  | error e =>
    rw [hroute] at h
    cases h
  | ok r =>
    obtain ⟨hstart, hcomponents⟩ := route_of_isAbsolute hpath hroute
    rw [hroute] at h
    simp only [Except.bind, hstart, hcomponents] at h
    have htarget := follow_place (by simp) h
    rw [htarget, List.foldl_append, Path.place, Path.resolve]
    split
    · rfl
    · rfl

/-- The place of a new entry, by whatever path: below a directory, under a name. -/
theorem of_slot_any {r : Route} {slashForbidden : Bool} {taken : IoError} {target : Place}
    (h : d.slot r slashForbidden taken = .ok target) :
    ∃ dir name, r.components = r.components.dropLast ++ [name] ∧
      d.follow r.start r.components.dropLast = .ok dir ∧ d.get? dir = some .dir ∧
      name ≠ Path.here ∧ name ≠ Path.above ∧ target = dir ++ [name] := by
  unfold slot at h
  split at h
  · cases h
  · next name hname =>
    have hlast : r.components = r.components.dropLast ++ [name] :=
      (List.dropLast_append_getLast? name hname).symm
    cases hfollow : d.follow r.start r.components.dropLast with
    | error e =>
      rw [hfollow] at h
      cases h
    | ok dir =>
      rw [hfollow] at h
      simp only [Except.bind] at h
      split at h
      · cases h
      · next hdir =>
        split at h
        · cases h
        · next hwords =>
          split at h
          · cases h
          · simp only [Bool.or_eq_true, decide_eq_true_eq, not_or, Bool.not_eq_true] at hwords
            cases h
            exact ⟨dir, name, hlast, rfl, Decidable.not_not.mp hdir, hwords.1.1, hwords.1.2, rfl⟩

/-! ## 2. Trees -/

/-- What holds of a tree of files: no place stands twice in the list, and what is there stands in a
    directory, under names. -/
structure IsTree (d : Disk) : Prop where
  nodup : (d.entries.map Prod.fst).Nodup
  placed : ∀ p ∈ d.entries.map Prod.fst,
    p ≠ [] ∧ d.get? p.dropLast = some .dir ∧ p.all Path.isName = true

theorem mem_entries_of_isSome {p : Place} (hp : p ≠ []) :
    (d.get? p).isSome ↔ p ∈ d.entries.map Prod.fst := by
  rw [get?, if_neg hp]
  generalize d.entries = es
  induction es with
  | nil => simp [findEntry]
  | cons e es ih =>
    obtain ⟨q, entry⟩ := e
    rw [findEntry, List.map_cons, List.mem_cons]
    split
    · next heq => simp [heq]
    · next hne => rw [ih, or_iff_right (Ne.symm hne)]

theorem IsTree.parent (h : d.IsTree) {p : Place} {name : Text} {e : Entry}
    (hp : d.get? (p ++ [name]) = some e) : d.get? p = some .dir := by
  have hmem := (mem_entries_of_isSome (by simp)).mp (Option.isSome_of_eq_some hp)
  have hplaced := (h.placed _ hmem).2.1
  rwa [List.dropLast_concat] at hplaced

/-- Whatever is on the way to something is a directory. -/
theorem IsTree.ancestor (h : d.IsTree) {p rest : Place} {e : Entry} (hne : rest ≠ [])
    (hp : d.get? (p ++ rest) = some e) : d.get? p = some .dir := by
  induction rest using List.reverseRecOn generalizing e with
  | nil => exact absurd rfl hne
  | append_singleton front name ih =>
    rw [← List.append_assoc] at hp
    have hparent := h.parent hp
    by_cases hfront : front = []
    · rwa [hfront, List.append_nil] at hparent
    · exact ih hfront hparent

theorem IsTree.isName (h : d.IsTree) {p : Place} {e : Entry} (hp : d.get? p = some e) :
    ∀ name ∈ p, Path.isName name = true := by
  by_cases hnil : p = []
  · rw [hnil]
    exact fun _ hmem => nomatch hmem
  · have hmem := (mem_entries_of_isSome hnil).mp (Option.isSome_of_eq_some hp)
    exact List.all_eq_true.mp (h.placed p hmem).2.2

theorem map_fst_putEntry (p : Place) (e : Entry) (es : List (Place × Entry)) :
    (putEntry p e es).map Prod.fst =
      if p ∈ es.map Prod.fst then es.map Prod.fst else es.map Prod.fst ++ [p] := by
  induction es with
  | nil => simp [putEntry]
  | cons x es ih =>
    obtain ⟨q, old⟩ := x
    by_cases hq : q = p
    · subst hq
      simp [putEntry]
    · have hne : ¬p = q := fun e => hq e.symm
      simp only [putEntry, hq, if_false, List.map_cons, ih, List.mem_cons, hne, false_or]
      split <;> rfl

/-- What is put into a directory under a name, in place of no directory, leaves a tree. -/
theorem IsTree.put (h : d.IsTree) {dir : Place} {name : Text} (hdir : d.get? dir = some .dir)
    (hname : Path.isName name = true) (hold : d.get? (dir ++ [name]) ≠ some .dir) (e : Entry) :
    (d.put (dir ++ [name]) e).IsTree := by
  have hne : dir ++ [name] ≠ [] := by simp
  have hkeys := map_fst_putEntry (dir ++ [name]) e d.entries
  have hstays : ∀ q, d.get? q = some .dir → (d.put (dir ++ [name]) e).get? q = some .dir := by
    intro q hq
    rw [get?_put d _ q e hne, if_neg]
    · exact hq
    · rintro rfl
      exact hold hq
  refine ⟨?_, fun p hp => ?_⟩
  · show ((putEntry (dir ++ [name]) e d.entries).map Prod.fst).Nodup
    rw [hkeys]
    split
    · exact h.nodup
    · next hnew =>
      refine List.nodup_append.mpr ⟨h.nodup, by simp, ?_⟩
      rintro a ha b hb rfl
      exact hnew (List.mem_singleton.mp hb ▸ ha)
  · have hp' : p ∈ d.entries.map Prod.fst ∨ p = dir ++ [name] := by
      have hmem : p ∈ (putEntry (dir ++ [name]) e d.entries).map Prod.fst := hp
      rw [hkeys] at hmem
      split at hmem
      · exact .inl hmem
      · simpa using hmem
    rcases hp' with hp' | rfl
    · obtain ⟨hnil, hparent, hall⟩ := h.placed p hp'
      exact ⟨hnil, hstays _ hparent, hall⟩
    · refine ⟨hne, ?_, ?_⟩
      · rw [List.dropLast_concat]
        exact hstays dir hdir
      · rw [List.all_append, List.all_eq_true.mpr (h.isName hdir)]
        simp [hname]

/-! ## 3. What a change keeps -/

/-- What a change may do, where `W` says which bytes it may write to which places. -/
structure Keeps (W : Place → List UInt8 → Prop) (d d' : Disk) : Prop where
  cwd : d'.cwd = d.cwd
  dir : ∀ {p}, d.get? p = some .dir → d'.get? p = some .dir
  file : ∀ {p bytes}, d.get? p = some (.file bytes) →
    ∃ bytes', d'.get? p = some (.file bytes') ∧ (bytes' = bytes ∨ W p bytes')
  fresh : ∀ {p bytes}, d'.get? p = some (.file bytes) →
    d.get? p = some (.file bytes) ∨ W p bytes
  tree : d.IsTree → d'.IsTree

/-- Nothing is written. -/
def nowhere : Place → List UInt8 → Prop :=
  fun _ _ => False

/-- These bytes are written to this place. -/
def written (p : Place) (bytes : List UInt8) : Place → List UInt8 → Prop :=
  fun q bytes' => q = p ∧ bytes' = bytes

section Keeps

variable {W W' : Place → List UInt8 → Prop}

theorem Keeps.refl (d : Disk) : Keeps W d d :=
  ⟨rfl, fun h => h, fun h => ⟨_, h, .inl rfl⟩, fun h => .inl h, fun h => h⟩

theorem Keeps.trans (h : Keeps W d d') (h' : Keeps W d' d'') : Keeps W d d'' where
  cwd := h'.cwd.trans h.cwd
  dir hp := h'.dir (h.dir hp)
  file hp := by
    obtain ⟨bytes', hp', hsame⟩ := h.file hp
    obtain ⟨bytes'', hp'', hsame'⟩ := h'.file hp'
    refine ⟨bytes'', hp'', ?_⟩
    rcases hsame' with rfl | hW
    · exact hsame
    · exact .inr hW
  fresh hp := by
    rcases h'.fresh hp with hp' | hW
    · exact h.fresh hp'
    · exact .inr hW
  tree ht := h'.tree (h.tree ht)

theorem Keeps.mono (h : Keeps W d d') (hW : ∀ p bytes, W p bytes → W' p bytes) : Keeps W' d d' where
  cwd := h.cwd
  dir := h.dir
  file hp := by
    obtain ⟨bytes', hp', hsame⟩ := h.file hp
    exact ⟨bytes', hp', hsame.imp_right (hW _ bytes')⟩
  fresh hp := (h.fresh hp).imp_right (hW _ _)
  tree := h.tree

/-- A file that is not written to stays as it is. -/
theorem Keeps.file_of_not (h : Keeps W d d') {p : Place} {bytes : List UInt8}
    (hp : d.get? p = some (.file bytes)) (hW : ∀ bytes', W p bytes' → bytes' = bytes) :
    d'.get? p = some (.file bytes) := by
  obtain ⟨bytes', hp', hsame⟩ := h.file hp
  obtain rfl : bytes' = bytes := by
    rcases hsame with hsame | hwritten
    · exact hsame
    · exact hW bytes' hwritten
  exact hp'

/-- What is there stays there. -/
theorem Keeps.isSome (h : Keeps W d d') {p : Place} (hp : (d.get? p).isSome) :
    (d'.get? p).isSome := by
  obtain ⟨e, he⟩ := Option.isSome_iff_exists.mp hp
  cases e with
  | dir => exact Option.isSome_of_eq_some (h.dir he)
  | file bytes =>
    obtain ⟨bytes', hp', _⟩ := h.file he
    exact Option.isSome_of_eq_some hp'

/-- A path that led somewhere still leads there. -/
theorem Keeps.follow (h : Keeps W d d') {start target : Place} {cs : List Text}
    (hfollow : d.follow start cs = .ok target) : d'.follow start cs = .ok target := by
  induction cs generalizing start with
  | nil => exact hfollow
  | cons c cs ih =>
    rw [Disk.follow] at hfollow ⊢
    cases hstart : d.get? start with
    | none =>
      rw [hstart] at hfollow
      cases hfollow
    | some e =>
      cases e with
      | file bytes =>
        rw [hstart] at hfollow
        cases hfollow
      | dir =>
        rw [hstart] at hfollow
        rw [h.dir hstart]
        simp only at hfollow ⊢
        split at hfollow
        · next hhere =>
          rw [if_pos hhere]
          exact ih hfollow
        · next hhere =>
          rw [if_neg hhere]
          split at hfollow
          · next habove =>
            rw [if_pos habove]
            exact ih hfollow
          · next habove =>
            rw [if_neg habove]
            split at hfollow
            · cases hfollow
            · next hsize =>
              rw [if_neg hsize]
              split at hfollow
              · cases hfollow
              · next hnone =>
                have hthere : (d.get? (start ++ [c])).isSome :=
                  Option.isSome_iff_ne_none.mpr (by simpa using hnone)
                rw [if_neg]
                · exact ih hfollow
                · rw [← Option.not_isSome]
                  simp [h.isSome hthere]

theorem Keeps.locate (h : Keeps W d d') {path : Text} {target : Place}
    (hlocate : d.locate path = .ok target) : d'.locate path = .ok target := by
  have hroute : d'.route path = d.route path := by
    unfold route
    rw [h.cwd]
  rw [Disk.locate] at hlocate ⊢
  rw [hroute]
  cases hr : d.route path with
  | error e =>
    rw [hr] at hlocate
    cases hlocate
  | ok r =>
    rw [hr] at hlocate
    exact h.follow hlocate

theorem get?_of_read {path : Text} {bytes : List UInt8} (hpath : Path.isAbsolute path = true)
    (h : d.read path = .ok bytes) :
    d.locate path = .ok (Path.place path) ∧ d.get? (Path.place path) = some (.file bytes) := by
  unfold read at h
  cases hlocate : d.locate path with
  | error e =>
    rw [hlocate] at h
    cases h
  | ok target =>
    rw [hlocate] at h
    obtain rfl := place_of_locate hpath hlocate
    refine ⟨rfl, ?_⟩
    simp only [Except.bind] at h
    split at h
    · next hget =>
      cases h
      exact hget
    · cases h
    · cases h

/-- **What can be read can be read again**, unless something else was written to its place. -/
theorem Keeps.read (h : Keeps W d d') {path : Text} (hpath : Path.isAbsolute path = true)
    {bytes : List UInt8} (hread : d.read path = .ok bytes)
    (hW : ∀ bytes', W (Path.place path) bytes' → bytes' = bytes) : d'.read path = .ok bytes := by
  obtain ⟨hlocate, hget⟩ := get?_of_read hpath hread
  rw [Disk.read, h.locate hlocate]
  simp only [Except.bind, h.file_of_not hget hW]

end Keeps

/-! ## 4. Steps -/

/-- What a step leaves, whether it succeeds or fails, is kept as `W` says. -/
def Leaves {ε : Type} (W : Place → List UInt8 → Prop) (d : Disk) :
    EStateM.Result ε Disk Unit → Prop
  | .ok _ d' => Keeps W d d'
  | .error _ d' => Keeps W d d'

/-- A step changes files only as `W` says. -/
def Touches {ε : Type} (W : Place → List UInt8 → Prop) (step : EStateM ε Disk Unit) : Prop :=
  ∀ d, Leaves W d (step d)

section Touches

variable {ε : Type} {W : Place → List UInt8 → Prop} {x y : EStateM ε Disk Unit}

theorem Touches.ok (h : Touches W x) (hx : x d = .ok () d') : Keeps W d d' := by
  have hd := h d
  rwa [hx] at hd

theorem Touches.error (h : Touches W x) {e : ε} (hx : x d = .error e d') : Keeps W d d' := by
  have hd := h d
  rwa [hx] at hd

theorem Touches.mono {W' : Place → List UInt8 → Prop} (h : Touches W x)
    (hW : ∀ p bytes, W p bytes → W' p bytes) : Touches W' x := by
  intro d
  cases hx : x d with
  | ok u d' => exact (h.ok hx).mono hW
  | error e d' => exact (h.error hx).mono hW

theorem Keeps.leaves (h : Keeps W d d') {result : EStateM.Result ε Disk Unit}
    (hresult : Leaves W d' result) : Leaves W d result := by
  cases result with
  | ok u d'' => exact h.trans hresult
  | error e d'' => exact h.trans hresult

theorem touches_bind (hx : Touches W x) (hy : Touches W y) : Touches W (x >>= fun _ => y) := by
  intro d
  cases hxd : x d with
  | ok u middle =>
    rw [bind_of_ok hxd]
    exact (hx.ok hxd).leaves (hy middle)
  | error e middle =>
    rw [bind_of_error hxd]
    exact hx.error hxd

/-- A file in place of none or of another file. -/
theorem keeps_put_file {dir : Place} {name : Text} (hdir : d.get? dir = some .dir)
    (hname : Path.isName name = true) (hold : d.get? (dir ++ [name]) ≠ some .dir)
    (bytes : List UInt8) :
    Keeps (written (dir ++ [name]) bytes) d (d.put (dir ++ [name]) (.file bytes)) where
  cwd := rfl
  dir {p} hp := by
    rw [get?_put d _ p _ (by simp), if_neg]
    · exact hp
    · rintro rfl
      exact hold hp
  file {p bytes'} hp := by
    rw [get?_put d _ p _ (by simp)]
    split
    · next heq => exact ⟨bytes, rfl, .inr ⟨heq, rfl⟩⟩
    · exact ⟨bytes', hp, .inl rfl⟩
  fresh {p bytes'} hp := by
    rw [get?_put d _ p _ (by simp)] at hp
    split at hp
    · next heq =>
      cases hp
      exact .inr ⟨heq, rfl⟩
    · exact .inl hp
  tree ht := ht.put hdir hname hold _

/-- A directory where nothing was. -/
theorem keeps_put_dir {dir : Place} {name : Text} (hdir : d.get? dir = some .dir)
    (hname : Path.isName name = true) (hnone : d.get? (dir ++ [name]) = none) :
    Keeps W d (d.put (dir ++ [name]) .dir) where
  cwd := rfl
  dir {p} hp := by
    rw [get?_put d _ p _ (by simp)]
    split
    · rfl
    · exact hp
  file {p bytes} hp := by
    rw [get?_put d _ p _ (by simp), if_neg]
    · exact ⟨bytes, hp, .inl rfl⟩
    · rintro rfl
      rw [hnone] at hp
      cases hp
  fresh {p bytes} hp := by
    rw [get?_put d _ p _ (by simp)] at hp
    split at hp
    · cases hp
    · exact .inl hp
  tree ht := ht.put hdir hname (by rw [hnone]; exact nofun) _

theorem touches_putAt {target : Disk → Except IoError Place} {e : Entry}
    (h : ∀ d p, target d = .ok p → Keeps W d (d.put p e)) : Touches W (putAt target e) := by
  intro d
  unfold putAt
  split
  · next p hp => exact h d p hp
  · exact .refl d

/-- Where a new entry may be put: under a name, in a directory that is there. -/
theorem exists_of_slot {path : Text} {slashForbidden : Bool} {taken : IoError}
    {check : Place → Except IoError Place} {p : Place}
    (h : ((d.route path).bind fun r => (d.slot r slashForbidden taken).bind check) = .ok p) :
    ∃ dir name, d.get? dir = some .dir ∧ Path.isName name = true ∧ check (dir ++ [name]) = .ok p ∧
      (Path.isAbsolute path = true → dir ++ [name] = Path.place path) := by
  cases hroute : d.route path with
  | error e =>
    rw [hroute] at h
    cases h
  | ok r =>
    cases hslot : d.slot r slashForbidden taken with
    | error e =>
      simp only [hroute, hslot, Except.bind] at h
      cases h
    | ok target =>
      simp only [hroute, hslot, Except.bind] at h
      obtain ⟨dir, name, hlast, hfollow, hdir, hhere, habove, rfl⟩ := of_slot_any hslot
      have hsegment : name ∈ Path.segments path := by
        rw [← route_components hroute, hlast]
        simp
      refine ⟨dir, name, hdir, ?_, h, fun hpath => ?_⟩
      · exact Path.isName_iff.mpr ⟨Path.isSegment_of_mem_segments hsegment, hhere, habove⟩
      · obtain ⟨hstart, hcomponents⟩ := route_of_isAbsolute hpath hroute
        rw [hstart] at hfollow
        rw [Path.place, Path.resolve, ← hcomponents, hlast, List.foldl_append, List.foldl_cons,
          List.foldl_nil, Path.enter_name true _ hhere habove, List.reverse_cons,
          follow_place (by simp) hfollow]
        rfl

/-- Making a directory writes no file. -/
theorem touches_makeDir (path : Text) : Touches W (makeDir path) := by
  refine touches_putAt fun d p hp => ?_
  obtain ⟨dir, name, hdir, hname, hcheck, _⟩ := exists_of_slot hp
  split at hcheck
  · cases hcheck
  · next hnone =>
    cases hcheck
    exact keeps_put_dir hdir hname (by simpa using hnone)

/-- Writing a file writes to the place of its path. -/
theorem touches_write {path : Text} (hpath : Path.isAbsolute path = true) (bytes : List UInt8) :
    Touches (written (Path.place path) bytes) (write path bytes) := by
  refine touches_putAt fun d p hp => ?_
  obtain ⟨dir, name, hdir, hname, hcheck, hplace⟩ := exists_of_slot hp
  split at hcheck
  · cases hcheck
  · next hold =>
    cases hcheck
    rw [← hplace hpath]
    exact keeps_put_file hdir hname (by simpa using hold) bytes

theorem touches_orThere (path : Text) (e : IoError) : Touches W (orThere path e) := by
  intro d
  unfold orThere
  split
  · exact .refl d
  · exact .refl d

/-- Making directories writes no file. -/
theorem touches_makeDirs (paths : List Text) : Touches W (makeDirs paths) := by
  induction paths with
  | nil => exact .refl
  | cons path around ih =>
    intro d
    have hmake : Touches W (makeDir path) := touches_makeDir path
    unfold makeDirs
    split
    · exact .refl d
    · split
      · next d₁ h₁ => exact hmake.ok h₁
      · next d₁ h₁ =>
        refine (hmake.error h₁).leaves ?_
        split
        · next e d₂ h₂ => exact ih.error h₂
        · next d₂ h₂ =>
          refine (ih.ok h₂).leaves ?_
          split
          · next d₃ h₃ => exact hmake.ok h₃
          · next e d₃ h₃ => exact (hmake.error h₃).leaves (touches_orThere path e d₃)
      · next e d₁ _ h₁ => exact (hmake.error h₁).leaves (touches_orThere path e d₁)

end Touches

end Disk

namespace Build

variable {W : Place → List UInt8 → Prop}

theorem touches_fileStep {failure : IoError → BuildError} {action : Disk.Action Unit}
    (h : Disk.Touches W action) : Disk.Touches W (fileStep failure action) := by
  intro d
  unfold fileStep
  split
  · next d' hd => exact h.ok hd
  · next e d' hd => exact h.error hd

theorem touches_createDir (dir : Text) : Disk.Touches W (createDir dir) := by
  intro d
  have h : Disk.Touches W (Disk.ensureDir dir) := Disk.touches_makeDirs (dir :: Path.ancestors dir)
  unfold createDir
  split
  · next d' hd => exact h.ok hd
  · next d' hd => exact h.error hd
  · next e d' _ hd => exact h.error hd

theorem touches_createParent (path : Text) : Disk.Touches W (createParent path) := by
  unfold createParent
  split
  · exact touches_createDir _
  · exact .refl

/-- Writing a file of the output writes to the place of its path. -/
theorem touches_writeFile {path : Text} (hpath : Path.isAbsolute path = true) (encoding : Encoding)
    (contents : Text) :
    Disk.Touches (Disk.written (Path.place path) (encoding.encode contents))
      (writeFile encoding path contents) :=
  Disk.touches_bind (touches_createParent path) (touches_fileStep (Disk.touches_write hpath _))

/-- A copy that was made has the bytes of its source, at the place of its path, and nothing else has
    changed. -/
theorem of_copyFile {source target : Text} (htarget : Path.isAbsolute target = true) {d d' : Disk}
    (h : copyFile source target d = .ok () d') :
    ∃ middle bytes, Disk.Keeps Disk.nowhere d middle ∧ middle.read source = .ok bytes ∧
      Disk.Keeps (Disk.written (Path.place target) bytes) middle d' ∧
      d'.read target = .ok bytes := by
  obtain ⟨_, middle, hparent, hcopy⟩ := bind_ok h
  have hkeeps := (touches_createParent (W := Disk.nowhere) target).ok hparent
  unfold fileStep Disk.copy at hcopy
  cases hread : middle.read source with
  | error e =>
    simp only [hread] at hcopy
    cases hcopy
  | ok bytes =>
    simp only [hread] at hcopy
    cases hwrite : Disk.write target bytes middle with
    | error e d'' =>
      simp only [hwrite] at hcopy
      cases hcopy
    | ok u d'' =>
      simp only [hwrite] at hcopy
      cases hcopy
      exact ⟨middle, bytes, hkeeps, hread, (Disk.touches_write htarget bytes).ok hwrite,
        Disk.read_of_write hwrite⟩

end Build

end StyleModules
