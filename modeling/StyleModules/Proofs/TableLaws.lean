import StyleModules.Table

/-!
More about tables: every name stands in them once, and what they hold after several entries. The
last entry of a name decides its value (`get?_insertAll`), the first one its place
(`keys_insertAll`).
-/

namespace StyleModules

namespace Table

variable {β : Type}

/-- A name stands in a table once. -/
theorem nodup_keys_upsert {t : Table β} (h : t.keys.Nodup) (name : Text) (f : Option β → β) :
    (t.upsert name f).keys.Nodup := by
  rw [keys_upsert]
  split
  · exact h
  · next hnew =>
    refine List.nodup_append.mpr ⟨h, by simp, ?_⟩
    rintro a ha b hb rfl
    exact hnew (List.mem_singleton.mp hb ▸ ha)

/-- What was entered stays entered. -/
theorem isSome_get?_upsert {t : Table β} {name : Text} (h : (t.get? name).isSome) (other : Text)
    (f : Option β → β) : ((t.upsert other f).get? name).isSome := by
  rw [get?_upsert]
  split
  · rfl
  · exact h

/-- An entry of a table in which every name stands once is found under its name. -/
theorem get?_eq_some_iff {t : Table β} (h : t.keys.Nodup) {name : Text} {v : β} :
    t.get? name = some v ↔ (name, v) ∈ t.entries := by
  obtain ⟨es⟩ := t
  show findEntry name es = some v ↔ (name, v) ∈ es
  have hes : (es.map Prod.fst).Nodup := h
  clear h
  induction es with
  | nil => simp [findEntry]
  | cons e es ih =>
    obtain ⟨key, v'⟩ := e
    rw [List.map_cons, List.nodup_cons] at hes
    rw [findEntry, List.mem_cons]
    split
    · next heq =>
      subst heq
      have hnot : (key, v) ∉ es := fun hmem => hes.1 (List.mem_map.mpr ⟨_, hmem, rfl⟩)
      simp [hnot, eq_comm]
    · next hne =>
      have hne' : (name, v) ≠ (key, v') := fun heq => hne (Prod.mk.inj heq).1.symm
      exact (ih hes.2).trans (by simp [hne'])

/-- A table in which every name stands once, as the list of its names. -/
theorem entries_eq_map {t : Table β} (h : t.keys.Nodup) (v : β) :
    t.entries = t.keys.map fun name => (name, (t.get? name).getD v) := by
  rw [keys, List.map_map]
  refine (List.map_id _).symm.trans (List.map_congr_left fun e he => ?_)
  show e = (e.1, (t.get? e.1).getD v)
  rw [(get?_eq_some_iff h).mpr he]
  rfl

theorem mem_of_findEntry {es : List (Text × β)} {name : Text} {v : β}
    (h : findEntry name es = some v) : (name, v) ∈ es := by
  induction es with
  | nil => cases h
  | cons e es ih =>
    obtain ⟨key, v'⟩ := e
    rw [findEntry] at h
    split at h
    · next heq =>
      cases h
      exact heq ▸ List.mem_cons_self
    · exact List.mem_cons_of_mem _ (ih h)

/-- The names of a table are those under which something is found. -/
theorem mem_keys_iff {t : Table β} {name : Text} :
    name ∈ t.keys ↔ ∃ v, t.get? name = some v := by
  obtain ⟨es⟩ := t
  constructor
  · intro hmem
    have hes : name ∈ es.map Prod.fst := hmem
    clear hmem
    show ∃ v, findEntry name es = some v
    induction es with
    | nil => cases hes
    | cons e es ih =>
      obtain ⟨key, v⟩ := e
      rw [findEntry]
      split
      · exact ⟨v, rfl⟩
      · next hne =>
        exact ih ((List.mem_cons.mp hes).resolve_left fun heq => hne heq.symm)
  · rintro ⟨v, hv⟩
    exact List.mem_map.mpr ⟨_, mem_of_findEntry hv, rfl⟩

theorem findEntry_map {γ : Type} (f : β → γ) (name : Text) (es : List (Text × β)) :
    findEntry name (es.map fun e => (e.1, f e.2)) = (findEntry name es).map f := by
  induction es with
  | nil => rfl
  | cons e es ih =>
    rw [List.map_cons, findEntry, findEntry, ih]
    split <;> rfl

theorem findEntry_append (name : Text) (es fs : List (Text × β)) :
    findEntry name (es ++ fs) = (findEntry name es).or (findEntry name fs) := by
  induction es with
  | nil => rfl
  | cons e es ih =>
    rw [List.cons_append, findEntry, findEntry, ih]
    split <;> rfl

/-- The last of several entries of a name counts; a name without one keeps its value. -/
theorem get?_insertAll (t : Table β) (es : List (Text × β)) (name : Text) :
    (t.insertAll es).get? name = (findEntry name es.reverse).or (t.get? name) := by
  induction es generalizing t with
  | nil => rfl
  | cons e es ih =>
    obtain ⟨key, v⟩ := e
    have hone : findEntry name [(key, v)] = if name = key then some v else none := by
      simp only [findEntry, eq_comm]
    show ((t.insert key v).insertAll es).get? name = _
    rw [ih, get?_insert, List.reverse_cons, findEntry_append, Option.or_assoc, hone]
    split <;> rfl

/-- New names go to the end in the order of their first entries. -/
theorem keys_insertAll (t : Table β) (es : List (Text × β)) :
    (t.insertAll es).keys = t.keys ++ ((es.map Prod.fst).removeAll t.keys).eraseDups := by
  induction es generalizing t with
  | nil => simp [insertAll, List.removeAll]
  | cons e es ih =>
    show ((t.insert e.1 e.2).insertAll es).keys = _
    rw [ih, insert, keys_upsert, List.map_cons]
    by_cases hknown : e.1 ∈ t.keys
    · simp only [if_pos hknown, List.removeAll, List.filter_cons, List.elem_eq_true_of_mem hknown,
        Bool.not_true, Bool.false_eq_true, if_false]
    · have hnew : t.keys.elem e.1 = false := by simpa using hknown
      simp only [if_neg hknown, List.removeAll, List.filter_cons, hnew, Bool.not_false, if_true,
        List.eraseDups_cons, List.filter_filter, List.append_assoc, List.singleton_append]
      congr 4
      funext b
      rw [Bool.eq_iff_iff]
      simp [and_comm]

/-- In the table of a list, a name has its last value. -/
theorem get?_ofList (es : List (Text × β)) (name : Text) :
    (ofList es).get? name = findEntry name es.reverse := by
  rw [ofList, get?_insertAll]
  exact Option.or_none

/-- In the table of a list, a name has its first place. -/
theorem keys_ofList (es : List (Text × β)) : (ofList es).keys = (es.map Prod.fst).eraseDups := by
  have hall : (es.map Prod.fst).removeAll [] = es.map Prod.fst :=
    List.filter_eq_self.mpr fun _ _ => rfl
  rw [ofList, keys_insertAll]
  exact congrArg List.eraseDups hall

theorem insert_of_not_mem {t : Table β} {name : Text} (h : name ∉ t.keys) (v : β) :
    t.insert name v = ⟨t.entries ++ [(name, v)]⟩ := by
  obtain ⟨es⟩ := t
  have hes : name ∉ es.map Prod.fst := h
  clear h
  show Table.mk (upsertEntry name (fun _ => v) es) = ⟨es ++ [(name, v)]⟩
  induction es with
  | nil => rfl
  | cons e es ih =>
    rw [List.map_cons, List.mem_cons, not_or] at hes
    rw [upsertEntry, if_neg (Ne.symm hes.1), List.cons_append]
    exact congrArg (fun t : Table β => Table.mk (e :: t.entries)) (ih hes.2)

theorem insertAll_of_nodup (t : Table β) {es : List (Text × β)}
    (h : ((t.entries ++ es).map Prod.fst).Nodup) : t.insertAll es = ⟨t.entries ++ es⟩ := by
  induction es generalizing t with
  | nil => rw [List.append_nil]; rfl
  | cons e es ih =>
    have hassoc : t.entries ++ e :: es = (t.entries ++ [e]) ++ es := by simp
    have hnew : e.1 ∉ t.keys := by
      rw [List.map_append, List.map_cons] at h
      exact fun hmem => (List.nodup_append.mp h).2.2 _ hmem _ List.mem_cons_self rfl
    show (t.insert e.1 e.2).insertAll es = _
    rw [insert_of_not_mem hnew, ih ⟨t.entries ++ [e]⟩ (hassoc ▸ h), hassoc]

/-- Entries under different names make a table as they are. -/
theorem ofList_of_nodup {es : List (Text × β)} (h : (es.map Prod.fst).Nodup) : ofList es = ⟨es⟩ :=
  insertAll_of_nodup .empty h

/-- Names that are not entered keep their value. -/
theorem get?_insertAll_of_not_mem {es : List (Text × β)} {name : Text}
    (h : ∀ e ∈ es, name ≠ e.1) (t : Table β) : (t.insertAll es).get? name = t.get? name := by
  induction es generalizing t with
  | nil => rfl
  | cons e es ih =>
    show ((t.insert e.1 e.2).insertAll es).get? name = _
    rw [ih fun e' he' => h e' (List.mem_cons_of_mem e he'), get?_insert,
      if_neg (h e List.mem_cons_self)]

/-- A name that is entered with one value only has it. -/
theorem get?_insertAll_of_mem {es : List (Text × β)} {name : Text} {v : β}
    (hmem : (name, v) ∈ es) (hone : ∀ v', (name, v') ∈ es → v' = v) (t : Table β) :
    (t.insertAll es).get? name = some v := by
  induction es generalizing t with
  | nil => cases hmem
  | cons e es ih =>
    show ((t.insert e.1 e.2).insertAll es).get? name = _
    have hone' : ∀ v', (name, v') ∈ es → v' = v := fun v' h => hone v' (List.mem_cons_of_mem e h)
    by_cases hlater : (name, v) ∈ es
    · exact ih hlater hone' _
    · obtain rfl : (name, v) = e := (List.mem_cons.mp hmem).resolve_right hlater
      have hnot : ∀ e' ∈ es, name ≠ e'.1 := by
        rintro ⟨key, v'⟩ he' rfl
        exact hlater (hone' v' he' ▸ he')
      rw [get?_insertAll_of_not_mem hnot, get?_insert, if_pos rfl]

/-- The last entries count, if a name stands in them once. -/
theorem get?_ofList_append {es : List (Text × β)} (hnodup : (es.map Prod.fst).Nodup)
    {name : Text} {v : β} (hmem : (name, v) ∈ es) (front : List (Text × β)) :
    (ofList (front ++ es)).get? name = some v := by
  have hone : ∀ v', (name, v') ∈ es → v' = v := by
    intro v' hmem'
    have hv : (⟨es⟩ : Table β).get? name = some v := (get?_eq_some_iff hnodup).mpr hmem
    have hv' : (⟨es⟩ : Table β).get? name = some v' := (get?_eq_some_iff hnodup).mpr hmem'
    exact Option.some.inj (hv'.symm.trans hv)
  rw [ofList, insertAll, List.foldl_append]
  exact get?_insertAll_of_mem hmem hone _

end Table

end StyleModules
