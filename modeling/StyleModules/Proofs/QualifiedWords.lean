import StyleModules.QualifiedName
import StyleModules.Proofs.Splitting

/-!
What a default name tells about the name and the sheet that it was made for.

* `Text.Runs` are the runs of a text in the characters of a class, each as long as possible. Every
  text has one sequence of them, the fields between the other characters (`Text.runs_iff`).
* `QualifiedName.write_eq_generate`: one pass over a path finds its runs and puts one `_` between
  them.
* `QualifiedName.generate_inj`: where two `_` stand for the first time, the words of the path end,
  however many of them the name behind begins with or holds.
-/

namespace StyleModules

namespace Text

/-! ## 1. Runs -/

/-- The runs of a text in the characters of a class, in order. In front of a run and behind it stand
    other characters or none. -/
inductive Runs (p : Char → Bool) : Text → List Text → Prop
  | nil {gap : Text} (hgap : ∀ c ∈ gap, p c = false) : Runs p gap []
  | cons {gap run rest : Text} {runs : List Text} (hgap : ∀ c ∈ gap, p c = false)
      (hne : run ≠ []) (hrun : ∀ c ∈ run, p c = true) (hstops : ∀ c ∈ rest.head?, p c = false)
      (hrest : Runs p rest runs) : Runs p (gap ++ run ++ rest) (run :: runs)

section Runs

variable {p : Char → Bool} {t : Text} {runs : List Text}

theorem Runs.cons_gap (h : Runs p t runs) {c : Char} (hc : p c = false) :
    Runs p (c :: t) runs := by
  cases h with
  | nil hgap => exact .nil (List.forall_mem_cons.mpr ⟨hc, hgap⟩)
  | cons hgap hne hrun hstops hrest =>
    exact .cons (List.forall_mem_cons.mpr ⟨hc, hgap⟩) hne hrun hstops hrest

/-- A character of the class begins a run, or is put in front of the run that it stands at. -/
theorem Runs.exists_cons (h : Runs p t runs) {c : Char} (hc : p c = true) :
    ∃ runs', Runs p (c :: t) runs' := by
  have halone : (∀ d ∈ t.head?, p d = false) → ∃ runs', Runs p (c :: t) runs' := fun hstops =>
    ⟨[c] :: runs, .cons (List.forall_mem_nil _) (List.cons_ne_nil c [])
      (List.forall_mem_singleton.mpr hc) hstops h⟩
  cases h with
  | nil hgap => exact halone fun d hd => hgap d (List.mem_of_mem_head? hd)
  | @cons gap run rest runs hgap hne hrun hstops hrest =>
    cases gap with
    | nil =>
      exact ⟨(c :: run) :: runs, .cons hgap (List.cons_ne_nil c run)
        (List.forall_mem_cons.mpr ⟨hc, hrun⟩) hstops hrest⟩
    | cons d gap =>
      refine halone fun e he => ?_
      rw [← Option.some.inj he]
      exact hgap d List.mem_cons_self

theorem exists_runs (p : Char → Bool) (t : Text) : ∃ runs, Runs p t runs := by
  induction t with
  | nil => exact ⟨[], .nil (by simp)⟩
  | cons c t ih =>
    obtain ⟨runs, h⟩ := ih
    cases hc : p c with
    | false => exact ⟨runs, h.cons_gap hc⟩
    | true => exact h.exists_cons hc

theorem Runs.fields_eq (h : Runs p t runs) : fields (fun c => !p c) t = runs := by
  induction h with
  | @nil gap hgap =>
    have hfields := fields_append_of_forall (p := fun c => !p c) (by simpa using hgap) []
    rwa [List.append_nil] at hfields
  | cons hgap hne hrun hstops _ ih =>
    rw [List.append_assoc, fields_append_of_forall (by simpa using hgap),
      fields_append_of_head? hne (by simpa using hrun) (by simpa using hstops), ih]

/-- **The runs of a text are the fields between the other characters**, and nothing else is. -/
theorem runs_iff : Runs p t runs ↔ fields (fun c => !p c) t = runs := by
  constructor
  · exact Runs.fields_eq
  · intro hfields
    obtain ⟨runs', h⟩ := exists_runs p t
    rwa [← hfields, h.fields_eq]

theorem Runs.isRun (h : Runs p t runs) :
    ∀ run ∈ runs, run ≠ [] ∧ ∀ c ∈ run, p c = true := by
  intro run hrun
  rw [← h.fields_eq] at hrun
  simpa using of_mem_fields hrun

/-- Where a run ends is told by the text. -/
theorem run_append_inj {run run' rest rest' : Text} (hrun : ∀ c ∈ run, p c = true)
    (hrun' : ∀ c ∈ run', p c = true) (hstops : ∀ c ∈ rest.head?, p c = false)
    (hstops' : ∀ c ∈ rest'.head?, p c = false) (h : run ++ rest = run' ++ rest') :
    run = run' ∧ rest = rest' := by
  -- a longer run would go on where the other one stops
  have hnil : ∀ {c : Char} {run rest rest' : Text}, p c = true →
      (∀ d ∈ rest'.head?, p d = false) → c :: run ++ rest ≠ rest' := by
    intro c run rest rest' hc hstops heq
    rw [hstops c (heq ▸ rfl)] at hc
    cases hc
  induction run generalizing run' with
  | nil =>
    cases run' with
    | nil => exact ⟨rfl, h⟩
    | cons c run' => exact absurd h.symm (hnil (hrun' c List.mem_cons_self) hstops)
  | cons c run ih =>
    cases run' with
    | nil => exact absurd h (hnil (hrun c List.mem_cons_self) hstops')
    | cons c' run' =>
      obtain ⟨rfl, htail⟩ := List.cons.inj h
      obtain ⟨rfl, rfl⟩ := ih (fun d hd => hrun d (List.mem_cons_of_mem c hd))
        (fun d hd => hrun' d (List.mem_cons_of_mem c hd)) htail
      exact ⟨rfl, rfl⟩

end Runs

end Text

namespace QualifiedName

open Text (Runs isAsciiAlnum)

/-! ## 2. One pass over a path -/

theorem collapse_gap {gap : Text} (h : ∀ c ∈ gap, isAsciiAlnum c = false) (t : Text) :
    collapse true (gap ++ t) = collapse true t := by
  induction gap with
  | nil => rfl
  | cons c gap ih =>
    obtain ⟨hc, hgap⟩ := List.forall_mem_cons.mp h
    rw [List.cons_append, collapse, hc]
    exact ih hgap

theorem collapse_run {run : Text} (hne : run ≠ []) (h : ∀ c ∈ run, isAsciiAlnum c = true)
    (within : Bool) (t : Text) : collapse within (run ++ t) = run ++ collapse false t := by
  induction run generalizing within with
  | nil => exact absurd rfl hne
  | cons c run ih =>
    obtain ⟨hc, hrun⟩ := List.forall_mem_cons.mp h
    rw [List.cons_append, collapse, hc, if_pos rfl]
    cases run with
    | nil => rfl
    | cons d run => exact congrArg (c :: ·) (ih (List.cons_ne_nil d run) hrun false)

/-- A run of other characters that begins here is one `_`. -/
theorem collapse_stops {c : Char} (hc : isAsciiAlnum c = false) (t : Text) :
    collapse false (c :: t) = '_' :: collapse true (c :: t) := by
  simp [collapse, hc]

/-- Behind a run of other characters there are the words of the text, and maybe one `_` more. -/
theorem collapse_of_runs {t : Text} {ws : List Text} (h : Runs isAsciiAlnum t ws) :
    ∃ trail, (∀ c ∈ trail, c = '_') ∧ collapse true t = Text.join ['_'] ws ++ trail := by
  induction h with
  | @nil gap hgap =>
    have hgap' := collapse_gap hgap []
    rw [List.append_nil] at hgap'
    exact ⟨[], by simp, hgap'⟩
  | @cons gap run rest runs hgap hne hrun hstops hrest ih =>
    obtain ⟨trail, htrail, ih⟩ := ih
    rw [List.append_assoc, collapse_gap hgap, collapse_run hne hrun]
    cases rest with
    | nil =>
      obtain rfl : [] = runs := hrest.fields_eq
      exact ⟨[], by simp, by simp [collapse]⟩
    | cons c rest =>
      rw [collapse_stops (hstops c rfl), ih]
      cases runs with
      | nil => exact ⟨'_' :: trail, List.forall_mem_cons.mpr ⟨rfl, htrail⟩, by simp⟩
      | cons run' runs => exact ⟨trail, htrail, by simp [Text.join_cons_cons]⟩

/-- At the start of a text there may be one `_` more. -/
theorem exists_collapse_false (t : Text) :
    ∃ lead, (∀ c ∈ lead, c = '_') ∧ collapse false t = lead ++ collapse true t := by
  cases t with
  | nil => exact ⟨[], by simp, rfl⟩
  | cons c t =>
    cases hc : isAsciiAlnum c with
    | false => exact ⟨['_'], by simp, collapse_stops hc t⟩
    | true => exact ⟨[], by simp, by simp [collapse, hc]⟩

theorem runs_pathWords (path : Text) : Runs isAsciiAlnum (stem path) (pathWords path) :=
  Text.runs_iff.mpr rfl

/-- **One pass over a path writes its words.** -/
theorem write_eq_generate (name path : Text) : write name path = generate name path := by
  have hruns := runs_pathWords path
  have hletter : ∀ c, isAsciiAlnum c = true → (c == '_') = false := by
    intro c hc
    rw [beq_eq_false_iff_ne]
    intro heq
    subst heq
    cases hc
  have hends : ∀ c, (∃ w ∈ pathWords path, c ∈ w) → (c == '_') = false := by
    intro c ⟨w, hw, hc⟩
    exact hletter c ((hruns.isRun w hw).2 c hc)
  have hne : ∀ w ∈ pathWords path, w ≠ [] := fun w hw => (hruns.isRun w hw).1
  obtain ⟨lead, hlead, hstart⟩ := exists_collapse_false (stem path)
  obtain ⟨trail, htrail, hwords⟩ := collapse_of_runs hruns
  have hmiddle : Text.trimStartBy (· == '_') (Text.trimEndBy (· == '_')
      (collapse false (stem path))) = Text.join ['_'] (pathWords path) := by
    rw [hstart, hwords, ← List.append_assoc]
    exact Text.trimBy_between (by simpa using hlead) (by simpa using htrail)
      (fun c hc => hends c (Text.of_mem_head?_join hne hc))
      fun c hc => hends c (Text.of_mem_getLast?_join hne hc)
  simp only [write, generate, hmiddle]

/-! ## 3. Reading a name back -/

/-- Words and a name, with one `_` behind each word and one more in front of the name. -/
def spell : List Text → Text → Text
  | [], name => '_' :: name
  | w :: ws, name => w ++ '_' :: spell ws name

/-- What a path without words gets in addition. -/
def opening : List Text → Text
  | [] => ['_']
  | _ :: _ => []

theorem generate_eq_spell (name path : Text) :
    generate name path = '_' :: (opening (pathWords path) ++ spell (pathWords path) name) := by
  unfold generate
  generalize pathWords path = ws
  cases ws with
  | nil => rfl
  | cons w ws =>
    have hjoin : Text.join ['_'] (w :: ws) ++ "__".toList ++ name = spell (w :: ws) name := by
      induction ws generalizing w with
      | nil => simp [spell]
      | cons v ws ih => rw [spell, ← ih v]; simp [Text.join_cons_cons]
    rw [hjoin]
    rfl

/-- A text of letters and digits, which may be none, and a `_` behind it. -/
theorem word_append_inj {w v s t : Text} (hw : ∀ c ∈ w, isAsciiAlnum c = true)
    (hv : ∀ c ∈ v, isAsciiAlnum c = true) (h : w ++ '_' :: s = v ++ '_' :: t) :
    w = v ∧ s = t := by
  have hstops : ∀ u : Text, ∀ c ∈ ('_' :: u).head?, isAsciiAlnum c = false := by
    intro u c hc
    rw [← Option.some.inj hc]
    rfl
  obtain ⟨rfl, htail⟩ := Text.run_append_inj hw hv (hstops s) (hstops t) h
  exact ⟨rfl, (List.cons.inj htail).2⟩

/-- Words do not begin with `_`. -/
theorem spell_cons_ne {w : Text} (h : w ≠ [] ∧ ∀ c ∈ w, isAsciiAlnum c = true) (ws : List Text)
    (name t : Text) : spell (w :: ws) name ≠ '_' :: t := by
  intro heq
  exact h.1 (word_append_inj (v := []) h.2 (by simp) heq).1

theorem spell_inj {ws vs : List Text} {n m : Text}
    (hws : ∀ w ∈ ws, w ≠ [] ∧ ∀ c ∈ w, isAsciiAlnum c = true)
    (hvs : ∀ w ∈ vs, w ≠ [] ∧ ∀ c ∈ w, isAsciiAlnum c = true) (h : spell ws n = spell vs m) :
    ws = vs ∧ n = m := by
  induction ws generalizing vs with
  | nil =>
    cases vs with
    | nil => exact ⟨rfl, (List.cons.inj h).2⟩
    | cons v vs => exact absurd h.symm (spell_cons_ne (hvs v List.mem_cons_self) vs m n)
  | cons w ws ih =>
    cases vs with
    | nil => exact absurd h (spell_cons_ne (hws w List.mem_cons_self) ws n m)
    | cons v vs =>
      obtain ⟨rfl, htail⟩ :=
        word_append_inj (hws w List.mem_cons_self).2 (hvs v List.mem_cons_self).2 h
      obtain ⟨rfl, rfl⟩ := ih (fun u hu => hws u (List.mem_cons_of_mem w hu))
        (fun u hu => hvs u (List.mem_cons_of_mem w hu)) htail
      exact ⟨rfl, rfl⟩

/-- **A default name tells the words of the path and the name.** -/
theorem generate_inj {n m p q : Text} (h : generate n p = generate m q) :
    pathWords p = pathWords q ∧ n = m := by
  rw [generate_eq_spell, generate_eq_spell] at h
  have hrest := (List.cons.inj h).2
  have hp := (runs_pathWords p).isRun
  have hq := (runs_pathWords q).isRun
  generalize pathWords p = ws at hrest hp
  generalize pathWords q = vs at hrest hq
  cases ws with
  | nil =>
    cases vs with
    | nil => exact spell_inj hp hq (List.cons.inj hrest).2
    | cons v vs => exact absurd hrest.symm (spell_cons_ne (hq v List.mem_cons_self) vs m _)
  | cons w ws =>
    cases vs with
    | nil => exact absurd hrest (spell_cons_ne (hp w List.mem_cons_self) ws n _)
    | cons v vs => exact spell_inj hp hq hrest

/-- **Default names collide only through what is left of the paths.** Two of them are the same if
    and only if they were made for the same name and the paths without their extensions have the
    same runs of ASCII letters and digits. -/
theorem write_eq_write_iff (n m p q : Text) :
    write n p = write m q ↔
      n = m ∧ ∃ ws, Runs isAsciiAlnum (stem p) ws ∧ Runs isAsciiAlnum (stem q) ws := by
  rw [write_eq_generate, write_eq_generate]
  constructor
  · intro h
    obtain ⟨hwords, hname⟩ := generate_inj h
    exact ⟨hname, pathWords p, runs_pathWords p, hwords ▸ runs_pathWords q⟩
  · intro ⟨hname, ws, hp, hq⟩
    have hwords : pathWords p = pathWords q := hp.fields_eq.trans hq.fields_eq.symm
    rw [generate, generate, hname, hwords]

example : write "a".toList "x.css".toList = "_x__a".toList := by
  decide

example : write "_a".toList "x--y.css".toList = write "_a".toList "./x/y".toList := by
  decide

end QualifiedName

end StyleModules
