import JassDecl.Proofs.Runs
import JassDecl.Proofs.Settings

/-! # The arguments of a run

Which arguments are accepted and what options they make, described group by group. An option and its
value form a group, and a flag or a path forms one of its own. Groups of different sorts may change
places.
-/

namespace JassDecl

theorem Phase.ofName?_eq_some_iff {name : Text} {phase : Phase} :
    ofName? name = some phase ↔ phase.name = name := by
  constructor
  · intro h
    simpa using List.find?_some h
  · rintro rfl
    cases phase <;> rfl

namespace Options

/-! ## Groups of arguments -/

/-- One or two arguments that are read together. A path does not start with a hyphen, and may be
empty. The value of an option may be any argument. -/
inductive Group where
  | stopAt (name : Text)
  | overrides (p : Text)
  | strict
  | quiet (short : Bool)
  | path (p : Text) (h : p.head? ≠ some '-')

namespace Group

/-- The arguments of a group. -/
def arguments : Group → List Text
  | .stopAt name => ["--stop-at".toList, name]
  | .overrides p => ["--overrides".toList, p]
  | .strict => ["--strict".toList]
  | .quiet short => [if short then "-q".toList else "--quiet".toList]
  | .path p _ => [p]

/-- What a group sets. -/
def setting : Group → Setting
  | .stopAt name => .stopAt name
  | .overrides p => .overrides p
  | .strict => .strict
  | .quiet _ => .quiet
  | .path p _ => .path p

theorem arguments_ne_nil (g : Group) : g.arguments ≠ [] := by
  cases g <;> exact List.cons_ne_nil _ _

end Group

/-- The arguments that start with a hyphen and have a meaning. -/
def flags : List Text :=
  ["--help", "-h", "--stop-at", "--overrides", "--strict", "--quiet", "-q"].map String.toList

/-- Why the first of some arguments forms no group: it asks for help, it is no flag, or it is an
option without a value. -/
inductive Stops : List Text → Refusal → Prop where
  | help {flag rest} (h : flag = "--help".toList ∨ flag = "-h".toList) : Stops (flag :: rest) .help
  | unknownFlag {argument rest} (hhyphen : argument.head? = some '-') (hother : argument ∉ flags) :
      Stops (argument :: rest) (.unknownFlag argument)
  | missingValue {option} (h : option = "--stop-at".toList ∨ option = "--overrides".toList) :
      Stops [option] (.missingValue option)

theorem exists_group_or_stops {arguments : List Text} (hne : arguments ≠ []) :
    (∃ (g : Group) (rest : List Text), arguments = g.arguments ++ rest) ∨
      ∃ refusal, Stops arguments refusal := by
  obtain ⟨argument, rest, rfl⟩ := List.exists_cons_of_ne_nil hne
  by_cases hhyphen : argument.head? = some '-'
  · by_cases hflag : argument ∈ flags
    · simp only [flags, List.map_cons, List.map_nil, List.mem_cons, List.not_mem_nil, or_false]
        at hflag
      have hvalued {option : Text} (f : Text → Group)
          (hf : ∀ value, (f value).arguments = [option, value])
          (hoption : option = "--stop-at".toList ∨ option = "--overrides".toList) :
          (∃ (g : Group) (rest' : List Text), option :: rest = g.arguments ++ rest') ∨
            ∃ refusal, Stops (option :: rest) refusal := by
        cases rest with
        | nil => exact Or.inr ⟨_, .missingValue hoption⟩
        | cons value rest => exact Or.inl ⟨f value, rest, by rw [hf]; rfl⟩
      obtain rfl | rfl | rfl | rfl | rfl | rfl | rfl := hflag
      · exact Or.inr ⟨_, .help (Or.inl rfl)⟩
      · exact Or.inr ⟨_, .help (Or.inr rfl)⟩
      · exact hvalued .stopAt (fun _ => rfl) (Or.inl rfl)
      · exact hvalued .overrides (fun _ => rfl) (Or.inr rfl)
      · exact Or.inl ⟨.strict, rest, rfl⟩
      · exact Or.inl ⟨.quiet false, rest, rfl⟩
      · exact Or.inl ⟨.quiet true, rest, rfl⟩
    · exact Or.inr ⟨_, .unknownFlag hhyphen hflag⟩
  · exact Or.inl ⟨.path argument hhyphen, rest, rfl⟩

/-- Arguments are groups, up to the first argument that forms none. -/
theorem exists_groups (arguments : List Text) : ∃ (groups : List Group) (rest : List Text),
    arguments = groups.flatMap Group.arguments ++ rest ∧
      (rest = [] ∨ ∃ refusal, Stops rest refusal) := by
  induction hn : arguments.length using Nat.strong_induction_on generalizing arguments with
  | _ n ih =>
    by_cases hne : arguments = []
    · exact ⟨[], [], hne, Or.inl rfl⟩
    · obtain ⟨g, later, rfl⟩ | hstops := exists_group_or_stops hne
      · have hlength : later.length < n := by
          have hg := List.length_pos_of_ne_nil g.arguments_ne_nil
          rw [List.length_append] at hn
          omega
        obtain ⟨groups, rest, hlater, hrest⟩ := ih _ hlength later rfl
        refine ⟨g :: groups, rest, ?_, hrest⟩
        rw [List.flatMap_cons, List.append_assoc, ← hlater]
      · exact ⟨[], arguments, rfl, Or.inr hstops⟩

/-! ## Reading groups -/

theorem head?_of_mem_flags : ∀ flag ∈ flags, flag.head? = some '-' := by
  decide

theorem switch_of_notMem_flags {argument : Text} (h : argument ∉ flags) :
    switch argument =
      if argument.head? = some '-' then .unknown else .plain (.path argument) := by
  simp only [flags, List.map_cons, List.map_nil, List.mem_cons, List.not_mem_nil, or_false,
    not_or] at h
  simp only [switch, h, or_self, if_false]

theorem settings_arguments (g : Group) : settings g.arguments = .ok [g.setting] := by
  cases g with
  | stopAt name => rfl
  | overrides path => rfl
  | strict => rfl
  | quiet short => cases short <;> rfl
  | path p h =>
      have hother : p ∉ flags := fun hflag => h (head?_of_mem_flags p hflag)
      rw [Group.arguments, settings, switch_of_notMem_flags hother, if_neg h]
      rfl

theorem settings_flatMap_arguments (groups : List Group) :
    settings (groups.flatMap Group.arguments) = .ok (groups.map Group.setting) := by
  induction groups with
  | nil => rfl
  | cons g groups ih =>
      rw [List.flatMap_cons, settings_append (settings_arguments g), ih]
      rfl

theorem settings_of_stops {arguments : List Text} {refusal : Refusal}
    (h : Stops arguments refusal) : settings arguments = .error refusal := by
  cases h with
  | help h => obtain rfl | rfl := h <;> rfl
  | unknownFlag hhyphen hother =>
      rw [settings, switch_of_notMem_flags hother, if_pos hhyphen]
  | missingValue h => obtain rfl | rfl := h <;> rfl

/-! ## Options of settings -/

/-- The name of the phase that settings ask for: the last one counts. -/
def phaseName? (ss : List Setting) : Option Text :=
  (ss.filterMap Setting.stopAt?).getLast?

/-- Why settings make no options. -/
inductive Refused (ss : List Setting) : Refusal → Prop where
  | unknownPhase {name} (hlast : phaseName? ss = some name)
      (hname : ∀ phase, Phase.name phase ≠ name) : Refused ss (.unknownPhase name)
  | missingPaths (hlast : ∀ name ∈ phaseName? ss, ∃ phase, Phase.name phase = name)
      (hpaths : (ss.filterMap Setting.path?).length < 2) : Refused ss .missingPaths

/-- The options that settings make. -/
structure Describes (ss : List Setting) (options : Options) : Prop where
  paths : options.inputs ++ [options.output] = ss.filterMap Setting.path?
  inputs_ne_nil : options.inputs ≠ []
  stopAt : options.stopAt.map Phase.name = phaseName? ss
  overridesFile : options.overridesFile = (ss.filterMap Setting.overrides?).getLast?
  strict : options.strict = true ↔ .strict ∈ ss
  quiet : options.quiet = true ↔ .quiet ∈ ss

theorem ofSettings_of_unknownPhase {ss : List Setting} {name : Text}
    (hlast : phaseName? ss = some name) (hname : ∀ phase, Phase.name phase ≠ name) :
    ofSettings ss = .error (.unknownPhase name) := by
  have hnone : Phase.ofName? name = none :=
    Option.eq_none_iff_forall_ne_some.mpr fun phase h =>
      hname phase (Phase.ofName?_eq_some_iff.mp h)
  rw [phaseName?] at hlast
  simp only [ofSettings, hlast, hnone]
  rfl

/-- The options of settings that ask for a phase, given the paths from the last one on. -/
def ofPaths (phase : Option Phase) (ss : List Setting) : List Text → Except Refusal Options
  | output :: last :: more => .ok {
      inputs := (last :: more).reverse
      output := output
      stopAt := phase
      overridesFile := (ss.filterMap Setting.overrides?).getLast?
      strict := ss.contains .strict
      quiet := ss.contains .quiet }
  | _ => .error .missingPaths

theorem ofSettings_of_phase {ss : List Setting} {phase : Option Phase}
    (hlast : phaseName? ss = phase.map Phase.name) :
    ofSettings ss = ofPaths phase ss (ss.filterMap Setting.path?).reverse := by
  rw [phaseName?] at hlast
  simp only [ofSettings, hlast]
  generalize (ss.filterMap Setting.path?).reverse = paths
  cases phase with
  | none => rcases paths with _ | ⟨output, _ | ⟨last, more⟩⟩ <;> rfl
  | some phase =>
      simp only [Option.map_some, Phase.ofName?_eq_some_iff.mpr rfl]
      rcases paths with _ | ⟨output, _ | ⟨last, more⟩⟩ <;> rfl

theorem exists_phase {ss : List Setting}
    (h : ∀ name ∈ phaseName? ss, ∃ phase, Phase.name phase = name) :
    ∃ phase : Option Phase, phaseName? ss = phase.map Phase.name := by
  cases hlast : phaseName? ss with
  | none => exact ⟨none, rfl⟩
  | some name =>
      obtain ⟨phase, rfl⟩ := h name hlast
      exact ⟨some phase, rfl⟩

theorem Refused.ofSettings_eq {ss : List Setting} {refusal : Refusal} (h : Refused ss refusal) :
    ofSettings ss = .error refusal := by
  cases h with
  | unknownPhase hlast hname => exact ofSettings_of_unknownPhase hlast hname
  | missingPaths hlast hpaths =>
      obtain ⟨phase, hphase⟩ := exists_phase hlast
      rw [ofSettings_of_phase hphase]
      rw [← List.length_reverse] at hpaths
      generalize (ss.filterMap Setting.path?).reverse = paths at hpaths
      rcases paths with _ | ⟨output, _ | ⟨last, more⟩⟩
      · rfl
      · rfl
      · simp only [List.length_cons] at hpaths
        omega

theorem Describes.ofSettings_eq {ss : List Setting} {options : Options} (h : Describes ss options) :
    ofSettings ss = .ok options := by
  obtain ⟨more, last, hinputs⟩ :=
    (List.eq_nil_or_concat' options.inputs).resolve_left h.inputs_ne_nil
  have hreverse :
      (ss.filterMap Setting.path?).reverse = options.output :: last :: more.reverse := by
    rw [← h.paths, hinputs]
    simp
  have hrestore : (last :: more.reverse).reverse = options.inputs := by
    rw [hinputs]
    simp
  have hcontains {setting : Setting} {b : Bool} (hb : b = true ↔ setting ∈ ss) :
      ss.contains setting = b := by
    rw [Bool.eq_iff_iff, hb, List.contains_iff_mem]
  rw [ofSettings_of_phase h.stopAt.symm, hreverse, ofPaths, hrestore, ← h.overridesFile,
    hcontains h.strict, hcontains h.quiet]

theorem exists_refused_iff {ss : List Setting} : (∃ refusal, Refused ss refusal) ↔
    (∃ name, phaseName? ss = some name ∧ ∀ phase, Phase.name phase ≠ name) ∨
      (ss.filterMap Setting.path?).length < 2 := by
  constructor
  · rintro ⟨_, ⟨hlast, hname⟩ | ⟨-, hpaths⟩⟩
    · exact Or.inl ⟨_, hlast, hname⟩
    · exact Or.inr hpaths
  · intro h
    by_cases hlast : ∀ name ∈ phaseName? ss, ∃ phase, Phase.name phase = name
    · obtain ⟨name, hname, hother⟩ | hpaths := h
      · obtain ⟨phase, hphase⟩ := hlast name hname
        exact absurd hphase (hother phase)
      · exact ⟨_, .missingPaths hlast hpaths⟩
    · push Not at hlast
      obtain ⟨name, hname, hother⟩ := hlast
      exact ⟨_, .unknownPhase hname hother⟩

/-- Settings are refused or make options. -/
theorem exists_refused_or_describes (ss : List Setting) :
    (∃ refusal, Refused ss refusal) ∨ ∃ options, Describes ss options := by
  rw [or_iff_not_imp_left, exists_refused_iff]
  intro h
  push Not at h
  obtain ⟨phase, hphase⟩ := exists_phase h.1
  obtain ⟨inputs, output, hcut⟩ :=
    (List.eq_nil_or_concat' (ss.filterMap Setting.path?)).resolve_left fun hnil => by
      simp [hnil] at h
  refine ⟨⟨inputs, output, phase, (ss.filterMap Setting.overrides?).getLast?,
    ss.contains .strict, ss.contains .quiet⟩, hcut.symm, ?_, hphase.symm, rfl,
    List.contains_iff_mem, List.contains_iff_mem⟩
  rintro rfl
  simp [hcut] at h

theorem ofSettings_eq_error_iff {ss : List Setting} {refusal : Refusal} :
    ofSettings ss = .error refusal ↔ Refused ss refusal := by
  refine ⟨fun h => ?_, Refused.ofSettings_eq⟩
  obtain ⟨other, hother⟩ | ⟨options, hoptions⟩ := exists_refused_or_describes ss
  · obtain rfl : other = refusal := by simpa [hother.ofSettings_eq] using h
    exact hother
  · rw [hoptions.ofSettings_eq] at h
    cases h

theorem ofSettings_eq_ok_iff {ss : List Setting} {options : Options} :
    ofSettings ss = .ok options ↔ Describes ss options := by
  refine ⟨fun h => ?_, Describes.ofSettings_eq⟩
  obtain ⟨refusal, hrefusal⟩ | ⟨other, hother⟩ := exists_refused_or_describes ss
  · rw [hrefusal.ofSettings_eq] at h
    cases h
  · obtain rfl : other = options := by simpa [hother.ofSettings_eq] using h
    exact hother

/-- The same settings in an order that keeps the paths in their order, and the values of each
option in theirs. -/
structure Reordered (ss others : List Setting) : Prop where
  perm : ss.Perm others
  paths : ss.filterMap Setting.path? = others.filterMap Setting.path?
  phases : ss.filterMap Setting.stopAt? = others.filterMap Setting.stopAt?
  files : ss.filterMap Setting.overrides? = others.filterMap Setting.overrides?

theorem Describes.of_reordered {ss others : List Setting} {options : Options}
    (h : Describes ss options) (hsame : Reordered ss others) : Describes others options where
  paths := h.paths.trans hsame.paths
  inputs_ne_nil := h.inputs_ne_nil
  stopAt := h.stopAt.trans (congrArg List.getLast? hsame.phases)
  overridesFile := h.overridesFile.trans (congrArg List.getLast? hsame.files)
  strict := h.strict.trans hsame.perm.mem_iff
  quiet := h.quiet.trans hsame.perm.mem_iff

/-! ## Arguments -/

theorem ofArguments_flatMap (groups : List Group) :
    ofArguments (groups.flatMap Group.arguments) = ofSettings (groups.map Group.setting) := by
  rw [ofArguments, settings_flatMap_arguments]
  rfl

theorem ofArguments_of_stops (groups : List Group) {rest : List Text} {refusal : Refusal}
    (h : Stops rest refusal) :
    ofArguments (groups.flatMap Group.arguments ++ rest) = .error refusal := by
  rw [ofArguments, settings_append (settings_flatMap_arguments groups), settings_of_stops h]
  rfl

/-- What comes of arguments, group by group. -/
structure ArgumentsSpec (arguments : List Text) : Prop where
  /-- Arguments are groups, up to the first one that forms none. -/
  exists_groups : ∃ (groups : List Group) (rest : List Text),
    arguments = groups.flatMap Group.arguments ++ rest ∧
      (rest = [] ∨ ∃ refusal, Stops rest refusal)
  /-- The first argument that forms no group decides. -/
  stopped : ∀ (groups : List Group) rest refusal,
    arguments = groups.flatMap Group.arguments ++ rest → Stops rest refusal →
      ofArguments arguments = .error refusal
  refused : ∀ groups : List Group, arguments = groups.flatMap Group.arguments →
    ((∃ refusal, ofArguments arguments = .error refusal) ↔
      (∃ name, phaseName? (groups.map Group.setting) = some name ∧
        ∀ phase, Phase.name phase ≠ name) ∨
      ((groups.map Group.setting).filterMap Setting.path?).length < 2)
  /-- The name of the phase is looked at before the paths are counted. -/
  refusal : ∀ (groups : List Group) refusal, arguments = groups.flatMap Group.arguments →
    (ofArguments arguments = .error refusal ↔ Refused (groups.map Group.setting) refusal)
  accepted : ∀ (groups : List Group) options, arguments = groups.flatMap Group.arguments →
    (ofArguments arguments = .ok options ↔ Describes (groups.map Group.setting) options)
  reordered : ∀ (groups others : List Group) options,
    arguments = groups.flatMap Group.arguments → ofArguments arguments = .ok options →
      Reordered (groups.map Group.setting) (others.map Group.setting) →
        ofArguments (others.flatMap Group.arguments) = .ok options
  /-- Whoever asks for help gets it, and any other run that does not start is an error. -/
  report : ∀ refusal, ofArguments arguments = .error refusal → ∀ tree : FileTree,
    (tree.run arguments).1.exit = (if refusal = .help then 0 else 2) ∧
      (tree.run arguments).1.stdout = if refusal = .help then usage else []

theorem argumentsSpec_ofArguments (arguments : List Text) : ArgumentsSpec arguments where
  exists_groups := exists_groups arguments
  stopped := by
    rintro groups rest refusal rfl h
    exact ofArguments_of_stops groups h
  refused := by
    rintro groups rfl
    simp only [ofArguments_flatMap, ofSettings_eq_error_iff, exists_refused_iff]
  refusal := by
    rintro groups refusal rfl
    rw [ofArguments_flatMap, ofSettings_eq_error_iff]
  accepted := by
    rintro groups options rfl
    rw [ofArguments_flatMap, ofSettings_eq_ok_iff]
  reordered := by
    rintro groups others options rfl h hsame
    rw [ofArguments_flatMap, ofSettings_eq_ok_iff] at h ⊢
    exact h.of_reordered hsame
  report := by
    intro refusal h tree
    rw [FileTree.run_of_refusal h]
    cases refusal <;> simp [Report.ofRefusal]

/-- A value that looks like a flag, and an empty path. -/
example :
    ofArguments (["--overrides", "-x", "", "-q", "--stop-at", "recognize", "o"].map String.toList) =
      .ok ⟨[[]], "o".toList, some .recognize, some "-x".toList, false, true⟩ := by
  decide

end Options

end JassDecl
