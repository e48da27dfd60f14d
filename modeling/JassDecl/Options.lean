import JassDecl.Text

/-!
# Options of a run

The arguments of a run are read from left to right into settings: an option with its value, a flag,
or a path. The last path is the output, and the others are the inputs.
-/

namespace JassDecl

/-- A stage at which a run can stop and write what it has. -/
inductive Phase where
  | normalize
  | recognize
  deriving DecidableEq, Repr

namespace Phase

/-- The name of a phase. -/
def name : Phase → Text
  | .normalize => "normalize".toList
  | .recognize => "recognize".toList

/-- The phase of a name. -/
def ofName? (name : Text) : Option Phase :=
  [Phase.normalize, Phase.recognize].find? (·.name == name)

end Phase

/-- What a run is asked to do. -/
structure Options where
  inputs : List Text
  output : Text
  stopAt : Option Phase
  overridesFile : Option Text
  strict : Bool
  quiet : Bool
  deriving DecidableEq, Repr

namespace Options

/-! ## Refusals -/

/-- Why a run does not start: it is asked for help, or its arguments are wrong. -/
inductive Refusal where
  | help
  | missingValue (option : Text)
  | unknownFlag (argument : Text)
  | unknownPhase (name : Text)
  | missingPaths
  deriving DecidableEq, Repr

/-! ## Settings -/

/-- What one or two arguments set. -/
inductive Setting where
  | stopAt (name : Text)
  | overrides (path : Text)
  | strict
  | quiet
  | path (path : Text)
  deriving DecidableEq, Repr

/-- What an argument announces. -/
inductive Switch where
  | help
  | valued (setting : Text → Setting)
  | plain (setting : Setting)
  | unknown

/-- An argument that starts with a hyphen is an option or a flag. Any other one is a path, also the
empty one. -/
def switch (argument : Text) : Switch :=
  if argument = "--help".toList ∨ argument = "-h".toList then .help
  else if argument = "--stop-at".toList then .valued .stopAt
  else if argument = "--overrides".toList then .valued .overrides
  else if argument = "--strict".toList then .plain .strict
  else if argument = "--quiet".toList ∨ argument = "-q".toList then .plain .quiet
  else if argument.head? = some '-' then .unknown
  else .plain (.path argument)

/-- Reads arguments from left to right. The argument after an option is its value, whatever it is.
The first argument that cannot be read decides. -/
def settings : List Text → Except Refusal (List Setting)
  | [] => .ok []
  | argument :: rest =>
      match switch argument with
      | .help => .error .help
      | .unknown => .error (.unknownFlag argument)
      | .plain setting => (settings rest).map (setting :: ·)
      | .valued setting =>
          match rest with
          | [] => .error (.missingValue argument)
          | value :: rest => (settings rest).map (setting value :: ·)

namespace Setting

/-- The path, if the setting is one. -/
def path? : Setting → Option Text
  | .path p => some p
  | _ => none

/-- The name of a phase, if the setting is one. -/
def stopAt? : Setting → Option Text
  | .stopAt name => some name
  | _ => none

/-- The path of an override file, if the setting is one. -/
def overrides? : Setting → Option Text
  | .overrides p => some p
  | _ => none

end Setting

/-- The options that settings make. Of two values of one option the later one counts. -/
def ofSettings (ss : List Setting) : Except Refusal Options := do
  let stopAt ← match (ss.filterMap Setting.stopAt?).getLast? with
    | none => .ok none
    | some name => match Phase.ofName? name with
      | some phase => .ok (some phase)
      | none => .error (.unknownPhase name)
  match (ss.filterMap Setting.path?).reverse with
  | output :: last :: more =>
      return {
        inputs := (last :: more).reverse
        output := output
        stopAt := stopAt
        overridesFile := (ss.filterMap Setting.overrides?).getLast?
        strict := ss.contains .strict
        quiet := ss.contains .quiet }
  | _ => .error .missingPaths

/-- Reads the arguments of a run. -/
def ofArguments (arguments : List Text) : Except Refusal Options :=
  (settings arguments).bind ofSettings

end Options

end JassDecl
