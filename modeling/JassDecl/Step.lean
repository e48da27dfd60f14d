import JassDecl.Plan
import JassDecl.System

/-!
# The steps of a run

A run makes its override table, reads its inputs, makes its output and writes it, one step after the
other. Each step reports notices as it goes, and may be the last one.
-/

namespace JassDecl

/-- An exception that no step handles. -/
inductive Escape where
  | nullCharacter
  deriving DecidableEq, Repr

/-- The exception in words. -/
def Escape.message : Escape → Text
  | .nullCharacter => "embedded null byte".toList

/-- Why a run goes no further: it ends with an exit code, or an exception leaves it. -/
inductive Stop where
  | exit (code : Nat)
  | raise (escape : Escape)
  deriving DecidableEq, Repr

namespace Stop

/-- The exit code. An exception that leaves a run ends it with 1. -/
def code : Stop → Nat
  | .exit code => code
  | .raise _ => 1

/-- The exception, if there is one. -/
def escape? : Stop → Option Escape
  | .exit _ => none
  | .raise escape => some escape

end Stop

/-- A part of a run. What it has reported, and what it has done to the files, stands also when it is
the last part. -/
abbrev Step (m : Type → Type) := ExceptT Stop (StateT (List Notice) m)

namespace Step

variable {m : Type → Type} [Monad m] {α : Type}

/-! ## Reporting -/

/-- Reports notices. -/
def say (notices : List Notice) : Step m Unit :=
  modify (· ++ notices)

/-- Reports how far the run has come, unless it is quiet. -/
def announce (quiet : Bool) (notice : Notice) : Step m Unit :=
  if quiet then pure () else say [notice]

/-- Reports what is wrong and ends the run. -/
def fail (notice : Notice) : Step m α := do
  say [notice]
  throw (.exit 1)

/-- Goes on with a result if there is one. -/
def orFail : Except Notice α → Step m α
  | .ok a => pure a
  | .error notice => fail notice

/-! ## Files -/

variable [System m]

/-- Makes sure that a path can be handed to the system. -/
def checkPath (path : Text) : Step m Unit :=
  if System.isNamed path then pure () else throw (.raise .nullCharacter)

/-- Reads the override table. -/
def readTable : Option Text → Step m Override.Table
  | none => pure .default
  | some path => do
      checkPath path
      orFail (Plan.tableAt path (← System.read? path))

/-- Reads one input. -/
def readSource (path : Text) : Step m Source := do
  checkPath path
  orFail (Plan.sourceAt path (← System.read? path))

/-- Reads the inputs in order. -/
def readSources (quiet : Bool) : List Text → Step m (List Source)
  | [] => pure []
  | path :: rest => do
      announce quiet (.parsing path)
      let source ← readSource path
      return source :: (← readSources quiet rest)

/-- Makes the output. -/
def makeOutput (options : Options) (table : Override.Table) (sources : List Source) :
    Step m Text := do
  let product := Product.ofSources options.stopAt options.strict table sources
  say product.notices
  match product.output with
  | some output => return output
  | none => throw (.exit product.exit)

/-- Writes the output. -/
def writeOutput (path output : Text) : Step m Unit := do
  checkPath path
  unless ← System.write? path (Utf8.encode output) do
    fail (.cannotWrite path)

/-- All that a run does before it opens its output. -/
def prepare (options : Options) : Step m Text := do
  let table ← readTable options.overridesFile
  let sources ← readSources options.quiet options.inputs
  let output ← makeOutput options table sources
  announce options.quiet (.writing options.output)
  return output

/-- All steps of a run with the given options. -/
def perform (options : Options) : Step m Unit := do
  writeOutput options.output (← prepare options)

end Step

/-! ## Runs -/

/-- How a run has ended: what it leaves behind, and the exception that has left it, if any. -/
structure Outcome where
  report : Report
  escape : Option Escape
  deriving DecidableEq, Repr

/-- The outcome of all steps, given what they have reported. -/
def Outcome.ofResult : Except Stop Unit → List Notice → Outcome
  | .ok (), notices => ⟨.ofNotices 0 notices, none⟩
  | .error stop, notices => ⟨.ofNotices stop.code notices, stop.escape?⟩

/-- Runs with the given arguments. -/
def program {m : Type → Type} [Monad m] [System m] (arguments : List Text) : m Outcome :=
  match Options.ofArguments arguments with
  | .error refusal => pure ⟨.ofRefusal refusal, none⟩
  | .ok options => do
      let (result, notices) ← (ExceptT.run (Step.perform options)).run []
      return .ofResult result notices

end JassDecl
