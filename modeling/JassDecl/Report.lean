import JassDecl.Options
import JassDecl.Override.File
import JassDecl.Recognition

/-!
# Reports

What a run says: the text on standard output, the notices on standard error, and the exit code.
-/

namespace JassDecl

/-- How the program is called. -/
def usage : Text :=
  ("jassdts [OPTIONS] INPUT [INPUT...] OUTPUT\n" ++
    "\n" ++
    "Convert JASS type, native, global, and function declarations into a\n" ++
    "TypeScript declaration file.\n" ++
    "\n" ++
    "Options:\n" ++
    "  --stop-at PHASE     Stop after phase: normalize, recognize\n" ++
    "  --overrides FILE    JSON table of native argument type overrides\n" ++
    "  --strict            Treat an unterminated globals block as an error\n" ++
    "  -q, --quiet         Do not report progress on stderr\n" ++
    "  -h, --help          Show this help message\n").toList

/-! ## Notices -/

/-- How much a diagnostic matters. -/
inductive Severity where
  | warning
  | error
  deriving DecidableEq, Repr

namespace Severity

/-- What stands in front of a diagnostic. -/
def label : Severity → Text
  | .warning => "warning: ".toList
  | .error => "error: ".toList

end Severity

/-- One thing that a run reports on its way. -/
inductive Notice where
  | parsing (path : Text)
  | writing (path : Text)
  | cannotOpen (path : Text)
  | cannotWrite (path : Text)
  | invalidEncoding (path : Text)
  | invalidTable (path : Text) (fault : Override.Fault)
  | diagnostic (severity : Severity) (d : Diagnostic)
  | noDeclarations
  deriving DecidableEq, Repr

namespace Notice

/-- The notice in words. -/
def render : Notice → Text
  | .parsing path => "parsing: ".toList ++ path
  | .writing path => "writing: ".toList ++ path
  | .cannotOpen path => "error: cannot open '".toList ++ path ++ ['\'']
  | .cannotWrite path => "error: cannot write '".toList ++ path ++ ['\'']
  | .invalidEncoding path => "error: invalid utf-8 in '".toList ++ path ++ ['\'']
  | .invalidTable path fault => "error: ".toList ++ fault.render path
  | .diagnostic severity d => severity.label ++ d.render
  | .noDeclarations => "warning: no declarations recognized".toList

end Notice

/-! ## Reports -/

/-- What a run leaves behind for whoever called it. -/
structure Report where
  exit : Nat
  stdout : Text
  stderr : Text
  deriving DecidableEq, Repr

namespace Report

/-- The report of notices alone. -/
def ofNotices (exit : Nat) (notices : List Notice) : Report where
  exit := exit
  stdout := []
  stderr := Text.unlines (notices.map Notice.render)

/-- The report of a run that does not start. Only the one that asks for help succeeds. -/
def ofRefusal : Options.Refusal → Report
  | .help => ⟨0, usage, []⟩
  | .missingValue option =>
      ⟨2, [], Text.unlines ["error: ".toList ++ option ++ " requires an argument".toList]⟩
  | .unknownFlag argument =>
      ⟨2, [], Text.unlines ["error: unknown flag '".toList ++ argument ++ ['\'']]⟩
  | .unknownPhase name =>
      ⟨2, [], Text.unlines ["error: unknown phase '".toList ++ name ++ ['\'']]⟩
  | .missingPaths =>
      ⟨2, [], Text.unlines ["error: expected at least one input and one output".toList] ++ usage⟩

end Report

end JassDecl
