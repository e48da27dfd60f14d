import JassDecl.Product

/-!
# Plans

What a run makes of the files that it reads: its override table and its sources. A file that cannot
be opened has no content.
-/

namespace JassDecl.Plan

/-- The override table of a run that names a file for it: the table that the file holds, over the
default one. -/
def tableAt (path : Text) : Option Bytes → Except Notice Override.Table
  | none => .error (.cannotOpen path)
  | some bytes =>
      match Override.Table.ofBytes bytes with
      | .ok table => .ok (Override.Table.default.layer table)
      | .error fault => .error (.invalidTable path fault)

/-- The override table of a run, given what the files hold: the default one if no file is named. -/
def readTable (read : Text → Option Bytes) : Option Text → Except Notice Override.Table
  | none => .ok .default
  | some path => tableAt path (read path)

/-- The source that a file holds, without one leading byte-order mark. -/
def sourceAt (path : Text) : Option Bytes → Except Notice Source
  | none => .error (.cannotOpen path)
  | some bytes =>
      match Utf8.decode bytes with
      | .ok text => .ok ⟨path, Text.dropMark text⟩
      | .error _ => .error (.invalidEncoding path)

end JassDecl.Plan
