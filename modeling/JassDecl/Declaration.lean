import JassDecl.Text

/-!
# Declarations

The four sorts of declarations: types, natives, globals and functions. Their names and types are
texts that are not looked into any further.
-/

namespace JassDecl

/-- A type `name`, one of the values of type `parent`. -/
structure TypeDecl where
  name : Text
  parent : Text
  deriving DecidableEq, Repr

/-- A parameter. The name is empty when the source gives none. -/
structure Argument where
  type : Text
  name : Text
  deriving DecidableEq, Repr

/-- The head of a native or of a function. The return type is empty when the source gives none. -/
structure Prototype where
  name : Text
  arguments : List Argument
  returnType : Text
  deriving DecidableEq, Repr

/-- A global variable or constant. The value is the text of its initializer, which is not read any
further. -/
structure GlobalDecl where
  constant : Bool
  type : Text
  array : Bool
  name : Text
  value : Option Text
  deriving DecidableEq, Repr

/-- Any declaration. -/
inductive Declaration where
  | type (decl : TypeDecl)
  | native (decl : Prototype)
  | global (decl : GlobalDecl)
  | function (decl : Prototype)
  deriving DecidableEq, Repr

namespace Declaration

/-- The declaration, if it is a type. -/
def type? : Declaration → Option TypeDecl
  | .type decl => some decl
  | _ => none

/-- The declaration, if it is a native. -/
def native? : Declaration → Option Prototype
  | .native decl => some decl
  | _ => none

/-- The declaration, if it is a global. -/
def global? : Declaration → Option GlobalDecl
  | .global decl => some decl
  | _ => none

/-- The declaration, if it is a function. -/
def function? : Declaration → Option Prototype
  | .function decl => some decl
  | _ => none

end Declaration

end JassDecl
