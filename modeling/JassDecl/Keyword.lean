import JassDecl.Text

/-! # Keywords of declarations -/

namespace JassDecl.Keyword

/-- Opens a block of globals. -/
def globals : Text := "globals".toList

/-- Closes a block of globals. -/
def endglobals : Text := "endglobals".toList

/-- Marks a global that never changes, or a prototype. -/
def constant : Text := "constant".toList

def array : Text := "array".toList

def type : Text := "type".toList

/-- Stands between a type and its parent. -/
def extending : Text := "extends".toList

def native : Text := "native".toList

def function : Text := "function".toList

/-- Starts the parameters of a prototype. -/
def takes : Text := "takes".toList

/-- Starts the return type of a prototype. -/
def returns : Text := "returns".toList

/-- Stands for an empty list of parameters. -/
def nothing : Text := "nothing".toList

/-- The words that may stand before a declaration without changing it. -/
def modifiers : List Text := [constant, "private".toList, "public".toList]

end JassDecl.Keyword
