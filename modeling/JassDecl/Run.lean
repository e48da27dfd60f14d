import JassDecl.FileTree
import JassDecl.Step

/-!
# Runs on a file tree
-/

namespace JassDecl.FileTree

/-- Runs with the given arguments: how it ends, and the tree after it. -/
def outcome (tree : FileTree) (arguments : List Text) : Outcome × FileTree :=
  (program arguments : StateM FileTree Outcome).run tree

/-- Runs with the given arguments: the report, and the tree after it. -/
def run (tree : FileTree) (arguments : List Text) : Report × FileTree :=
  ((tree.outcome arguments).1.report, (tree.outcome arguments).2)

end JassDecl.FileTree
