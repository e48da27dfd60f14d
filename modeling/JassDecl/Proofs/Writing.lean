import JassDecl.FileTree

/-! # Writing one file

A file is only ever put where no directory stands, so the directories stay the same. Then every path
leads where it led before, and only the paths that lead to the file read anything new. -/

namespace JassDecl.FileTree

variable {tree after : FileTree} {path : Text} {content : Bytes}

/-- A file can be put at a path that leads to no directory. -/
def Writable (tree : FileTree) (path : Text) : Prop :=
  ∃ place, tree.place? path = some place ∧ tree.node? place ≠ some .directory

theorem any_isDirectory_eq_false_iff {node : Option Node} :
    node.any Node.isDirectory = false ↔ node ≠ some .directory := by
  cases node with
  | none => simp
  | some node => cases node <;> simp [Node.isDirectory]

theorem write?_eq_some_iff :
    tree.write? path content = some after ↔
      ∃ place, tree.place? path = some place ∧ tree.node? place ≠ some .directory ∧
        after = { tree with nodes := tree.nodes.set place (.file content) } := by
  rw [write?]
  cases tree.place? path with
  | none => simp
  | some place =>
      simp only [Option.some.injEq, exists_eq_left', ← any_isDirectory_eq_false_iff]
      cases (tree.node? place).any Node.isDirectory <;> simp [eq_comm]

theorem exists_write?_eq_some_iff :
    (∃ after, tree.write? path content = some after) ↔ tree.Writable path := by
  simp only [write?_eq_some_iff, Writable]
  constructor
  · intro ⟨_, place, hplace, hnode, _⟩
    exact ⟨place, hplace, hnode⟩
  · intro ⟨place, hplace, hnode⟩
    exact ⟨_, place, hplace, hnode, rfl⟩

end JassDecl.FileTree
