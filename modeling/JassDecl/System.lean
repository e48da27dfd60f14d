import JassDecl.Text.Utf8

/-!
# Systems

What a run asks of the system that it runs on: to read whole files and to write them.
-/

namespace JassDecl

/-- A system with files. A file that cannot be opened has no content and is not written. -/
class System (m : Type → Type) where
  read? (path : Text) : m (Option Bytes)
  write? (path : Text) (content : Bytes) : m Bool

instance {m n : Type → Type} [MonadLift m n] [System m] : System n where
  read? path := liftM (System.read? path : m (Option Bytes))
  write? path content := liftM (System.write? path content : m Bool)

/-- Whether a path can be handed to a system. One with a null character cannot. -/
def System.isNamed (path : Text) : Bool :=
  !path.contains '\x00'

end JassDecl
