/-
  `server_role.hpp`: what a server's role fixes at compile time.
-/
import Mathlib.Data.Nat.Notation

namespace Netsrv

inductive ServerRole where
  | master | login | world | internal
  deriving DecidableEq, Repr

/-- `ServerConfig<Role>::read_buffer_bytes`, the largest frame a session of the role reads. -/
def ServerRole.readBufferBytes : ServerRole → ℕ
  | master => 4096
  | login => 2048
  | world => 8192
  | internal => 4096

end Netsrv
