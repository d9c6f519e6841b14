/-
  `handlers/master_handler.hpp`: any message is answered with a ticket and the address of a
  Login.

  Master reads and writes the shared store directly.  `on_message` touches it twice, in
  `pick_login` and in the `put` of the ticket, so it is two steps of the system; `redirect`
  is what the second one sends.
-/
import Netsrv.Net.MasterProtocol
import Netsrv.Registry.WorldRegistry
import Netsrv.Security.Crypto

namespace Netsrv.MasterHandler

/-- `ticket_ttl`, in seconds. -/
def ticketTtl : ℕ := 30

/-- `store_->put(ticket, {}, ticket_ttl_)`: to hold the ticket is enough. -/
def ticketValue : Bytes := []

def redirect (ticket : Bytes) (login : Registry.LoginInfo) : Bytes :=
  MasterProto.encodeRedirect ticket login.host login.port

end Netsrv.MasterHandler
