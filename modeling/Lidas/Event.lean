import Mathlib.Tactic.Common

/-!
# Events

The listener hands an `event_data` to the workers. Its `type` says what is to be done, `fd` is
the client's descriptor, and `pfd` and `node` are the backend's descriptor and the node it
belongs to. A `PROXY_RECONNECT` event has the backend's descriptor in `fd`.
-/

namespace Lidas

/-- The values of `type`. -/
inductive EventType where
  | commonRdEvent
  | commonWrEvent
  | proxyRdEvent
  | proxyWrEvent
  | listenEvent
  | proxyReconnect
  deriving DecidableEq

/-- `event_data`. A node is known by its number, `NULL` is `none`. -/
structure EventData where
  fd : ℕ
  pfd : ℕ
  type : EventType
  node : Option ℕ
  deriving DecidableEq

end Lidas
