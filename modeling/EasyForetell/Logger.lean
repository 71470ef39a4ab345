import EasyForetell.Memory.Block

/-!
# Log messages (logger.c)

Each of `log_info`, `log_notice`, `log_warning` and `log_error` formats one
message and sends it to syslog with its own priority.
-/

namespace EasyForetell

/-- The syslog priorities the daemon uses. -/
inductive Priority
  | info
  | notice
  | warning
  | error
  deriving DecidableEq, Repr

/-- A formatted message on its way to `log_message`. -/
structure LogMessage where
  priority : Priority
  text : List UInt8
  deriving DecidableEq, Repr

end EasyForetell
