import KeyedLog.Config.Error
import KeyedLog.Store.Basic
import KeyedLog.Text.Blank
import KeyedLog.Text.Quoted

/-!
# Choices in a configuration

The kinds of store and broker, by name. A name may be in any case and have blanks around it.
-/
namespace KeyedLog

namespace Setting

def backend : String := "KV_API_STATE_STORAGE_TYPE"
def broker : String := "KV_API_BROKER"

end Setting

namespace Backend

def name : Backend → String
  | dict => "dict"
  | disk => "disk"
  | sqlite => "sqlite"

/-- The kind with exactly this name. -/
def ofName? (text : String) : Option Backend :=
  if text = "dict" then some dict
  else if text = "disk" then some disk
  else if text = "sqlite" then some sqlite
  else none

def ofText (text : String) : Except ConfigError Backend :=
  let plain := Text.lower (Text.trim text)
  match ofName? plain with
  | some b => .ok b
  | none =>
    .error (.invalid Setting.backend
      ("unknown backend " ++ Text.quoted plain ++ ", expected one of dict, disk, sqlite"))

end Backend

/-- Where the log is: in the process, or with a cluster of brokers. -/
inductive BrokerKind where
  | memory
  | kafka
  deriving DecidableEq, Repr

namespace BrokerKind

def name : BrokerKind → String
  | memory => "memory"
  | kafka => "kafka"

/-- The kind with exactly this name. -/
def ofName? (text : String) : Option BrokerKind :=
  if text = "memory" then some memory
  else if text = "kafka" then some kafka
  else none

def ofText (text : String) : Except ConfigError BrokerKind :=
  let plain := Text.lower (Text.trim text)
  match ofName? plain with
  | some b => .ok b
  | none =>
    .error (.invalid Setting.broker
      ("unknown broker " ++ Text.quoted plain ++ ", expected memory or kafka"))

end BrokerKind

end KeyedLog
