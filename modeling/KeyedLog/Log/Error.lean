import KeyedLog.Text.Decimal

/-!
# Failures around the log

What can go wrong between a client and the log, its administration, or the schema registry.
-/
namespace KeyedLog

inductive BrokerError where
  | topicCreation (topic reason : String)
  | metadata (reason : String)
  | watermarks (topic : String) (partition : Int) (reason : String)
  | assign (reason : String)
  | consume (reason : String)
  | send (reason : String)
  | flush (reason : String)
  | config (reason : String)
  | schemaRegistry (reason : String)
  | closed
  deriving DecidableEq, Repr

def BrokerError.message : BrokerError → String
  | .topicCreation topic reason => "topic creation failed for " ++ topic ++ ": " ++ reason
  | .metadata reason => "metadata query failed: " ++ reason
  | .watermarks topic partition reason =>
    "watermark query failed for " ++ topic ++ "/" ++ Decimal.ofInt partition ++ ": " ++ reason
  | .assign reason => "assignment failed: " ++ reason
  | .consume reason => "consume failed: " ++ reason
  | .send reason => "send failed: " ++ reason
  | .flush reason => "flush failed: " ++ reason
  | .config reason => "client configuration error: " ++ reason
  | .schemaRegistry reason => "schema registry error: " ++ reason
  | .closed => "consumer is closed"

end KeyedLog
