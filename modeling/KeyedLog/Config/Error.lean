import KeyedLog.FileError

/-!
# Failures of a configuration
-/
namespace KeyedLog

inductive ConfigError where
  | missing (setting : String)
  | invalid (setting reason : String)
  | read (path : String) (cause : FileError)
  | parse
  deriving DecidableEq, Repr

def ConfigError.message : ConfigError → String
  | .missing setting => "missing required setting " ++ setting
  | .invalid setting reason => "invalid value for " ++ setting ++ ": " ++ reason
  | .read path cause => "failed to read " ++ path ++ ": " ++ cause.message
  | .parse => "failed to parse config file"

end KeyedLog
