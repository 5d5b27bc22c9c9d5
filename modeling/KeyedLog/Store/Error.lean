import KeyedLog.FileError

/-!
# Failures of a state store
-/
namespace KeyedLog

/-- What a database refuses. -/
inductive DatabaseFault where
  | notDatabase
  | cannotOpen
  | closed
  deriving DecidableEq, Repr

def DatabaseFault.message : DatabaseFault → String
  | .notDatabase => "error returned from database: (code: 26) file is not a database"
  | .cannotOpen => "error returned from database: (code: 14) unable to open database file"
  | .closed => "attempted to acquire a connection on a closed pool"

inductive StateError where
  | io (path : String) (cause : FileError)
  | database (fault : DatabaseFault)
  | encryptionUnavailable (path : String)
  | corrupt (path reason : String)
  | parse (path reason : String)
  deriving DecidableEq, Repr

def StateError.message : StateError → String
  | .io path cause => "I/O error at " ++ path ++ ": " ++ cause.message
  | .database fault => "database error: " ++ fault.message
  | .encryptionUnavailable path =>
    "password configured for " ++ path ++ " but SQLite was built without SQLCipher"
  | .corrupt path reason => "corrupt storage at " ++ path ++ ": " ++ reason
  | .parse path reason => "unparsable ledger entry at " ++ path ++ ": " ++ reason

end KeyedLog
