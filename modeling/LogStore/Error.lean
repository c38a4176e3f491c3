/-! What can go wrong, one constructor per cause, and the wording of each. -/

namespace LogStore

abbrev FileId := UInt32

inductive IoError where
  | noEntry
  | busy
  | exists
  | notDirectory
  | isDirectory
  | invalidArgument
  | fileTooLarge
  | nameTooLong
  | notEmpty
  | nulInPath
  | other (text : String)
  deriving DecidableEq, Repr

namespace IoError

def message : IoError → String
  | .noEntry => "No such file or directory (os error 2)"
  | .busy => "Device or resource busy (os error 16)"
  | .exists => "File exists (os error 17)"
  | .notDirectory => "Not a directory (os error 20)"
  | .isDirectory => "Is a directory (os error 21)"
  | .invalidArgument => "Invalid argument (os error 22)"
  | .fileTooLarge => "File too large (os error 27)"
  | .nameTooLong => "File name too long (os error 36)"
  | .notEmpty => "Directory not empty (os error 39)"
  | .nulInPath => "file name contained an unexpected NUL byte"
  | .other text => text

end IoError

inductive Field where
  | key
  | value
  deriving DecidableEq, Repr

def Field.name : Field → String
  | .key => "key"
  | .value => "value"

inductive Error where
  | io (cause : IoError)
  /-- The stored checksum is not that of the bytes found. -/
  | corruptRecord (expected actual : UInt32)
  /-- The input stops inside a record. -/
  | truncatedRecord (expected actual : Nat)
  /-- The input stops before a record. -/
  | endOfLog
  | recordTooLarge (field : Field) (length : Nat)
  | keyNotFound
  /-- A value must not be empty, because the empty value marks a deletion. -/
  | emptyValue
  /-- The index points at bytes that the segment does not hold. -/
  | corruptIndex (fileId : FileId) (valuePos expected actual : Nat)
  | recoveryFailed (cause : Error)
  | closed
  | config (text : String)
  deriving DecidableEq, Repr

namespace Error

def hexWord (w : UInt32) : String :=
  let digits := Nat.toDigits 16 w.toNat
  String.ofList (List.replicate (8 - digits.length) '0' ++ digits)

def message : Error → String
  | .io cause => "IO error: " ++ cause.message
  | .corruptRecord expected actual =>
    "corrupt record: checksum 0x" ++ hexWord actual ++ " does not match stored 0x" ++
      hexWord expected
  | .truncatedRecord expected actual =>
    "truncated record: expected " ++ toString expected ++ " bytes, found " ++ toString actual
  | .endOfLog => "end of log"
  | .recordTooLarge field length =>
    field.name ++ " of " ++ toString length ++ " bytes does not fit in a log record"
  | .keyNotFound => "Key not found"
  | .emptyValue => "value must not be empty"
  | .corruptIndex fileId valuePos expected actual =>
    "corrupt index: segment " ++ toString fileId ++ " at offset " ++ toString valuePos ++
      " holds " ++ toString actual ++ " of " ++ toString expected ++ " value bytes"
  | .recoveryFailed cause => "recovery failed: " ++ cause.message
  | .closed => "engine is closed"
  | .config text => "Configuration error: " ++ text

/-- The ends of valid log data, clean or torn, which are no damage. -/
def isEndOfLog : Error → Bool
  | .endOfLog | .truncatedRecord _ _ => true
  | _ => false

/-- The messages of what lies behind an error, nearest first. -/
def sources : Error → List String
  | .io cause => [cause.message]
  | .recoveryFailed cause => cause.message :: cause.sources
  | _ => []

end Error

end LogStore
