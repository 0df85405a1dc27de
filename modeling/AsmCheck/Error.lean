import AsmCheck.Config

/-! # Errors

    The reasons why there is nothing to report, each with its wording. -/

namespace AsmCheck

/-- Why a file cannot be read. -/
inductive ReadFailure where
  | notFound
  | isDirectory
  /-- The path goes on from a file. -/
  | notDirectory
  | nameTooLong
  /-- The path holds a character that no name can. -/
  | nulInName
  /-- Its bytes are no UTF-8 text. -/
  | notText
  /-- The system gives another reason. -/
  | other (reason : String)
deriving DecidableEq, Repr

namespace ReadFailure

/-- The wording of the failure. -/
def message : ReadFailure → String
  | .notFound => "No such file or directory (os error 2)"
  | .isDirectory => "Is a directory (os error 21)"
  | .notDirectory => "Not a directory (os error 20)"
  | .nameTooLong => "File name too long (os error 36)"
  | .nulInName => "file name contained an unexpected NUL byte"
  | .notText => "stream did not contain valid UTF-8"
  | .other reason => reason

end ReadFailure

/-- Why a request cannot be answered. -/
inductive Error where
  | config (why : ConfigError)
  | read (path : String) (why : ReadFailure)
  | unknownDocument (uri : String)
deriving DecidableEq, Repr

namespace Error

/-- The wording of the error. -/
def message : Error → String
  | .config why => "Invalid configuration: " ++ why.message
  | .read path why => "Cannot read " ++ path ++ ": " ++ why.message
  | .unknownDocument uri => "Unknown document: " ++ uri

end Error

end AsmCheck
