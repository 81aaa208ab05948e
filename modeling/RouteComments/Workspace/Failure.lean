import RouteComments.Path

set_option autoImplicit false

namespace RouteComments

/-- Why a file could not be reached, read or written. -/
inductive Fault where
  | notFound
  | notDirectory
  | isDirectory
  | notUtf8
  | nameTooLong
  /-- A path with a zero byte, which names no file. -/
  | zeroByte
  | denied
  deriving DecidableEq, Repr

def Fault.message : Fault → Text
  | .notFound => "No such file or directory (os error 2)".toList
  | .notDirectory => "Not a directory (os error 20)".toList
  | .isDirectory => "Is a directory (os error 21)".toList
  | .notUtf8 => "stream did not contain valid UTF-8".toList
  | .nameTooLong => "File name too long (os error 36)".toList
  | .zeroByte => "file name contained an unexpected NUL byte".toList
  | .denied => "permission denied".toList

inductive Failure where
  | read (path : Path) (fault : Fault)
  | write (path : Path) (fault : Fault)
  | walk (root : Path) (fault : Fault)
  | rejected (path : Path) (reason : Text)
  deriving DecidableEq, Repr

namespace Failure

/-- The reason for refusing operations out of order. -/
def unordered : Text :=
  "operations are not ordered bottom-to-top".toList

/-- The reason for refusing a relative path in an editor. -/
def notAbsolute : Text :=
  "not an absolute path".toList

/-- The wording of a fault met while walking a directory. -/
def walkMessage (root : Path) (fault : Fault) : Text :=
  "IO error for operation on ".toList ++ root.shown ++ ": ".toList ++ fault.message

def message : Failure → Text
  | .read path fault => "failed to read ".toList ++ path.shown ++ ": ".toList ++ fault.message
  | .write path fault => "failed to write ".toList ++ path.shown ++ ": ".toList ++ fault.message
  | .walk root fault => "failed to walk ".toList ++ root.shown ++ ": ".toList ++ walkMessage root fault
  | .rejected path reason => "edits rejected for ".toList ++ path.shown ++ ": ".toList ++ reason

/-- The wordings of a failure and of what caused it, outermost first. -/
def chain (failure : Failure) : List Text :=
  match failure with
  | .read _ fault => [failure.message, fault.message]
  | .write _ fault => [failure.message, fault.message]
  | .walk root fault => [failure.message, walkMessage root fault, fault.message]
  | .rejected _ _ => [failure.message]

end Failure

end RouteComments
