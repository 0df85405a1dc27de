import AsmCheck.Error

/-! # Files and the paths to them

    A volume is a working directory with what it holds.  A path is followed
    name by name: an empty name or a dot stays where it is, two dots go to the
    directory above, anything else goes down, and only a directory can be gone
    on from.  Of what lies above the working directory nothing is known but the
    directories on the way up. -/

namespace AsmCheck

/-- How the text of a file is come by. -/
abbrev Reader := String → Except ReadFailure String

/-- The text that the bytes of a file encode. -/
def decodeText (content : ByteArray) : Except ReadFailure String :=
  match String.fromUTF8? content with
  | some text => .ok text
  | none => .error .notText

/-- What stands under a name. -/
inductive Node where
  | file (content : ByteArray)
  | directory

/-- The files and directories below a working directory, by their paths; of two with one path the
    later counts.  The directories on the way to a file are there as well. -/
abbrev Volume := List (String × Node)

/-- Where a path leads to. -/
inductive Place where
  /-- A directory above the working directory. -/
  | above
  /-- The working directory, or the directory that the names lead down to from it. -/
  | inside (names : List String)
  | file (content : ByteArray)

namespace Place

/-- The directory above a directory; at the top that is the directory itself. -/
def parent : Place → Place
  | .inside [] => .above
  | .inside names => .inside names.dropLast
  | place => place

end Place

/-- The names in a path, which slashes separate. -/
def pathNames (path : String) : List String :=
  (path.toList.splitOn '/').map String.ofList

/-- Whether a name in a path stays where it is. -/
def staysPut (name : String) : Bool :=
  name == "" || name == "."

/-- The greatest length of a name, in bytes. -/
def nameLimit : Nat := 255

/-- The greatest length of a path, in bytes. -/
def pathLimit : Nat := 4095

namespace Volume

/-- What the names lead down to from the working directory. -/
def find (v : Volume) (names : List String) : Except ReadFailure Place :=
  let way (path : String) : List String := (pathNames path).filter fun n => !staysPut n
  match v.reverse.find? fun e => way e.1 == names with
  | some (_, .file content) => .ok (.file content)
  | some (_, .directory) => .ok (.inside names)
  | none =>
    if v.any fun e => names.isPrefixOf (way e.1) then .ok (.inside names) else .error .notFound

/-- Follows one name of a path. -/
def step (v : Volume) (place : Place) (name : String) : Except ReadFailure Place :=
  match place with
  | .file _ => .error .notDirectory
  | _ =>
    if staysPut name then .ok place
    else if name = ".." then .ok place.parent
    else if nameLimit < name.utf8ByteSize then .error .nameTooLong
    else
      match place with
      | .inside names => v.find (names ++ [name])
      | _ => .error .notFound

/-- Follows a path: from the top if it starts with a slash, else from the working directory. -/
def follow (v : Volume) (path : String) : Except ReadFailure Place :=
  if path.toList.contains '\x00' then .error .nulInName
  else if path = "" then .error .notFound
  else if pathLimit < path.utf8ByteSize then .error .nameTooLong
  else
    match pathNames path with
    | "" :: names => names.foldlM v.step .above
    | names => names.foldlM v.step (.inside [])

/-- The text of a file. -/
def readText (v : Volume) : Reader := fun path =>
  match v.follow path with
  | .error why => .error why
  | .ok (.file content) => decodeText content
  | .ok _ => .error .isDirectory

end Volume

end AsmCheck
