/-!
A directory of files. Reading a text and writing one fail for the reasons that are listed here, and
a failure changes nothing.
-/
namespace ContentSchema

inductive FileFault where
  | missing
  | notText
  | isDirectory
  | notDirectory
  | nameTooLong
  | other (message : String)
deriving DecidableEq

namespace FileFault

def message : FileFault → String
  | missing => "No such file or directory (os error 2)"
  | notText => "stream did not contain valid UTF-8"
  | isDirectory => "Is a directory (os error 21)"
  | notDirectory => "Not a directory (os error 20)"
  | nameTooLong => "File name too long (os error 36)"
  | other text => text

/-- The text that the bytes of a file are in UTF-8. -/
def decode (bytes : ByteArray) : Except FileFault String :=
  match String.fromUTF8? bytes with
  | some text => .ok text
  | none => .error notText

end FileFault

/-- The files of a directory without further directories in it. -/
structure Directory where
  files : List (String × ByteArray)

namespace Directory

/-- What a path leads to. -/
inductive Target where
  | file (name : String)
  /-- A name that a slash behind it marks as the name of a directory. -/
  | folder (name : String)
  | fault (f : FileFault)

/-- The most bytes that the name of a file has. -/
def maxNameSize : Nat := 255

/-- Why the name is not that of a directory. -/
def obstacle (d : Directory) (name : String) : FileFault :=
  if (d.files.lookup name).isSome then .notDirectory
  else if maxNameSize < name.utf8ByteSize then .nameTooLong
  else .missing

/-- Steps that stay where they are count for nothing, but a path that ends in one asks for a
directory. Outside the directory there are directories only. -/
def target (d : Directory) (path : String) : Target :=
  let steps := path.splitOn "/"
  let moves := steps.filter fun step => step ≠ "" ∧ step ≠ "."
  if path = "" then .fault .missing
  else if moves.all (· = "..") then .fault .isDirectory
  else if steps.head? = some "" then .fault .missing
  else match moves with
    | [] => .fault .isDirectory
    | [name] =>
      if steps.getLast? = some name then .file name
      else if (steps.reverse.dropWhile (· = "")).head? = some name then .folder name
      else .fault (d.obstacle name)
    | name :: _ => .fault (d.obstacle name)

def read (d : Directory) (path : String) : Except FileFault String :=
  match d.target path with
  | .fault f => .error f
  | .folder name => .error (d.obstacle name)
  | .file name =>
    match d.files.lookup name with
    | some bytes => FileFault.decode bytes
    | none => .error (d.obstacle name)

/-- Gives the file the content, in its old place if it is there already. -/
def put (name : String) (bytes : ByteArray) : List (String × ByteArray) → List (String × ByteArray)
  | [] => [(name, bytes)]
  | file :: files =>
    if file.1 = name then (name, bytes) :: files else file :: put name bytes files

def write (d : Directory) (path text : String) : Except FileFault Directory :=
  match d.target path with
  | .fault f => .error f
  | .folder _ => .error .isDirectory
  | .file name =>
    if maxNameSize < name.utf8ByteSize then .error .nameTooLong
    else .ok ⟨put name text.toUTF8 d.files⟩

end Directory

end ContentSchema
