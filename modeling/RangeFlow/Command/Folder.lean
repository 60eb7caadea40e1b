/-! # A folder of files

A path leads from the folder to one of its files. There are no folders within. -/

namespace RangeFlow.Command

/-- Why a path leads to no file. -/
inductive PathError
  | missing
  /-- The path leads to a folder. -/
  | isFolder
  /-- The path goes on after a file. -/
  | notFolder
  /-- A part of the path is longer than a name can be. -/
  | tooLong
  /-- The path has a character that no name can have. -/
  | badName
deriving DecidableEq, Repr

def PathError.message : PathError → String
  | .missing => "no such file"
  | .isFolder => "is a folder"
  | .notFolder => "not a folder"
  | .tooLong => "name too long"
  | .badName => "not a name"

/-- The files of a folder, each with its name and its text. -/
structure Folder where
  files : List (String × String)
deriving DecidableEq, Repr

namespace Folder

def text? (f : Folder) (name : String) : Option String := f.files.lookup name

def hasFile (f : Folder) (name : String) : Bool := (f.text? name).isSome

/-- The name that the parts of a path lead to. An empty part, or a single point, stays in the
folder. A name with nothing but an empty part after it is that of a folder, if it is to be new. -/
def walk (f : Folder) (isNew : Bool) : List String → Except PathError String
  | [] => .error .isFolder
  | [name] => if name ∈ ["", ".", ".."] then .error .isFolder else .ok name
  | name :: rest =>
    if name ∈ ["", "."] then f.walk isNew rest
    else if name = ".." then
      .error (if rest.all (· ∈ ["", ".", ".."]) then .isFolder else .missing)
    else if f.hasFile name then .error .notFolder
    else .error (if isNew && rest.all String.isEmpty then .isFolder else .missing)

/-- The name that a path leads to. A path from elsewhere is not looked into. -/
def resolve (f : Folder) (isNew : Bool) (path : String) : Except PathError String :=
  let parts := path.splitOn "/"
  if f.hasFile path then .ok path
  else if path.isEmpty then .error .missing
  else if path.contains '\x00' then .error .badName
  else if parts.any fun name => 255 < name.utf8ByteSize then .error .tooLong
  else if path.startsWith "/" then
    .error (if parts.all (· ∈ ["", ".", ".."]) then .isFolder else .missing)
  else f.walk isNew parts

def read (f : Folder) (path : String) : Except PathError String := do
  match f.text? (← f.resolve false path) with
  | some text => return text
  | none => throw .missing

/-- The name of the file that is written at a path. -/
def target (f : Folder) (path : String) : Except PathError String := f.resolve true path

end Folder

end RangeFlow.Command
