/-!
# Files and the folder they are in

What reading a file gives, and how a path finds its file in a folder of files.

A path is read from left to right, and its parts are divided by slashes. An empty part and a dot
stay in the folder, two dots lead to the folder above, and any other part is a name. Of the
folders above the given one nothing is known, except that they are there.

## Main definitions

* `ClassLang.ReadFault` is why a file cannot be read.
* `ClassLang.Folder.read` is the content of the file that a path leads to.
-/

namespace ClassLang

/-- Why the text of a file cannot be had. -/
inductive ReadFault where
  /-- There is no such file. -/
  | missing
  /-- The path goes on after the name of a file. -/
  | throughFile
  /-- The path leads to a folder. -/
  | isFolder
  /-- The path, or a part of it, has too many bytes. -/
  | tooLong
  /-- The path has a null character in it. -/
  | nullCharacter
  /-- The file is no UTF-8 text. -/
  | notText
  /-- Any other reason that the system gives. -/
  | refused (reason : String)
deriving DecidableEq, Repr

/-- How a fault is reported. -/
def ReadFault.message : ReadFault → String
  | missing => "No such file or directory (os error 2)"
  | throughFile => "Not a directory (os error 20)"
  | isFolder => "Is a directory (os error 21)"
  | tooLong => "File name too long (os error 36)"
  | nullCharacter => "file name contained an unexpected NUL byte"
  | notText => "stream did not contain valid UTF-8"
  | refused reason => reason

/-- What reading a file gave: its text, or why there is none. -/
abbrev FileContent := Except ReadFault String

/-- The content of a file, from its bytes. -/
def FileContent.ofBytes (bytes : ByteArray) : FileContent :=
  match String.fromUTF8? bytes with
  | some source => .ok source
  | none => .error .notText

/-- A folder of files. The way to a file is the list of the folders that it is in, and its name. -/
structure Folder where
  /-- The files by the way to them. -/
  files : List (List String × FileContent)

namespace Folder

/-- The most bytes that the name of a file has. -/
def maxNameBytes : Nat := 255

/-- The most bytes that a path has. -/
def maxPathBytes : Nat := 4095

/-- The parts of a path. -/
def parts (path : String) : List String := path.splitOn "/"

/-- The folder of the files with the given paths. -/
def ofPaths (files : List (String × FileContent)) : Folder :=
  { files := files.map fun (path, content) => (parts path, content) }

/-- Where the parts of a path that are read so far lead. -/
inductive Place where
  /-- Some folder above. -/
  | above
  /-- The folder that is reached by this way. -/
  | folder (way : List String)
  /-- A file with this content. -/
  | file (content : FileContent)

/-- Go down by a name from the folder that is reached by `way`. -/
def enter (f : Folder) (way : List String) (name : String) : Except ReadFault Place :=
  let way := way ++ [name]
  match f.files.lookup way with
  | some content => .ok (.file content)
  | none =>
    if f.files.any fun (other, _) => way.isPrefixOf other then .ok (.folder way)
    else .error .missing

/-- Go on from a place by one part of a path. -/
def step (f : Folder) (place : Place) (part : String) : Except ReadFault Place :=
  match place with
  | .file _ => .error .throughFile
  | .above =>
    if part = "" || part = "." || part = ".." then .ok .above
    else if maxNameBytes < part.utf8ByteSize then .error .tooLong
    else .error .missing
  | .folder way =>
    if part = "" || part = "." then .ok (.folder way)
    else if part = ".." then .ok (if way.isEmpty then .above else .folder way.dropLast)
    else if maxNameBytes < part.utf8ByteSize then .error .tooLong
    else f.enter way part

/-- The place that a path leads to. A path that begins with a slash starts above. -/
def find (f : Folder) (path : String) : Except ReadFault Place :=
  (parts path).foldlM f.step (if path.startsWith "/" then .above else .folder [])

/-- **The content of the file** that a path leads to. -/
def read (f : Folder) (path : String) : FileContent :=
  if path = "" then .error .missing
  else if path.contains '\x00' then .error .nullCharacter
  else if maxPathBytes < path.utf8ByteSize then .error .tooLong
  else match f.find path with
    | .error fault => .error fault
    | .ok (.file content) => content
    | .ok _ => .error .isFolder

end Folder

end ClassLang
