import InlineMarkdown.Error
import InlineMarkdown.Text.Basic
import InlineMarkdown.Source.Position

/-! Files and folders.

A store is a tree of folders with files at its leaves. A path is read from the top
of the store, with or without a slash before it, one name at a time. A single dot
stays where it is and two dots go up. What a path leads to is a `Target`: a folder
that is there, or a name in one; every name before the last has to be a folder. What
may be at the last name differs from one operation to the other. -/
namespace InlineMarkdown

abbrev Path : Type := List Char

inductive Entry where
  | file (content : ByteArray)
  | folder (entries : List (List Char × Entry))

/-- What readers of files can ask. -/
structure Files where
  /-- There is a file or folder at this path. -/
  exists? : Path → Bool
  /-- There is a file at this path. -/
  isFile : Path → Bool
  read : Path → Except FileError ByteArray

/-- The text of a file. -/
def Files.readText (files : Files) (path : Path) : Except FileError (List Char) := do
  let content ← files.read path
  match String.fromUTF8? content with
  | some text => .ok text.toList
  | none => .error .invalidUtf8

namespace Entry

/-! ### Below an entry -/

/-- What has this name in a folder. -/
def child? (name : List Char) : Entry → Option Entry
  | file _ => none
  | folder entries => entries.lookup name

/-- What is at the end of these names. -/
def descend? : (names : List (List Char)) → Entry → Option Entry
  | [], entry => some entry
  | name :: names, entry => (entry.child? name).bind (descend? names)

def isFolder : Entry → Bool
  | folder _ => true
  | file _ => false

/-- The folder with `new` under a name, in place of what had that name. -/
def put (entry : Entry) (name : List Char) (new : Entry) : Entry :=
  match entry with
  | file content => file content
  | folder entries =>
    if (entries.lookup name).isSome then
      folder (entries.map fun (other, old) => (other, if other = name then new else old))
    else folder (entries ++ [(name, new)])

/-- The entry with `new` at the end of these names; the folders before the last name
have to be there. -/
def putAt : (entry : Entry) → (names : List (List Char)) → (new : Entry) → Entry
  | _, [], new => new
  | entry, [name], new => entry.put name new
  | entry, name :: names, new =>
    match entry.child? name with
    | some inner => entry.put name (putAt inner names new)
    | none => entry

end Entry

/-! ### Paths -/

/-- The path of `name` in the folder at `path`. -/
def Path.join (path name : Path) : Path :=
  if path = [] || path.getLast? = some '/' then path ++ name else path ++ '/' :: name

/-- The longest name and the length from which on a path is too long, in bytes. -/
def nameLimit : Nat := 255
def pathLimit : Nat := 4096

/-- What stands between the slashes of a path. -/
def Path.parts (path : Path) : Except FileError (List (List Char)) :=
  if path.contains '\x00' then .error .nulInName
  else if path = [] then .error .notFound
  else if pathLimit ≤ byteLength path then .error .nameTooLong
  else .ok (splitWhere (· == '/') path)

/-- A part that stays where it is. -/
def staysHere (part : List Char) : Bool := part = [] || part = ['.']

/-- The paths of a folder and of those above it, from the last part of the first one
up. Dots and slashes at the end of a path do not count. -/
def foldersUp : (reversed : List (List Char)) → List (List (List Char))
  | [] => []
  | part :: above =>
    if staysHere part then foldersUp above else (part :: above).reverse :: foldersUp above

/-- What the parts of a path lead to. -/
inductive Target where
  /-- The folder at the end of these names. -/
  | folder (names : List (List Char))
  /-- A name in the folder at the end of these names, whether it is there or not. The
  last flag tells that a slash follows. -/
  | name (folder : List (List Char)) (name : List Char) (slash : Bool)

namespace Entry

/-- Goes from the folder at the end of `here` through folders only. -/
def enter (top : Entry) : (here parts : List (List Char)) → Except FileError (List (List Char))
  | here, [] => .ok here
  | here, part :: parts =>
    if staysHere part then enter top here parts
    else if part = ['.', '.'] then enter top here.dropLast parts
    else if nameLimit < byteLength part then .error .nameTooLong
    else match top.descend? (here ++ [part]) with
      | none => .error .notFound
      | some (file _) => .error .notADirectory
      | some (folder _) => enter top (here ++ [part]) parts

/-- What the parts lead to. -/
def target (top : Entry) (parts : List (List Char)) : Except FileError Target :=
  match parts.reverse.dropWhile (· = []) with
  | [] => .ok (.folder [])
  | last :: before =>
    if last = ['.'] || last = ['.', '.'] then (top.enter [] parts).map .folder
    else (top.enter [] before.reverse).map (.name · last (parts.getLast? = some []))

/-- What has this name in the folder at the end of `names`. -/
def named (top : Entry) (names : List (List Char)) (name : List Char) :
    Except FileError (Option Entry) :=
  if nameLimit < byteLength name then .error .nameTooLong
  else .ok (top.descend? (names ++ [name]))

/-- The entry that the parts lead to. A slash follows folders only. -/
def find (top : Entry) (parts : List (List Char)) : Except FileError Entry := do
  match ← top.target parts with
  | .folder names => (top.descend? names).elim (.error .notFound) .ok
  | .name names name slash =>
    match ← top.named names name with
    | none => .error .notFound
    | some (file content) => if slash then .error .notADirectory else .ok (file content)
    | some (folder entries) => .ok (folder entries)

/-- Puts a file where the parts lead to, in place of the one that was there. -/
def putFile (top : Entry) (parts : List (List Char)) (content : ByteArray) :
    Except FileError Entry := do
  match ← top.target parts with
  | .folder _ | .name _ _ true => .error .isADirectory
  | .name names name false =>
    match ← top.named names name with
    | some (folder _) => .error .isADirectory
    | _ => .ok (top.putAt (names ++ [name]) (file content))

/-- Puts an empty folder where the parts lead to nothing. -/
def putFolder (top : Entry) (parts : List (List Char)) : Except FileError Entry := do
  match ← top.target parts with
  | .folder _ => .error .alreadyExists
  | .name names name _ =>
    match ← top.named names name with
    | some _ => .error .alreadyExists
    | none => .ok (top.putAt (names ++ [name]) (folder []))

/-- Puts an empty folder unless there is one. -/
def keepFolder (top : Entry) (parts : List (List Char)) : Except FileError Entry :=
  match top.putFolder parts, top.find parts with
  | .error .alreadyExists, .ok (folder _) => .ok top
  | result, _ => result

/-- Puts the first of these folders unless it is there; if the way to it is not there,
puts the others before. What has been put stays, even when a later one cannot be
put. -/
def putFolders (top : Entry) : List (List (List Char)) → Except FileError Unit × Entry
  | [] => (.ok (), top)
  | parts :: above =>
    match top.keepFolder parts with
    | .ok top => (.ok (), top)
    | .error .notFound =>
      match putFolders top above with
      | (.error cause, top) => (.error cause, top)
      | (.ok (), top) =>
        match top.keepFolder parts with
        | .ok top => (.ok (), top)
        | .error cause => (.error cause, top)
    | .error cause => (.error cause, top)

end Entry

/-! ### The store -/

/-- A tree of folders. -/
structure Storage where
  top : Entry

namespace Storage

def find (storage : Storage) (path : Path) : Except FileError Entry := do
  storage.top.find (← path.parts)

def read (storage : Storage) (path : Path) : Except FileError ByteArray := do
  match ← storage.find path with
  | .file content => .ok content
  | .folder _ => .error .isADirectory

def files (storage : Storage) : Files where
  exists? path := (storage.find path).toOption.isSome
  isFile path := (storage.find path).toOption.any (!·.isFolder)
  read := storage.read

/-- Writes a file, new or in place of an old one, in a folder that is there. -/
def write (storage : Storage) (path : Path) (content : ByteArray) : Except FileError Storage := do
  return ⟨← storage.top.putFile (← path.parts) content⟩

/-- Makes a folder and those above it that are not there yet. The store that is left
has what could be made. -/
def createFolder (storage : Storage) (path : Path) : Except FileError Unit × Storage :=
  if path = [] then (.ok (), storage)
  else match path.parts with
    | .error cause => (.error cause, storage)
    | .ok parts =>
      let (result, top) := storage.top.putFolders (parts :: (foldersUp parts.reverse).tail)
      (result, ⟨top⟩)

end Storage
end InlineMarkdown
