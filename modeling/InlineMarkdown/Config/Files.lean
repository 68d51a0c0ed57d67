import InlineMarkdown.Config.Document
import InlineMarkdown.Storage

/-! Settings in files.

The user's settings are one file in a folder of the program's own. An override is
a file or, if there is no such file, the text of a settings document itself. -/
namespace InlineMarkdown.Config

/-- The folder of the program's settings below that of the user's. -/
def folderIn (home : Path) : Path := home.join "spanmark".toList

/-- The settings file in a folder. -/
def fileIn (folder : Path) : Path := folder.join "config.toml".toList

/-! ### Reading -/

def loadFrom (files : Files) (path : Path) : Except Failure Config := do
  let text ← (files.readText path).mapError .io
  ofDocument ("Parse error in " ++ String.ofList path) text

/-- The settings in the user's file, the defaults if there is none. -/
def load (files : Files) (path : Option Path) : Except Failure Config :=
  match path with
  | some path => if files.exists? path then loadFrom files path else .ok {}
  | none => .ok {}

/-- The settings that an override gives: those of the file at this path or, if there is
none, those in the text. -/
def readOverride (files : Files) (request : List Char) : Except Failure Config := do
  let text ← if files.isFile request then (files.readText request).mapError .io else .ok request
  ofDocument "Override parse error" text

def applyOverride (config : Config) (files : Files) (request : List Char) :
    Except Failure Config :=
  (readOverride files request).map config.merge

/-- The user's settings, and over them those of an override, if there is one. -/
def loadWithOverride (files : Files) (path : Option Path) (request : Option (List Char)) :
    Except Failure Config := do
  let config ← load files path
  match request with
  | some request => config.applyOverride files request
  | none => .ok config

/-! ### Writing -/

/-- Writes a text to a file. -/
def writeText (storage : Storage) (path : Path) (text : String) : Except Failure Storage :=
  (storage.write path text.toUTF8).mapError .io

def saveTo (config : Config) (storage : Storage) (path : Path) : Except Failure Storage :=
  writeText storage path config.toDocument

/-- Makes the settings file in a folder, and the folder, if they are not there yet.
Yields the path of the file, and the store with what could be made. -/
def ensureIn (storage : Storage) (folder : Path) : Except Failure Path × Storage :=
  match storage.createFolder folder with
  | (.error cause, storage) => (.error (.io cause), storage)
  | (.ok (), storage) =>
    let path := fileIn folder
    if storage.files.exists? path then (.ok path, storage)
    else match writeText storage path defaultDocument with
      | .ok storage => (.ok path, storage)
      | .error failure => (.error failure, storage)

end InlineMarkdown.Config
