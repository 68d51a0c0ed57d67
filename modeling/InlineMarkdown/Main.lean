import InlineMarkdown.CommandLine.Run

/-! The executable.

All that a run can ask of the world is read beforehand: the settings file, the path
that an override may be, the files that the arguments name, and standard input if
they name none. Then `CommandLine.run` decides what is printed. -/
namespace InlineMarkdown.Main
open CommandLine

/-- The number of an operating system error; some come negated. -/
def errorNumber (code : UInt32) : Nat :=
  if code.toNat < 0x80000000 then code.toNat else 0x100000000 - code.toNat

/-- The cause that an error of reading a file has. -/
def causeOf (error : IO.Error) : FileError :=
  let known (code : UInt32) (details : String) : FileError :=
    match errorNumber code with
    | 2 => .notFound
    | 13 => .other "Permission denied (os error 13)"
    | 17 => .alreadyExists
    | 20 => .notADirectory
    | 21 => .isADirectory
    | 36 => .nameTooLong
    | n => .other (details ++ " (os error " ++ toString n ++ ")")
  match error with
  | .noFileOrDirectory _ code details => known code details
  | .inappropriateType _ code details => known code details
  | .permissionDenied _ code details => known code details
  | .invalidArgument _ code details => known code details
  | .resourceExhausted _ code details => known code details
  | error => .other (toString error)

/-- What reading a path gives. -/
abbrev Observation : Type := Path × Except FileError ByteArray

def observe (path : Path) : IO Observation := do
  match ← (IO.FS.readBinFile (String.ofList path)).toBaseIO with
  | .ok content => return (path, .ok content)
  | .error error => return (path, .error (causeOf error))

/-- The files that have been observed. -/
def filesOf (observations : List Observation) : Files :=
  let result (path : Path) : Except FileError ByteArray :=
    (observations.lookup path).getD (.error .notFound)
  { exists? := fun path =>
      match result path with
      | .error .notFound | .error .notADirectory | .error .nameTooLong => false
      | _ => true
    isFile := fun path =>
      match result path with
      | .ok _ | .error (.other _) => true
      | _ => false
    read := result }

/-- The folder of the user's settings. -/
def configHome : IO (Option Path) := do
  let absolute (path : String) : Bool := path.startsWith "/"
  match ← IO.getEnv "XDG_CONFIG_HOME" with
  | some path => if absolute path then return some path.toList else fallback
  | none => fallback
where
  fallback : IO (Option Path) := do
    match ← IO.getEnv "HOME" with
    | some home =>
      return if home.isEmpty then none else some (Path.join home.toList ".config".toList)
    | none => return none

/-- All bytes of standard input. -/
partial def readInput (stream : IO.FS.Stream) (content : ByteArray) : IO ByteArray := do
  let bytes ← stream.read 65536
  if bytes.isEmpty then return content else readInput stream (content ++ bytes)

/-- Reads what a run with these arguments may ask for. -/
def look (arguments : Arguments) : IO Surroundings := do
  let configPath := (← configHome).map fun home => Config.fileIn (Config.folderIn home)
  if arguments.showPaths then return ⟨configPath, filesOf [], .empty⟩
  let paths := configPath.toList ++ arguments.override.toList ++ arguments.files
  let observations ← paths.mapM observe
  let input ← if arguments.files.isEmpty then readInput (← IO.getStdin) .empty else pure .empty
  return ⟨configPath, filesOf observations, input⟩

end InlineMarkdown.Main

open InlineMarkdown InlineMarkdown.CommandLine in
def main (args : List String) : IO UInt32 := do
  let arguments := args.map String.toList
  let around ← match Arguments.read arguments with
    | .ok known => Main.look known
    | .error _ => pure ⟨none, Main.filesOf [], .empty⟩
  let outcome := run around arguments
  (← IO.getStdout).putStr outcome.out
  (← IO.getStderr).putStr outcome.err
  return UInt32.ofNat outcome.code
