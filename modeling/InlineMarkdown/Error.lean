/-! Failures of the program around the parser: files and configuration.

A failure is a cause; the wording is in `message`. -/
namespace InlineMarkdown

/-- Why a file could not be read or written. -/
inductive FileError where
  | notFound
  | alreadyExists
  | notADirectory
  | isADirectory
  | nameTooLong
  | nulInName
  | invalidUtf8
  | other (message : String)
deriving DecidableEq, Repr

def FileError.message : FileError → String
  | notFound => "No such file or directory (os error 2)"
  | alreadyExists => "File exists (os error 17)"
  | notADirectory => "Not a directory (os error 20)"
  | isADirectory => "Is a directory (os error 21)"
  | nameTooLong => "File name too long (os error 36)"
  | nulInName => "file name contained an unexpected NUL byte"
  | invalidUtf8 => "stream did not contain valid UTF-8"
  | other message => message

/-- Why a configuration was refused. -/
inductive ConfigError where
  /-- The settings in the named place are not well formed. -/
  | malformed (place : String)
  | unknownFormat (name : String)
  | other (message : String)
deriving DecidableEq, Repr

def ConfigError.message : ConfigError → String
  | malformed place => place ++ ": TOML parse error"
  | unknownFormat name => "Unknown output format: " ++ name
  | other message => message

inductive Failure where
  | io (cause : FileError)
  | config (cause : ConfigError)
  | parse (message : String)
deriving DecidableEq, Repr

def Failure.message : Failure → String
  | io cause => "IO error: " ++ cause.message
  | config cause => "Configuration error: " ++ cause.message
  | parse message => "Parse error: " ++ message

end InlineMarkdown
