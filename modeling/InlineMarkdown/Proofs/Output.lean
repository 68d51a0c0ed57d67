import InlineMarkdown.CommandLine.Run
import InlineMarkdown.Proofs.Clean

/-! What a run over files prints.

A file adds a page to what is printed and lines to the log, and nothing else goes from one file to
the next (`processFiles_eq`): one that cannot be read has no page, and its lines say so. A parse of
Markdown records no diagnostics, so none are printed, and the only way for a run to fail is a file
that cannot be read. What a run prints is thus told file by file (`run_files`). -/
namespace InlineMarkdown.CommandLine

/-! ### Printing -/

/-- What is shown of a log where lines below a level are left out. -/
def shown (level : Level) (log : List LogLine) : String :=
  String.join ((log.filter fun line => level.rank ≤ line.level.rank).map (·.display ++ "\n"))

theorem shown_append (level : Level) (first second : List LogLine) :
    shown level (first ++ second) = shown level first ++ shown level second := by
  simp only [shown, List.filter_append, List.map_append, String.join_append]

namespace Printer
variable {printer : Printer}

/-- The printer once more is printed and logged. -/
def put (printer : Printer) (out : List Char) (log : List LogLine) : Printer :=
  { printer with
    out := printer.out ++ String.ofList out
    err := printer.err ++ shown printer.level log }

theorem put_nil (printer : Printer) : printer.put [] [] = printer := by
  simp [put, shown]

theorem put_put (printer : Printer) (first second : List Char) (log more : List LogLine) :
    (printer.put first log).put second more = printer.put (first ++ second) (log ++ more) := by
  simp only [put, String.ofList_append, shown_append, String.append_assoc]

theorem log_eq (printer : Printer) (line : LogLine) : printer.log line = printer.put [] [line] := by
  by_cases hlevel : printer.level.rank ≤ line.level.rank
  · simp [log, put, shown, hlevel, String.append_assoc]
  · simp [log, put, shown, hlevel]

theorem say_eq (printer : Printer) (level : Level) (message : String) :
    printer.say level message = printer.put [] [⟨level, "spanmark", message⟩] :=
  printer.log_eq _

/-- A run that has put out nothing but this leaves it behind. -/
theorem exit_put (level : Level) (out : List Char) (log : List LogLine) (code : Nat) :
    (({ level } : Printer).put out log).exit code = ⟨code, String.ofList out, shown level log⟩ := by
  simp only [exit, put, String.empty_append]

theorem foldl_log (printer : Printer) (events : List Event) :
    events.foldl (fun printer event => printer.log event.line) printer =
      printer.put [] (events.map Event.line) := by
  induction events generalizing printer with
  | nil => exact printer.put_nil.symm
  | cons event events ih =>
    rw [List.foldl_cons, ih, log_eq, put_put]
    rfl

end Printer

/-! ### One text -/

/-- What is printed of a text: the document it is, in the format asked for, with a line end. -/
def page (config : Config) (text : List Char) : List Char :=
  endLine (render config.output (parseMarkdown text config.features).root)

/-- What is logged while a text is parsed. -/
def parseLog (config : Config) (text : List Char) : List LogLine :=
  (parseMarkdown text config.features).events.map Event.line

theorem process_eq (config : Config) (name : String) (text : List Char) (printer : Printer) :
    process config name text printer =
      (true, printer.put (page config text) (parseLog config text)) := by
  have hproblems : (if config.output.diagnostics then
      String.join ((parseMarkdown text config.features).diagnostics.map
        fun d => name ++ ":" ++ d.display ++ "\n") else "") = "" := by
    rw [diagnostics_parseMarkdown, List.map_nil, String.join_nil, ite_self]
  have hfatal : (parseMarkdown text config.features).isFatal = false := by
    rw [Parsed.isFatal, diagnostics_parseMarkdown, List.any_nil]
  unfold process
  simp only [hproblems, hfatal, Printer.foldl_log, String.append_empty]
  simp [Printer.put, page, parseLog]

/-! ### Files -/

/-- The texts of the files that can be read. -/
def texts (files : Files) (paths : List Path) : List (List Char) :=
  paths.filterMap fun path => (files.readText path).toOption

/-- What is logged while a file is processed. -/
def fileLog (files : Files) (config : Config) (path : Path) : List LogLine :=
  ⟨.info, "spanmark", "Processing file: " ++ String.ofList path⟩ ::
    match files.readText path with
    | .ok text => parseLog config text
    | .error cause =>
      [⟨.error, "spanmark", "Failed to read " ++ String.ofList path ++ ": " ++ cause.message⟩]

/-- Files are processed independently: each puts out its page, if it has one, and its log. -/
theorem processFiles_eq (files : Files) (config : Config) (paths : List Path) (printer : Printer) :
    processFiles files config paths printer =
      (paths.all fun path => (files.readText path).isOk,
        printer.put ((texts files paths).flatMap (page config))
          (paths.flatMap (fileLog files config))) := by
  induction paths generalizing printer with
  | nil => exact congrArg (true, ·) printer.put_nil.symm
  | cons path paths ih =>
    unfold processFiles texts fileLog
    rw [List.all_cons, List.flatMap_cons, List.filterMap_cons]
    cases hread : files.readText path with
    | ok text =>
      simp only [process_eq, Printer.say_eq, Printer.put_put, ih]
      rfl
    | error cause =>
      simp only [Printer.say_eq, Printer.put_put, ih]
      rfl

/-! ### Runs -/

/-- The settings of a run before the arguments that change single ones: the user's, and over them
those of an override, if there is one. -/
def settings (around : Surroundings) (arguments : Arguments) : Except Failure Config :=
  let user := (Config.load around.files around.configPath).toOption.getD {}
  match arguments.override with
  | none => .ok user
  | some request => user.applyOverride around.files request

/-- What is logged before the first file. -/
def openingLog (arguments : Arguments) (config : Config) : List LogLine :=
  let merged := match arguments.override with
    | none => []
    | some _ => [⟨.debug, "spanmark", "Merged config override"⟩]
  ⟨.info, "spanmark", "Spanmark v" ++ version⟩ ::
    merged ++ [⟨.debug, "spanmark", "Effective config: " ++ config.describe⟩]

theorem runWith_eq {around : Surroundings} {arguments : Arguments} {config : Config}
    (hpaths : arguments.showPaths = false) (hsettings : settings around arguments = .ok config) :
    runWith around arguments =
      processAll around arguments (arguments.applyTo config)
        (({ level := arguments.logLevel } : Printer).put []
          (openingLog arguments (arguments.applyTo config))) := by
  unfold settings at hsettings
  unfold runWith openingLog
  rw [hpaths]
  cases hoverride : arguments.override with
  | none =>
    rw [hoverride] at hsettings
    obtain rfl := Except.ok.inj hsettings
    simp only [Printer.say_eq, Printer.put_put]
    rfl
  | some request =>
    rw [hoverride] at hsettings
    simp only [hsettings, Except.map, Printer.say_eq, Printer.put_put]
    rfl

/-- A run over files prints the documents of those that can be read, one behind the other, each as
if it were the only one, and succeeds if all of them can be read. What it prints besides is its log
and nothing else, for no parse has anything to say against a text. -/
theorem run_files {around : Surroundings} {args : List (List Char)} {arguments : Arguments}
    {config : Config} (hread : Arguments.read args = .ok arguments)
    (hpaths : arguments.showPaths = false) (hfiles : arguments.files ≠ [])
    (hsettings : settings around arguments = .ok config) :
    let effective := arguments.applyTo config
    run around args =
        { code := if arguments.files.all fun path => (around.files.readText path).isOk then 0 else 1
          out := String.ofList ((texts around.files arguments.files).flatMap fun text =>
            endLine (render effective.output (parseMarkdown text effective.features).root))
          err := shown arguments.logLevel (openingLog arguments effective ++
            arguments.files.flatMap (fileLog around.files effective)) } ∧
      ∀ text, (parseMarkdown text effective.features).diagnostics = [] := by
  intro effective
  refine ⟨?_, fun text => diagnostics_parseMarkdown text _⟩
  have hnonempty : ¬ arguments.files.isEmpty = true := by simpa using hfiles
  unfold run
  rw [hread]
  dsimp only
  rw [runWith_eq hpaths hsettings]
  unfold processAll
  rw [if_neg hnonempty, processFiles_eq, Printer.put_put, List.nil_append]
  exact Printer.exit_put ..

/-- A file between two others that is not there. -/
theorem run_files_gone :
    let contents : List (Path × Except FileError ByteArray) :=
      [("a.md".toList, .ok "*a*".toUTF8), ("b.md".toList, .ok "[b](c)\n".toUTF8)]
    let files : Files :=
      { exists? := fun _ => false
        isFile := fun _ => false
        read := fun path => (contents.lookup path).getD (.error .notFound) }
    let args := ["-f", "text", "a.md", "gone.md", "b.md"].map String.toList
    run ⟨none, files, .empty⟩ args = ⟨1, "a\nb\n",
      "[ERROR] spanmark: Failed to read gone.md: No such file or directory (os error 2)\n"⟩ := by
  intro contents files args
  let arguments : Arguments :=
    { files := ["a.md", "gone.md", "b.md"].map String.toList, format := some .text }
  have hread : Arguments.read args = .ok arguments := rfl
  have hsettings : settings ⟨none, files, .empty⟩ arguments = .ok {} := rfl
  have hrun := (run_files hread rfl (List.cons_ne_nil _ _) hsettings).1
  exact hrun.trans (by decide +kernel)

end InlineMarkdown.CommandLine
