import LoxLang.Cli.Command
import LoxLang.Proofs.Cli.Directory
import LoxLang.Proofs.Document.Parsed
import LoxLang.Proofs.Session.Joined
/-!
# A script and its document

Running the document of a script is running the script: the two commands answer with the same texts,
the same trace and the same ending, whatever the level, the clock and the bound on the depth of
computations. So neither loses anything of the program, and neither ends where the other does not.
-/

namespace LoxLang.Cli

/-! ### Levels on the command line -/

/-- An option that raises the level by one more than the given number. -/
def verboseArgument (n : Nat) : String := String.ofList ('-' :: 'v' :: List.replicate n 'v')

/-- The level that such options ask for together. -/
def levelOf (ns : List Nat) : Nat := (ns.map (· + 1)).sum

theorem classify_verboseArgument (n : Nat) :
    classify (verboseArgument n) = .letters .verbose (List.replicate n 'v') := by
  have hflag : Flag.ofSpelling? ['-', 'v'] = some .verbose := by decide
  rw [classify, verboseArgument, String.toList_ofList]
  cases n with
  | zero => simp [shortArgument, hflag]
  | succ n => simp [shortArgument, hflag, List.replicate_succ]

theorem letterFlags_replicate (n : Nat) :
    letterFlags .verbose (List.replicate n 'v') = .ok (List.replicate (n + 1) .verbose) := by
  have hflag : Flag.ofSpelling? ['-', 'v'] = some .verbose := by decide
  induction n with
  | zero => rfl
  | succ n ih =>
    rw [List.replicate_succ, letterFlags, hflag]
    simp [ih, List.replicate_succ]

theorem ne_dashes {argument : String} (h : classify argument ≠ .ambiguous) : argument ≠ "--" := by
  rintro rfl
  exact h (by decide +kernel)

namespace Options

theorem foldlM_raiseFlag (n : Nat) (options : Options) :
    (List.replicate n Flag.verbose).foldlM (fun options flag => options.raiseFlag flag) options =
      .ok { options with verbosity := options.verbosity + n } := by
  induction n generalizing options with
  | zero => rfl
  | succ n ih =>
    have hone : options.raiseFlag .verbose = .ok { options with verbosity := options.verbosity + 1 } := rfl
    rw [List.replicate_succ, List.foldlM_cons, hone]
    refine (ih _).trans ?_
    simp only [Nat.add_assoc, Nat.add_comm 1 n]

theorem readFrom_verbose (ns : List Nat) (rest : List String) (options : Options) :
    readFrom false (ns.map verboseArgument ++ rest) options =
      readFrom false rest { options with verbosity := options.verbosity + levelOf ns } := by
  induction ns generalizing options with
  | nil => rfl
  | cons n ns ih =>
    have hdashes : verboseArgument n ≠ "--" := ne_dashes (by simp [classify_verboseArgument])
    rw [List.map_cons, List.cons_append, readFrom, if_neg hdashes]
    simp only [classify_verboseArgument, letterFlags_replicate, foldlM_raiseFlag]
    refine (ih _).trans ?_
    simp only [levelOf, List.map_cons, List.sum_cons, Nat.add_assoc]

theorem readFrom_positional {name : String} (h : classify name = .positional) (options : Options) :
    readFrom false [name] options = .ok (options.place name) := by
  rw [readFrom, if_neg (ne_dashes (by simp [h])), h]
  rfl

theorem readFrom_value {spelling value : String} {flag : Flag} (hflag : flag.takesValue = true)
    (hspelling : classify spelling = .option flag none) (hvalue : classify value = .positional) (options : Options) :
    readFrom false [spelling, value] options = options.setValue flag value := by
  have hdashes : value ≠ "--" := ne_dashes (by simp [hvalue])
  rw [readFrom, if_neg (ne_dashes (by simp [hspelling])), hspelling]
  simp only [hflag, if_true, if_pos (And.intro hdashes hvalue)]
  cases options.setValue flag value <;> rfl

theorem read_of_readFrom {arguments : List String} {options : Options}
    (hclear : ∀ argument ∈ arguments, classify argument ≠ .ambiguous)
    (hread : readFrom false arguments unset = .ok options) (hextras : options.extras = []) :
    read arguments = .ok options := by
  have hnone : ambiguous? arguments = none := by
    rw [ambiguous?, List.find?_eq_none]
    intro argument hargument
    simpa using hclear argument (List.takeWhile_subset _ hargument)
  rw [read, hnone, hread]
  simp [hextras, bind, Except.bind, pure, Except.pure]

end Options

theorem classify_ast : classify "--ast" = .option .ast none := by decide +kernel

theorem classify_emitAst : classify "--emit-ast" = .option .emitAst none := by decide +kernel

theorem clear_of_verbose {ns : List Nat} {rest : List String} (h : ∀ argument ∈ rest, classify argument ≠ .ambiguous) :
    ∀ argument ∈ ns.map verboseArgument ++ rest, classify argument ≠ .ambiguous := by
  rw [List.forall_mem_append, List.forall_mem_map]
  refine ⟨fun n _ => ?_, h⟩
  simp [classify_verboseArgument]

/-! ### Requests -/

theorem given_some {name : String} (h : name ≠ "") : given (some name) = some name := by
  simp [given, h]

/-- Options for the level in front of other arguments set the level and nothing else. -/
theorem request_verbose (ns : List Nat) {rest : List String} {options : Options}
    (hclear : ∀ argument ∈ rest, classify argument ≠ .ambiguous)
    (hread : Options.readFrom false rest { Options.unset with verbosity := levelOf ns } = .ok options)
    (hextras : options.extras = []) : request (ns.map verboseArgument ++ rest) = options.request := by
  have hwhole : Options.readFrom false (ns.map verboseArgument ++ rest) .unset = .ok options := by
    rw [Options.readFrom_verbose, ← hread]
    simp [Options.unset]
  rw [request, Options.read_of_readFrom (clear_of_verbose hclear) hwhole hextras]

section

variable {name : String} (ns : List Nat) (hname : classify name = .positional) (hgiven : name ≠ "")

include hname hgiven

theorem request_script :
    request (ns.map verboseArgument ++ [name]) = .runScript (levelOf ns) (Path.ofString name) := by
  rw [request_verbose ns (by simp [hname]) (Options.readFrom_positional hname _) rfl]
  simp only [Options.request, Options.place, Options.unset, given_some hgiven]
  rfl

theorem request_ast :
    request (ns.map verboseArgument ++ ["--ast", name]) = .runDocument (levelOf ns) (Path.ofString name) := by
  rw [request_verbose ns (by simp [hname, classify_ast]) (Options.readFrom_value rfl classify_ast hname _) rfl]
  simp only [Options.request, Options.unset, given_some hgiven]
  rfl

theorem request_emitAst :
    request (ns.map verboseArgument ++ ["--emit-ast", name]) = .emit (Path.ofString name) := by
  rw [request_verbose ns (by simp [hname, classify_emitAst]) (Options.readFrom_value rfl classify_emitAst hname _) rfl]
  simp only [Options.request, Options.unset, given_some hgiven]
  rfl

end

/-! ### Files -/

/-- The text of a file as it is used, every line of it ended alike. -/
def fileText (text : String) : String := String.ofList (Text.unifyNewlines text.toList)

/-- The document of a script with the given text. -/
def documentText (text : String) : String := (Node.programToJson (parseProgram (fileText text)).result).write

section

variable (room : Room) (clock : Nat → Number) {lookup : Path → Entry} {path : Path} {text : String}

theorem withText_file (h : lookup path = .file (some text)) (use : String → Outcome) :
    withText lookup path use = use (fileText text) := by
  rw [withText, h]
  rfl

theorem runScript_of_clean (h : lookup path = .file (some text))
    (hclean : (parseProgram (fileText text)).diagnostics = [])
    (level : Nat) : runScript room clock lookup level path =
      ofSession Session.exitCode
        (Act.execute room (parseProgram (fileText text)).result (startSession clock lookup level)) := by
  rw [runScript, withText_file h, Act.run_clean room hclean rfl]

theorem emit_of_clean (h : lookup path = .file (some text)) (hclean : (parseProgram (fileText text)).diagnostics = [])
    (hdirectory : lookup (path.extend documentSuffix) ≠ .directory)
    (hlong : lookup (path.extend documentSuffix) ≠ .tooLong) :
    emit clock lookup path = ⟨.exit 0, (path.extend documentSuffix).toString ++ "\n", "",
      [(path.extend documentSuffix, documentText text)]⟩ := by
  rw [emit, withText_file h]
  simp only [hclean, Session.report_nil]
  cases htarget : lookup (path.extend documentSuffix) with
  | directory => exact absurd htarget hdirectory
  | tooLong => exact absurd htarget hlong
  | missing => rfl
  | file found => rfl

/-- A document that reads back as a program is run as the program. -/
theorem runDocument_of_stored {program : List Node} (hstored : (Node.programToJson program).Storable)
    (hprogram : Node.programOfJson (Node.programToJson program) = .ok program)
    (h : lookup path = .file (some (Node.programToJson program).write)) (level : Nat) :
    runDocument room clock lookup level path =
      ofSession Session.exitCode (Act.execute room program (startSession clock lookup level)) := by
  have htext : fileText (Node.programToJson program).write = (Node.programToJson program).write :=
    Json.unifyNewlines_write hstored
  rw [runDocument, withText_file h, htext, Json.read_write hstored]
  simp only [hprogram]

theorem startSession_congr {after : Path → Entry} (h : after tracePath = .directory ↔ lookup tracePath = .directory)
    (level : Nat) : startSession clock after level = startSession clock lookup level := by
  simp only [startSession, ne_eq, h]

end

/-! ### A script and its document -/

/-- Where the document of a script is. -/
def documentPath (name : String) : Path := Path.ofString (name ++ documentSuffix)

/-- A text that the command line takes for the name of a file, also with what is added to it for the
document. -/
structure NamesScript (name : String) : Prop where
  positional : classify name = .positional
  positional_document : classify (name ++ documentSuffix) = .positional
  endsInName : Path.EndsInName name

theorem NamesScript.ne_empty {name : String} (h : NamesScript name) : name ≠ "" := by
  rintro rfl
  obtain ⟨file, hfile, hlast⟩ := h.endsInName
  have hempty : file.toList = [] := (Option.some.inj hlast).symm
  rw [String.toList_eq_nil_iff.mp hempty] at hfile
  exact hfile (by simp)

theorem NamesScript.path {name : String} (h : NamesScript name) :
    documentPath name = (Path.ofString name).extend documentSuffix :=
  Path.ofString_append h.endsInName (by decide +kernel)

variable {d : Directory} {name text : String}

/-- The document of a script that is a file can be put beside it. -/
theorem NamesScript.exists_follow (hname : NamesScript name) (hfile : d.lookup (Path.ofString name) = .file (some text))
    (hlong : d.lookup (documentPath name) ≠ .tooLong) :
    ∃ steps, d.follow (documentPath name) = .below steps := by
  obtain ⟨folder, file, hplain, hsteps⟩ := hname.endsInName.steps
  obtain ⟨place, hplace⟩ := Directory.follow_of_lookup_file hfile
  have hup : file ++ documentSuffix ≠ ".." := by
    intro heq
    have hsize := congrArg String.length heq
    rw [String.length_append] at hsize
    have hsuffix : documentSuffix.length = 9 := by decide +kernel
    have htwo : "..".length = 2 := by decide +kernel
    omega
  rw [hname.path] at hlong ⊢
  have hlong' : d.follow ((Path.ofString name).extend documentSuffix) ≠ .tooLong := by
    intro hfollow
    exact hlong (by rw [Directory.lookup, hfollow])
  exact Directory.exists_follow_extend hsteps (by simp_all) hup (by decide +kernel) hplace hlong'

/-- The document of a script, put where it belongs, is run as the script is. -/
theorem runDocument_write (hfile : d.lookup (Path.ofString name) = .file (some text))
    (hclean : (parseProgram (fileText text)).diagnostics = [])
    (hlines : (fileText text).toList.count '\n' + 1 < 10 ^ integerDigits)
    {target : Path} {steps : List String} (htarget : d.follow target = .below steps)
    (hdirectory : d.lookup target ≠ .directory) (room : Room) (clock : Nat → Number) (level : Nat) :
    runDocument room clock (d.write target (documentText text)).lookup level target =
      runScript room clock d.lookup level (Path.ofString name) := by
  have hparsed : parseProgram (fileText text) = ⟨(parseProgram (fileText text)).result, []⟩ := by
    rw [← hclean]
  obtain ⟨hstored, hprogram⟩ := parseProgram_stored hparsed hlines
  have hwritten := Directory.lookup_write_self htarget hdirectory (documentText text)
  have htrace := Directory.lookup_write_eq_directory htarget hdirectory (documentText text) tracePath
  rw [runDocument_of_stored room clock hstored hprogram hwritten, startSession_congr clock htrace,
    runScript_of_clean room clock hfile hclean]

/-- Emitting a script without diagnostics writes a document, and running that document is running the
script: both commands have the same outcome, with the streams, the trace and the ending, at every
level. The lines of the text must be no more than an integer of a document can number; no text that a
machine can hold comes near that. -/
theorem command_document (hname : NamesScript name) (hfile : d.lookup (Path.ofString name) = .file (some text))
    (hclean : (parseProgram (fileText text)).diagnostics = [])
    (hlines : (fileText text).toList.count '\n' + 1 < 10 ^ integerDigits)
    (hdirectory : d.lookup (documentPath name) ≠ .directory) (hlong : d.lookup (documentPath name) ≠ .tooLong) :
    ∃ document,
      (∀ room clock (ns : List Nat) stdin,
        command room clock d.lookup (ns.map verboseArgument ++ ["--emit-ast", name]) stdin =
          ⟨.exit 0, (documentPath name).toString ++ "\n", "", [(documentPath name, document)]⟩) ∧
      ∀ room clock (ns : List Nat) stdin,
        command room clock (d.write (documentPath name) document).lookup
            (ns.map verboseArgument ++ ["--ast", name ++ documentSuffix]) stdin =
          command room clock d.lookup (ns.map verboseArgument ++ [name]) stdin ∧
        command room clock d.lookup (ns.map verboseArgument ++ [name]) stdin =
          ofSession Session.exitCode (Act.run room (fileText text) (startSession clock d.lookup (levelOf ns))) := by
  have hempty : name ++ documentSuffix ≠ "" := by simp [documentSuffix]
  obtain ⟨steps, hsteps⟩ := hname.exists_follow hfile hlong
  refine ⟨documentText text, fun room clock ns stdin => ?_, fun room clock ns stdin => ⟨?_, ?_⟩⟩
  · rw [command, request_emitAst ns hname.positional hname.ne_empty]
    rw [hname.path] at hdirectory hlong ⊢
    exact emit_of_clean clock hfile hclean hdirectory hlong
  · rw [command, command, request_ast ns hname.positional_document hempty,
      request_script ns hname.positional hname.ne_empty]
    exact runDocument_write hfile hclean hlines hsteps hdirectory room clock (levelOf ns)
  · rw [command, request_script ns hname.positional hname.ne_empty, perform, runScript, withText_file hfile]

def oneScriptText : String := "print \"é\\\t\r\n\"; if (nil) f(0.1);"

/-- A working directory with one script. -/
def oneScript : Directory := ⟨[(["a.lox"], .file (some oneScriptText))]⟩

theorem command_document_oneScript :
    ∃ document,
      (∀ room clock (ns : List Nat) stdin,
        command room clock oneScript.lookup (ns.map verboseArgument ++ ["--emit-ast", "a.lox"]) stdin =
          ⟨.exit 0, (documentPath "a.lox").toString ++ "\n", "", [(documentPath "a.lox", document)]⟩) ∧
      ∀ room clock (ns : List Nat) stdin,
        command room clock (oneScript.write (documentPath "a.lox") document).lookup
            (ns.map verboseArgument ++ ["--ast", "a.lox" ++ documentSuffix]) stdin =
          command room clock oneScript.lookup (ns.map verboseArgument ++ ["a.lox"]) stdin ∧
        command room clock oneScript.lookup (ns.map verboseArgument ++ ["a.lox"]) stdin =
          ofSession Session.exitCode (Act.run room (fileText oneScriptText)
            (startSession clock oneScript.lookup (levelOf ns))) := by
  have hname : NamesScript "a.lox" :=
    ⟨by decide +kernel, by decide +kernel, "a.lox", by decide +kernel, by decide +kernel⟩
  apply command_document hname
  · decide +kernel
  · decide +kernel
  · apply Nat.lt_of_lt_of_le _ (Nat.pow_le_pow_right (by decide) (by decide : 2 ≤ integerDigits))
    decide +kernel
  · decide +kernel
  · decide +kernel

end LoxLang.Cli
