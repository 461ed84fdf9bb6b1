import LoxLang.Proofs.Cli.Documents
import LoxLang.Proofs.Document.Failures
/-!
# Documents that are refused

A document that holds a program is run. Any other one is refused with an exit code and one message, before anything is
executed or written. What escapes this is a number that does not fit: it ends the command without an exit code.
-/

namespace LoxLang.Cli

/-- What is written about a document that is refused. -/
def refusal (path : Path) (e : DocumentError) : String :=
  "Error: invalid AST file " ++ path.toString ++ ": " ++ e.message ++ "\n"

theorem refuseDocument_of_fits {e : DocumentError} (h : e.isOverflow = false) (path : Path) :
    refuseDocument path e = ⟨.exit 65, "", refusal path e, []⟩ := by
  cases e with
  | largeInteger | lineInfinite => cases h
  | _ => rfl

theorem refuseDocument_of_overflow {e : DocumentError} (h : e.isOverflow = true) (path : Path) :
    refuseDocument path e = .failed (.overflow e) := by
  cases e with
  | largeInteger | lineInfinite => rfl
  | _ => cases h

theorem runDocument_of_read {lookup : Path → Entry} {path : Path} {text : String} {v : Json}
    (hfile : lookup path = .file (some text)) (hread : Json.read (fileText text) = .ok v) (room : Room)
    (clock : Nat → Number) (level : Nat) : runDocument room clock lookup level path =
      match Node.programOfJson v with
      | .error e => refuseDocument path e
      | .ok program => ofSession Session.exitCode (Act.execute room program (startSession clock lookup level)) := by
  rewrite [runDocument, withText_file hfile, hread]
  rfl

/-- A stored document is read from its file. -/
theorem read_fileText_write {v : Json} (h : v.Storable) : Json.read (fileText v.write) = .ok v := by
  have htext : fileText v.write = v.write := Json.unifyNewlines_write h
  rw [htext, Json.read_write h]

/-- Every document in a file is run as the program it holds, or refused: nothing is executed, nothing is written but one
message, and the exit code is 65. The message is one line, unless the document has a line break in the name of a type. Only
if a number in the body is too large for its place, the command ends without an exit code. -/
theorem command_ast {lookup : Path → Entry} {name text : String} {v : Json} (hname : classify name = .positional)
    (hgiven : name ≠ "") (hfile : lookup (Path.ofString name) = .file (some text))
    (hread : Json.read (fileText text) = .ok v) (room : Room) (clock : Nat → Number) (ns : List Nat) (stdin : String) :
    let outcome := command room clock lookup (ns.map verboseArgument ++ ["--ast", name]) stdin
    (∃ program, Node.programOfJson v = .ok program ∧
      outcome = ofSession Session.exitCode (Act.execute room program (startSession clock lookup (levelOf ns)))) ∨
    ∃ e, Node.programOfJson v = .error e ∧
      (e.isOverflow = false ∧ outcome = ⟨.exit 65, "", refusal (Path.ofString name) e, []⟩ ∧
          (OneLine e.message ∨ ∃ type, e = .unknownType (.str type)) ∨
        e.isOverflow = true ∧ outcome = .failed (.overflow e) ∧
          ∃ fields body, v = .obj fields ∧ Json.getField? fields "body" = some body ∧ body.Oversized) := by
  intro outcome
  have hrun : outcome = runDocument room clock lookup (levelOf ns) (Path.ofString name) := by
    simp only [outcome, command, request_ast ns hname hgiven, perform]
  rw [runDocument_of_read hfile hread] at hrun
  cases hprogram : Node.programOfJson v with
  | ok program =>
    simp only [hprogram] at hrun
    exact .inl ⟨program, rfl, hrun⟩
  | error e =>
    simp only [hprogram] at hrun
    obtain ⟨hoversized, honeLine⟩ := Node.explains_of_programOfJson hprogram
    refine .inr ⟨e, rfl, ?_⟩
    cases hfits : e.isOverflow with
    | false => exact .inl ⟨rfl, hrun.trans (refuseDocument_of_fits hfits _), honeLine⟩
    | true => exact .inr ⟨rfl, hrun.trans (refuseDocument_of_overflow hfits _), hoversized hfits⟩

/-- A working directory with one document. -/
def oneDocument (v : Json) : Directory := ⟨[(["a.json"], .file (some v.write))]⟩

theorem lookup_oneDocument (v : Json) : (oneDocument v).lookup (Path.ofString "a.json") = .file (some v.write) := by
  have hpath : Path.ofString "a.json" = ⟨"", ["a.json"]⟩ := by decide +kernel
  rw [hpath]
  rfl

theorem classify_oneDocument : classify "a.json" = .positional := by decide +kernel

/-- A statement without its expression. -/
theorem command_ast_missingField :
    let v := Json.obj [("type", .str "Program"), ("body", .arr [.obj [("type", .str "Print")]])]
    classify "a.json" = .positional ∧ (oneDocument v).lookup (Path.ofString "a.json") = .file (some v.write) ∧
      Json.read (fileText v.write) = .ok v ∧
      ∀ room clock (ns : List Nat) stdin,
        command room clock (oneDocument v).lookup (ns.map verboseArgument ++ ["--ast", "a.json"]) stdin =
          ⟨.exit 65, "", "Error: invalid AST file a.json: 'expression'\n", []⟩ := by
  intro v
  have hstorable : v.Storable := by
    refine .obj (by decide) (List.forall_mem_cons.mpr ⟨.str _, List.forall_mem_cons.mpr ⟨.arr ?_, nofun⟩⟩)
    exact List.forall_mem_cons.mpr ⟨.obj (by decide) (List.forall_mem_cons.mpr ⟨.str _, nofun⟩), nofun⟩
  have hread := read_fileText_write hstorable
  have herror : Node.programOfJson v = .error (.missing "expression") := rfl
  refine ⟨classify_oneDocument, lookup_oneDocument v, hread, fun room clock ns stdin => ?_⟩
  have hmessage : refusal (Path.ofString "a.json") (.missing "expression") =
      "Error: invalid AST file a.json: 'expression'\n" := by decide +kernel
  obtain ⟨program, hprogram, -⟩ | ⟨e, he, houtcome⟩ :=
    command_ast classify_oneDocument (by decide) (lookup_oneDocument v) hread room clock ns stdin
  · rw [herror] at hprogram
    cases hprogram
  · rw [herror] at he
    cases he
    obtain ⟨-, houtcome, -⟩ | ⟨⟨⟩, -⟩ := houtcome
    rw [houtcome, hmessage]

/-- An integer that is too large for a number ends the command without an exit code. -/
theorem command_ast_overflow :
    let v := Json.obj [("type", .str "Program"), ("body", .arr [.int (10 ^ 400)])]
    (oneDocument v).lookup (Path.ofString "a.json") = .file (some v.write) ∧ Json.read (fileText v.write) = .ok v ∧
      Node.programOfJson v = .error .largeInteger ∧
      ∀ room clock stdin, command room clock (oneDocument v).lookup ["--ast", "a.json"] stdin =
        .failed (.overflow .largeInteger) := by
  intro v
  have hstorable : v.Storable := by
    refine .obj (by decide) (List.forall_mem_cons.mpr ⟨.str _, List.forall_mem_cons.mpr ⟨.arr ?_, nofun⟩⟩)
    exact List.forall_mem_cons.mpr ⟨.int (by decide +kernel), nofun⟩
  have hread := read_fileText_write hstorable
  have hinfinite : ¬ (Number.ofInt (10 ^ 400)).isFinite = true := by decide +kernel
  have hinteger : Node.ofInteger (10 ^ 400) = .error .largeInteger := if_neg hinfinite
  have hbody (i : Int) (h : Node.ofInteger i = .error .largeInteger) :
      Node.programOfJson (.obj [("type", .str "Program"), ("body", .arr [.int i])]) = .error .largeInteger := by
    change (Node.ofInteger i >>= fun first => _) = _
    rw [h]
    rfl
  have herror : Node.programOfJson v = .error .largeInteger := hbody _ hinteger
  have hrequest : request ["--ast", "a.json"] = .runDocument 0 (Path.ofString "a.json") :=
    request_ast [] classify_oneDocument (by decide)
  refine ⟨lookup_oneDocument v, hread, herror, fun room clock stdin => ?_⟩
  rw [command, hrequest, perform, runDocument_of_read (lookup_oneDocument v) hread, herror]
  rfl

end LoxLang.Cli
