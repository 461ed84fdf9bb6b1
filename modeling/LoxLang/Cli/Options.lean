import LoxLang.Text.Integer
import LoxLang.Text.Quoted
/-!
# Command-line options

    lox [-h] [-v] [--emit-ast LOX_FILE | --ast AST_JSON_FILE] [script]

Options and the script may stand in any order, and two dashes end the options. Long options may be
cut short as long as one of them is meant, and take their value after an equals sign or as the next
argument. Letters of options may stand together behind one dash, with an equals sign behind the first
one or without. A single dash, the empty text, a negative number and an unknown option with a blank
in it are no options. Arguments are read from left to right and the first mistake is the one
reported, but an argument that may mean several options is reported before all others, and arguments
that nothing takes after all others.
-/

namespace LoxLang.Cli

inductive Flag where
  | help
  | verbose
  | emitAst
  | ast
deriving DecidableEq, Repr

namespace Flag

def name : Flag → String
  | help => "-h/--help"
  | verbose => "-v"
  | emitAst => "--emit-ast"
  | ast => "--ast"

def takesValue : Flag → Bool
  | emitAst | ast => true
  | help | verbose => false

/-- The spellings of the options. -/
def spellings : List (List Char × Flag) :=
  [("-h".toList, help), ("--help".toList, help), ("-v".toList, verbose),
   ("--emit-ast".toList, emitAst), ("--ast".toList, ast)]

def ofSpelling? (spelling : List Char) : Option Flag := spellings.lookup spelling

end Flag

inductive UsageError where
  | expectedValue (flag : Flag)
  | conflict (flag other : Flag)
  | ignoredValue (flag : Flag) (value : String)
  | ambiguous (argument : String)
  | unrecognized (arguments : List String)
  | scriptCombined

def UsageError.pieces : UsageError → List String
  | .expectedValue flag => ["argument ", flag.name, ": expected one argument"]
  | .conflict flag other => ["argument ", flag.name, ": not allowed with argument ", other.name]
  | .ignoredValue flag value =>
    ["argument ", flag.name, ": ignored explicit argument ", Text.quoted value]
  | .ambiguous argument =>
    ["ambiguous option: ", argument, " could match --help, --emit-ast, --ast"]
  | .unrecognized arguments => ["unrecognized arguments: ", " ".intercalate arguments]
  | .scriptCombined => ["a script cannot be combined with --emit-ast/--ast"]

def UsageError.message (e : UsageError) : String := String.join e.pieces

/-! ### Single arguments -/

/-- What an argument before the end of options is. -/
inductive Argument where
  | positional
  | unknown
  | ambiguous
  /-- An option that is spelt out, with the value that an equals sign gives to it. -/
  | option (flag : Flag) (value : Option (List Char))
  /-- An option of one letter with further letters behind it. -/
  | letters (flag : Flag) (more : List Char)
deriving DecidableEq, Repr

/-- A minus sign, then digits, or a point with digits behind it and perhaps before it. The digits may
be of any script, and a line feed may end the text. -/
def isNegativeNumber : List Char → Bool
  | '-' :: rest =>
    match rest.dropWhile Text.isDecimal with
    | [] | ['\n'] => rest.any Text.isDecimal
    | '.' :: fraction =>
      fraction.any Text.isDecimal && [[], ['\n']].contains (fraction.dropWhile Text.isDecimal)
    | _ => false
  | _ => false

/-- An argument that spells no option out. -/
def otherArgument (cs : List Char) : Argument :=
  if isNegativeNumber cs || cs.contains ' ' then .positional else .unknown

/-- What follows the first equals sign. -/
def valueAfterEquals (cs : List Char) : Option (List Char) :=
  match cs.dropWhile (· != '=') with
  | _ :: value => some value
  | [] => none

/-- An option with two dashes, cut short or not. -/
def longArgument (cs : List Char) : Argument :=
  let spelling := cs.takeWhile (· != '=')
  match Flag.ofSpelling? spelling with
  | some flag => .option flag (valueAfterEquals cs)
  | none =>
    match Flag.spellings.filter fun (full, _) => spelling.isPrefixOf full with
    | [(_, flag)] => .option flag (valueAfterEquals cs)
    | [] => otherArgument cs
    | _ => .ambiguous

/-- One dash and what follows it. -/
def shortArgument (letter : Char) (rest : List Char) : Argument :=
  match Flag.ofSpelling? ['-', letter] with
  | some flag =>
    match rest with
    | ['='] => .option flag (some [])
    | '=' :: more => .letters flag more
    | more => .letters flag more
  | none => otherArgument ('-' :: letter :: rest)

/-- What an argument before the end of options is. -/
def classify (argument : String) : Argument :=
  match argument.toList with
  | '-' :: '-' :: rest => longArgument ('-' :: '-' :: rest)
  | '-' :: letter :: rest => shortArgument letter rest
  | _ => .positional

/-- The options written as letters behind one dash. A letter that is no option counts, with all
behind it, as a value of the option before it, which takes none. -/
def letterFlags (flag : Flag) : (more : List Char) → Except UsageError (List Flag)
  | [] => .ok [flag]
  | letter :: more =>
    match Flag.ofSpelling? ['-', letter] with
    | none => .error (.ignoredValue flag (String.ofList (letter :: more)))
    | some next => do return flag :: (← letterFlags next more)

/-! ### The whole line -/

structure Options where
  verbosity : Nat
  emitAst : Option String
  ast : Option String
  script : Option String
  /-- Arguments that nothing has taken. -/
  extras : List String

namespace Options

def unset : Options := ⟨0, none, none, none, []⟩

/-- What reading arguments may lead to besides options. -/
inductive Stop where
  | help
  | error (e : UsageError)

/-- Notes an option without a value. -/
def raiseFlag (flag : Flag) (options : Options) : Except Stop Options :=
  match flag with
  | .help => .error .help
  | _ => .ok { options with verbosity := options.verbosity + 1 }

/-- Notes an option with its value; only one of the two such options may be used. -/
def setValue (flag : Flag) (value : String) (options : Options) : Except Stop Options :=
  match flag with
  | .emitAst =>
    if options.ast.isSome then .error (.error (.conflict .emitAst .ast))
    else .ok { options with emitAst := some value }
  | _ =>
    if options.emitAst.isSome then .error (.error (.conflict .ast .emitAst))
    else .ok { options with ast := some value }

/-- The value that an equals sign gives: two dashes count as an empty one. -/
def valueOfText (text : List Char) : String := if text = ['-', '-'] then "" else String.ofList text

/-- Takes an argument that is no option: the first is the script. -/
def place (argument : String) (options : Options) : Options :=
  match options.script with
  | none => { options with script := some argument }
  | some _ => { options with extras := options.extras ++ [argument] }

/-- Reads the arguments behind the two dashes that end the options. The dashes themselves are left
over when the script stands before them and something stands between. -/
def placeAll (afterScript : Bool) (arguments : List String) (options : Options) : Options :=
  let options :=
    if options.script.isSome && !afterScript then options.place "--" else options
  arguments.foldl (fun options argument => options.place argument) options

/-- Reads arguments; `afterScript` tells whether the last one was taken as the script. -/
def readFrom (afterScript : Bool) : (arguments : List String) → (options : Options) →
    Except Stop Options
  | [], options => .ok options
  | argument :: rest, options =>
    if argument = "--" then .ok (options.placeAll afterScript rest)
    else
      match classify argument with
      | .positional => readFrom options.script.isNone rest (options.place argument)
      | .unknown =>
        readFrom false rest { options with extras := options.extras ++ [argument] }
      | .ambiguous => .error (.error (.ambiguous argument))
      | .letters flag more =>
        match letterFlags flag more with
        | .error e => .error (.error e)
        | .ok flags => do
          readFrom false rest (← flags.foldlM (fun options flag => options.raiseFlag flag) options)
      | .option flag (some value) => do
        if flag.takesValue then readFrom false rest (← options.setValue flag (valueOfText value))
        else .error (.error (.ignoredValue flag (String.ofList value)))
      | .option flag none => do
        if flag.takesValue then
          match rest with
          | value :: rest =>
            if value ≠ "--" ∧ classify value = .positional then
              readFrom false rest (← options.setValue flag value)
            else .error (.error (.expectedValue flag))
          | [] => .error (.error (.expectedValue flag))
        else readFrom false rest (← options.raiseFlag flag)

/-- The first argument that may mean several options. -/
def ambiguous? (arguments : List String) : Option String :=
  (arguments.takeWhile (· != "--")).find? fun argument => classify argument = .ambiguous

def read (arguments : List String) : Except Stop Options := do
  if let some argument := ambiguous? arguments then throw (.error (.ambiguous argument))
  let options ← readFrom false arguments unset
  if options.extras.isEmpty then return options
  else throw (.error (.unrecognized options.extras))

end Options

end LoxLang.Cli
