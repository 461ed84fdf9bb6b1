import LoxLang.Cli.Path
/-!
# Directories

What a working directory holds, and what a path leads to from there. Steps are followed one by one: a
step out of a directory that is not there leads nowhere, even if a step back follows it. A step that
is longer than a name can be is refused where it would be taken, and a path that is too long as a
whole before any step.
-/

namespace LoxLang.Cli

/-- What a path leads to. -/
inductive Entry where
  | missing
  | directory
  /-- A file with its text, if its bytes are one. -/
  | file (text : Option String)
  /-- The path or one of its steps is too long. -/
  | tooLong
deriving DecidableEq, Repr

/-- The files and directories below the working directory, each with the steps to it. -/
structure Directory where
  entries : List (List String × Entry)

/-- Where following a path ends. -/
inductive Landing where
  | nowhere
  | tooLong
  /-- Somewhere above the working directory. -/
  | above
  /-- At the given steps below the working directory, whether anything is there or not. -/
  | below (steps : List String)
deriving DecidableEq, Repr

namespace Directory

def nameLimit : Nat := 255

def pathLimit : Nat := 4095

/-- The entry at given steps; what lies above an entry is a directory. -/
def entryAt (d : Directory) (steps : List String) : Entry :=
  match d.entries.lookup steps with
  | some entry => entry
  | none =>
    if steps = [] || d.entries.any (fun (path, _) => steps.isPrefixOf path) then .directory
    else .missing

/-- Follows steps from a place; `none` is above the working directory. -/
def walk (d : Directory) : (here : Option (List String)) → (steps : List String) → Landing
  | none, [] => .above
  | some here, [] => .below here
  | none, step :: rest =>
    if step = ".." then d.walk none rest
    else if nameLimit < step.utf8ByteSize then .tooLong
    else .nowhere
  | some here, step :: rest =>
    if d.entryAt here ≠ .directory then .nowhere
    else if step = ".." then d.walk (if here = [] then none else some here.dropLast) rest
    else if nameLimit < step.utf8ByteSize then .tooLong
    else d.walk (some (here ++ [step])) rest

/-- Where a path leads. No name has a null character in it. -/
def follow (d : Directory) (p : Path) : Landing :=
  if p.toString.toList.contains '\x00' then .nowhere
  else if pathLimit < p.toString.utf8ByteSize then .tooLong
  else d.walk (if p.root = "" then some [] else none) p.steps

def lookup (d : Directory) (p : Path) : Entry :=
  match d.follow p with
  | .nowhere => .missing
  | .tooLong => .tooLong
  | .above => .directory
  | .below steps => d.entryAt steps

/-- The directory after a text was written where a path leads. -/
def write (d : Directory) (p : Path) (text : String) : Directory :=
  match d.follow p with
  | .below steps =>
    ⟨(d.entries.filter fun (path, _) => path ≠ steps) ++ [(steps, .file (some text))]⟩
  | _ => d

end Directory

end LoxLang.Cli
