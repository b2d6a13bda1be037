import JarRemap.Access.TransformSet
import JarRemap.CommandLine.HelpPage
import JarRemap.Job.Run

/-!
# The command line

There are two commands: `remap` runs the job of a job file, and `aw2at` makes an access transformer of an
access widener. Options may stand before and after other arguments; a value follows its option directly,
after an equals sign, or as the next argument, which then must not look like an option. Each option may be
given once, and a value must not be empty.
-/
namespace JarRemap.CommandLine

inductive Command where
  | remap (config : String) (force inputsChanged : Bool)
  | convert (file : String) (output : Option String)
deriving DecidableEq

/-- The options and other arguments that were found, latest first. -/
structure Found where
  options : List (String × String)
  plain : List String
deriving DecidableEq

inductive Refusal where
  /-- Help was asked for, and nothing was wrong before that. -/
  | help (page : HelpPage)
  | wrong
deriving DecidableEq

namespace Found

def empty : Found := ⟨[], []⟩

def value? (found : Found) (name : String) : Option String := found.options.lookup name

def has (found : Found) (name : String) : Bool := (found.value? name).isSome

def addFlag (found : Found) (rule : OptionRule) : Except Refusal Found :=
  if found.has rule.name then .error .wrong
  else .ok { found with options := (rule.name, "") :: found.options }

def addValue (found : Found) (rule : OptionRule) (value : String) : Except Refusal Found :=
  if found.has rule.name || value = "" then .error .wrong
  else .ok { found with options := (rule.name, value) :: found.options }

/-- Adds another argument, of which there may be `limit`. -/
def addPlain (found : Found) (limit : Nat) (argument : String) : Except Refusal Found :=
  if limit ≤ found.plain.length || argument = "" then .error .wrong
  else .ok { found with plain := argument :: found.plain }

end Found

/-- Whether an argument looks like an option. A single dash does not. -/
def looksLikeOption (argument : String) : Bool :=
  Text.startsWith '-' argument && argument ≠ "-"

/-- What an argument with options left open: nothing, or the value of its last option. -/
abbrev Open := Found × Option OptionRule

/-- The options in an argument with two dashes. Help is to show the given page. -/
def longOption (rules : List OptionRule) (page : HelpPage) (found : Found) (argument : List Char) :
    Except Refusal Open :=
  let (name, value) := match Text.cutFirst? '=' argument with
    | some (name, value) => (String.ofList name, some (String.ofList value))
    | none => (String.ofList argument, none)
  if name = help.name then .error (if value.isSome then .wrong else .help page)
  else
    match rules.find? (·.name = name), value with
    | none, _ => .error .wrong
    | some rule, some value =>
      if rule.takesValue then do return (← found.addValue rule value, none) else .error .wrong
    | some rule, none =>
      if rule.takesValue then .ok (found, some rule) else do return (← found.addFlag rule, none)

/-- The options in an argument with one dash, letter by letter. -/
def shortOptions (rules : List OptionRule) (page : HelpPage) : Found → List Char → Except Refusal Open
  | found, [] => .ok (found, none)
  | found, letter :: rest =>
    if help.letter = some letter then .error (.help page)
    else
      match rules.find? (·.letter = some letter) with
      | none => .error .wrong
      | some rule =>
        if rule.takesValue then
          match rest with
          | [] => .ok (found, some rule)
          | '=' :: value => do return (← found.addValue rule (String.ofList value), none)
          | value => do return (← found.addValue rule (String.ofList value), none)
        else do
          let found ← found.addFlag rule
          shortOptions rules page found rest

def options (rules : List OptionRule) (page : HelpPage) (found : Found) (argument : String) :
    Except Refusal Open :=
  match argument.toList with
  | '-' :: '-' :: rest => longOption rules page found rest
  | '-' :: rest => shortOptions rules page found rest
  | _ => .error .wrong

def arguments (rule : CommandRule) : Found → List String → Except Refusal Found
  | found, [] => .ok found
  | found, argument :: rest =>
    if argument = "--" then rest.foldlM (fun found argument => found.addPlain rule.plain.length argument) found
    else if looksLikeOption argument then do
      match ← options rule.options rule.page found argument, rest with
      | (found, none), rest => arguments rule found rest
      | (_, some _), [] => .error .wrong
      | (found, some option), value :: rest =>
        if looksLikeOption value then .error .wrong
        else do
          let found ← found.addValue option value
          arguments rule found rest
    else do
      let found ← found.addPlain rule.plain.length argument
      arguments rule found rest

def remapCommand (rest : List String) : Except Refusal Command := do
  let found ← arguments remapRule .empty rest
  match found.value? config.name with
  | some path => return .remap path (found.has force.name) (found.has inputsChanged.name)
  | none => .error .wrong

def convertCommand (rest : List String) : Except Refusal Command := do
  let found ← arguments convertRule .empty rest
  match found.plain with
  | [file] => return .convert file (found.value? output.name)
  | _ => .error .wrong

def helpCommand : List String → Refusal
  | [] => .help programPage
  | [name] =>
    match commands.find? (·.name = name) with
    | some rule => .help rule.page
    | none => if name = helpName then .help helpPage else .wrong
  | _ => .wrong

def parse : (found : Found) → List String → Except Refusal Command
  | _, [] => .error .wrong
  | found, argument :: rest =>
    if argument = "--" then .error .wrong
    else if looksLikeOption argument then do
      let (found, _) ← options [verbose] programPage found argument
      parse found rest
    else if argument = remapRule.name then remapCommand rest
    else if argument = convertRule.name then convertCommand rest
    else if argument = helpName then .error (helpCommand rest)
    else .error .wrong

/-- How the program ends: its exit code, what it prints, and the failure if there is one. -/
structure Ending where
  code : Nat
  printed : String
  failure : Option Failure
deriving DecidableEq

/-- The paths that a command looks at, as far as the tree tells: those of a job are known only from its
job file. -/
def Command.paths (tree : FileTree) : Command → List String
  | .remap config force inputsChanged =>
    config :: match ((JobConfig.ofPath config).runOn tree).1 with
      | .ok job => (RemapJob.ofConfig job force inputsChanged).paths (.ofToolchain job.toolchain)
      | .error _ => []
  | .convert file output => file :: output.toList

/-- The paths that the program looks at when it is run with the given arguments. -/
def paths (arguments : List String) (tree : FileTree) : List String :=
  match parse .empty arguments with
  | .ok command => command.paths tree
  | .error _ => []

/-- Does what a command says and gives what is to be printed. -/
def perform : Command → FileM String
  | .remap config force inputsChanged => do
    let config ← JobConfig.ofPath config
    let _ ← (RemapJob.ofConfig config force inputsChanged).run (.ofToolchain config.toolchain)
    return ""
  | .convert file output => do
    let transforms ← TransformSet.ofWidenerFile file
    match output with
    | none => return transforms.text
    | some output =>
      FileM.within (.createFile output)
        (FileM.write output (.bytes (Text.encodeUtf8 transforms.text)))
      return ""

def run (arguments : List String) (tree : FileTree) : Ending × FileTree × List FileStep :=
  match parse .empty arguments with
  | .error (.help page) => (⟨0, page.text, none⟩, tree, [])
  | .error .wrong => (⟨2, "", none⟩, tree, [])
  | .ok command =>
    match (perform command).runOn tree with
    | (.ok printed, tree, steps) => (⟨0, printed, none⟩, tree, steps)
    | (.error failure, tree, steps) => (⟨1, "", some failure⟩, tree, steps)

end JarRemap.CommandLine
