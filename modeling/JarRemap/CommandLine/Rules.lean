/-!
# The commands and their arguments

The program has two commands, each with options and with other arguments, which have a name only for
help pages. Reading arguments and showing help both go by these rules.
-/
namespace JarRemap.CommandLine

structure OptionRule where
  name : String
  letter : Option Char
  /-- What its value is called, if it takes one. -/
  valueName : Option String
  required : Bool
  summary : String
deriving DecidableEq

def OptionRule.takesValue (rule : OptionRule) : Bool := rule.valueName.isSome

/-- A command. Its options stand in the order in which help pages show them. -/
structure CommandRule where
  name : String
  summary : String
  options : List OptionRule
  /-- The names of the arguments that are no options, all of which must be given. -/
  plain : List String
deriving DecidableEq

/-- More messages are wanted. This option may also stand before the command. -/
def verbose : OptionRule where
  name := "verbose"
  letter := some 'v'
  valueName := none
  required := false
  summary := "Be verbose"

def help : OptionRule where
  name := "help"
  letter := some 'h'
  valueName := none
  required := false
  summary := "Print help"

def config : OptionRule where
  name := "config"
  letter := none
  valueName := some "CONFIG"
  required := true
  summary := "The job file, in json"

def force : OptionRule where
  name := "force"
  letter := none
  valueName := none
  required := false
  summary := "Rebuild all outputs, even if they exist"

/-- The outputs that are there were made from other inputs. -/
def inputsChanged : OptionRule where
  name := "upstream-changed"
  letter := none
  valueName := none
  required := false
  summary := "The input archives changed, rebuild all outputs"

def output : OptionRule where
  name := "output"
  letter := some 'o'
  valueName := some "OUTPUT"
  required := false
  summary := "Where to write the access transformer, defaults to stdout"

def remapRule : CommandRule where
  name := "remap"
  summary := "Remaps the archives of a job file along the namespace chain of its toolchain"
  options := [config, verbose, force, inputsChanged]
  plain := []

/-- The command that makes an access transformer of an access widener. -/
def convertRule : CommandRule where
  name := "aw2at"
  summary := "Converts an access widener into an access transformer"
  options := [output, verbose]
  plain := ["FILE"]

def commands : List CommandRule := [remapRule, convertRule]

def helpName : String := "help"

end JarRemap.CommandLine
