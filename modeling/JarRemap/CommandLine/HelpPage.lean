import JarRemap.CommandLine.Rules

/-!
# Help pages

A help page says what a command is for, how it is written, and what its arguments mean. The arguments stand
in sections, one to a line, and what is said about them stands in a column of its own, two blanks after the
longest of them.
-/
namespace JarRemap.CommandLine

/-- A part of a help page: entries, each with what is said about it, below a title. -/
structure HelpSection where
  title : String
  entries : List (String × String)
deriving DecidableEq

structure HelpPage where
  about : Option String
  /-- What is written after the program's name. -/
  usage : List String
  sections : List HelpSection
deriving DecidableEq

def programName : String := "dukemap"

namespace HelpSection

def width (part : HelpSection) : Nat := part.entries.foldl (fun width entry => max width entry.1.length) 0

/-- The line of an entry, whose text starts after `width` characters and two blanks. -/
def line (width : Nat) (entry : String × String) : String :=
  "  " ++ String.ofList (entry.1.toList.rightpad width ' ') ++ "  " ++ entry.2 ++ "\n"

def text (part : HelpSection) : String :=
  part.title ++ ":\n" ++ String.join (part.entries.map (line part.width))

end HelpSection

namespace HelpPage

/-- The page as text, with an empty line before each section. -/
def text (page : HelpPage) : String :=
  page.about.elim "" (· ++ "\n\n") ++
    "Usage: " ++ " ".intercalate (programName :: page.usage) ++ "\n" ++
    String.join (page.sections.map fun part => "\n" ++ part.text)

end HelpPage

namespace OptionRule

def spelling (rule : OptionRule) : String :=
  "--" ++ rule.name ++ rule.valueName.elim "" fun value => " <" ++ value ++ ">"

/-- The option as help pages list it: its letter, or blanks in place of it, before its name. -/
def listing (rule : OptionRule) : String :=
  rule.letter.elim "    " (fun letter => String.ofList ['-', letter, ',', ' ']) ++ rule.spelling

end OptionRule

/-- The section on options. Help can always be asked for. -/
def optionSection (options : List OptionRule) : HelpSection where
  title := "Options"
  entries := (options ++ [help]).map fun rule => (rule.listing, rule.summary)

def plainSpelling (name : String) : String := "<" ++ name ++ ">"

/-- The page on a command. Only what must be given is spelled out in its usage. -/
def CommandRule.page (rule : CommandRule) : HelpPage where
  about := some rule.summary
  usage := [rule.name, "[OPTIONS]"] ++ (rule.options.filter (·.required)).map OptionRule.spelling ++
    rule.plain.map plainSpelling
  sections :=
    (if rule.plain.isEmpty then [] else [⟨"Arguments", rule.plain.map fun name => (plainSpelling name, "")⟩]) ++
      [optionSection rule.options]

def helpSummary : String := "Print this message or the help of the given subcommand(s)"

def helpPage : HelpPage where
  about := some helpSummary
  usage := [helpName, "[COMMAND]..."]
  sections := [⟨"Arguments", [("[COMMAND]...", "Print help for the subcommand(s)")]⟩]

def programPage : HelpPage where
  about := none
  usage := ["[OPTIONS]", "<COMMAND>"]
  sections :=
    [⟨"Commands", commands.map (fun rule => (rule.name, rule.summary)) ++ [(helpName, helpSummary)]⟩,
      optionSection [verbose]]

end JarRemap.CommandLine
