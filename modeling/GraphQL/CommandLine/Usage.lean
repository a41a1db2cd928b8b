import GraphQL.OrderedMap

/-!
# Usage of the command line

What the arguments of the program ask for. Arguments are read from left to right: options that hold
everywhere, the name of a command, and then the options and words of that command. The first fault
ends the reading, and so does a request for help or for the version.

An option with a value takes the rest of its own argument, or the next argument if that is not an
option itself. After two dashes everything is a word.
-/

namespace GraphQL
namespace CommandLine

inductive Command where
  | check (schema : String) (files : List String)
  | printPlan (schema file : String)
  | execute (schema query : String) (root bindings operation : Option String)
  | printSchema (schema : String)
  | showVersion
  deriving DecidableEq, Repr

structure Invocation where
  verbose : Bool
  quiet : Bool
  /-- The path of the settings file. -/
  settings : Option String
  command : Command
  deriving DecidableEq, Repr

/-- What the arguments ask for. -/
inductive Usage where
  | wrong
  | help
  | version
  | run (invocation : Invocation)
  deriving DecidableEq, Repr

inductive OptionKind where
  | flag
  | path
  | text
  | help
  | version
  deriving DecidableEq, Repr

structure OptionForm where
  name : String
  letter : Option Char := none
  kind : OptionKind

/-- The value of the option is a part of the command line. -/
def OptionForm.takesValue (form : OptionForm) : Bool :=
  form.kind == .path || form.kind == .text

/-- What was read for the program or for its command. -/
structure Arguments where
  options : OrderedMap String := []
  words : List String := []

namespace Arguments

/-- Takes an option, which must not be repeated; a path is not empty. -/
def addOption (read : Arguments) (form : OptionForm) (value : String) : Except Usage Arguments :=
  match form.kind with
  | .help => .error .help
  | .version => .error .version
  | kind =>
      if read.options.contains form.name || (kind == .path && value.isEmpty) then .error .wrong
      else .ok { read with options := read.options.insert form.name value }

/-- Takes a word, unless it is empty or one more than allowed. -/
def addWord (read : Arguments) (limit : Option Nat) (word : String) : Except Usage Arguments :=
  if word.isEmpty || limit.any (· ≤ read.words.length) then .error .wrong
  else .ok { read with words := read.words ++ [word] }

def has (read : Arguments) (name : String) : Bool :=
  read.options.contains name

def value? (read : Arguments) (name : String) : Option String :=
  read.options.find? name

end Arguments

/-- The argument is an option, or ends the options. -/
def isOption (argument : String) : Bool :=
  argument.startsWith "-" && argument != "-"

/-- Reads the letters of an argument with one dash. What is left when a letter takes a value is the
value, without an equals sign before it. -/
def readLetters (forms : List OptionForm) :
    List Char → Arguments → Except Usage (Arguments × Option OptionForm)
  | [], read => .ok (read, none)
  | letter :: rest, read =>
      match forms.find? fun form => form.letter == some letter with
      | none => .error .wrong
      | some form =>
          if form.takesValue then
            match rest with
            | [] => .ok (read, some form)
            | '=' :: value => do return (← read.addOption form (String.ofList value), none)
            | value => do return (← read.addOption form (String.ofList value), none)
          else do readLetters forms rest (← read.addOption form "")

/-- Reads an argument with two dashes: a name, and after an equals sign its value. -/
def readName (forms : List OptionForm) (argument : List Char) (read : Arguments) :
    Except Usage (Arguments × Option OptionForm) :=
  let name := String.ofList (argument.takeWhile (· != '='))
  match forms.find? fun form => form.name == name with
  | none => .error .wrong
  | some form =>
      match argument.dropWhile (· != '='), form.takesValue with
      | [], true => .ok (read, some form)
      | [], false => do return (← read.addOption form "", none)
      | _ :: value, true => do return (← read.addOption form (String.ofList value), none)
      | _ :: _, false => .error .wrong

/-- Reads one option. If its value is still to come, its form is given as well. -/
def readOption (forms : List OptionForm) (argument : String) (read : Arguments) :
    Except Usage (Arguments × Option OptionForm) :=
  match argument.toList with
  | '-' :: '-' :: rest => readName forms rest read
  | _ :: letters => readLetters forms letters read
  | [] => .error .wrong

/-- Reads options up to the first word, which is left with everything after it. -/
def readOptions (forms : List OptionForm) :
    Option OptionForm → List String → Arguments → Except Usage (Arguments × List String)
  | some _, [], _ => .error .wrong
  | none, [], read => .ok (read, [])
  | some form, value :: rest, read => do
      if isOption value then .error .wrong
      else readOptions forms none rest (← read.addOption form value)
  | none, argument :: rest, read => do
      if argument = "--" then .error .wrong
      else if isOption argument then
        let (read, pending) ← readOption forms argument read
        readOptions forms pending rest read
      else return (read, argument :: rest)

/-- Reads all arguments of a command that takes so many words. -/
def readArguments (forms : List OptionForm) (limit : Option Nat) :
    Option OptionForm → List String → Arguments → Except Usage Arguments
  | some _, [], _ => .error .wrong
  | none, [], read => .ok read
  | some form, value :: rest, read => do
      if isOption value then .error .wrong
      else readArguments forms limit none rest (← read.addOption form value)
  | none, argument :: rest, read => do
      if argument = "--" then rest.foldlM (fun read word => read.addWord limit word) read
      else if isOption argument then
        let (read, pending) ← readOption forms argument read
        readArguments forms limit pending rest read
      else readArguments forms limit none rest (← read.addWord limit argument)

/-- The options that may stand before and after the name of a command. -/
def commonForms : List OptionForm :=
  [{ name := "verbose", letter := some 'v', kind := .flag },
    { name := "quiet", letter := some 'q', kind := .flag }, { name := "config", kind := .path },
    { name := "help", letter := some 'h', kind := .help }]

def versionForm : OptionForm :=
  { name := "version", letter := some 'V', kind := .version }

def schemaForm : OptionForm :=
  { name := "schema", letter := some 's', kind := .path }

/-- A command: its own options, how many words it takes, and what it makes of them. -/
structure CommandForm where
  name : String
  forms : List OptionForm := []
  words : Option Nat
  command? : Arguments → Option Command

def checkForm : CommandForm where
  name := "check"
  forms := [schemaForm]
  words := none
  command? read := do
    let schema ← read.value? "schema"
    if read.words.isEmpty then none else return .check schema read.words

def planForm : CommandForm where
  name := "ir"
  forms := [schemaForm]
  words := some 1
  command? read := do return .printPlan (← read.value? "schema") (← read.words.head?)

def executeForm : CommandForm where
  name := "run"
  forms :=
    [schemaForm, { name := "query", kind := .path }, { name := "root", kind := .path },
      { name := "variables", kind := .path }, { name := "operation", kind := .text }]
  words := some 0
  command? read := do
    return .execute (← read.value? "schema") (← read.value? "query") (read.value? "root")
      (read.value? "variables") (read.value? "operation")

def printSchemaForm : CommandForm where
  name := "print-schema"
  words := some 1
  command? read := read.words.head?.map .printSchema

def versionCommandForm : CommandForm where
  name := "version"
  words := some 0
  command? _ := some .showVersion

def commandForms : List CommandForm :=
  [checkForm, planForm, executeForm, printSchemaForm, versionCommandForm]

/-- Help is asked for by name too, for the program or for one of its commands. -/
def helpUsage : List String → Usage
  | [] => .help
  | [name] => if name = "help" || commandForms.any (·.name == name) then .help else .wrong
  | _ => .wrong

/-- What the arguments of a command ask for, after the options before its name. -/
def commandUsage (before : Arguments) (form : CommandForm) (arguments : List String) :
    Except Usage Usage := do
  let read ← readArguments (commonForms ++ form.forms) form.words none arguments {}
  match form.command? read with
  | none => return .wrong
  | some command =>
      return .run {
        verbose := before.has "verbose" || read.has "verbose"
        quiet := before.has "quiet" || read.has "quiet"
        settings := (read.value? "config").or (before.value? "config")
        command }

def programUsage (arguments : List String) : Except Usage Usage := do
  let (before, rest) ← readOptions (versionForm :: commonForms) none arguments {}
  match rest with
  | [] => return .wrong
  | name :: rest =>
      match commandForms.find? fun form => form.name == name with
      | some form => commandUsage before form rest
      | none => return if name = "help" then helpUsage rest else .wrong

/-- What the arguments of the program ask for. -/
def usage (arguments : List String) : Usage :=
  match programUsage arguments with
  | .ok usage => usage
  | .error usage => usage

end CommandLine
end GraphQL
