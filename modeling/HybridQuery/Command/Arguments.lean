import HybridQuery.Numeric.Decimal

/-!
# Command line arguments

There are two commands: `run` evaluates a module, `explain` shows its plan. Their options take one
value each, in the next argument or after `=`, and may be given once.

* `Command.parse`: the command of a list of arguments, or why there is none.
* `UsageFault.exitCode`: asking for help or the version is no mistake.
-/

namespace HybridQuery

/-! ## Commands -/

/-- Options that take precedence over a configuration. -/
structure Overrides where
  partitions : Option Nat := none
  workers : Option Nat := none
  logLevel : Option String := none
  deriving Repr, DecidableEq, Inhabited

/-- A command. A module without a path is read from standard input. -/
inductive Command where
  | run (query config : Option String) (overrides : Overrides)
  | explain (query config : Option String)
  deriving Repr, DecidableEq, Inhabited

/-- Why arguments name no command. -/
inductive UsageFault where
  /-- Help is asked for. -/
  | help
  /-- The version is asked for. -/
  | version
  | noCommand
  | unknownCommand
  | unknownArgument
  /-- An option lacks its value, or a path is empty. -/
  | noValue
  /-- A value does not read as what the option takes. -/
  | badValue
  /-- A flag is given a value. -/
  | flagWithValue
  | repeated
  deriving Repr, DecidableEq, Inhabited

namespace UsageFault

/-- The exit code after a fault. -/
def exitCode : UsageFault → Nat
  | help | version => 0
  | _ => 2

/-- What is shown for a fault. -/
def message : UsageFault → String
  | help | noCommand =>
    "Usage: run [--query PATH] [--config PATH] [--partitions N] [--workers N] [--log-level LEVEL]\n"
      ++ "       explain [--query PATH] [--config PATH]\n"
      ++ "Without --query, the module is read from standard input."
  | version => "0.1.0"
  | unknownCommand => "error: unrecognized subcommand"
  | unknownArgument => "error: unexpected argument"
  | noValue => "error: a value is required"
  | badValue => "error: invalid value"
  | flagWithValue => "error: unexpected value for a flag"
  | repeated => "error: an argument cannot be used multiple times"

end UsageFault

/-! ## Arguments -/

/-- An argument by its form. -/
inductive ArgumentForm where
  /-- Two hyphens alone: no options follow. -/
  | escape
  /-- The name after two hyphens, and what follows the first `=`. -/
  | long (name : String) (value : Option String)
  /-- The letters after one hyphen. -/
  | short (letters : List Char)
  | word

/-- The form of an argument. A hyphen alone is a word. -/
def ArgumentForm.of (argument : String) : ArgumentForm :=
  match argument.toList with
  | ['-', '-'] => .escape
  | '-' :: '-' :: rest =>
    let name := rest.takeWhile (· ≠ '=')
    match rest.drop name.length with
    | _ :: value => .long (String.ofList name) (some (String.ofList value))
    | [] => .long (String.ofList name) none
  | '-' :: c :: rest => .short (c :: rest)
  | _ => .word

/-! ## Options -/

/-- An option of a command. -/
inductive CommandOption where
  | query
  | config
  | partitions
  | workers
  | logLevel
  deriving Repr, DecidableEq

namespace CommandOption

/-- The name of an option. -/
def name : CommandOption → String
  | query => "query"
  | config => "config"
  | partitions => "partitions"
  | workers => "workers"
  | logLevel => "log-level"

/-- The options of the command `run`. -/
def ofRun : List CommandOption := [query, config, partitions, workers, logLevel]

/-- The options of the command `explain`. -/
def ofExplain : List CommandOption := [query, config]

end CommandOption

/-- Values of options. -/
structure OptionValues where
  query : Option String := none
  config : Option String := none
  overrides : Overrides := {}
  deriving Repr, DecidableEq, Inhabited

/-- Reads a path, which must not be empty. -/
def pathValue (text : String) : Except UsageFault String :=
  if text.isEmpty then .error .noValue else .ok text

/-- Reads a number of 64 bits, with an optional plus. -/
def sizeValue (text : String) : Except UsageFault Nat :=
  let digits :=
    match text.toList with
    | '+' :: rest => rest
    | cs => cs
  match Decimal.digitsValue? digits with
  | some n => if n < Power.two 64 then .ok n else .error .badValue
  | none => .error .badValue

namespace OptionValues

/-- Whether an option has a value. -/
def has (v : OptionValues) : CommandOption → Bool
  | .query => v.query.isSome
  | .config => v.config.isSome
  | .partitions => v.overrides.partitions.isSome
  | .workers => v.overrides.workers.isSome
  | .logLevel => v.overrides.logLevel.isSome

/-- Sets the value of an option from its text. -/
def set (v : OptionValues) (option : CommandOption) (text : String) :
    Except UsageFault OptionValues := do
  match option with
  | .query => return { v with query := some (← pathValue text) }
  | .config => return { v with config := some (← pathValue text) }
  | .partitions =>
    let n ← sizeValue text
    return { v with overrides := { v.overrides with partitions := some n } }
  | .workers =>
    let n ← sizeValue text
    return { v with overrides := { v.overrides with workers := some n } }
  | .logLevel => return { v with overrides := { v.overrides with logLevel := some text } }

/-- Gives an option its value, which is missing if there is no text; an option has one value. -/
def give (v : OptionValues) (option : CommandOption) : Option String → Except UsageFault OptionValues
  | none => .error .noValue
  | some text => if v.has option then .error .repeated else v.set option text

end OptionValues

/-- An option that was named last, and its value as far as it was given. -/
abbrev PendingOption := Option (CommandOption × Option String)

/-- Settles the pending option. -/
def OptionValues.settle (v : OptionValues) : PendingOption → Except UsageFault OptionValues
  | none => .ok v
  | some (option, text) => v.give option text

/-- Reads the options of a command. An option is settled when the next one is named; until then what
no command knows is the greater mistake. -/
def parseOptions (known : List CommandOption) (v : OptionValues) (pending : PendingOption) :
    List String → Except UsageFault OptionValues
  | [] => v.settle pending
  | argument :: rest =>
    match ArgumentForm.of argument with
    | .escape => if rest.isEmpty then v.settle pending else .error .unknownArgument
    | .long "help" none => do
      let _ ← v.settle pending
      .error .help
    | .long "help" (some _) => .error .flagWithValue
    | .long name value =>
      match known.find? (·.name == name) with
      | none => .error .unknownArgument
      | some option => do
        let v ← v.settle pending
        match value with
        | none => parseOptions known v (some (option, none)) rest
        | some text => parseOptions known (← v.give option text) none rest
    | .short ('h' :: _) => do
      let _ ← v.settle pending
      .error .help
    | .short _ => .error .unknownArgument
    | .word =>
      match pending with
      | some (option, none) => parseOptions known v (some (option, some argument)) rest
      | _ => .error .unknownArgument

namespace Command

/-- The names of the commands; `help` is one of them. -/
def names : List String := ["run", "explain", "help"]

/-- What a request for help comes to: help on one command at most. -/
def parseHelp : List String → UsageFault
  | [] => .help
  | [name] => if names.contains name then .help else .unknownCommand
  | _ => .unknownCommand

/-- The command of a name and the arguments after it. -/
def ofName (name : String) (arguments : List String) : Except UsageFault Command :=
  match name with
  | "run" => do
    let v ← parseOptions CommandOption.ofRun {} none arguments
    return .run v.query v.config v.overrides
  | "explain" => do
    let v ← parseOptions CommandOption.ofExplain {} none arguments
    return .explain v.query v.config
  | "help" => .error (parseHelp arguments)
  | _ => .error .unknownCommand

/-- The command of a list of arguments. -/
def parse : List String → Except UsageFault Command
  | [] => .error .noCommand
  | argument :: rest =>
    match ArgumentForm.of argument with
    | .escape =>
      match rest with
      | [] => .error .noCommand
      | word :: _ => .error (if names.contains word then .unknownArgument else .unknownCommand)
    | .long "help" none => .error .help
    | .long "version" none => .error .version
    | .long "help" (some _) => .error .flagWithValue
    | .long "version" (some _) => .error .flagWithValue
    | .long _ _ => .error .unknownArgument
    | .short ('h' :: _) => .error .help
    | .short ('V' :: _) => .error .version
    | .short _ => .error .unknownArgument
    | .word => ofName argument rest

end Command
end HybridQuery
