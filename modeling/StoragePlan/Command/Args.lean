/-!
The command line: options with one value each, given as `--name value`, `--name=value`, `-n value`
or `-nvalue`.
-/

namespace StoragePlan

/-- The stage after which to stop. -/
inductive Stage where
  | lexer | parser | semantic
  deriving DecidableEq, Repr

/-- The format in which to write the layout. -/
inductive Emit where
  | yaml | json
  deriving DecidableEq, Repr

inductive LogLevel where
  | error | warn | info | debug | trace
  deriving DecidableEq, Repr

structure Options where
  input : String
  output : Option String
  emit : Option Emit
  stopAfter : Option Stage
  logLevel : Option LogLevel
  logFile : Option String
  deriving DecidableEq, Repr

/-- Why the arguments are not taken, or what is shown instead of a run. -/
inductive UsageError where
  | missingRequired
  | invalidValue
  | unknownArgument
  | emptyValue
  | repeated
  | help
  | version
  deriving DecidableEq, Repr

namespace UsageError

/-- Showing help or the version is a success. -/
def exitCode : UsageError → Nat
  | help => 0
  | version => 0
  | _ => 1

/-- What the command shows for its options. -/
def summary : String :=
  "Verifies Sprig language files and computes the memory layout of the program\n\n"
    ++ "  -i, --input <file>        source file; files it imports are read from its directory\n"
    ++ "  -o, --output <file>       file for the memory layout, instead of standard output\n"
    ++ "      --emit <format>       layout-yaml or layout-json\n"
    ++ "      --stop-after <stage>  lexer, parser or semantic\n"
    ++ "      --log-level <level>   error, warn, info, debug or trace\n"
    ++ "      --log-file <file>     file for the log; needs a log level\n"
    ++ "  -h, --help                show this text\n"
    ++ "  -V, --version             show the version"

def message : UsageError → String
  | missingRequired => "error: a required argument is missing\n\n" ++ summary
  | invalidValue => "error: an option does not take this value\n\n" ++ summary
  | unknownArgument => "error: unknown argument\n\n" ++ summary
  | emptyValue => "error: an option needs a value\n\n" ++ summary
  | repeated => "error: an option is given more than once\n\n" ++ summary
  | help => summary
  | version => "Sprig Compiler 0.1.0"

end UsageError

/-! ### The options -/

inductive OptionName where
  | input | output | emit | stopAfter | logLevel | logFile
  deriving DecidableEq, Repr

namespace OptionName

def all : List OptionName := [input, output, emit, stopAfter, logLevel, logFile]

def long : OptionName → String
  | input => "input"
  | output => "output"
  | emit => "emit"
  | stopAfter => "stop-after"
  | logLevel => "log-level"
  | logFile => "log-file"

def short? : OptionName → Option Char
  | input => some 'i'
  | output => some 'o'
  | _ => none

def emits : List (String × Emit) := [("layout-yaml", .yaml), ("layout-json", .json)]

def stages : List (String × Stage) := [("lexer", .lexer), ("parser", .parser), ("semantic", .semantic)]

def levels : List (String × LogLevel) :=
  [("error", .error), ("warn", .warn), ("info", .info), ("debug", .debug), ("trace", .trace)]

/-- Whether an option takes a value. -/
def allows (o : OptionName) (value : String) : Bool :=
  match o with
  | emit => (emits.lookup value).isSome
  | stopAfter => (stages.lookup value).isSome
  | logLevel => (levels.lookup value).isSome
  | _ => true

/-- The option that has to be given along with an option. -/
def companion? : OptionName → Option OptionName
  | logFile => some logLevel
  | _ => none

end OptionName

/-! ### Reading the arguments -/

/-- The uses of options and the values they got, in order. -/
structure Given where
  uses : List OptionName
  values : List (OptionName × String)
  deriving DecidableEq, Repr

namespace Given

def use (o : OptionName) (g : Given) : Given := { g with uses := g.uses ++ [o] }

def give (o : OptionName) (value : String) (g : Given) : Given :=
  { g with values := g.values ++ [(o, value)] }

def valuesOf (g : Given) (o : OptionName) : List String :=
  (g.values.filter (·.1 == o)).map (·.2)

def value? (g : Given) (o : OptionName) : Option String := g.values.lookup o

end Given

namespace Args

/-- A value written right after its option, less the equals signs before it. -/
def attached (cs : List Char) : String := String.ofList (cs.dropWhile (· == '='))

/-- Reads `--name` or `--name=value`: the option that waits for its value, if any. -/
def long (cs : List Char) (g : Given) : Except UsageError (Option OptionName × Given) :=
  let body := cs.dropWhile (· == '-')
  let name := String.ofList (body.takeWhile (· != '='))
  match OptionName.all.find? (·.long == name) with
  | some o =>
    match body.dropWhile (· != '=') with
    | [] => .ok (some o, g.use o)
    | value => .ok (none, (g.give o (attached value)).use o)
  | none =>
    if name == "help" then .error .help
    else if name == "version" then .error .version
    else .error .unknownArgument

/-- Reads `-n` or `-nvalue`: the option that waits for its value, if any. -/
def short (cs : List Char) (g : Given) : Except UsageError (Option OptionName × Given) :=
  match cs.dropWhile (· == '-') with
  | [] => .error .unknownArgument
  | c :: value =>
    match OptionName.all.find? (·.short? == some c) with
    | some o =>
      if value.isEmpty then .ok (some o, g.use o)
      else .ok (none, (g.give o (attached value)).use o)
    | none =>
      if c == 'h' then .error .help
      else if c == 'V' then .error .version
      else .error .unknownArgument

/-- Reads the arguments while `waiting` waits for its value. After `--` only arguments without an
option could follow, and there are none; a single dash is a value. -/
def read (waiting : Option OptionName) (g : Given) :
    List String → Except UsageError (Option OptionName × Given)
  | [] => .ok (waiting, g)
  | arg :: rest =>
    if arg == "--" then
      if rest.isEmpty then .ok (waiting, g) else .error .unknownArgument
    else
      match arg.toList with
      | '-' :: '-' :: cs =>
        match long cs g with
        | .ok (waiting, g) => read waiting g rest
        | .error e => .error e
      | '-' :: c :: cs =>
        match short (c :: cs) g with
        | .ok (waiting, g) => read waiting g rest
        | .error e => .error e
      | _ =>
        match waiting with
        | some o => read none (g.give o arg) rest
        | none => .error .unknownArgument

/-! ### Checking what was given -/

/-- Checks one option: it has values, they are allowed, its companion is there, it is used once. -/
def checkOption (g : Given) (o : OptionName) : Except UsageError Unit :=
  if !g.uses.contains o then .ok ()
  else if (g.valuesOf o).isEmpty then .error .emptyValue
  else if !(g.valuesOf o).all o.allows then .error .invalidValue
  else if o.companion?.any (!g.uses.contains ·) then .error .missingRequired
  else if g.uses.count o > 1 then .error .repeated
  else .ok ()

/-- Checks all that was given; the input is required, and comes first. -/
def check (waiting : Option OptionName) (g : Given) : Except UsageError Unit :=
  if !g.uses.contains .input then .error .missingRequired
  else if waiting.any fun o => (g.valuesOf o).isEmpty then .error .emptyValue
  else OptionName.all.forM (checkOption g)

def toOptions (g : Given) : Options where
  input := (g.value? .input).getD ""
  output := g.value? .output
  emit := (g.value? .emit).bind (OptionName.emits.lookup ·)
  stopAfter := (g.value? .stopAfter).bind (OptionName.stages.lookup ·)
  logLevel := (g.value? .logLevel).bind (OptionName.levels.lookup ·)
  logFile := g.value? .logFile

end Args

/-- Reads the command line, without the program's name. -/
def parseArgs (args : List String) : Except UsageError Options :=
  match Args.read none ⟨[], []⟩ args with
  | .error e => .error e
  | .ok (waiting, g) =>
    match Args.check waiting g with
    | .error e => .error e
    | .ok () => .ok (Args.toOptions g)

end StoragePlan
