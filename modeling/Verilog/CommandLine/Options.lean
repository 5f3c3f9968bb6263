import Verilog.Text.Basic

/-!
# Options of the command line

The words of a command line are options up to the first word that is none; from there on, and after
two hyphens, all words are arguments. A switch stands alone; a setting takes the word that follows,
or the text behind an equals sign. Words with hyphens that name no option are arguments too. No
option may be given twice.
-/

namespace Verilog

/-- An option without value. -/
inductive Switch where
  | verbose | syntaxOnly | writeText | failFast | preprocessedPlaces
  deriving DecidableEq, Repr

/-- An option with a value. -/
inductive Setting where
  | config | dumpIr | logFile | library
  deriving DecidableEq, Repr

/-- What an option is for. -/
inductive OptionKind where
  | switch (s : Switch)
  | setting (s : Setting)
  | help
  | version
  deriving DecidableEq, Repr

namespace OptionKind

/-- The options, by the words behind two hyphens. -/
def ofWord? : String → Option OptionKind
  | "verbose" => some (.switch .verbose)
  | "syntax-only" => some (.switch .syntaxOnly)
  | "write-pp" => some (.switch .writeText)
  | "fail-fast" => some (.switch .failFast)
  | "pp-output-location" => some (.switch .preprocessedPlaces)
  | "config" => some (.setting .config)
  | "dump-ir" => some (.setting .dumpIr)
  | "log-file" => some (.setting .logFile)
  | "lib" => some (.setting .library)
  | "help" => some .help
  | "version" => some .version
  | _ => none

/-- The options, by the letters behind one hyphen. -/
def ofLetter? : Char → Option OptionKind
  | 'v' => some (.switch .verbose)
  | 's' => some (.switch .syntaxOnly)
  | 'h' => some .help
  | 'V' => some .version
  | _ => none

end OptionKind

/-- What a command line says. -/
structure Options where
  switches : List Switch := []
  settings : List (Setting × String) := []
  /-- The words that are no options. -/
  arguments : List String := []
  deriving DecidableEq, Repr

/-- Why a command line is not followed. -/
inductive UsageFault where
  | helpAsked
  | versionAsked
  /-- An option is given twice. -/
  | repeated
  /-- A setting has no value, or an empty path. -/
  | noValue
  /-- A switch has a value. -/
  | unwantedValue
  deriving DecidableEq, Repr

namespace Options

/-- Is a switch given? -/
def has (o : Options) (s : Switch) : Bool := o.switches.contains s

/-- The value of a setting. -/
def value? (o : Options) (s : Setting) : Option String :=
  (o.settings.find? (·.1 == s)).map (·.2)

/-- Adds a switch. -/
def addSwitch (o : Options) (s : Switch) : Except UsageFault Options :=
  if o.has s then .error .repeated else .ok { o with switches := o.switches ++ [s] }

/-- Adds a setting. All values but that of the library are paths, and no path is empty. -/
def addSetting (o : Options) (s : Setting) (value : String) : Except UsageFault Options :=
  if (o.value? s).isSome then .error .repeated
  else if s != .library && value.isEmpty then .error .noValue
  else .ok { o with settings := o.settings ++ [(s, value)] }

/-- Adds an option that stands alone. -/
def addAlone (o : Options) : OptionKind → Except UsageFault Options
  | .switch s => o.addSwitch s
  | .setting _ => .error .noValue
  | .help => .error .helpAsked
  | .version => .error .versionAsked

/-- Adds an option with a value behind an equals sign. -/
def addWithValue (o : Options) (kind : OptionKind) (value : String) : Except UsageFault Options :=
  match kind with
  | .setting s => o.addSetting s value
  | _ => .error .unwantedValue

end Options

/-- What a word is. -/
inductive CommandWord where
  | argument
  /-- The two hyphens that end the options. -/
  | separator
  /-- Options of one letter. -/
  | letters (kinds : List OptionKind)
  | option (kind : OptionKind) (value : Option String)
  deriving DecidableEq, Repr

namespace CommandWord

/-- What a word is, if options are still possible. A word of letters is an argument as soon as one
of them names no option. -/
def ofWord (w : String) : CommandWord :=
  match w.toList with
  | ['-', '-'] => .separator
  | '-' :: '-' :: rest =>
    let (name, value) := cutAtChar '=' rest
    match OptionKind.ofWord? (String.ofList name) with
    | some kind => .option kind (value.map String.ofList)
    | none => .argument
  | '-' :: c :: rest =>
    match (c :: rest).mapM OptionKind.ofLetter? with
    | some kinds => .letters kinds
    | none => .argument
  | _ => .argument

end CommandWord

namespace Options

mutual

/-- Reads the words of a command line. -/
def readWords (o : Options) : List String → Except UsageFault Options
  | [] => .ok o
  | w :: ws =>
    match CommandWord.ofWord w with
    | .argument => .ok { o with arguments := w :: ws }
    | .separator => .ok { o with arguments := ws }
    | .letters kinds => do readWords (← kinds.foldlM addAlone o) ws
    | .option kind (some value) => do readWords (← o.addWithValue kind value) ws
    | .option (.setting s) none => readValue o s ws
    | .option kind none => do readWords (← o.addAlone kind) ws

/-- Reads the value of a setting and the words behind it. A word that is an option is no value. -/
def readValue (o : Options) (s : Setting) : List String → Except UsageFault Options
  | [] => .error .noValue
  | w :: ws =>
    match CommandWord.ofWord w with
    | .argument => do readWords (← o.addSetting s w) ws
    | _ => .error .noValue

end

/-- Reads a command line. -/
def ofWords (ws : List String) : Except UsageFault Options := readWords {} ws

end Options

end Verilog
