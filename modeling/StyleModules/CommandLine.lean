import StyleModules.Build.Basic
import StyleModules.Options.Config

/-!
The command line: two directories, and options between, before or behind them.

* An option with a value is written `--name value` or `--name=value`; a switch takes no value. None
  may be given twice. A word that starts with `-` is no value, except `-` itself.
* All words behind `--` are directories.
* `run` reads the configuration, which stands in the input if no other is named, lets the options
  change what it says, and builds.
-/

namespace StyleModules

/-- Why a command line makes no sense. -/
inductive UsageError where
  | unknown (word : Text)
  | repeated (option : Text)
  | noValue (option : Text)
  | needlessValue (option : Text)
  | badValue (option value : Text)
  | missingDirectory
  deriving DecidableEq, Repr

/-- The words in which a reason is reported. -/
def UsageError.message : UsageError → Text
  | unknown word => "unexpected argument ".toList ++ word
  | repeated option => "--".toList ++ option ++ " is given twice".toList
  | noValue option => "--".toList ++ option ++ " needs a value".toList
  | needlessValue option => "--".toList ++ option ++ " takes no value".toList
  | badValue option value => "--".toList ++ option ++ " cannot be ".toList ++ value
  | missingDirectory => "an input and an output directory are needed".toList

namespace CommandLine

/-! ## 1. Words -/

/-- The directories, the options with their values, and the switches, as they were given. -/
structure Words where
  directories : List Text
  values : Table Text
  switches : List Text
  deriving DecidableEq, Repr

/-- The options that have a value. -/
def valueNames : List Text :=
  ["extension", "encoding", "source-map-base-dir", "config"].map String.toList

/-- The options that have none. -/
def switchNames : List Text :=
  ["source-maps", "allow-missing-modules", "warn-missing-symbols"].map String.toList

/-- Whether a word is meant as an option. -/
def isOption (word : Text) : Bool :=
  word.head? == some '-' && word ≠ "-".toList

namespace Words

/-- No words. -/
def empty : Words :=
  ⟨[], .empty, []⟩

/-- Give an option a value. -/
def setValue (w : Words) (name value : Text) : Except UsageError Words :=
  if !valueNames.contains name then
    .error (if switchNames.contains name then .needlessValue name else .unknown name)
  else if w.values.contains name then .error (.repeated name)
  else .ok { w with values := w.values.insert name value }

/-- Turn a switch on. -/
def setSwitch (w : Words) (name : Text) : Except UsageError Words :=
  if !switchNames.contains name then .error (.unknown name)
  else if w.switches.contains name then .error (.repeated name)
  else .ok { w with switches := w.switches ++ [name] }

/-- Read words, after others. -/
def read (w : Words) : List Text → Except UsageError Words
  | [] => .ok w
  | word :: rest =>
    if !isOption word then { w with directories := w.directories ++ [word] }.read rest
    else
      match "--".toList.isPrefixOf? word with
      | none => .error (.unknown word)
      | some [] => .ok { w with directories := w.directories ++ rest }
      | some name =>
        match Text.cutAt (· == '=') name with
        | some (name, value) => (w.setValue name value).bind (·.read rest)
        | none =>
          if !valueNames.contains name then (w.setSwitch name).bind (·.read rest)
          else
            match rest with
            | [] => .error (.noValue name)
            | value :: rest =>
              if isOption value then .error (.noValue name)
              else (w.setValue name value).bind (·.read rest)

/-- The value of an option. -/
def value? (w : Words) (name : String) : Option Text :=
  w.values.get? name.toList

/-- Whether a switch is on. -/
def isOn (w : Words) (name : String) : Bool :=
  w.switches.contains name.toList

/-- The encoding that is asked for, if any. -/
def encoding? (w : Words) : Except UsageError (Option Encoding) :=
  match w.value? "encoding" with
  | none => .ok none
  | some name =>
    match Encoding.ofName? name with
    | some encoding => .ok (some encoding)
    | none => .error (.badValue "encoding".toList name)

end Words

/-! ## 2. Arguments -/

/-- What a command line asks for. -/
structure Arguments where
  input : Text
  output : Text
  extension : Option Text
  encoding : Option Encoding
  sourceMaps : Bool
  baseDir : Option Text
  config : Option Text
  tolerance : Tolerance
  deriving DecidableEq, Repr

namespace Arguments

/-- What the words of a command line ask for. -/
def ofWords (w : Words) : Except UsageError Arguments :=
  match w.directories with
  | input :: output :: more =>
    match more with
    | word :: _ => .error (.unknown word)
    | [] =>
      w.encoding?.map fun encoding =>
        { input, output, encoding
          extension := w.value? "extension"
          sourceMaps := w.isOn "source-maps"
          baseDir := w.value? "source-map-base-dir"
          config := w.value? "config"
          tolerance := ⟨w.isOn "allow-missing-modules", w.isOn "warn-missing-symbols"⟩ }
  | _ => .error .missingDirectory

/-- What a command line asks for. -/
def ofList (args : List Text) : Except UsageError Arguments :=
  (Words.empty.read args).bind ofWords

/-- Where the configuration is read. -/
def configPath (a : Arguments) : Text :=
  a.config.getD (Path.join a.input "css-modules.json".toList)

/-- Options changed by the command line. Source maps that were asked for keep the directory of the
    configuration, unless another is given. -/
def change (a : Arguments) (o : Options) : Options :=
  { o with
    extension := a.extension.getD o.extension
    encoding := a.encoding.getD o.encoding
    sourceMaps :=
      if a.sourceMaps || a.baseDir.isSome then
        some ⟨a.baseDir.orElse fun _ => o.sourceMaps.bind SourceMaps.baseDir⟩
      else o.sourceMaps
    tolerance := a.tolerance }

end Arguments

/-! ## 3. The program -/

/-- How a run of the program ends. -/
inductive Outcome where
  | misused (error : UsageError)
  | misconfigured (error : ConfigError)
  | failed (error : BuildError)
  | stalled
  | done (output : BuildOutput)
  deriving DecidableEq, Repr

/-- The exit code of the program. -/
def Outcome.exitCode : Outcome → UInt8
  | misused _ => 2
  | misconfigured _ => 2
  | failed _ => 1
  | stalled => 1
  | done _ => 0

/-- What the program says in the end. -/
def Outcome.message : Outcome → Text
  | misused error => error.message
  | misconfigured error => error.message
  | failed error => Text.join ['\n'] error.report
  | stalled => "the imports form a cycle".toList
  | done output =>
    "Compiled ".toList ++ Text.ofNat output.compiled.length ++ " modules, copied ".toList ++
      Text.ofNat output.copied.length ++ " other files".toList

/-- Run the program on files. -/
def run (args : List Text) (d : Disk) : Outcome × Session :=
  match Arguments.ofList args with
  | .error e => (.misused e, .ofDisk d)
  | .ok a =>
    match Options.ofConfigFile d a.configPath with
    | (.error e, events) => (.misconfigured e, (Session.ofDisk d).note events)
    | (.ok options, events) =>
      match build a.input a.output (a.change options) ((Session.ofDisk d).note events) with
      | (.done output, s) => (.done output, s)
      | (.failed e, s) => (.failed e, s)
      | (.stalled, s) => (.stalled, s)

end CommandLine

end StyleModules
