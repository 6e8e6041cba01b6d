import AvrConformance.Settings

/-!
# The command line

The words of the command line are mnemonics, options, and the path that
follows the option for the configuration file. Mnemonics on the command line
take the place of those in the file.
-/

namespace AvrConformance

/-- What the command line asks for. -/
structure CommandLine where
  /-- The path of the configuration file. -/
  config : Option String
  opcodes : List String
  deriving DecidableEq

/-- Why a command line cannot be used. -/
inductive UsageError where
  /-- The usage is asked for. -/
  | help
  | unknownOption (word : String)
  /-- The option for the configuration file is the last word. -/
  | missingFile
  deriving DecidableEq

namespace CommandLine

/-- How the program is called. -/
def usage : String := "usage: avr-oracle [--config FILE] [MNEMONIC ...]"

/-- Is this the option for the configuration file? -/
def isConfigOption (word : String) : Bool := word == "-c" || word == "--config"

def isHelpOption (word : String) : Bool := word == "-h" || word == "--help"

def isOption (word : String) : Bool := word.toList.head? == some '-'

/-- Reading on through the words of a command line. -/
def parseFrom (soFar : CommandLine) : List String → Except UsageError CommandLine
  | [] => .ok soFar
  | word :: rest =>
    if isConfigOption word then
      match rest with
      | [] => .error .missingFile
      | path :: rest => parseFrom { soFar with config := some path } rest
    else if isHelpOption word then .error .help
    else if isOption word then .error (.unknownOption word)
    else parseFrom { soFar with opcodes := soFar.opcodes ++ [word] } rest

def parse (words : List String) : Except UsageError CommandLine := parseFrom ⟨none, []⟩ words

/-- The settings with the command line's mnemonics, if it has any, in the place
of theirs. They are checked once more then. -/
def override (c : CommandLine) (settings : Settings) : Except SettingsError Settings :=
  if c.opcodes.isEmpty then .ok settings
  else
    let changed := { settings with run := { settings.run with opcodes := c.opcodes } }
    changed.validate.map fun _ => changed

end CommandLine

def UsageError.message : UsageError → String
  | help => CommandLine.usage
  | unknownOption word => s!"unknown option {word}"
  | missingFile => "--config needs a file"

end AvrConformance
