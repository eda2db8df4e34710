import ContentSchema.Command.Arguments
import ContentSchema.Command.Directory
import ContentSchema.Command.Report
import ContentSchema.Config
import ContentSchema.Grammar.Standard
import ContentSchema.Json.Printer
import ContentSchema.Schema.Json
import ContentSchema.Schema.Parse
import ContentSchema.Schema.Text
/-!
What the command line does. Everything is read and worked out before the one file that may be
written, so a failure leaves all files as they were.
-/
namespace ContentSchema.Command

/-- How a run ends when nothing fails. -/
inductive Ending where
  | print (text : String)
  /-- Writes a file, and prints a notice once it is written. -/
  | save (path text notice : String)

/-- A run before it touches anything. -/
structure Plan where
  /-- Printed in any case. -/
  announced : String := ""
  ending : Except String Ending

/-- Gives the text of a file. -/
abbrev ReadFile := String → Except FileFault String

/-- The configuration that the arguments ask for, the standard one by default. -/
def loadConfig (read : ReadFile) (source : Source) : Except String Config := do
  let loaded ← match source.config with
    | none => .ok { mode := .strict, grammar := .standard }
    | some path =>
      let failed (reason : String) := s!"failed to load config \x60{path}\x60: {reason}"
      match read path with
      | .error fault => .error (failed s!"IO error: {fault.message}")
      | .ok text => (Config.ofText text).mapError (failed ·.message)
  return { loaded with mode := source.mode.getD loaded.mode }

/-- Parses the text of the document. -/
def parseText (fresh : Nat → String) (config : Config) (source : Source) (text : String) :
    Except String Schema :=
  (Schema.parse fresh config.mode config.grammar text).mapError
    (s!"{source.input}: {·.message}")

/-- Loads the configuration, then the document. -/
def load (fresh : Nat → String) (read : ReadFile) (source : Source) : Except String Schema := do
  let config ← loadConfig read source
  match read source.input with
  | .error fault => throw s!"failed to read \x60{source.input}\x60: {fault.message}"
  | .ok text => parseText fresh config source text

def wrote (path : String) : String := lines [s!"wrote {path}"]

/-- The canonical text of the document, and where it goes. -/
def formatDocument (fresh : Nat → String) (read : ReadFile) (source : Source)
    (out : Option String) (inPlace : Bool) : Except String Ending := do
  let config ← loadConfig read source
  if inPlace && out.isSome then throw "cannot use --write and --out together"
  let text ← (read source.input).mapError (·.message)
  let formatted := (← parseText fresh config source text).text config.grammar
  if inPlace then return .save source.input formatted (lines [s!"formatted {source.input}"])
  match out with
  | some path => return .save path formatted (wrote path)
  | none => return .print formatted

def plan (fresh : Nat → String) (color : Bool) (read : ReadFile) (source : Source) :
    Action → Plan
  | .check =>
    { announced := checking color source.input
      ending := (load fresh read source).map (.print <| summary color ·) }
  | .parse out =>
    { ending := do
        let json := (← load fresh read source).toJson.print
        match out with
        | some path => return .save path json (wrote path)
        | none => return .print (lines [json]) }
  | .format out inPlace => { ending := formatDocument fresh read source out inPlace }
  | .stats limit =>
    { ending := do
        let s ← load fresh read source
        return .print (statistics color source.input limit s.stats) }

/-- What a run leaves behind besides files. -/
structure Outcome where
  exit : UInt32
  stdout : String := ""
  stderr : String := ""
deriving DecidableEq

namespace Outcome

def failure (announced message : String) : Outcome :=
  { exit := 1, stdout := announced, stderr := lines [s!"Error: {message}"] }

/-- Arguments that are not understood. -/
def wrongUsage : Outcome :=
  { exit := 2, stderr := lines ["Error: wrong usage; --help shows the commands"] }

def help : Outcome :=
  { exit := 0
    stdout := lines [
      "Content schemas described in KML", "",
      "Usage: kimmel <check|parse|fmt|stats> <INPUT> [--mode strict|loose] [--config FILE]",
      "       parse, fmt: [-o FILE]   fmt: [--write]   stats: [--max-chains N]"] }

def version : Outcome := { exit := 0, stdout := lines ["kimmel 0.3.0"] }

end Outcome

/-- Carries out a plan in a directory. -/
def Plan.execute (p : Plan) (d : Directory) : Outcome × Directory :=
  match p.ending with
  | .error message => (.failure p.announced message, d)
  | .ok (.print text) => ({ exit := 0, stdout := p.announced ++ text }, d)
  | .ok (.save path text notice) =>
    match d.write path text with
    | .error fault => (.failure p.announced fault.message, d)
    | .ok d => ({ exit := 0, stdout := p.announced ++ notice }, d)

/-- Runs the command line in a directory. -/
def run (fresh : Nat → String) (color : Bool) (args : List String) (d : Directory) :
    Outcome × Directory :=
  match readAll args with
  | none => (.wrongUsage, d)
  | some .help => (.help, d)
  | some .version => (.version, d)
  | some (.run source action) => (plan fresh color d.read source action).execute d

end ContentSchema.Command
