import ContentSchema.Command.Count
import ContentSchema.Command.Run
/-!
The command line in the file system. Everything that is printed or written is worked out by
`Command.plan` and `Command.count`; a program of another name than the schema tool only counts.
-/
namespace ContentSchema.Main
open Command

def fault : IO.Error → FileFault
  | .noFileOrDirectory .. => .missing
  | e => .other (toString e)

/-- The bytes of a file as a text. -/
def readFile (path : String) : IO (Except FileFault String) := do
  try
    return FileFault.decode (← IO.FS.readBinFile path)
  catch e => return .error (fault e)

/-- The files that are asked for, read before anything else is done. -/
def readFiles (paths : List String) : IO ReadFile := do
  let contents ← paths.mapM fun path => return (path, ← readFile path)
  return fun path => (contents.lookup path).getD (.error .missing)

/-- Endings of the form of version 4 ids. All are drawn at once; they differ in their last part. -/
def endings : IO (Nat → String) := do
  let hex (digits n : Nat) : String :=
    let cs := Nat.toDigits 16 n
    .ofList (List.replicate (digits - cs.length) '0' ++ cs)
  let a ← IO.rand 0 0xFFFFFFFF
  let b ← IO.rand 0 0xFFFF
  let c ← IO.rand 0 0xFFF
  let d ← IO.rand 0x8000 0xBFFF
  let e ← IO.rand 0 0xFFFFFFFFFFFF
  let stem := s!"{hex 8 a}-{hex 4 b}-4{hex 3 c}-{hex 4 d}-"
  return fun n => stem ++ hex 12 ((e + n) % 0x1000000000000)

def finish (o : Outcome) : IO UInt32 := do
  IO.print o.stdout
  IO.eprint o.stderr
  return o.exit

def carryOut (p : Plan) : IO UInt32 :=
  match p.ending with
  | .error message => finish (.failure p.announced message)
  | .ok (.print text) => finish { exit := 0, stdout := p.announced ++ text }
  | .ok (.save path text notice) => do
    try
      IO.FS.writeFile path text
      finish { exit := 0, stdout := p.announced ++ notice }
    catch e => finish (.failure p.announced (fault e).message)

end ContentSchema.Main

open ContentSchema ContentSchema.Main in
def main (args : List String) : IO UInt32 := do
  if (← IO.appPath).fileName = some "kimmel_parse_kml" then
    let read ← readFiles (args.take 1)
    finish (Command.count (← endings) read args)
  else
    match Command.readAll args with
    | none => finish .wrongUsage
    | some .help => finish .help
    | some .version => finish .version
    | some (.run source action) =>
      let read ← readFiles (source.config.toList ++ [source.input])
      let color := (← IO.getEnv "NO_COLOR").isNone && (← (← IO.getStdout).isTty)
      carryOut (Command.plan (← endings) color read source action)
