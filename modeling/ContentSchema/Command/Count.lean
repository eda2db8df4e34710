import ContentSchema.Command.Run
/-!
A command line that only counts: a document under the standard grammar, and how many types and
chains it has.
-/
namespace ContentSchema.Command

/-- Arguments behind the mode are passed over. -/
def count (fresh : Nat → String) (read : ReadFile) : List String → Outcome
  | [] => { exit := 2, stderr := lines ["usage: kimmel_parse_kml <file.kml> [strict|loose]"] }
  | path :: rest =>
    let name := rest.head?.getD Mode.strict.name
    match Mode.ofName? name with
    | none =>
      { exit := 2
        stderr := lines [s!"unknown mode \x60{name}\x60 (expected strict or loose)"] }
    | some mode =>
      match read path with
      | .error fault =>
        { exit := 2, stderr := lines [s!"failed to read \x60{path}\x60: {fault.message}"] }
      | .ok text =>
        match Schema.parse fresh mode .standard text with
        | .error e => { exit := 1, stderr := lines [e.message] }
        | .ok s =>
          { exit := 0
            stdout := lines [s!"ok(kml, {mode.name}): types={s.types.length} " ++
              s!"snippets={s.snippetTypes.length} chains={s.stats.chains.length} " ++
              s!"closed={s.stats.closedChains.length}"] }

end ContentSchema.Command
