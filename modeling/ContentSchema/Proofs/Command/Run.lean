import ContentSchema.Command.Run
import ContentSchema.Proofs.Description.Given
/-!
What a run leaves of the files. A run that fails leaves all of them as they are, and one that
succeeds changes at most the file that the arguments ask for (`run_rewrites`).
-/
namespace ContentSchema

namespace Directory

variable {d d' : Directory} {name other path text : String} {bytes : ByteArray}
  {files : List (String × ByteArray)}

/-- The file of the name holds the text in the second directory; all others are as in the first. -/
structure Rewritten (d : Directory) (name text : String) (d' : Directory) : Prop where
  content : d'.files.lookup name = some text.toUTF8
  others : ∀ other ≠ name, d'.files.lookup other = d.files.lookup other

theorem lookup_put_self : (put name bytes files).lookup name = some bytes := by
  induction files with
  | nil => simp [put]
  | cons file files ih =>
    rw [put]
    split
    · simp
    · next apart =>
      rw [List.lookup_cons, beq_eq_false_iff_ne.mpr (Ne.symm apart)]
      exact ih

theorem lookup_put_of_ne (apart : other ≠ name) :
    (put name bytes files).lookup other = files.lookup other := by
  have elsewhere : (other == name) = false := beq_eq_false_iff_ne.mpr apart
  induction files with
  | nil => simp [put, List.lookup_cons, elsewhere]
  | cons file files ih =>
    rw [put]
    split
    · next same => rw [List.lookup_cons, List.lookup_cons, same, elsewhere]
    · rw [List.lookup_cons, List.lookup_cons, ih]

/-- Writing rewrites the file that the path leads to. -/
theorem rewritten_of_write (written : d.write path text = .ok d') :
    ∃ name, d.target path = .file name ∧ Rewritten d name text d' := by
  rw [write] at written
  split at written
  · contradiction
  · contradiction
  · next name leads =>
    split at written
    · contradiction
    · cases written
      refine ⟨name, leads, ?_⟩
      constructor
      case content => exact lookup_put_self
      case others => exact fun other apart => lookup_put_of_ne apart

end Directory

namespace Command

variable {fresh : Nat → String} {read : ReadFile} {source : Source} {config : Config} {s : Schema}

/-- The files hold the configuration of the source, and a document that is the schema under it. -/
structure Source.Holds (fresh : Nat → String) (read : ReadFile) (source : Source) (config : Config)
    (s : Schema) : Prop where
  configured : loadConfig read source = .ok config
  document : ∃ text, read source.input = .ok text ∧
    Schema.parse fresh config.mode config.grammar text = .ok s

/-- The document of a source goes to a path, in the text that is made of it. -/
structure Output where
  source : Source
  path : String
  text : Grammar → Schema → String

/-- What the arguments ask to be written: all other runs only print. -/
def Request.output? : Request → Option Output
  | .run source (.parse (some path)) => some { source, path, text := fun _ s => s.toJson.print }
  | .run source (.format (some path) false) => some { source, path, text := fun g s => s.text g }
  | .run source (.format _ true) =>
    some { source, path := source.input, text := fun g s => s.text g }
  | _ => none

theorem ok_of_mapError {α ε ε' : Type} {x : Except ε α} {f : ε → ε'} {a : α}
    (mapped : x.mapError f = .ok a) : x = .ok a := by
  cases x with
  | error e => contradiction
  | ok b => exact congrArg _ (Except.ok.inj mapped)

theorem holds_of_load (loaded : load fresh read source = .ok s) :
    ∃ config, source.Holds fresh read config s := by
  obtain ⟨config, configured, loaded⟩ := of_bind_eq_ok loaded
  split at loaded
  · contradiction
  · next text input => exact ⟨config, configured, text, input, ok_of_mapError loaded⟩

/-- What a plan saves is the text that its output makes of the document. -/
def Saves (fresh : Nat → String) (read : ReadFile) (output : Output) : Ending → Prop
  | .print _ => False
  | .save path text _ => path = output.path ∧ ∃ config s,
      output.source.Holds fresh read config s ∧ text = output.text config.grammar s

theorem holds_of_read {α : Type} {finish : Schema → Except String α} {a : α}
    (configured : loadConfig read source = .ok config)
    (finished : (do
      let text ← (read source.input).mapError FileFault.message
      finish (← parseText fresh config source text)) = .ok a) :
    ∃ s, source.Holds fresh read config s ∧ finish s = .ok a := by
  obtain ⟨text, input, finished⟩ := of_bind_eq_ok finished
  obtain ⟨s, parsed, finished⟩ := of_bind_eq_ok finished
  exact ⟨s, ⟨configured, text, ok_of_mapError input, ok_of_mapError parsed⟩, finished⟩

theorem saves_of_formatDocument {out : Option String} {inPlace : Bool} {ending : Ending}
    (formatted : formatDocument fresh read source out inPlace = .ok ending) :
    match Request.output? (.run source (.format out inPlace)) with
    | some output => Saves fresh read output ending
    | none => ∃ text, ending = .print text := by
  obtain ⟨config, configured, formatted⟩ := of_bind_eq_ok formatted
  cases inPlace with
  | true =>
    cases out with
    | some path => contradiction
    | none =>
      obtain ⟨s, holds, finished⟩ := holds_of_read configured formatted
      cases finished
      exact ⟨rfl, config, s, holds, rfl⟩
  | false =>
    obtain ⟨s, holds, finished⟩ := holds_of_read configured formatted
    cases out with
    | none =>
      cases finished
      exact ⟨_, rfl⟩
    | some path =>
      cases finished
      exact ⟨rfl, config, s, holds, rfl⟩

theorem saves_of_plan {color : Bool} {action : Action} {ending : Ending}
    (planned : (plan fresh color read source action).ending = .ok ending) :
    match Request.output? (.run source action) with
    | some output => Saves fresh read output ending
    | none => ∃ text, ending = .print text := by
  cases action with
  | check =>
    cases loaded : load fresh read source with
    | error message => simp [plan, loaded, Except.map] at planned
    | ok s =>
      simp only [plan, loaded, Except.map, Except.ok.injEq] at planned
      exact ⟨_, planned.symm⟩
  | parse out =>
    obtain ⟨s, loaded, planned⟩ := of_bind_eq_ok planned
    obtain ⟨config, holds⟩ := holds_of_load loaded
    cases out with
    | none =>
      cases planned
      exact ⟨_, rfl⟩
    | some path =>
      cases planned
      exact ⟨rfl, config, s, holds, rfl⟩
  | format out inPlace => exact saves_of_formatDocument planned
  | stats limit =>
    obtain ⟨s, loaded, planned⟩ := of_bind_eq_ok planned
    cases planned
    exact ⟨_, rfl⟩

/-- The files after the ending of a plan. -/
def Ending.Leaves (d after : Directory) : Ending → Prop
  | .print _ => after = d
  | .save path text _ => d.write path text = .ok after

/-- A plan that is carried out writes what it ends with, and nothing if anything fails. -/
theorem execute_files (p : Plan) (d : Directory) :
    if (p.execute d).1.exit = 0 then
      ∃ ending, p.ending = .ok ending ∧ ending.Leaves d (p.execute d).2
    else (p.execute d).2 = d := by
  rw [Plan.execute]
  cases ends : p.ending with
  | error message => rfl
  | ok ending =>
    cases ending with
    | print text => exact ⟨_, rfl, rfl⟩
    | save path text notice =>
      cases written : d.write path text with
      | error fault => simp [written, Outcome.failure]
      | ok d' =>
        simp only [written]
        exact ⟨_, rfl, written⟩

/-- The file of the output holds the text that is made of the document as it was in the files before;
all other files are as they were. -/
def Output.Written (fresh : Nat → String) (d : Directory) (output : Output) (after : Directory) :
    Prop :=
  ∃ config s name, output.source.Holds fresh d.read config s ∧
    d.target output.path = .file name ∧ d.Rewritten name (output.text config.grammar s) after

/-- What an ending does to the files is what the arguments have asked for. -/
theorem written_of_plan {color : Bool} {action : Action} {ending : Ending} {d after : Directory}
    (planned : (plan fresh color d.read source action).ending = .ok ending)
    (files : ending.Leaves d after) :
    match Request.output? (.run source action) with
    | none => after = d
    | some output => output.Written fresh d after := by
  have saves := saves_of_plan planned
  cases asked : Request.output? (.run source action) with
  | none =>
    rw [asked] at saves
    obtain ⟨text, rfl⟩ := saves
    exact files
  | some output =>
    rw [asked] at saves
    cases ending with
    | print text => contradiction
    | save path text notice =>
      obtain ⟨rfl, config, s, holds, rfl⟩ := saves
      obtain ⟨name, leads, rewritten⟩ := Directory.rewritten_of_write files
      exact ⟨config, s, name, holds, leads, rewritten⟩

/-- The output may be the document itself, which is read before it is written. -/
example : ((readAll ["fmt", "a", "-o", "a"]).bind Request.output?).map
    (fun output => (output.source.input, output.path)) = some ("a", "a") := by
  decide

end Command

end ContentSchema
