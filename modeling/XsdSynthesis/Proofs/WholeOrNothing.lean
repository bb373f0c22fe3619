import XsdSynthesis.CommandLine.Run
import XsdSynthesis.Proofs.FilePlaces
import XsdSynthesis.Proofs.Success

/-!
# XsdSynthesis.Proofs.WholeOrNothing

A run of the command line writes a whole document or nothing. `Produces` says which text a run is to write,
if any: both inputs are read before anything is written, so it depends on the workspace before the run
only. Without such a text the run fails and leaves everything as it was; with one, the destination holds
exactly that text, and every other file what it held (`run_whole_or_nothing`).
-/

namespace XsdSynthesis
namespace CommandLine

open Xsd

/-- The text that settings ask for in a workspace: both inputs are files that parse, the conversion under
the name and the options of the settings gives a document, and the text is that of the document. -/
inductive Produces (settings : Settings) (w : Workspace) : String → Prop where
  | mk {schema metadata : ByteArray} {j : Json} {c : Classification} {d : Document} :
      w.find settings.input = .file schema → Json.ofBytes? schema = some j →
      w.find settings.metadata = .file metadata → Classification.ofBytes? metadata = some c →
      convertJson j ⟨settings.messageName.getD c.messageName, c.inlineRoot, c.shapes⟩
        ⟨settings.maxDepth, settings.strictAttributes⟩ = .ok d →
      Produces settings w (match settings.format with
        | .xsd => d.text
        | .json => d.toJson.pretty ++ "\n")

variable {settings : Settings} {w : Workspace} {text path : String} {place : Place}

/-! ## What is produced -/

theorem readInput_ok {α : Type} {decode : ByteArray → Option α} {input : Input} {found : Found}
    {a : α} : readInput decode input path found = .ok a ↔
      ∃ bytes, found = .file bytes ∧ decode bytes = some a := by
  cases found with
  | missing => exact ⟨nofun, nofun⟩
  | unreadable => exact ⟨nofun, nofun⟩
  | file bytes =>
    rw [readInput]
    constructor
    · intro h
      split at h
      · rename_i hd
        cases h
        exact ⟨bytes, rfl, hd⟩
      · cases h
    · rintro ⟨_, ⟨⟩, hd⟩
      rw [hd]

theorem conversion_ok {schema metadata : Found} {outcome : Except Problem Document × List Event} :
    conversion settings schema metadata = .ok outcome ↔
      ∃ j c, readInput Json.ofBytes? .schema settings.input schema = .ok j ∧
        readInput Classification.ofBytes? .metadata settings.metadata metadata = .ok c ∧
        tracedJson j (classifierOf settings c) ⟨settings.maxDepth, settings.strictAttributes⟩ =
          outcome := by
  simp only [conversion, Checks.bind_ok, Checks.pure_ok]
  constructor
  · rintro ⟨j, hj, c, hc, h⟩
    exact ⟨j, c, hj, hc, h⟩
  · rintro ⟨j, c, hj, hc, h⟩
    exact ⟨j, hj, c, hc, h⟩

theorem product_eq_ok {schema metadata : Found} :
    product settings schema metadata = .ok text ↔
      ∃ d log, conversion settings schema metadata = .ok (.ok d, log) ∧
        settings.format.write d = text := by
  rw [product]
  constructor
  · intro h
    split at h
    · cases h
    · cases h
    · rename_i d log hrun
      cases h
      exact ⟨d, log, hrun, rfl⟩
  · rintro ⟨d, log, hrun, rfl⟩
    rw [hrun]

/-- **A run has a text to write exactly if one is produced.** -/
theorem product_ok :
    product settings (w.find settings.input) (w.find settings.metadata) = .ok text ↔
      Produces settings w text := by
  constructor
  · intro h
    obtain ⟨d, log, hrun, rfl⟩ := product_eq_ok.1 h
    obtain ⟨j, c, hj, hc, htraced⟩ := conversion_ok.1 hrun
    obtain ⟨schema, hschema, hj⟩ := readInput_ok.1 hj
    obtain ⟨metadata, hmetadata, hc⟩ := readInput_ok.1 hc
    have hd : convertJson j (classifierOf settings c)
        ⟨settings.maxDepth, settings.strictAttributes⟩ = .ok d := congrArg Prod.fst htraced
    exact .mk hschema hj hmetadata hc hd
  · intro h
    cases h with
    | @mk schema metadata j c d hschema hj hmetadata hc hd =>
      refine product_eq_ok.2 ⟨d, _, conversion_ok.2 ⟨j, c, readInput_ok.2 ⟨schema, hschema, hj⟩,
        readInput_ok.2 ⟨metadata, hmetadata, hc⟩, Prod.ext hd rfl⟩, rfl⟩

/-! ## Where it goes -/

/-- What a run with a text does to where it writes: it prints the text, puts it into a file, passes it on
to a device, or fails if it can do none of this. All paths that lead elsewhere find what they found
before. -/
structure WritesWhole (w : Workspace) (output : Option String) (text : String)
    (report : CommandLine.Report) (after : Workspace) : Prop where
  printed : output = none → report.exit = 0 ∧ report.stdout = text ∧ after = w
  stored : ∀ path place, output = some path → w.Writable path place →
    report.exit = 0 ∧ report.stdout = "" ∧
      ∀ other, after.find other =
        if w.locate other = some place then .file text.toUTF8 else w.find other
  passed : ∀ path device, output = some path → w.Passes path device →
    report.exit = 0 ∧ report.stdout = (if device = .output then text else "") ∧ after = w
  refused : ∀ path, output = some path → (∀ place, ¬ w.Writable path place) →
    (∀ device, ¬ w.Passes path device) → report.exit = 1 ∧ report.stdout = "" ∧ after = w

/-- Without a text to write a run fails, and nothing is written. -/
theorem runConvert_nothing (h : ¬ ∃ text, Produces settings w text) :
    (runConvert settings w).1.exit = 1 ∧ (runConvert settings w).1.stdout = "" ∧
      (runConvert settings w).2 = w := by
  cases hp : product settings (w.find settings.input) (w.find settings.metadata) with
  | error failure =>
    rw [runConvert, hp]
    exact ⟨rfl, rfl, rfl⟩
  | ok text => exact absurd ⟨text, product_ok.1 hp⟩ h

theorem runConvert_whole (h : Produces settings w text) :
    WritesWhole w settings.output text (runConvert settings w).1 (runConvert settings w).2 := by
  rw [runConvert, product_ok.2 h]
  cases ho : settings.output with
  | none => exact ⟨fun _ => ⟨rfl, rfl, rfl⟩, nofun, nofun, nofun⟩
  | some path =>
    refine ⟨nofun, ?_, ?_, ?_⟩
    · rintro _ place ⟨⟩ hpath
      dsimp only
      rw [Workspace.write_of_writable hpath]
      exact ⟨rfl, rfl, Workspace.find_put hpath _⟩
    · rintro _ device ⟨⟩ hpath
      dsimp only
      rw [Workspace.write_of_passes hpath]
      cases device with
      | output => exact ⟨rfl, rfl, rfl⟩
      | null | source => exact ⟨rfl, rfl, rfl⟩
      | full => exact absurd rfl hpath.accepts
    · rintro _ ⟨⟩ hno hpass
      dsimp only
      rcases Workspace.write_of_neither hno hpass text.toUTF8 with hw | hw
      · rw [hw]
        exact ⟨rfl, rfl, rfl⟩
      · rw [hw]
        exact ⟨rfl, rfl, rfl⟩

/-- **A run writes a whole document or nothing.** If nothing is produced, the run fails and changes
nothing. If a text is produced, it goes to standard output or to the given file as a whole, and no other
file changes. -/
theorem run_whole_or_nothing {args : List String}
    (h : Invocation.ofArguments args = .convert settings) (w : Workspace) :
    ((¬ ∃ text, Produces settings w text) →
      (run args w).1.exit = 1 ∧ (run args w).1.stdout = "" ∧ (run args w).2 = w) ∧
    ∀ text, Produces settings w text →
      WritesWhole w settings.output text (run args w).1 (run args w).2 := by
  have hrun : run args w = runConvert settings w := by rw [run, h]
  rw [hrun]
  exact ⟨runConvert_nothing, fun text => runConvert_whole⟩

/-- A schema with the shape of its root, in the usual two files. -/
def twoFiles : Workspace :=
  .ofFiles [("s.json", "\x7b\"type\": \"string\"\x7d".toUTF8),
    ("m.json", "[\"A\", true, \x7b\"#\": [\"SimpleType\"]\x7d]".toUTF8)]

def inPlace : Settings :=
  { input := "s.json", metadata := "m.json", output := some "./s.json", messageName := some "B" }

def inPlaceArguments : List String :=
  ["convert", "s.json", "-m", "m.json", "-o", "./s.json", "--message-name", "B"]

/-- The document may replace the schema that it is made of. -/
theorem run_whole_or_nothing_inPlace :
    Invocation.ofArguments inPlaceArguments = .convert inPlace ∧
    twoFiles.Writable "./s.json" ⟨["tmp", "", "s.json"]⟩ ∧
    ∃ text report after, Produces inPlace twoFiles text ∧
      run inPlaceArguments twoFiles = (report, after) ∧ report.exit = 0 ∧ report.stdout = "" ∧
      after.find "s.json" = .file text.toUTF8 ∧ after.find "m.json" = twoFiles.find "m.json" := by
  have hargs : Invocation.ofArguments inPlaceArguments = .convert inPlace := by decide +kernel
  have hproduct : (product inPlace (twoFiles.find "s.json") (twoFiles.find "m.json")).toOption.any
      (fun _ => true) = true := by decide +kernel
  obtain ⟨text, htext, _⟩ := Checks.exists_of_any hproduct
  have hproduces : Produces inPlace twoFiles text := product_ok.1 htext
  have hpath : twoFiles.Writable "./s.json" ⟨["tmp", "", "s.json"]⟩ :=
    ⟨by decide +kernel, by decide +kernel, by decide +kernel, by decide +kernel⟩
  obtain ⟨_, hwhole⟩ := run_whole_or_nothing hargs twoFiles
  obtain ⟨hexit, hstdout, hfind⟩ := (hwhole text hproduces).stored _ _ rfl hpath
  have hsame : twoFiles.locate "s.json" = some ⟨["tmp", "", "s.json"]⟩ := by decide +kernel
  have hother : twoFiles.locate "m.json" ≠ some ⟨["tmp", "", "s.json"]⟩ := by decide +kernel
  exact ⟨hargs, hpath, text, _, _, hproduces, rfl, hexit, hstdout,
    (hfind "s.json").trans (if_pos hsame), (hfind "m.json").trans (if_neg hother)⟩

end CommandLine
end XsdSynthesis
