import GraphDoc.Proofs.Command.Arguments
import GraphDoc.Proofs.Command.Load
import GraphDoc.Proofs.Document.Saved

/-!
# What the commands answer

A command that is asked for a source loads its document. If the document comes back from its text, each of the three
commands succeeds and its answer depends on the text and the number of definitions alone; a check that succeeds says
that the document does come back.
-/

namespace GraphDoc

namespace Command

open GraphDoc.Action

/-! ## Command lines -/

/-- Arguments that can be sorted are. -/
theorem sortArguments_eq {specs : List OptionSpec} {mixed : Bool} {args : List String} {sorted : Arguments}
    (h : Arguments.parse specs mixed args = .ok sorted) (name : Option Name) :
    sortArguments name specs mixed args = pure sorted := by
  rw [sortArguments, h]

/-- Whether the arguments of a command ask for one source and, for a printing, give it an output and a header. -/
def Asks (name : Name) (args : List String) (source : String) (output header : Option String) : Prop :=
  ∃ sorted, Arguments.parse name.options true args = .ok sorted ∧ sorted.rest = [source] ∧
    sorted.has "--help" = false ∧ sorted.has "--verbose" = false ∧ sorted.value? "--output" = output ∧
    sorted.value? "--header" = header ∧ sorted.value? "--exclude-prefix" = none

/-- A path that does not look like an option asks for itself. -/
theorem asks_path (name : Name) {path : String} (h : Arguments.isOption path.toList = false) :
    Asks name [path] path none none :=
  ⟨_, Arguments.parse_other h Arguments.parse_nil, rfl, rfl, rfl, rfl, rfl, rfl⟩

/-- The arguments of a printing into a file. -/
def printArguments (source output : String) (header : Option String) : List String :=
  source :: (header.elim [] (["--header", ·]) ++ ["-o", output])

/-- The arguments of a printing ask for its source, output and header. -/
theorem asks_print {source : String} (h : Arguments.isOption source.toList = false) (output : String)
    (header : Option String) : Asks .print (printArguments source output header) source (some output) header := by
  have houtput : Arguments.parse Name.print.options true ["-o", output] = .ok { options := [("--output", output)] } :=
    Arguments.parse_pending (by decide) (by decide) (by rfl) Arguments.parse_nil
  cases header with
  | none => exact ⟨_, Arguments.parse_other h houtput, rfl, rfl, rfl, rfl, rfl, rfl⟩
  | some above =>
    have hheader : Arguments.parse Name.print.options true ["--header", above, "-o", output] =
        .ok { options := [("--header", above), ("--output", output)] } :=
      Arguments.parse_pending (by decide) (by decide) (by rfl) houtput
    exact ⟨_, Arguments.parse_other h hheader, rfl, rfl, rfl, rfl, rfl, rfl⟩

/-! ## Documents -/

variable {setting : Setting} {debug : Bool} {source : String} {s : Session} {t : Tree} {text : String}

/-- An action that comes to a document leaves the disk and the output as they are. -/
theorem Loads.gives {action : Action Tree} (h : Loads action s (some t)) : Gives action s (.ok t) s.disk s.stdout := by
  obtain ⟨result, disk, hgives, hresult, -, hdisk⟩ := h
  cases result with
  | error stop => cases hresult
  | ok found =>
    cases hresult
    rwa [hdisk t rfl] at hgives

/-- An action that comes to no document stops. -/
theorem Loads.stops {action : Action Tree} (h : Loads action s none) : Stops action s := by
  obtain ⟨result, disk, hgives, hresult, hfinished, -⟩ := h
  cases result with
  | error stop => exact ⟨stop, disk, _, hgives, fun heq => hfinished (by rw [heq])⟩
  | ok found => cases hresult

/-- A tree that prints gives its text. -/
theorem textOf_gives (h : t.render "" = .ok text) (s : Session) : Gives (textOf t) s (.ok text) s.disk s.stdout := by
  rw [textOf, h]
  exact Gives.pure text s

/-- A tree that does not print stops the command. -/
theorem textOf_stops {e : RenderError} (h : t.render "" = .error e) (s : Session) : Stops (textOf t) s := by
  rw [textOf, h]
  exact Stops.throw (by simp) s

/-! ## The three commands -/

/-- What a check says of a document. -/
def checkLine (t : Tree) : String :=
  s!"OK: {(t.filterDefinitions fun d => !d.isSilent).definitions.length} definitions round-trip"

/-- A document that comes back from its text passes the check. -/
theorem check_gives (hload : Loads (load setting debug false source) s (some t)) (htrip : t.RoundTrips text) :
    Gives (check setting debug false source) s (.ok ()) s.disk (s.stdout ++ Host.onOut (checkLine t ++ "\n")) := by
  obtain ⟨hprints, reread, hparse, hsame, hagain⟩ := htrip
  rw [check]
  refine hload.gives.bind fun err => (textOf_gives hprints _).bind fun err => ?_
  rw [hparse]
  dsimp only
  rw [if_neg (by simp [hsame])]
  refine (textOf_gives hagain _).bind fun err => ?_
  rw [if_neg (by simp)]
  rw [if_neg Bool.false_ne_true]
  exact Gives.print (Host.canShow_usual (checkLine t ++ "\n")) _

/-- A check stops unless the document comes back. -/
theorem check_stops {document? : Option Tree} (hload : Loads (load setting debug false source) s document?)
    (hnone : ∀ t text, document? = some t → ¬t.RoundTrips text) : Stops (check setting debug false source) s := by
  rw [check]
  cases document? with
  | none => exact hload.stops.bind _
  | some t =>
    refine Stops.of_bind hload.gives fun err => ?_
    cases hprints : t.render "" with
    | error e => exact (textOf_stops hprints _).bind _
    | ok text =>
      refine Stops.of_bind (textOf_gives hprints _) fun err => ?_
      cases hparse : parseDocument text with
      | error e =>
        dsimp only
        split
        · exact Stops.throw (by simp) _
        · exact Stops.throw (by simp) _
        · next heq => cases heq
      | ok reread =>
        dsimp only
        split
        · exact (Stops.throw (by simp) _).bind _
        · next hsame =>
          cases hagain : reread.render "" with
          | error e => exact (textOf_stops hagain _).bind _
          | ok text' =>
            refine Stops.of_bind (textOf_gives hagain _) fun err => ?_
            split
            · exact (Stops.throw (by simp) _).bind _
            · next heq =>
              refine absurd ⟨hprints, reread, hparse, by simpa using hsame, ?_⟩ (hnone t text rfl)
              rw [hagain, not_not.1 heq]

/-- The signature of a document is the digest of its text. -/
theorem signature_gives (hload : Loads (load setting debug false source) s (some t))
    (hprints : t.render "" = .ok text) :
    Gives (signature setting debug source) s (.ok ()) s.disk (s.stdout ++ Host.onOut (Sha256.hex text ++ "\n")) := by
  rw [signature]
  exact hload.gives.bind fun err => (textOf_gives hprints _).bind fun err => Gives.print (Host.canShow_usual _) _

/-- What a printing makes of a document: its text, below the header if there is one. -/
theorem pipeline_print (hprints : t.render "" = .ok text) {header : Option String} (hheader : header ≠ some "")
    (output : Option String) :
    (PrintOptions.pipeline { output, header }).print t = .ok (header.elim text (addHeader · text)) := by
  have hcriterion : NameFilter.criterion? header = header := by
    cases header with
    | none => rfl
    | some above =>
      have hne : above ≠ "" := fun heq => hheader (congrArg some heq)
      simp [NameFilter.criterion?, hne]
  have hpipeline : PrintOptions.pipeline { output, header } = { after := (header.map Hook.header).toList } := by
    rw [PrintOptions.pipeline, hcriterion]
    rfl
  rw [hpipeline]
  cases header <;>
    simp [Pipeline.print, Pipeline.runBefore, hprints, Except.mapError, Pipeline.runAfter, Hook.after, bind,
      Except.bind, pure, Except.pure]

/-- A comment is not empty, so it counts as a header. -/
theorem IsComment.ne_empty {header : Option String} (h : ∀ above ∈ header, IsComment above) : header ≠ some "" := by
  intro heq
  obtain ⟨cs, hcs, -⟩ := h "" (by rw [heq]; rfl)
  cases hcs

/-- Without a file, the text of a document goes to the output stream. -/
theorem print_gives (hload : Loads (load setting debug false source) s (some t)) (hprints : t.render "" = .ok text) :
    Gives (print setting debug source {}) s (.ok ()) s.disk (s.stdout ++ Host.onOut (text ++ "\n")) := by
  rw [print]
  refine hload.gives.bind fun err => ?_
  rw [pipeline_print hprints (by simp)]
  exact (Gives.pure text _).bind fun err => Gives.print (Host.canShow_usual _) _

/-- A printing into a file writes the text below its header, and answers nothing. -/
theorem print_saves (hload : Loads (load setting debug false source) s (some t)) (hprints : t.render "" = .ok text)
    {output : String} {header : Option String} (hheader : ∀ above ∈ header, IsComment above) (hdisk : s.disk.IsTree)
    (hwritable : s.disk.IsWritable (Path.resolve setting.folder output)) :
    Gives (print setting debug source { output := some output, header }) s (.ok ())
      (s.disk.saved (Path.resolve setting.folder output) (.ofText (savedText header text))) s.stdout := by
  rw [print]
  refine hload.gives.bind fun err => ?_
  rw [pipeline_print hprints (IsComment.ne_empty hheader)]
  refine (Gives.pure (header.elim text (addHeader · text)) _).bind fun err => ?_
  have hsaved : Gives (saveText (Path.resolve setting.folder output) (savedText header text)) ⟨s.disk, s.stdout, err⟩
      (.ok ()) (s.disk.saved (Path.resolve setting.folder output) (.ofText (savedText header text))) s.stdout :=
    Gives.saveText _ ⟨s.disk, s.stdout, err⟩ hdisk.isFile_nil hwritable (Host.encodes_usual _)
  exact hsaved.bind fun err => Gives.report _ _

/-! ## Runs -/

/-- What a command does once its arguments are sorted. -/
def perform (setting : Setting) (debug : Bool) (name : Name) (source : String) (output header : Option String) :
    Action Unit :=
  match name with
  | .print => print setting debug source { output, header }
  | .check => check setting debug false source
  | .signature => signature setting debug source

/-- What a command answers about a document with the given text. -/
def Name.answer (name : Name) (t : Tree) (text : String) : String :=
  match name with
  | .print => text
  | .check => checkLine t
  | .signature => Sha256.hex text

/-- Each command answers, and changes nothing. -/
theorem perform_answers (name : Name) (hload : Loads (load setting debug false source) s (some t))
    (htrip : t.RoundTrips text) :
    Gives (perform setting debug name source none none) s (.ok ()) s.disk
      (s.stdout ++ Host.onOut (name.answer t text ++ "\n")) := by
  cases name with
  | print => exact print_gives hload htrip.prints
  | check => exact check_gives hload htrip
  | signature => exact signature_gives hload htrip.prints

section Run

variable {name : Name} {args : List String} {output header : Option String} {d : Disk}

/-- A source that is on the disk, and the only one, is taken. -/
theorem run_sourceOf (name : Name) (hreaches : s.disk.reaches setting.folder source = true) :
    (ExceptT.run (sourceOf setting name [source])).run s = (.ok source, s) := by
  refine (run_get_bind _ s).trans ?_
  rw [if_neg (by simp [hreaches])]
  rfl

/-- A command that is asked for a source on the disk sets to work on it. -/
theorem run_runNamed (hasks : Asks name args source output header)
    (hreaches : s.disk.reaches setting.folder source = true) :
    (ExceptT.run (runNamed setting debug name args)).run s =
      (ExceptT.run (perform setting debug name source output header)).run s := by
  obtain ⟨sorted, hparse, hrest, hhelp, hverbose, houtput, hheader, hexclude⟩ := hasks
  rw [runNamed, sortArguments_eq hparse, pure_bind, hhelp, if_neg Bool.false_ne_true, hrest, ExceptT.run_bind,
    StateT.run_bind, run_sourceOf name hreaches]
  dsimp only
  rw [hverbose, houtput, hheader, hexclude]
  cases name <;> rfl

/-- The word for a command runs it. -/
theorem run_eq_runNamed (name : Name) :
    run setting d (name.word :: args) = (runNamed setting false name args).run d := by
  have hsorted : sortProgramArguments (name.word :: args) = pure { rest := name.word :: args } := by
    have hword : Arguments.isOption name.word.toList = false := by cases name <;> rfl
    rw [sortProgramArguments, sortArguments_eq (Arguments.parse_unmixed hword)]
    rfl
  have hname : Name.ofWord? name.word = some name := by cases name <;> rfl
  rw [run, runLine, hsorted, pure_bind]
  dsimp only
  rw [hname]
  rfl

/-- A source that is not on the disk is refused. -/
theorem run_unreached (hasks : Asks name args source output header)
    (hreaches : d.reaches setting.folder source = false) : (run setting d (name.word :: args)).exitCode ≠ 0 := by
  obtain ⟨sorted, hparse, hrest, hhelp, -⟩ := hasks
  rw [run_eq_runNamed]
  refine exitCode_of_stops ?_
  rw [runNamed, sortArguments_eq hparse, pure_bind, hhelp, if_neg Bool.false_ne_true, hrest]
  refine Stops.bind (Stops.get_bind ?_) _
  rw [if_pos (by simp [hreaches])]
  exact (Stops.throw (by simp) _).bind _

/-- A run comes to what its command comes to. -/
theorem run_of_performs (hasks : Asks name args source output header)
    (hreaches : d.reaches setting.folder source = true) {disk : Disk} {out : String}
    (h : Gives (perform setting false name source output header) { disk := d } (.ok ()) disk out) :
    (run setting d (name.word :: args)).exitCode = 0 ∧ (run setting d (name.word :: args)).stdout = out ∧
      (run setting d (name.word :: args)).disk = disk := by
  rw [run_eq_runNamed]
  obtain ⟨err, h⟩ := h
  exact run_of_gives ⟨err, by rw [run_runNamed hasks hreaches, h]⟩

variable (hscratch : d.IsScratch setting.scratch)

include hscratch

/-- The answer of a command is settled by the text of the document and the number of its definitions. -/
theorem run_answers (hasks : Asks name args source none none) (hreaches : d.reaches setting.folder source = true)
    (hdocument : documentAt? setting.scratch d (Path.resolve setting.folder source) = some t)
    (htrip : t.RoundTrips text) :
    (run setting d (name.word :: args)).exitCode = 0 ∧
      (run setting d (name.word :: args)).stdout = Host.onOut (name.answer t text ++ "\n") := by
  have hload := loads_load setting false false source { disk := d } hscratch
  dsimp only at hload
  rw [hdocument] at hload
  have hrun := run_of_performs hasks hreaches (perform_answers name hload htrip)
  exact ⟨hrun.1, by rw [hrun.2.1, String.empty_append]⟩

/-- A printing into a file succeeds where the file can be written, and changes nothing else. -/
theorem run_saves (hd : d.IsTree) {output : String} (hasks : Asks .print args source (some output) header)
    (hreaches : d.reaches setting.folder source = true)
    (hdocument : documentAt? setting.scratch d (Path.resolve setting.folder source) = some t)
    (hprints : t.render "" = .ok text) (hheader : ∀ above ∈ header, IsComment above)
    (hwritable : d.IsWritable (Path.resolve setting.folder output)) :
    (run setting d (Name.print.word :: args)).exitCode = 0 ∧
      (run setting d (Name.print.word :: args)).disk =
        d.saved (Path.resolve setting.folder output) (.ofText (savedText header text)) := by
  have hload := loads_load setting false false source { disk := d } hscratch
  dsimp only at hload
  rw [hdocument] at hload
  have hrun := run_of_performs hasks hreaches (print_saves hload hprints hheader hd hwritable)
  exact ⟨hrun.1, hrun.2.2⟩

/-- A check that succeeds says that there is a document and that it comes back. -/
theorem roundTrips_of_check (hasks : Asks .check args source none none)
    (hzero : (run setting d (Name.check.word :: args)).exitCode = 0) :
    d.reaches setting.folder source = true ∧
      ∃ t text, documentAt? setting.scratch d (Path.resolve setting.folder source) = some t ∧ t.RoundTrips text := by
  have hreaches : d.reaches setting.folder source = true := by
    by_contra hfalse
    exact run_unreached hasks (Bool.eq_false_iff.2 hfalse) hzero
  refine ⟨hreaches, ?_⟩
  by_contra hnone
  push Not at hnone
  have hstops := check_stops (loads_load setting false false source { disk := d } hscratch) hnone
  obtain ⟨stop, disk, out, ⟨err, hgives⟩, hstop⟩ := hstops
  rw [run_eq_runNamed] at hzero
  refine exitCode_of_stops ⟨stop, disk, out, ⟨err, ?_⟩, hstop⟩ hzero
  rw [run_runNamed hasks hreaches]
  exact hgives

end Run

end Command

end GraphDoc
