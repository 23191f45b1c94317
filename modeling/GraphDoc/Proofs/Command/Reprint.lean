import GraphDoc.Proofs.Command.Answers

/-!
# Printing into a file

A source that passes the check may be printed into a file, below a comment or not. From then on the file stands for
the source: each command answers the same on both, as long as the path of the file, as it is written, leads there.
-/

namespace GraphDoc

/-! ## Documents at paths -/

/-- A file that ends like a document is one, and no archive. -/
theorem isDocumentName_of_suffix {name : String} (h : ".graphql".toList <:+ name.toList) :
    isDocumentName name = true ∧ ArchiveFormat.ofName? name = none := by
  have hsmall : ".graphql".toList <:+ name.toList.map Char.toLower := h.map Char.toLower
  have hother : ∀ ending ∈ [".zip", ".tar.gz", ".tgz"], Text.endsWithSmall name ending = false := by
    intro ending hending
    rw [Bool.eq_false_iff, Text.endsWithSmall, ne_eq, List.isSuffixOf_iff_suffix]
    intro hsuffix
    -- one of the two endings would end with the other
    have hnone : ∀ ending ∈ [".zip", ".tar.gz", ".tgz"],
        ¬(".graphql".toList <:+ ending.toList ∨ ending.toList <:+ ".graphql".toList) := by decide
    exact hnone ending hending (List.suffix_or_suffix_of_suffix hsmall hsuffix)
  refine ⟨?_, ?_⟩
  · rw [isDocumentName, List.any_eq_true]
    exact ⟨".graphql", by decide, by rwa [Text.endsWithSmall, List.isSuffixOf_iff_suffix]⟩
  · rw [ArchiveFormat.ofName?, hother ".zip" (by simp), hother ".tar.gz" (by simp), hother ".tgz" (by simp)]
    rfl

namespace Command

variable {d : Disk} {p scratch : Path} {t : Tree}

/-- Whether a tree is a document with the definitions of sources that were parsed. -/
def IsLoaded (t : Tree) : Prop :=
  ∃ trees : List Tree, (∀ u ∈ trees, ∃ source, parseDocument source = .ok u) ∧
    t = .document (.tuple (trees.flatMap Tree.definitions))

/-- A document that a loader gives has the definitions of parsed sources. -/
theorem isLoaded_of_document? {l : Loader} (h : (l.load d).document? = some t) : IsLoaded t := by
  rw [Load.document?] at h
  split at h
  · cases h
  · rw [Loader.load_document] at h
    cases hread : (Loader.collect d l.path).mapM (Loader.readFile d) with
    | error e =>
      rw [hread] at h
      cases h
    | ok trees =>
      rw [hread] at h
      cases h
      refine ⟨trees, fun u hu => ?_, rfl⟩
      obtain ⟨q, -, hq⟩ := exists_of_mem_of_mapM hread hu
      rw [Loader.readFile] at hq
      split at hq
      · cases hq
      · next source _ => exact ⟨source, mapError_eq_ok.1 hq⟩

/-- The document at a path has been loaded, unpacked or not. -/
theorem isLoaded_of_documentAt? (h : documentAt? scratch d p = some t) : IsLoaded t := by
  rw [documentAt?] at h
  split at h
  · rw [archived?] at h
    split at h
    · exact isLoaded_of_document? h
    · cases h
  · exact isLoaded_of_document? h

/-- A document file gives the document that its text is parsed as. -/
theorem documentAt?_of_file [Host] {content : FileContent} {source : String} {rs : List Tree}
    (hfile : d.file? p = some content) (hname : ".graphql".toList <:+ p.name.toList)
    (htext : content.text? = some source) (hparse : parseDocument source = .ok (.document (.tuple rs))) :
    documentAt? scratch d p = some (.document (.tuple rs)) := by
  obtain ⟨hdocument, harchive⟩ := isDocumentName_of_suffix hname
  have hfiles : Loader.collect d p = [p] := by
    rw [Loader.collect, if_pos (by rw [Disk.isFile, hfile]; rfl), isDocumentName_text, if_pos hdocument]
  have hread : Loader.readFile d p = .ok (.document (.tuple rs)) := by
    rw [Loader.readFile, hfile, Option.bind_some, htext]
    dsimp only
    rw [hparse]
    rfl
  rw [documentAt?, hfile, harchive]
  dsimp only
  rw [Load.document?, Loader.load_files, Loader.load_document]
  dsimp only
  rw [hfiles, mapM_of_forall (g := fun _ => .document (.tuple rs)) (by simpa using hread)]
  simp [Except.map, Except.toOption, Tree.definitions]

/-! ## The file and its source -/

/-- Writing a file leaves the document at any path that the file is not below. -/
theorem documentAt?_saved (hd : d.IsTree) {q : Path} (hq : q.IsPlain) (hwritable : d.IsWritable q) (hapart : ¬p <+: q)
    (content : FileContent) {scratch' : Path} (hscratch : d.IsScratch scratch)
    (hscratch' : (d.saved q content).IsScratch scratch') :
    documentAt? scratch' (d.saved q content) p = documentAt? scratch d p := by
  refine documentAt?_congr hd.toIsWellNamed (hd.saved hq hwritable content).toIsWellNamed hscratch hscratch' fun rest => ?_
  have hne : p ++ rest ≠ q := fun heq => hapart (heq ▸ List.prefix_append p rest)
  rw [Disk.file?_saved hwritable, if_neg hne]

/-- Where a scratch folder is made makes no difference to a document. -/
theorem documentAt?_of_isScratch (hd : d.IsTree) {scratch' : Path} (hscratch : d.IsScratch scratch)
    (hscratch' : d.IsScratch scratch') (p : Path) : documentAt? scratch' d p = documentAt? scratch d p :=
  documentAt?_congr hd.toIsWellNamed hd.toIsWellNamed hscratch hscratch' fun _ => rfl

/-- Documents with as many definitions to show have the same answers. -/
theorem answer_congr {t u : Tree} (h : (t.filterDefinitions fun d => !d.isSilent).definitions.length =
    (u.filterDefinitions fun d => !d.isSilent).definitions.length) (name : Name) (text : String) :
    name.answer t text = name.answer u text := by
  cases name with
  | check => rw [Name.answer, Name.answer, checkLine, checkLine, h]
  | _ => rfl

/-- A source that passes the check can be printed into a file beside it, without a header or below a comment. If the
path of the file, as it is written, leads to it, which it does unless it goes up somewhere, each command succeeds on
the file and answers what it answers on the source. -/
theorem run_on_printed_file (hd : d.IsTree) {folder : Path} (hfolder : d.isFolder folder = true)
    {source output : String} {header : Option String} {checkArgs printArgs : List String} {scratch scratch' : Path}
    (hscratch : d.IsScratch scratch) (hcheck : Asks .check checkArgs source none none)
    (hzero : (run ⟨folder, scratch⟩ d ("check" :: checkArgs)).exitCode = 0)
    (hscratch' : d.IsScratch scratch') (hprint : Asks .print printArgs source (some output) header)
    (hheader : ∀ above ∈ header, IsComment above) (hending : Text.endsWith output ".graphql" = true)
    (hapart : ¬Path.resolve folder source <+: Path.resolve folder output)
    (hwritable : d.IsWritable (Path.resolve folder output)) :
    let printed := run ⟨folder, scratch'⟩ d ("print" :: printArgs)
    printed.exitCode = 0 ∧
      ((∀ part ∈ Path.parts output, part ≠ "..") → printed.disk.reaches folder output = true) ∧
      (printed.disk.reaches folder output = true →
        ∀ (name : Name) (args args' : List String) (now : Disk) (place place' : Path),
          Asks name args output none none → Asks name args' source none none → (now = d ∨ now = printed.disk) →
          printed.disk.IsScratch place → now.IsScratch place' →
          let onFile := run ⟨folder, place⟩ printed.disk (name.word :: args)
          let onSource := run ⟨folder, place'⟩ now (name.word :: args')
          onFile.exitCode = 0 ∧ onSource.exitCode = 0 ∧ onFile.stdout = onSource.stdout) := by
  intro printed
  have hplain : folder.IsPlain := hd.plain (by rw [Disk.isFolder_iff.1 hfolder]; rfl)
  have hplace := Path.isPlain_resolve hplain output
  obtain ⟨before, last, hparts, hlast, hsuffix⟩ := Path.exists_last_name (by decide) (by decide)
    (List.isSuffixOf_iff_suffix.1 hending)
  have hname : ".graphql".toList <:+ (Path.resolve folder output).name.toList := by
    rwa [Path.resolve_eq_append hparts hlast, Path.name_append_singleton]
  -- the document that is checked is the one that is printed, and comes back from the file
  obtain ⟨hreaches, t, text, hdocument, htrip⟩ := roundTrips_of_check hscratch hcheck hzero
  obtain ⟨trees, htrees, rfl⟩ := isLoaded_of_documentAt? hdocument
  obtain ⟨rs, htext, hparse, hback, hcount⟩ := roundTrips_saved htrees htrip hheader
  have hsaves : printed.exitCode = 0 ∧
      printed.disk = d.saved (Path.resolve folder output) (.ofText (savedText header text)) :=
    run_saves hscratch' hd hprint hreaches
      ((documentAt?_of_isScratch hd hscratch hscratch' _).trans hdocument) htrip.prints hheader hwritable
  obtain ⟨hprinted, hdisk⟩ := hsaves
  rw [hdisk]
  refine ⟨hprinted, fun hdown => ?_, fun hfound name args args' now place place' hargs hargs' hnow hplace' hother => ?_⟩
  · refine Disk.reaches_saved_self d _ hplain.ne_nil hparts hlast fun part hpart => hdown part ?_
    rw [hparts]
    exact List.mem_append_left _ hpart
  · have hfileDocument : documentAt? place (d.saved (Path.resolve folder output) (.ofText (savedText header text)))
        (Path.resolve folder output) = some (.document (.tuple rs)) :=
      documentAt?_of_file (by rw [Disk.file?_saved hwritable, if_pos rfl]) hname htext hparse
    have hsource : now.reaches folder source = true ∧ documentAt? place' now (Path.resolve folder source) =
        some (.document (.tuple (trees.flatMap Tree.definitions))) := by
      rcases hnow with rfl | rfl
      · exact ⟨hreaches, (documentAt?_of_isScratch hd hscratch hother _).trans hdocument⟩
      · exact ⟨Disk.reaches_saved hwritable _ hreaches,
          (documentAt?_saved hd hplace hwritable hapart _ hscratch hother).trans hdocument⟩
    intro onFile onSource
    have honFile : onFile.exitCode = 0 ∧ onFile.stdout = _ :=
      run_answers hplace' hargs hfound hfileDocument hback
    have honSource : onSource.exitCode = 0 ∧ onSource.stdout = _ :=
      run_answers hother hargs' hsource.1 hsource.2 htrip
    refine ⟨honFile.1, honSource.1, ?_⟩
    rw [honFile.2, honSource.2, answer_congr hcount]

/-! ## A folder with one document -/

/-- A folder with one document. -/
def desk : Disk where
  entries := [([""], .folder), (["", "r"], .folder), (["", "r", "a.graphql"], .file (.ofText "scalar A"))]

theorem isTree_desk : desk.IsTree := Disk.IsTree.of_entries (by decide) (by decide)

theorem isScratch_desk : desk.IsScratch ["", "tmp"] :=
  isTree_desk.isScratch ⟨by decide, by decide⟩ (by decide) (by decide)

/-- The one document is found. -/
theorem documentAt?_desk [Host] : documentAt? ["", "tmp"] desk (Path.resolve ["", "r"] "a.graphql") =
    some (.document (.tuple [.scalarType "A" (.tuple []) Option.none])) := by
  have hfile : desk.file? ["", "r", "a.graphql"] = some (.ofText "scalar A") := rfl
  exact documentAt?_of_file hfile (by decide) (text?_ofText (by decide)) parse_scalarType

/-- The one document comes back from its text. -/
theorem roundTrips_desk :
    (Tree.document (.tuple [.scalarType "A" (.tuple []) Option.none])).RoundTrips "scalar A" :=
  ⟨rfl, _, parse_scalarType, by decide, rfl⟩

/-- Every command succeeds on the document. -/
theorem run_desk (name : Name) : (run ⟨["", "r"], ["", "tmp"]⟩ desk [name.word, "a.graphql"]).exitCode = 0 :=
  (run_answers isScratch_desk (asks_path name (by decide)) (by decide) documentAt?_desk
    roundTrips_desk).1

/-- The document can be printed into any file that can be written. -/
theorem print_desk (output : String) (hwritable : desk.IsWritable (Path.resolve ["", "r"] output))
    (header : Option String) (hheader : ∀ above ∈ header, IsComment above) :
    let printed := run ⟨["", "r"], ["", "tmp"]⟩ desk ("print" :: printArguments "a.graphql" output header)
    printed.exitCode = 0 ∧
      printed.disk = desk.saved (Path.resolve ["", "r"] output) (.ofText (savedText header "scalar A")) :=
  run_saves isScratch_desk isTree_desk (asks_print (by decide) output header) (by decide)
    documentAt?_desk roundTrips_desk.prints hheader hwritable

/-- Below a comment and in a folder of its own, the printed document is checked, printed and signed like its source. -/
theorem commands_agree_on_desk :
    let setting : Setting := ⟨["", "r"], ["", "tmp"]⟩
    let printed := run setting desk ["print", "a.graphql", "--header", "# types", "-o", "o/p.graphql"]
    (run setting desk ["check", "a.graphql"]).exitCode = 0 ∧ printed.exitCode = 0 ∧
      ∀ name : Name, (run setting printed.disk [name.word, "o/p.graphql"]).exitCode = 0 ∧
        (run setting printed.disk [name.word, "o/p.graphql"]).stdout =
          (run setting desk [name.word, "a.graphql"]).stdout := by
  intro setting printed
  have hheader : ∀ above ∈ some "# types", IsComment above := by
    rintro above ⟨⟩
    exact ⟨" types".toList, by decide, by decide, by decide⟩
  have hplace : Path.resolve ["", "r"] "o/p.graphql" = ["", "r", "o", "p.graphql"] := by decide
  have hwritable : desk.IsWritable (Path.resolve ["", "r"] "o/p.graphql") := by
    rw [hplace]
    exact ⟨by decide, by decide⟩
  obtain ⟨hprinted, hdisk⟩ := print_desk "o/p.graphql" hwritable (some "# types") hheader
  have hdisk : printed.disk = _ := hdisk
  have hafter : printed.disk.IsScratch ["", "tmp"] := by
    rw [hdisk]
    exact isScratch_desk.saved hwritable (by decide) _
  obtain ⟨-, hreached, hagree⟩ := run_on_printed_file isTree_desk (by decide) isScratch_desk
    (asks_path .check (by decide)) (run_desk .check) isScratch_desk
    (asks_print (by decide) "o/p.graphql" (some "# types")) hheader (by decide) (by decide) hwritable
  refine ⟨run_desk .check, hprinted, fun name => ?_⟩
  obtain ⟨hzero, -, hout⟩ := hagree (hreached (by decide)) name ["o/p.graphql"] ["a.graphql"] desk ["", "tmp"]
    ["", "tmp"] (asks_path name (by decide)) (asks_path name (by decide)) (.inl rfl) hafter isScratch_desk
  exact ⟨hzero, hout⟩

/-- A path that goes up from a folder that is not there can be written to, but not read from. -/
theorem signature_fails_on_printed_desk :
    let setting : Setting := ⟨["", "r"], ["", "tmp"]⟩
    let printed := run setting desk ["print", "a.graphql", "-o", "x/../o.graphql"]
    (run setting desk ["check", "a.graphql"]).exitCode = 0 ∧ Text.endsWith "x/../o.graphql" ".graphql" = true ∧
      ¬Path.resolve ["", "r"] "a.graphql" <+: Path.resolve ["", "r"] "x/../o.graphql" ∧
      desk.IsWritable (Path.resolve ["", "r"] "x/../o.graphql") ∧ printed.exitCode = 0 ∧
      printed.disk.isFile ["", "r", "o.graphql"] = true ∧
      (run setting desk ["signature", "a.graphql"]).exitCode = 0 ∧
      (run setting printed.disk ["signature", "x/../o.graphql"]).exitCode ≠ 0 := by
  intro setting printed
  have hplace : Path.resolve ["", "r"] "x/../o.graphql" = ["", "r", "o.graphql"] := by decide
  have hwritable : desk.IsWritable (Path.resolve ["", "r"] "x/../o.graphql") := by
    rw [hplace]
    exact ⟨by decide, by decide⟩
  obtain ⟨hprinted, hdisk⟩ := print_desk "x/../o.graphql" hwritable Option.none (by simp)
  have hdisk : printed.disk = desk.saved ["", "r", "o.graphql"] (.ofText (savedText Option.none "scalar A")) :=
    hplace ▸ hdisk
  have hunreached : (run setting printed.disk (Name.signature.word :: ["x/../o.graphql"])).exitCode ≠ 0 := by
    refine run_unreached (asks_path .signature (by decide)) ?_
    rw [hdisk]
    rfl
  refine ⟨run_desk .check, by decide, by decide, hwritable, hprinted, ?_, run_desk .signature, hunreached⟩
  rw [hdisk, Disk.isFile_iff]
  exact ⟨_, by rw [Disk.entry?_saved, if_pos rfl]⟩

end Command

end GraphDoc
