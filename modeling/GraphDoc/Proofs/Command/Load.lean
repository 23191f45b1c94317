import GraphDoc.Command.Basic
import GraphDoc.Proofs.Command.Session
import GraphDoc.Proofs.Disk.Archive
import GraphDoc.Proofs.Loader

/-!
# Documents from files, folders and archives

A command loads the document at a path, or that of an archive once it is unpacked.
-/

namespace GraphDoc

/-- The document of a load that found any files. -/
def Load.document? (load : Load) : Option Tree :=
  if load.loader.files.isEmpty then none else load.document.toOption

namespace Command

open GraphDoc.Action

/-! ## Loading -/

/-- Writing a log leaves the disk and the output as they are. -/
theorem writeLog_gives (debug : Bool) (log : List LogEntry) (s : Session) :
    Gives (writeLog debug log) s (.ok ()) s.disk s.stdout := by
  rw [writeLog]
  generalize log.filter _ = shown
  induction shown generalizing s with
  | nil => exact Gives.pure () s
  | cons entry rest ih => exact (Gives.log _ s).bind fun err => ih _

/-- What a command makes of a load. -/
def outcome (sourceName : String) (load : Load) : Except Stop Tree :=
  match load.document with
  | .error e => .error (stopOf load.loader.currentFile e)
  | .ok document =>
    if load.loader.files.isEmpty then .error (.refused ("No GraphQL files found in " ++ sourceName)) else .ok document

/-- What a command makes of a load is the document of the load, if there is one. -/
theorem outcome_toOption (sourceName : String) (load : Load) : (outcome sourceName load).toOption = load.document? := by
  rw [outcome, Load.document?]
  cases load.document with
  | error e =>
    dsimp only
    split
    · rfl
    · rfl
  | ok document =>
    dsimp only
    split
    · rfl
    · rfl

/-- A load is never the end of what there is to do. -/
theorem outcome_ne_finished (sourceName : String) (load : Load) : outcome sourceName load ≠ .error .finished := by
  have hstop : ∀ currentFile e, stopOf currentFile e ≠ .finished := by
    intro currentFile e
    fun_cases stopOf currentFile e <;> simp
  rw [outcome]
  cases load.document with
  | error e => simpa using hstop _ e
  | ok document =>
    dsimp only
    split <;> simp

/-- Whether an action comes to the given document, if there is one, and then leaves the disk as it is. -/
def Loads (action : Action Tree) (s : Session) (document? : Option Tree) : Prop :=
  ∃ result disk, Gives action s result disk s.stdout ∧ result.toOption = document? ∧ result ≠ .error .finished ∧
    ∀ document, result = .ok document → disk = s.disk

/-- Whether an action comes to the given document, if there is one, and leaves all files outside of the scratch folder as
they are. -/
def Finds (scratch : Path) (action : Action Tree) (s : Session) (document? : Option Tree) : Prop :=
  ∃ result, Leaves scratch action s result s.stdout ∧ result.toOption = document? ∧ result ≠ .error .finished

/-- An action that finds a document leaves the disk as it is if there is one. -/
theorem Finds.loads {scratch : Path} {action : Action Tree} {s : Session} {document? : Option Tree}
    (h : Finds scratch action s document?) : Loads action s document? := by
  obtain ⟨result, ⟨disk, hgives, -, hdisk⟩, hresult, hfinished⟩ := h
  refine ⟨result, disk, hgives, hresult, hfinished, ?_⟩
  rintro document rfl
  exact hdisk (succeeds_ok document)

section Loading

variable [Host]

/-- Loading from a path leaves the disk and the output as they are. -/
theorem loadFrom_gives (debug verbose : Bool) (sourceName : String) (path : Path) (s : Session) :
    Gives (loadFrom debug verbose sourceName path) s (outcome sourceName (Loader.load { path } s.disk)) s.disk
      s.stdout := by
  rw [loadFrom]
  refine Gives.reportIf fun err => ?_
  refine Gives.get_bind ((writeLog_gives _ _ _).bind fun err => ?_)
  dsimp only
  rw [outcome]
  cases (Loader.load { path } s.disk).document with
  | error e => exact Gives.throw _ _
  | ok document =>
    dsimp only
    split
    · exact (Gives.throw _ _).bind_error
    · exact Gives.reportIf fun err => Gives.pure _ _

/-- A load from a path finds what a loader reads there. -/
theorem finds_loadFrom (scratch : Path) (debug verbose : Bool) (sourceName : String) (path : Path) (s : Session) :
    Finds scratch (loadFrom debug verbose sourceName path) s (Loader.load { path } s.disk).document? :=
  ⟨_, .of_gives (loadFrom_gives debug verbose sourceName path s), outcome_toOption _ _, outcome_ne_finished _ _⟩

/-- The document of an archive of the given format. -/
def archived? (scratch : Path) (d : Disk) (format : ArchiveFormat) (content : FileContent) : Option Tree :=
  match Host.extract format content with
  | (.ok _, inner) => (Loader.load { path := scratch } (d.graft scratch inner)).document?
  | (.error _, _) => none

section Archive

variable (setting : Setting) (debug verbose : Bool) {source : Path} {format : ArchiveFormat} {content : FileContent}
  {inner : Disk} (s : Session)

/-- Where a format is announced, unpacking puts what is extracted into the scratch folder. -/
theorem unpack_of_extract (hformat : ArchiveFormat.ofName? source.name = some format) {result : Except ArchiveError Unit}
    (hextract : Host.extract format content = (result, inner)) (d : Disk) (scratch : Path) :
    d.unpack scratch source content = (result, d.graft scratch inner) := by
  rw [Disk.unpack, hformat]
  dsimp only
  rw [hextract]

/-- Of an archive that cannot be extracted to its end, what was extracted until then is left. -/
theorem loadArchive_gives_of_damaged (hformat : ArchiveFormat.ofName? source.name = some format) {e : ArchiveError}
    (hextract : Host.extract format content = (.error e, inner)) :
    Gives (loadArchive setting debug verbose source content) s (.error (.escaped (.archive e)))
      (s.disk.graft setting.scratch inner) s.stdout := by
  rw [loadArchive]
  refine (Gives.report _ s).bind fun err => Gives.get_bind ?_
  rw [unpack_of_extract hformat hextract]
  exact (Gives.modifyDisk (fun _ => s.disk.graft setting.scratch inner) _).bind fun err => Gives.throw _ _

/-- The extracted members of an archive are loaded, and removed in the end. -/
theorem loadArchive_gives (hformat : ArchiveFormat.ofName? source.name = some format)
    (hextract : Host.extract format content = (.ok (), inner)) (hscratch : s.disk.IsScratch setting.scratch) :
    Gives (loadArchive setting debug verbose source content) s
      (outcome source.name (Loader.load { path := setting.scratch } (s.disk.graft setting.scratch inner))) s.disk
      s.stdout := by
  have hgives : Gives (loadArchive setting debug verbose source content) s
      (outcome source.name (Loader.load { path := setting.scratch } (s.disk.graft setting.scratch inner)))
      ((s.disk.graft setting.scratch inner).remove setting.scratch) s.stdout := by
    rw [loadArchive]
    refine (Gives.report _ s).bind fun err => Gives.get_bind ?_
    rw [unpack_of_extract hformat hextract]
    refine (Gives.modifyDisk (fun _ => s.disk.graft setting.scratch inner) _).bind fun err => ?_
    exact Gives.cleanUp (Gives.reportIf fun err => loadFrom_gives _ _ _ _ _) (·.remove setting.scratch)
  rwa [hscratch.remove_graft] at hgives

end Archive

/-- Loading an archive gives the document of the extracted members. -/
theorem finds_loadArchive (setting : Setting) (debug verbose : Bool) {source : Path} {format : ArchiveFormat}
    (hformat : ArchiveFormat.ofName? source.name = some format) (content : FileContent) (s : Session)
    (hscratch : s.disk.IsScratch setting.scratch) :
    Finds setting.scratch (loadArchive setting debug verbose source content) s
      (archived? setting.scratch s.disk format content) := by
  rw [archived?]
  cases hextract : Host.extract format content with
  | mk result inner =>
    cases result with
    | error e =>
      refine ⟨_, ⟨_, loadArchive_gives_of_damaged setting debug verbose s hformat hextract, fun p hp => ?_,
        fun hsucceeds => ?_⟩, rfl, by simp⟩
      · exact Disk.file?_congr (hscratch.entry?_graft_of_apart inner hp)
      · cases hsucceeds _ rfl
    | ok _ =>
      exact ⟨_, .of_gives (loadArchive_gives setting debug verbose s hformat hextract hscratch), outcome_toOption _ _,
        outcome_ne_finished _ _⟩

/-- The document at a path: that of the unpacked archive if the path is that of one. -/
def documentAt? (scratch : Path) (d : Disk) (p : Path) : Option Tree :=
  match d.file? p, ArchiveFormat.ofName? p.name with
  | some content, some format => archived? scratch d format content
  | _, _ => (Loader.load { path := p } d).document?

/-- Loading gives the document at the path of the source. -/
theorem finds_load (setting : Setting) (debug verbose : Bool) (source : String) (s : Session)
    (hscratch : s.disk.IsScratch setting.scratch) :
    Finds setting.scratch (load setting debug verbose source) s
      (documentAt? setting.scratch s.disk (Path.resolve setting.folder source)) := by
  rw [load]
  generalize Path.resolve setting.folder source = path
  have hget : ∀ {f : Session → Action Tree} {document? : Option Tree},
      Finds setting.scratch (f s) s document? → Finds setting.scratch (get >>= f) s document? := fun h => h
  refine hget ?_
  rw [documentAt?]
  cases s.disk.file? path with
  | none => exact finds_loadFrom _ debug verbose path.name path s
  | some content =>
    cases hformat : ArchiveFormat.ofName? path.name with
    | none => exact finds_loadFrom _ debug verbose path.name path s
    | some format => exact finds_loadArchive setting debug verbose hformat content s hscratch

/-- A load leaves the disk as it is if it comes to a document. -/
theorem loads_load (setting : Setting) (debug verbose : Bool) (source : String) (s : Session)
    (hscratch : s.disk.IsScratch setting.scratch) :
    Loads (load setting debug verbose source) s
      (documentAt? setting.scratch s.disk (Path.resolve setting.folder source)) :=
  (finds_load setting debug verbose source s hscratch).loads

end Loading

/-! ## What the document depends on -/

variable {d d' : Disk} {p p' scratch scratch' : Path}

/-- Paths with the same documents below them give the same document. -/
theorem document?_of_sameBelow (hd : d.IsWellNamed) (hd' : d'.IsWellNamed) (hp : d.isFile p = false)
    (hp' : d'.isFile p' = false) (hsame : Loader.SameBelow d p d' p') :
    (Loader.load { path := p' } d').document? = (Loader.load { path := p } d).document? := by
  obtain ⟨hdocument, rests, hfiles, hfiles'⟩ := Loader.load_of_sameBelow hd hd' hp hp' hsame
  rw [Load.document?, Load.document?, hdocument, hfiles, hfiles', List.isEmpty_map, List.isEmpty_map]

/-- Where an archive is unpacked makes no difference to its document. -/
theorem archived?_congr (hd : d.IsWellNamed) (hd' : d'.IsWellNamed) (h : d.IsScratch scratch)
    (h' : d'.IsScratch scratch') (format : ArchiveFormat) (content : FileContent) :
    archived? scratch' d' format content = archived? scratch d format content := by
  have hnames := Disk.isSlashFree_extract format content
  rw [archived?, archived?]
  cases hextract : Host.extract format content with
  | mk result inner =>
    have hinner : inner.IsSlashFree := by
      have hsnd : (format.extract content).2 = inner := congrArg Prod.snd hextract
      rwa [hsnd] at hnames
    cases result with
    | error e => rfl
    | ok _ =>
      refine document?_of_sameBelow (h.isWellNamed_graft hd hinner) (h'.isWellNamed_graft hd' hinner)
        (Disk.isFile_eq_false_of_isFolder (h.isFolder_graft inner))
        (Disk.isFile_eq_false_of_isFolder (h'.isFolder_graft inner)) fun rest _ => ?_
      rw [Disk.file?_congr ((h'.entry?_graft inner rest).trans (h.entry?_graft inner rest).symm)]

/-- The document at a path depends on the files at the path and below it alone. -/
theorem documentAt?_congr (hd : d.IsWellNamed) (hd' : d'.IsWellNamed) (h : d.IsScratch scratch)
    (h' : d'.IsScratch scratch') (hfile : ∀ rest, d'.file? (p ++ rest) = d.file? (p ++ rest)) :
    documentAt? scratch' d' p = documentAt? scratch d p := by
  have hroot : d'.file? p = d.file? p := by simpa using hfile []
  have hload : (Loader.load { path := p } d').document? = (Loader.load { path := p } d).document? := by
    cases hp : d.isFile p with
    | false =>
      refine document?_of_sameBelow hd hd' hp (by rw [Disk.isFile, hroot, ← Disk.isFile, hp]) fun rest _ => ?_
      rw [hfile]
    | true =>
      have hp' : d'.isFile p = true := by rw [Disk.isFile, hroot, ← Disk.isFile, hp]
      have hfiles : Loader.collect d' p = Loader.collect d p := by
        rw [Loader.collect, Loader.collect, if_pos hp, if_pos hp']
      have hmem : ∀ q ∈ Loader.collect d p, Loader.readFile d' q = Loader.readFile d q := by
        intro q hq
        obtain ⟨rest, rfl⟩ := ((Loader.mem_collect hd).1 hq).2.2.1
        rw [Loader.readFile, hfile, ← Loader.readFile]
      rw [Load.document?, Load.document?, Loader.load_document, Loader.load_document, Loader.load_files,
        Loader.load_files]
      dsimp only
      rw [hfiles, mapM_congr hmem]
  rw [documentAt?, documentAt?, hroot, hload]
  cases d.file? p with
  | none => rfl
  | some content =>
    cases ArchiveFormat.ofName? p.name with
    | none => rfl
    | some format => exact archived?_congr hd hd' h h' format content

/-- An archive that packs a folder has the document of the folder. -/
theorem loads_archive (hd : d.IsTree) (hfolder : d.isFolder p = true) {members : List Member}
    (hpacks : d.Packs p members) {setting : Setting} {source : String} {format : ArchiveFormat} {s : Session}
    (hs : s.disk.IsWellNamed) (hscratch : s.disk.IsScratch setting.scratch)
    (hformat : ArchiveFormat.ofName? (Path.resolve setting.folder source).name = some format)
    (harchive : s.disk.file? (Path.resolve setting.folder source) = some (.archive format members))
    (debug verbose : Bool) :
    Loads (load setting debug verbose source) s (Loader.load { path := p } d).document? := by
  obtain ⟨inner, hextract, -, hsame⟩ := hpacks.extract hd hfolder format
  have hdocument : documentAt? setting.scratch s.disk (Path.resolve setting.folder source) =
      (Loader.load { path := p } d).document? := by
    have hinner : inner.IsSlashFree := by
      have hnames := Disk.isSlashFree_extract format (.archive format members)
      rwa [hextract] at hnames
    have hhost : Host.extract format (.archive format members) = (.ok (), inner) := hextract
    rw [documentAt?, harchive, hformat]
    dsimp only
    rw [archived?, hhost]
    refine document?_of_sameBelow hd.toIsWellNamed (hscratch.isWellNamed_graft hs hinner)
      (Disk.isFile_eq_false_of_isFolder hfolder) (Disk.isFile_eq_false_of_isFolder (hscratch.isFolder_graft inner))
      fun rest hrest => ?_
    have hentry := hscratch.entry?_graft inner rest
    rw [if_neg hrest] at hentry
    rw [Disk.file?_congr hentry, hsame]
  rw [← hdocument]
  exact loads_load setting debug verbose source s hscratch

/-- What a loader reads is settled by the document files below its path, whatever it has done before: all of them are
read, once each and in the order of their written paths, up to the first that fails; and neither the order in which they
are listed, nor the place of the folder, nor an archive around them makes a difference to the document. -/
theorem load_settled_by_files (hd : d.IsTree) (l : Loader) {events : List Loader.Event}
    (hevents : ∀ event ∈ events, event.IsPlain) :
    let now := (Loader.afterAll d l events).1
    let load := (Loader.afterAll d l events).2.load now
    let fresh := Loader.load { path := l.path } now
    (load.document = fresh.document ∧ load.loader.files = fresh.loader.files ∧ load.log = fresh.log) ∧
      Loader.Covers load now l.path ∧
      (∀ listed : Disk, listed.entries.Perm now.entries → (Loader.afterAll d l events).2.load listed = load) ∧
      (∀ (other : Disk) (place : Path), other.IsTree → now.isFile l.path = false → other.isFile place = false →
        Loader.SameBelow now l.path other place →
        (Loader.load { path := place } other).document = load.document ∧
          ∃ rests : List Path, load.loader.files = rests.map (l.path ++ ·) ∧
            (Loader.load { path := place } other).loader.files = rests.map (place ++ ·)) ∧
      (now.isFolder l.path = true → ∀ (setting : Setting) (source : String) (s : Session) (debug verbose : Bool),
        s.disk.IsTree → s.disk.IsScratch setting.scratch →
        (s.disk = now ∧ Path.resolve setting.folder source = l.path ∨
          ∃ format members, now.Packs l.path members ∧
            ArchiveFormat.ofName? (Path.resolve setting.folder source).name = some format ∧
            s.disk.file? (Path.resolve setting.folder source) = some (.archive format members)) →
        Loads (Command.load setting debug verbose source) s load.document?) := by
  intro now load fresh
  obtain ⟨hnow, hpath⟩ := Loader.afterAll_keeps hd l hevents
  have hfresh : load.document = fresh.document ∧ load.loader.files = fresh.loader.files ∧ load.log = fresh.log := by
    have heq := Loader.load_eq_fresh (Loader.afterAll d l events).2 now
    rwa [hpath] at heq
  refine ⟨hfresh, ?_, fun listed hperm => Loader.load_of_perm hnow.toIsWellNamed hperm _, ?_, ?_⟩
  · rw [← hpath]
    exact Loader.load_covers hnow _
  · intro other place hother hfile hplace hsame
    rw [hfresh.1, hfresh.2.1]
    exact Loader.load_of_sameBelow hnow.toIsWellNamed hother.toIsWellNamed hfile hplace hsame
  · intro hfolder setting source s debug verbose hs hscratch hsource
    have hdocument : load.document? = fresh.document? := by
      rw [Load.document?, Load.document?, hfresh.1, hfresh.2.1]
    rw [hdocument]
    rcases hsource with ⟨hdisk, hsource⟩ | ⟨format, members, hpacks, hformat, harchive⟩
    · have hload := loads_load setting debug verbose source s hscratch
      have hnone : s.disk.file? l.path = none := by
        have hfile := Disk.isFile_eq_false_of_isFolder hfolder
        rw [hdisk]
        simpa [Disk.isFile] using hfile
      rwa [documentAt?, hsource, hnone, hdisk] at hload
    · exact loads_archive hnow hfolder hpacks hs.toIsWellNamed hscratch hformat harchive debug verbose

/-- A folder of documents: a file, a folder of the same name without the ending, and a folder of a longer name. -/
def shelf : Disk where
  entries :=
    [([""], .folder), (["", "r"], .folder), (["", "r", "a.graphql"], .file (.ofText "scalar A")),
      (["", "r", "a"], .folder), (["", "r", "a", "b.GQL"], .file (.ofText "scalar B")), (["", "r", "a-b"], .folder),
      (["", "r", "a-b", "c.graphqls"], .file (.ofText "scalar C")), (["", "r", "notes.txt"], .file (.ofText "\x7d"))]

/-- A file is spoilt and mended, with a load at each turn, and a folder is removed. -/
def repair : List Loader.Event :=
  [.load, .write ["", "r", "a.graphql"] (.ofText "\x7d"), .load, .write ["", "r", "a.graphql"] (.ofText "scalar D"),
    .load, .remove ["", "r", "a"]]

/-- After the repair, the loader covers the folder, in whatever order it is listed. -/
theorem load_settled_after_repair :
    shelf.IsTree ∧ (∀ event ∈ repair, event.IsPlain) ∧
      let now := (Loader.afterAll shelf { path := ["", "r"] } repair).1
      let used := (Loader.afterAll shelf { path := ["", "r"] } repair).2
      Loader.Covers (used.load now) now ["", "r"] ∧
        (used.load ⟨now.entries.reverse⟩).log = (Loader.load { path := ["", "r"] } now).log := by
  have hshelf : shelf.IsTree := Disk.IsTree.of_entries (by decide) (by decide)
  have hrepair : ∀ event ∈ repair, event.IsPlain := by
    have hplain : Path.IsPlain ["", "r", "a.graphql"] := ⟨by decide, by decide⟩
    simp [repair, Loader.Event.IsPlain, hplain]
  obtain ⟨⟨-, -, hlog⟩, hcovers, hlisted, -⟩ := load_settled_by_files hshelf { path := ["", "r"] } hrepair
  have hreversed := hlisted ⟨(Loader.afterAll shelf { path := ["", "r"] } repair).1.entries.reverse⟩
    (List.reverse_perm _)
  exact ⟨hshelf, hrepair, hcovers, (congrArg Load.log hreversed).trans hlog⟩

end Command

end GraphDoc
