import GraphDoc.Loader
import GraphDoc.Proofs.Disk.Basic
import Mathlib.Data.List.Sort

/-!
# What a loader reads

The files of a loader are the document files at its path, each once and in the order of their written paths. So what it
reads depends on the files below its path alone: not on the order in which they are listed, not on where they stand, and
not on what was loaded before.
-/

namespace GraphDoc

/-- The ending of a path is that of its name. -/
theorem isDocumentName_text (p : Path) : isDocumentName p.text = isDocumentName p.name := by
  have hends : ∀ ending ∈ documentEndings, Text.endsWithSmall p.text ending = Text.endsWithSmall p.name ending := by
    intro ending hending
    have hslash : '/' ∉ ending.toList := by
      revert ending
      decide
    rw [Bool.eq_iff_iff, Text.endsWithSmall, Text.endsWithSmall, List.isSuffixOf_iff_suffix, List.isSuffixOf_iff_suffix]
    exact Path.suffix_text_iff hslash (by decide) p
  rw [isDocumentName, isDocumentName, Bool.eq_iff_iff, List.any_eq_true, List.any_eq_true]
  exact exists_congr fun ending => and_congr_right fun hending => by rw [hends ending hending]

namespace Loader

variable {d d' : Disk} {p p' q : Path}

/-! ## The files -/

/-- The files that are collected are the document files at the path. -/
theorem mem_collect (h : d.IsWellNamed) :
    q ∈ collect d p ↔
      d.isFile q = true ∧ isDocumentName q.name = true ∧ p <+: q ∧ (d.isFile p = true → q = p) := by
  rw [collect]
  by_cases hp : d.isFile p = true
  · rw [if_pos hp, isDocumentName_text]
    constructor
    · intro hq
      split at hq
      · next hname =>
        obtain rfl := List.mem_singleton.1 hq
        exact ⟨hp, hname, List.prefix_refl _, fun _ => rfl⟩
      · simp at hq
    · rintro ⟨-, hname, -, heq⟩
      obtain rfl := heq hp
      rw [if_pos hname]
      exact List.mem_singleton_self _
  · rw [if_neg hp, List.mem_mergeSort, List.mem_filter, List.mem_map]
    constructor
    · rintro ⟨⟨⟨r, content⟩, hr, rfl⟩, hname⟩
      obtain ⟨hentry, hbelow, -⟩ := Disk.mem_filesBelow.1 hr
      rw [Disk.mem_entries_iff h.distinct] at hentry
      exact ⟨Disk.isFile_iff.2 ⟨content, hentry⟩, hname, hbelow, fun hfile => absurd hfile hp⟩
    · rintro ⟨hq, hname, hbelow, -⟩
      obtain ⟨content, hentry⟩ := Disk.isFile_iff.1 hq
      refine ⟨⟨(q, content), Disk.mem_filesBelow.2 ⟨?_, hbelow, ?_⟩, rfl⟩, hname⟩
      · exact (Disk.mem_entries_iff h.distinct).2 hentry
      · rintro rfl
        exact hp hq

/-- On a tree, nothing stands below a file. -/
theorem mem_collect_of_isTree (h : d.IsTree) :
    q ∈ collect d p ↔ d.isFile q = true ∧ isDocumentName q.name = true ∧ p <+: q := by
  rw [mem_collect h.toIsWellNamed]
  refine and_congr_right fun hq => and_congr_right fun _ => and_iff_left_of_imp fun hpq hp => ?_
  by_contra hne
  obtain ⟨content, hcontent⟩ := Disk.isFile_iff.1 hp
  obtain ⟨content', hcontent'⟩ := Disk.isFile_iff.1 hq
  have hnil : p ≠ [] := (h.plain (by rw [hcontent]; rfl)).ne_nil
  have hfolder := h.closed (by rw [hcontent']; rfl) hpq (Ne.symm hne) hnil
  rw [Disk.isFile_eq_false_of_isFolder hfolder] at hp
  exact Bool.false_ne_true hp

/-- Files are collected in the order of their written paths, and each once. -/
theorem collect_ordered (h : d.IsWellNamed) : (collect d p).Pairwise fun a b => a.text < b.text := by
  rw [collect]
  split
  · split
    · exact List.pairwise_singleton _ _
    · exact List.Pairwise.nil
  · have hdistinct : ((d.filesBelow p).map (·.1)).Nodup := by
      rw [List.Nodup, List.pairwise_map, Disk.filesBelow, List.pairwise_filterMap]
      refine (List.pairwise_map.1 h.distinct).imp ?_
      rintro ⟨a, x⟩ ⟨b, y⟩ hne ⟨a', _⟩ ha ⟨b', _⟩ hb
      cases x <;> cases y <;> simp_all
    have hsorted := @List.pairwise_mergeSort _ precedes
      (by simp only [precedes, decide_eq_true_eq]; exact fun a b c => le_trans)
      (by simp only [precedes, Bool.or_eq_true, decide_eq_true_eq]; exact fun a b => le_total _ _)
      (((d.filesBelow p).map (·.1)).filter fun q => isDocumentName q.name)
    have hsets := (List.mergeSort_perm (((d.filesBelow p).map (·.1)).filter fun q => isDocumentName q.name) precedes)
    refine (hsorted.and (hsets.nodup_iff.2 (hdistinct.filter _))).imp_of_mem ?_
    rintro a b ha hb ⟨hle, hne⟩
    -- two files of one written path would be the same
    have hplain : ∀ {r : Path}, r ∈ (d.filesBelow p).map (·.1) → r.IsPlain := by
      intro r hr
      obtain ⟨⟨_, content⟩, hmem, rfl⟩ := List.mem_map.1 hr
      have hentry := (Disk.mem_entries_iff h.distinct).1 (Disk.mem_filesBelow.1 hmem).1
      exact h.plain (by rw [hentry]; rfl)
    refine lt_of_le_of_ne (by simpa [precedes] using hle) fun htext => hne ?_
    exact Path.eq_of_text_eq (hplain (List.mem_filter.1 (List.mem_mergeSort.1 ha)).1)
      (hplain (List.mem_filter.1 (List.mem_mergeSort.1 hb)).1) htext

/-- An ordered list of the same files is the same list. -/
theorem eq_of_ordered {files files' : List Path} (h : files.Pairwise fun a b => a.text < b.text)
    (h' : files'.Pairwise fun a b => a.text < b.text) (hmem : ∀ q, q ∈ files ↔ q ∈ files') : files = files' := by
  have : Std.Irrefl fun a b : Path => a.text < b.text := ⟨fun a => lt_irrefl _⟩
  have : Std.Antisymm fun a b : Path => a.text < b.text := ⟨fun a b hab hba => absurd hba (lt_asymm hab)⟩
  exact h.eq_of_mem_iff h' hmem

/-- Two disks with the same entries hold the same documents, in the same order. -/
theorem collect_congr (h : d.IsWellNamed) (h' : d'.IsWellNamed) (hentry : ∀ q, d'.entry? q = d.entry? q) (p : Path) :
    collect d' p = collect d p := by
  refine eq_of_ordered (collect_ordered h') (collect_ordered h) fun q => ?_
  have hfile : ∀ q, d'.isFile q = d.isFile q := fun q => by rw [Disk.isFile, Disk.file?_congr (hentry q), ← Disk.isFile]
  rw [mem_collect h, mem_collect h', hfile, hfile]

/-! ## Reading -/

/-- The document in a file. -/
def readFile (d : Disk) (p : Path) : Except LoadError Tree :=
  match (d.file? p).bind FileContent.text? with
  | none => .error .undecodable
  | some source => (parseDocument source).mapError (.parse source)

/-- What a log says of a file that fails. -/
def failureLog (p : Path) : LoadError → List LogEntry
  | .undecodable => []
  | .parse source e => [⟨.error, "Error parsing " ++ p.name ++ ": " ++ e.report source⟩]

/-- Reading goes on behind a file only if the file is read. -/
theorem readFiles_cons (d : Disk) (currentFile : String) (p : Path) (rest : List Path) :
    readFiles d currentFile (p :: rest) =
      Progress.logFirst ⟨.debug, "Parsing " ++ p.text⟩
        (match readFile d p with
          | .error e => ⟨.error e, p.name, failureLog p e⟩
          | .ok t => (readFiles d p.name rest).define t.definitions) := by
  rw [readFiles, readFile]
  cases (d.file? p).bind FileContent.text? with
  | none => rfl
  | some source =>
    dsimp only
    cases parseDocument source <;> rfl

/-- The definitions of the files in a row are read, or the first failure ends the reading. -/
theorem readFiles_definitions (d : Disk) (currentFile : String) (files : List Path) :
    (readFiles d currentFile files).definitions =
      (files.mapM (readFile d)).map (List.flatMap Tree.definitions) := by
  induction files generalizing currentFile with
  | nil => rfl
  | cons p rest ih =>
    rw [readFiles_cons, List.mapM_cons]
    cases readFile d p with
    | error e => rfl
    | ok t =>
      dsimp only [Progress.logFirst, Progress.define]
      rw [ih]
      cases rest.mapM (readFile d) <;> rfl

/-- The log does not depend on the file that was looked at before. -/
theorem readFiles_log (d : Disk) (one other : String) (files : List Path) :
    (readFiles d one files).log = (readFiles d other files).log := by
  cases files with
  | nil => rfl
  | cons p rest => rw [readFiles_cons, readFiles_cons]

/-- The first file that fails ends the reading, and is the one that was looked at last. -/
theorem readFiles_of_failure {before after : List Path} {e : LoadError} (hq : readFile d q = .error e)
    (hbefore : ∀ b ∈ before, ∃ t, readFile d b = .ok t) (currentFile : String) :
    (readFiles d currentFile (before ++ q :: after)).definitions = .error e ∧
      (readFiles d currentFile (before ++ q :: after)).currentFile = q.name := by
  induction before generalizing currentFile with
  | nil =>
    rw [List.nil_append, readFiles_cons, hq]
    exact ⟨rfl, rfl⟩
  | cons b before ih =>
    obtain ⟨t, ht⟩ := hbefore b List.mem_cons_self
    obtain ⟨hdefinitions, hcurrent⟩ := ih (fun b hb => hbefore b (List.mem_cons_of_mem _ hb)) b.name
    rw [List.cons_append, readFiles_cons, ht]
    refine ⟨?_, hcurrent⟩
    dsimp only [Progress.logFirst, Progress.define]
    rw [hdefinitions]
    rfl

/-! ## Loading -/

/-- After a load the files of the loader are the documents below its path. -/
theorem load_files (l : Loader) (d : Disk) : (l.load d).loader.files = collect d l.path := rfl

/-- Loading leaves the path as it is. -/
theorem load_path (l : Loader) (d : Disk) : (l.load d).loader.path = l.path := rfl

/-- A document holds the definitions of all files in a row. -/
theorem load_document (l : Loader) (d : Disk) :
    (l.load d).document =
      ((collect d l.path).mapM (readFile d)).map fun trees => .document (.tuple (trees.flatMap Tree.definitions)) := by
  rw [load]
  dsimp only
  rw [readFiles_definitions]
  cases (collect d l.path).mapM (readFile d) <;> rfl

/-- Whether a load has read the document files at a path: all of them, each once and in the order of their written
paths, up to the first that fails. -/
structure Covers (load : Load) (d : Disk) (p : Path) : Prop where
  ordered : load.loader.files.Pairwise fun a b => a.text < b.text
  files : ∀ q, q ∈ load.loader.files ↔ d.isFile q = true ∧ isDocumentName q.name = true ∧ p <+: q
  document : load.document = ((load.loader.files.mapM (readFile d)).map fun trees =>
    .document (.tuple (trees.flatMap Tree.definitions)))
  failure : ∀ before q after e, load.loader.files = before ++ q :: after → (∀ b ∈ before, ∃ t, readFile d b = .ok t) →
    readFile d q = .error e → load.document = .error e ∧ load.loader.currentFile = q.name

/-- After a load the files of the loader cover the documents below its path. -/
theorem load_covers (h : d.IsTree) (l : Loader) : Covers (l.load d) d l.path where
  ordered := collect_ordered h.toIsWellNamed
  files := fun q => mem_collect_of_isTree h
  document := load_document l d
  failure := by
    intro before q after e hfiles hbefore hq
    rw [load_files] at hfiles
    obtain ⟨hdefinitions, hcurrent⟩ := readFiles_of_failure hq hbefore l.currentFile
    rw [load]
    dsimp only
    rw [hfiles, hdefinitions]
    exact ⟨rfl, hcurrent⟩

/-- What a loader did before makes no difference. -/
theorem load_eq_fresh (l : Loader) (d : Disk) :
    (l.load d).document = (Loader.load { path := l.path } d).document ∧
      (l.load d).loader.files = (Loader.load { path := l.path } d).loader.files ∧
      (l.load d).log = (Loader.load { path := l.path } d).log := by
  refine ⟨by rw [load_document, load_document], rfl, ?_⟩
  rw [load, load]
  dsimp only
  rw [readFiles_log d l.currentFile ""]

/-- The order in which a disk lists its entries makes no difference. -/
theorem load_of_perm (h : d.IsWellNamed) (hperm : d'.entries.Perm d.entries) (l : Loader) : l.load d' = l.load d := by
  obtain ⟨h', hentry⟩ := h.of_perm hperm
  have hfiles : collect d' l.path = collect d l.path := collect_congr h h' hentry l.path
  have hread : ∀ (files : List Path) (currentFile : String),
      readFiles d' currentFile files = readFiles d currentFile files := by
    intro files
    induction files with
    | nil => exact fun _ => rfl
    | cons p rest ih =>
      intro currentFile
      have hfile : readFile d' p = readFile d p := by rw [readFile, Disk.file?_congr (hentry p), ← readFile]
      rw [readFiles_cons, readFiles_cons, hfile, ih]
  rw [load, load, hfiles, hread]

/-! ## Places -/

/-- Whether the same files, by their texts, stand below two paths. -/
def SameBelow (d : Disk) (p : Path) (d' : Disk) (p' : Path) : Prop :=
  ∀ rest, rest ≠ [] →
    (d'.file? (p' ++ rest)).map FileContent.text? = (d.file? (p ++ rest)).map FileContent.text?

/-- Where two places hold the same below them, the same paths lead to files. -/
theorem SameBelow.isFile (h : SameBelow d p d' p') {rest : Path} (hrest : rest ≠ []) :
    d'.isFile (p' ++ rest) = d.isFile (p ++ rest) := by
  have := congrArg Option.isSome (h rest hrest)
  simpa [Disk.isFile] using this

/-- Where two places hold the same below them, the same paths lead to the same texts. -/
theorem SameBelow.readFile (h : SameBelow d p d' p') {rest : Path} (hrest : rest ≠ []) :
    readFile d' (p' ++ rest) = Loader.readFile d (p ++ rest) := by
  have hbind : ∀ found : Option FileContent, found.bind FileContent.text? = (found.map FileContent.text?).join := by
    intro found
    cases found <;> rfl
  rw [Loader.readFile, hbind, h rest hrest, ← hbind, ← Loader.readFile]

/-- The name of a longer path is that of what was added. -/
theorem name_append (p : Path) {rest : Path} (h : rest ≠ []) : (p ++ rest).name = rest.name := by
  rw [Path.name, Path.name, List.getLast?_append_of_ne_nil _ h]

/-- The documents of a folder are the files below it that have a document's name. -/
theorem mem_collect_of_folder (h : d.IsWellNamed) (hp : d.isFile p = false) :
    q ∈ collect d p ↔
      ∃ rest : Path, rest ≠ [] ∧ q = p ++ rest ∧ d.isFile (p ++ rest) = true ∧ isDocumentName rest.name = true := by
  rw [mem_collect h]
  constructor
  · rintro ⟨hfile, hname, ⟨rest, rfl⟩, -⟩
    have hrest : rest ≠ [] := by
      rintro rfl
      rw [List.append_nil, hp] at hfile
      exact Bool.false_ne_true hfile
    rw [name_append p hrest] at hname
    exact ⟨rest, hrest, rfl, hfile, hname⟩
  · rintro ⟨rest, hrest, rfl, hfile, hname⟩
    refine ⟨hfile, by rwa [name_append p hrest], List.prefix_append _ _, fun hfalse => ?_⟩
    rw [hp] at hfalse
    exact absurd hfalse Bool.false_ne_true

/-- Files that all lie below a path are that path with some further parts. -/
theorem exists_rests {files : List Path} (h : ∀ q ∈ files, ∃ rest, rest ≠ [] ∧ q = p ++ rest) :
    ∃ rests : List Path, (∀ rest ∈ rests, rest ≠ []) ∧ files = rests.map (p ++ ·) := by
  induction files with
  | nil => exact ⟨[], by simp, rfl⟩
  | cons q files ih =>
    obtain ⟨rest, hrest, rfl⟩ := h q List.mem_cons_self
    obtain ⟨rests, hrests, rfl⟩ := ih fun q hq => h q (List.mem_cons_of_mem _ hq)
    exact ⟨rest :: rests, by simpa [hrest] using hrests, rfl⟩

/-- The same files below two folders are collected in the same order. -/
theorem collect_of_sameBelow (hd : d.IsWellNamed) (hd' : d'.IsWellNamed) (hp : d.isFile p = false)
    (hp' : d'.isFile p' = false) (hsame : SameBelow d p d' p') :
    ∃ rests : List Path, (∀ rest ∈ rests, rest ≠ []) ∧ collect d p = rests.map (p ++ ·) ∧
      collect d' p' = rests.map (p' ++ ·) := by
  have hbelow : ∀ q ∈ collect d p, ∃ rest, rest ≠ [] ∧ q = p ++ rest := by
    intro q hq
    obtain ⟨rest, hrest, rfl, -⟩ := (mem_collect_of_folder hd hp).1 hq
    exact ⟨rest, hrest, rfl⟩
  obtain ⟨rests, hrests, hfiles⟩ := exists_rests hbelow
  refine ⟨rests, hrests, hfiles, eq_of_ordered (collect_ordered hd') ?_ fun q => ?_⟩
  · have hordered := collect_ordered (p := p) hd
    rw [hfiles, List.pairwise_map] at hordered
    rw [List.pairwise_map]
    refine hordered.imp_of_mem fun {a b} ha hb hlt => ?_
    rw [Path.text_append_lt_iff p (hrests a ha) (hrests b hb)] at hlt
    rwa [Path.text_append_lt_iff p' (hrests a ha) (hrests b hb)]
  · -- what stands behind the folder decides on either side
    have hmem : ∀ rest, rest ∈ rests ↔
        rest ≠ [] ∧ d.isFile (p ++ rest) = true ∧ isDocumentName rest.name = true := by
      intro rest
      have hiff := mem_collect_of_folder (q := p ++ rest) hd hp
      rw [hfiles, List.mem_map_of_injective (List.append_right_injective p)] at hiff
      rw [hiff]
      constructor
      · rintro ⟨rest', hrest, heq, hfile⟩
        obtain rfl := List.append_cancel_left heq
        exact ⟨hrest, hfile⟩
      · rintro ⟨hrest, hfile⟩
        exact ⟨rest, hrest, rfl, hfile⟩
    rw [mem_collect_of_folder hd' hp', List.mem_map]
    constructor
    · rintro ⟨rest, hrest, rfl, hfile, hname⟩
      exact ⟨rest, (hmem rest).2 ⟨hrest, by rwa [← hsame.isFile hrest], hname⟩, rfl⟩
    · rintro ⟨rest, hrest, rfl⟩
      obtain ⟨hne, hfile, hname⟩ := (hmem rest).1 hrest
      exact ⟨rest, hne, rfl, by rwa [hsame.isFile hne], hname⟩

/-- Where the files stand makes no difference to the document. -/
theorem load_of_sameBelow (hd : d.IsWellNamed) (hd' : d'.IsWellNamed) (hp : d.isFile p = false)
    (hp' : d'.isFile p' = false) (hsame : SameBelow d p d' p') :
    (Loader.load { path := p' } d').document = (Loader.load { path := p } d).document ∧
      ∃ rests : List Path, (Loader.load { path := p } d).loader.files = rests.map (p ++ ·) ∧
        (Loader.load { path := p' } d').loader.files = rests.map (p' ++ ·) := by
  obtain ⟨rests, hrests, hfiles, hfiles'⟩ := collect_of_sameBelow hd hd' hp hp' hsame
  refine ⟨?_, rests, hfiles, hfiles'⟩
  rw [load_document, load_document]
  dsimp only
  rw [hfiles, hfiles', List.mapM_map, List.mapM_map]
  congr 1
  exact mapM_congr fun rest hrest => hsame.readFile (hrests rest hrest)

/-! ## Histories -/

/-- What can happen to a disk and to a loader. -/
inductive Event
  | write (p : Path) (content : FileContent)
  | remove (p : Path)
  | load

/-- Whether an event speaks of a path that a disk can have. -/
def Event.IsPlain : Event → Prop
  | .write p _ => p.IsPlain
  | _ => True

/-- What a disk and a loader become by an event. A write that is refused changes nothing. -/
def Event.apply (event : Event) (d : Disk) (l : Loader) : Disk × Loader :=
  match event with
  | .write p content =>
    match d.save p content with
    | .ok d' => (d', l)
    | .error _ => (d, l)
  | .remove p => (d.remove p, l)
  | .load => (d, (l.load d).loader)

/-- What a disk and a loader become by events in a row. -/
def afterAll (d : Disk) (l : Loader) : List Event → Disk × Loader
  | [] => (d, l)
  | event :: rest => afterAll (event.apply d l).1 (event.apply d l).2 rest

/-- An event leaves a tree of files a tree, and a loader at its path. -/
theorem Event.apply_keeps (hd : d.IsTree) (l : Loader) {event : Event} (he : event.IsPlain) :
    (event.apply d l).1.IsTree ∧ (event.apply d l).2.path = l.path := by
  cases event with
  | write p content =>
    rw [apply]
    split
    · next d' hsave =>
      obtain ⟨hwritable, rfl⟩ := (Disk.save_eq_ok_iff hd.isFile_nil).1 hsave
      exact ⟨hd.saved he hwritable content, rfl⟩
    · exact ⟨hd, rfl⟩
  | remove p => exact ⟨hd.remove p, rfl⟩
  | load => exact ⟨hd, load_path l d⟩

/-- Ordinary events keep the disk a tree and the path of the loader. -/
theorem afterAll_keeps (hd : d.IsTree) (l : Loader) {events : List Event} (he : ∀ event ∈ events, event.IsPlain) :
    (afterAll d l events).1.IsTree ∧ (afterAll d l events).2.path = l.path := by
  induction events generalizing d l with
  | nil => exact ⟨hd, rfl⟩
  | cons event rest ih =>
    obtain ⟨htree, hpath⟩ := Event.apply_keeps hd l (he event List.mem_cons_self)
    rw [afterAll, ← hpath]
    exact ih htree _ fun event hevent => he event (List.mem_cons_of_mem _ hevent)

end Loader

end GraphDoc
