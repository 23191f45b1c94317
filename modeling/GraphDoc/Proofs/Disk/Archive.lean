import GraphDoc.Host
import GraphDoc.Proofs.Disk.Basic

/-!
# Unpacked archives

The members of an archive are put into an empty folder one after the other. Where they stand below a path of a disk as
they say, each of them is put there, and the folder shows the files below that path. In the scratch folder of a disk the
extracted members stand as they do in a folder of their own; outside of it nothing changes.
-/

namespace GraphDoc

/-! ## Places of members -/

/-- Parts that never go up lead to where they say. -/
theorem Path.inside?_of_down {parts : List String} (h : ".." ∉ parts) (here : Path) :
    Path.inside? here parts = some (here ++ parts) := by
  induction parts generalizing here with
  | nil => rw [Path.inside?, List.append_nil]
  | cons part rest ih =>
    rw [List.mem_cons, not_or] at h
    rw [Path.inside?, if_pos (Ne.symm h.1), ih h.2, List.append_assoc, List.singleton_append]

/-- Where parts lead to has no other parts than these and those of the start. -/
theorem Path.mem_of_inside? {here place : Path} {parts : List String} (h : Path.inside? here parts = some place)
    {part : String} (hpart : part ∈ place) : part ∈ here ∨ part ∈ parts := by
  induction parts generalizing here with
  | nil =>
    rw [Path.inside?, Option.some.injEq] at h
    exact .inl (h ▸ hpart)
  | cons next rest ih =>
    rw [Path.inside?] at h
    split at h
    · rcases ih h with hhere | hrest
      · rcases List.mem_append.1 hhere with hhere | hnext
        · exact .inl hhere
        · exact .inr (List.mem_cons.2 (.inl (List.mem_singleton.1 hnext)))
      · exact .inr (List.mem_cons_of_mem _ hrest)
    · split at h
      · cases h
      · rcases ih h with hhere | hrest
        · exact .inl (List.dropLast_subset _ hhere)
        · exact .inr (List.mem_cons_of_mem _ hrest)

namespace ArchiveFormat

variable {format : ArchiveFormat} {m : Member}

/-- A member that leads nowhere up is put where it says. -/
theorem place?_of_down (format : ArchiveFormat) (h : ".." ∉ m.place) : format.place? m = some m.place := by
  cases format with
  | zip =>
    rw [place?, List.filter_eq_self.2]
    intro part hpart
    have hne : part ≠ ".." := fun heq => h (heq ▸ hpart)
    simpa using hne
  | tarball => rw [place?, Path.inside?_of_down h, List.nil_append]

/-- No part of a place holds a slash. -/
theorem slashFree_of_place? {place : Path} (h : format.place? m = some place) {part : String} (hpart : part ∈ place) :
    '/' ∉ part.toList := by
  have hplace : part ∈ m.place := by
    cases format with
    | zip =>
      obtain rfl := Option.some.inj h
      exact (List.mem_filter.1 hpart).1
    | tarball => exact (Path.mem_of_inside? h hpart).resolve_left List.not_mem_nil
  exact Path.slashFree_of_mem_parts (List.mem_filter.1 hplace).1

end ArchiveFormat

namespace Disk

variable {d r r' inner : Disk} {p scratch : Path} {format : ArchiveFormat} {m : Member} {members : List Member}

/-! ## Extraction -/

/-- A member that is not refused is saved as a file or made as a folder, at its place. -/
theorem extractMember?_eq_some_iff :
    r.extractMember? format m = some r' ↔ ∃ place, format.place? m = some place ∧
      ((∃ data, m.bytes? = some data ∧ r.save place (.bytes data) = .ok r') ∨
        m.bytes? = none ∧ r.makeFolder place = .ok r') := by
  have hok : ∀ result : Except DiskError Disk, result.toOption = some r' ↔ result = .ok r' := by
    intro result
    cases result <;> simp [Except.toOption]
  cases hplace : format.place? m with
  | none => simp [extractMember?, hplace]
  | some place => cases hbytes : m.bytes? <;> simp [extractMember?, hplace, hbytes, hok]

/-- A member that is put into a folder is followed by the rest, unless the archive breaks there. -/
theorem extract_cons_of_some (h : r.extractMember? format m = some r') (hbreaks : m.breaks = false)
    (rest : List Member) : extract format (m :: rest) r = extract format rest r' := by
  rw [extract, h]
  dsimp only
  rw [hbreaks, if_neg Bool.false_ne_true]

/-- What holds of a folder and is kept by each member that is put there holds whatever comes of the extraction. -/
theorem extract_keeps {P : Disk → Prop} (hstep : ∀ {r r' m}, P r → r.extractMember? format m = some r' → P r')
    (h : P r) : P (extract format members r).2 := by
  induction members generalizing r with
  | nil => exact h
  | cons m rest ih =>
    rw [extract]
    cases hmember : r.extractMember? format m with
    | none => exact h
    | some r' =>
      dsimp only
      split
      · exact hstep h hmember
      · exact ih (hstep h hmember)

/-! ## Names without slashes -/

/-- Whether no part of a path on a disk holds a slash. -/
def IsSlashFree (d : Disk) : Prop := ∀ p, (d.entry? p).isSome = true → ∀ part ∈ p, '/' ∉ part.toList

namespace IsSlashFree

/-- Folders on the way to a place have no other parts than the place. -/
theorem putFolders (h : d.IsSlashFree) (hp : ∀ part ∈ p, '/' ∉ part.toList) {place : Path} (hplace : place <+: p) :
    (d.putFolders (way place)).IsSlashFree := by
  intro q hq
  rw [entry?_putFolders] at hq
  split at hq
  · next hway => exact fun part hpart => hp part (((mem_way.1 hway).1.trans hplace).subset hpart)
  · exact h q hq

/-- Saving a file puts no slash into a name. -/
theorem saved (h : d.IsSlashFree) (hp : ∀ part ∈ p, '/' ∉ part.toList) (content : FileContent) :
    (d.saved p content).IsSlashFree := by
  intro q hq
  rw [Disk.saved, entry?_put] at hq
  split at hq
  · next heq => exact heq ▸ hp
  · exact h.putFolders hp ( List.dropLast_prefix p) q hq

/-- A member has no slash in the parts of its place, so it puts none there. -/
theorem extractMember? (h : r.IsSlashFree) (hmember : r.extractMember? format m = some r') : r'.IsSlashFree := by
  obtain ⟨place, hplace, ⟨data, -, hsave⟩ | ⟨-, hmake⟩⟩ := extractMember?_eq_some_iff.1 hmember
  · rw [eq_saved_of_save hsave]
    exact h.saved (fun part => ArchiveFormat.slashFree_of_place? hplace) _
  · obtain ⟨-, -, rfl⟩ := makeFolder_eq_ok_iff.1 hmake
    exact h.putFolders (fun part => ArchiveFormat.slashFree_of_place? hplace) (List.prefix_refl _)

end IsSlashFree

/-- What an archive puts into a folder has no slash in its names. -/
theorem isSlashFree_extract (format : ArchiveFormat) (content : FileContent) :
    (format.extract content).2.IsSlashFree := by
  have hempty : IsSlashFree ⟨[([], .folder)]⟩ := by
    intro p hp part hpart
    rw [ entry?, List.lookup_cons] at hp
    cases p with
    | nil => cases hpart
    | cons first rest => simp at hp
  cases content with
  | archive actual members =>
    rw [ArchiveFormat.extract.eq_def]
    dsimp only
    split
    · exact extract_keeps IsSlashFree.extractMember? hempty
    · exact hempty
  | bytes data => exact hempty

/-! ## A folder on a disk -/

section Graft

variable {folder : Path}

theorem graft_cons (d : Disk) (folder : Path) (e : Path × DiskEntry) (entries : List (Path × DiskEntry)) :
    d.graft folder ⟨e :: entries⟩ =
      if e.1 = [] then d.graft folder ⟨entries⟩ else (d.graft folder ⟨entries⟩).put (folder ++ e.1) e.2 := rfl

/-- In the folder stands what stands on the other disk. -/
theorem entry?_graft (hfresh : ∀ rest, d.entry? (folder ++ rest) = none) (inner : Disk) (rest : Path) :
    entry? (d.graft folder inner) (folder ++ rest) = if rest = [] then some .folder else inner.entry? rest := by
  obtain ⟨entries⟩ := inner
  induction entries with
  | nil =>
    have hempty : d.graft folder ⟨[]⟩ = d.put folder .folder := rfl
    rw [hempty, entry?_put, hfresh]
    simp [ entry?]
  | cons e entries ih =>
    rw [graft_cons, entry?.eq_def ⟨e :: entries⟩, List.lookup_cons]
    rw [ entry?.eq_def ⟨entries⟩] at ih
    by_cases hnil : e.1 = []
    · rw [if_pos hnil, ih]
      by_cases hrest : rest = []
      · rw [if_pos hrest, if_pos hrest]
      · rw [beq_eq_false_iff_ne.2 fun heq => hrest (heq.trans hnil)]
    · rw [if_neg hnil, entry?_put, ih]
      by_cases hrest : rest = e.1
      · rw [if_pos (congrArg (folder ++ ·) hrest), hrest, if_neg hnil, beq_self_eq_true]
      · rw [if_neg fun heq => hrest (List.append_cancel_left heq), beq_eq_false_iff_ne.2 hrest]

/-- What is put into a folder makes no difference outside of it. -/
theorem remove_put (h : folder <+: p) (d : Disk) (entry : DiskEntry) :
    (d.put p entry).remove folder = d.remove folder := by
  obtain ⟨entries⟩ := d
  simp only [put, remove, Disk.mk.injEq]
  induction entries with
  | nil => simp [putEntry, List.isPrefixOf_iff_prefix.2 h]
  | cons e rest ih =>
    obtain ⟨q, old⟩ := e
    rw [putEntry]
    split
    · next hq =>
      rw [eq_of_beq hq, List.filter_cons_of_neg (by simpa using h), List.filter_cons_of_neg (by simpa using h)]
    · rw [List.filter_cons, List.filter_cons, ih]

/-- Outside of the folder, the disk is as it was. -/
theorem remove_graft (d : Disk) (folder : Path) (inner : Disk) :
    (d.graft folder inner).remove folder = d.remove folder := by
  obtain ⟨entries⟩ := inner
  induction entries with
  | nil => exact remove_put (List.prefix_refl _) d .folder
  | cons e entries ih =>
    rw [graft_cons]
    split
    · exact ih
    · rw [remove_put (List.prefix_append _ _), ih]

/-- No path stands twice. -/
theorem nodup_graft (h : (d.entries.map Prod.fst).Nodup) (folder : Path) (inner : Disk) :
    ((d.graft folder inner).entries.map Prod.fst).Nodup := by
  obtain ⟨entries⟩ := inner
  induction entries with
  | nil => exact nodup_put h folder .folder
  | cons e entries ih =>
    rw [graft_cons]
    split
    · exact ih
    · exact nodup_put ih _ _

end Graft

/-! ## Scratch folders -/

/-- Whether an archive can be unpacked at a path: nothing stands there or below it, and the folders on the way to it are
there. -/
structure IsScratch (d : Disk) (scratch : Path) : Prop where
  plain : scratch.IsPlain
  fresh : ∀ rest, d.entry? (scratch ++ rest) = none
  way : ∀ q ∈ Disk.way scratch.dropLast, d.isFolder q = true

/-- On a tree, nothing stands below a path where nothing stands. -/
theorem IsTree.isScratch (h : d.IsTree) (hplain : scratch.IsPlain) (hnone : d.entry? scratch = none)
    (hway : ∀ q ∈ Disk.way scratch.dropLast, d.isFolder q = true) : d.IsScratch scratch where
  plain := hplain
  fresh := by
    intro rest
    by_contra hsome
    have hne : scratch ≠ scratch ++ rest := fun heq => hsome (heq ▸ hnone)
    have hfolder := h.closed (Option.isSome_iff_ne_none.2 hsome) (List.prefix_append scratch rest) hne hplain.ne_nil
    rw [isFolder_iff, hnone] at hfolder
    cases hfolder
  way := hway

namespace IsScratch

/-- A file that is written elsewhere leaves the place free. -/
theorem saved (h : d.IsScratch scratch) {p : Path} (hwritable : d.IsWritable p) (hapart : ¬scratch <+: p)
    (content : FileContent) : (d.saved p content).IsScratch scratch where
  plain := h.plain
  fresh := by
    intro rest
    have hne : ∀ {q : Path}, q <+: p → scratch ++ rest ≠ q := fun hq heq =>
      hapart ((List.prefix_append scratch rest).trans (heq ▸ hq))
    have hway : scratch ++ rest ∉ Disk.way p.dropLast := fun hmem =>
      hne ((mem_way.1 hmem).1.trans ( List.dropLast_prefix p)) rfl
    rw [entry?_saved, if_neg (hne (List.prefix_refl p)), if_neg hway, h.fresh]
  way := fun q hq => hwritable.isFolder_saved content (h.way q hq)

/-- Removing a scratch folder restores the disk. -/
theorem remove_graft (h : d.IsScratch scratch) (inner : Disk) : (d.graft scratch inner).remove scratch = d := by
  have hkeep : ∀ e ∈ d.entries, (!scratch.isPrefixOf e.1) = true := by
    intro e he
    rw [Bool.not_eq_true', Bool.eq_false_iff, ne_eq, List.isPrefixOf_iff_prefix]
    rintro ⟨rest, heq⟩
    have := List.lookup_eq_none_iff.1 (h.fresh rest) e he
    simp [heq] at this
  rw [Disk.remove_graft, remove, List.filter_eq_self.2 hkeep]

/-- Outside of a scratch folder, a disk is as it was. -/
theorem entry?_graft_of_apart (h : d.IsScratch scratch) (inner : Disk) (hapart : ¬scratch <+: p) :
    entry? (d.graft scratch inner) p = d.entry? p := by
  have hentry := congrArg (fun disk => disk.entry? p) (h.remove_graft inner)
  simpa only [entry?_remove, if_neg hapart] using hentry

/-- In the folder stands what stands on the other disk. -/
theorem entry?_graft (h : d.IsScratch scratch) (inner : Disk) (rest : Path) :
    entry? (d.graft scratch inner) (scratch ++ rest) = if rest = [] then some .folder else inner.entry? rest :=
  Disk.entry?_graft h.fresh inner rest

/-- The scratch folder itself is there. -/
theorem isFolder_graft (h : d.IsScratch scratch) (inner : Disk) : (d.graft scratch inner).isFolder scratch = true := by
  have hentry := h.entry?_graft inner []
  rw [List.append_nil, if_pos rfl] at hentry
  exact isFolder_iff.2 hentry

/-- A disk is well named with a scratch folder on it too. -/
theorem isWellNamed_graft (h : d.IsScratch scratch) (hd : d.IsWellNamed) (hinner : inner.IsSlashFree) :
    (d.graft scratch inner).IsWellNamed where
  distinct := nodup_graft hd.distinct scratch inner
  plain := by
    intro p hp
    by_cases hbelow : scratch <+: p
    · obtain ⟨rest, rfl⟩ := hbelow
      by_cases hrest : rest = []
      · rw [hrest, List.append_nil]
        exact h.plain
      · rw [h.entry?_graft, if_neg hrest] at hp
        exact h.plain.append (hinner rest hp)
    · rw [h.entry?_graft_of_apart inner hbelow] at hp
      exact hd.plain hp

end IsScratch

/-! ## Packed folders -/

/-- Whether an archive packs what stands below a path: each member stands there with its text, and each file there is a
member. No member is damaged or leads up. -/
structure Packs (d : Disk) (p : Path) (members : List Member) : Prop where
  whole : ∀ m ∈ members, m.breaks = false ∧ ".." ∉ m.place
  file : ∀ m ∈ members, ∀ data ∈ m.bytes?,
    (d.file? (p ++ m.place)).map FileContent.text? = some (FileContent.bytes data).text?
  folder : ∀ m ∈ members, m.bytes? = none → d.isFolder (p ++ m.place) = true
  complete : ∀ rest, d.isFile (p ++ rest) = true → ∃ m ∈ members, m.place = rest ∧ m.bytes?.isSome = true

/-- On a tree, a folder stands at each path on the way from a folder to what stands below it. -/
theorem IsTree.isFolder_between (hd : d.IsTree) (hp : p ≠ []) {place q : Path}
    (hplace : (d.entry? (p ++ place)).isSome = true) (hq : q <+: place) (hne : q ≠ place) :
    d.isFolder (p ++ q) = true :=
  hd.closed hplace ((List.prefix_append_right_inj p).2 hq) (fun heq => hne (List.append_cancel_left heq)) (by simp [hp])

/-- Whether all that stands in a folder stands below a path of a disk as well, with the same texts. -/
structure Mirrors (r d : Disk) (p : Path) : Prop where
  root : r.isFolder [] = true
  folder : ∀ {rest}, r.isFolder rest = true → d.isFolder (p ++ rest) = true
  file : ∀ {rest content}, r.file? rest = some content →
    (d.file? (p ++ rest)).map FileContent.text? = some content.text?

namespace Mirrors

/-- Where the disk has a folder, the folder has no file. -/
theorem isFile_eq_false (h : r.Mirrors d p) {rest : Path} (hfolder : d.isFolder (p ++ rest) = true) :
    r.isFile rest = false := by
  rw [Bool.eq_false_iff]
  intro hfile
  obtain ⟨content, hcontent⟩ := Option.isSome_iff_exists.1 hfile
  obtain ⟨found, hfound, -⟩ := Option.map_eq_some_iff.1 (h.file hcontent)
  have hnone := isFile_eq_false_of_isFolder hfolder
  rw [isFile, hfound] at hnone
  cases hnone

/-- A file can be saved in the folder where the disk has one. -/
theorem isWritable (h : r.Mirrors d p) (hd : d.IsTree) (hp : p ≠ []) {place : Path} {content : FileContent}
    (hcontent : d.file? (p ++ place) = some content) : r.IsWritable place where
  way := by
    intro q hq
    have hne : q ≠ place := fun heq => not_mem_way_dropLast place (heq ▸ hq)
    have hpre : q <+: place := (mem_way.1 hq).1.trans ( List.dropLast_prefix place)
    exact h.isFile_eq_false (hd.isFolder_between hp (by rw [file?_eq_some_iff.1 hcontent]; rfl) hpre hne)
  place := by
    rw [Bool.eq_false_iff]
    intro hfolder
    have hnone := isFile_eq_false_of_isFolder (h.folder hfolder)
    rw [isFile, hcontent] at hnone
    cases hnone

/-- A file that the disk has can be saved in the folder, which goes on mirroring the disk. -/
theorem saved (h : r.Mirrors d p) (hd : d.IsTree) (hp : p ≠ []) {place : Path} {data : ByteArray}
    (hfile : (d.file? (p ++ place)).map FileContent.text? = some (FileContent.bytes data).text?) :
    r.IsWritable place ∧ (r.saved place (.bytes data)).Mirrors d p := by
  obtain ⟨found, hfound, -⟩ := Option.map_eq_some_iff.1 hfile
  have hwritable := h.isWritable hd hp hfound
  refine ⟨hwritable, hwritable.isFolder_saved _ h.root, fun {rest} hrest => ?_, fun {rest content} hrest => ?_⟩
  · rw [isFolder_iff, entry?_saved] at hrest
    split at hrest
    · cases hrest
    · next hne =>
      split at hrest
      · next hway =>
        exact hd.isFolder_between hp (by rw [file?_eq_some_iff.1 hfound]; rfl)
          ((mem_way.1 hway).1.trans ( List.dropLast_prefix place)) hne
      · exact h.folder (isFolder_iff.2 hrest)
  · rw [file?_saved hwritable] at hrest
    split at hrest
    · next heq => rw [heq, hfile, Option.some.inj hrest]
    · exact h.file hrest

/-- The folders on the way to one that the disk has can be made, and what is below still mirrors it. -/
theorem putFolders (h : r.Mirrors d p) (hd : d.IsTree) (hp : p ≠ []) {place : Path}
    (hfolder : d.isFolder (p ++ place) = true) :
    (∀ q ∈ way place, r.isFile q = false) ∧ (r.putFolders (way place)).Mirrors d p := by
  have hway : ∀ q ∈ way place, d.isFolder (p ++ q) = true := by
    intro q hq
    by_cases hne : q = place
    · exact hne ▸ hfolder
    · exact hd.isFolder_between hp (by rw [isFolder_iff.1 hfolder]; rfl) (mem_way.1 hq).1 hne
  refine ⟨fun q hq => h.isFile_eq_false (hway q hq), ?_, fun {rest} hrest => ?_, fun {rest content} hrest => ?_⟩
  · rw [isFolder_iff, entry?_putFolders]
    split
    · rfl
    · exact isFolder_iff.1 h.root
  · rw [isFolder_iff, entry?_putFolders] at hrest
    split at hrest
    · next hmem => exact hway rest hmem
    · exact h.folder (isFolder_iff.2 hrest)
  · rw [file?_eq_some_iff, entry?_putFolders] at hrest
    split at hrest
    · cases hrest
    · exact h.file (file?_eq_some_iff.2 hrest)

/-- A packed member is put into the folder, with the files that are there already. -/
theorem extractMember? (h : r.Mirrors d p) (hd : d.IsTree) (hp : p ≠ []) (hpacks : Packs d p members)
    (hm : m ∈ members) (format : ArchiveFormat) :
    ∃ r', r.extractMember? format m = some r' ∧ r'.Mirrors d p ∧ (∀ q, r.isFile q = true → r'.isFile q = true) ∧
      (m.bytes?.isSome = true → r'.isFile m.place = true) := by
  have hroot : r.isFile [] = false := isFile_eq_false_of_isFolder h.root
  have hplace := format.place?_of_down (hpacks.whole m hm).2
  cases hbytes : m.bytes? with
  | some data =>
    obtain ⟨hwritable, hsaved⟩ := h.saved hd hp (hpacks.file m hm data hbytes)
    have hfiles := file?_saved hwritable (.bytes data)
    refine ⟨_, extractMember?_eq_some_iff.2 ⟨_, hplace, .inl ⟨data, hbytes, ?_⟩⟩, hsaved, fun q hq => ?_, fun _ => ?_⟩
    · exact (save_eq_ok_iff hroot).2 ⟨hwritable, rfl⟩
    · rw [isFile, hfiles]
      split
      · rfl
      · exact hq
    · rw [isFile, hfiles, if_pos rfl]
      rfl
  | none =>
    have hfolder := hpacks.folder m hm hbytes
    obtain ⟨hfree, hmade⟩ := h.putFolders hd hp hfolder
    refine ⟨_, extractMember?_eq_some_iff.2 ⟨_, hplace, .inr ⟨hbytes, ?_⟩⟩, hmade, fun q hq => ?_, by simp⟩
    · exact makeFolder_eq_ok_iff.2 ⟨h.isFile_eq_false hfolder, hfree, rfl⟩
    · have hnot : q ∉ way m.place := by
        intro hmem
        rw [hfree q hmem] at hq
        cases hq
      rwa [isFile, file?, entry?_putFolders, if_neg hnot, ← file?, ← isFile]

/-- All members that are packed are put into the folder. -/
theorem extract (hd : d.IsTree) (hp : p ≠ []) (hpacks : Packs d p members) (format : ArchiveFormat)
    {rest : List Member} (hrest : rest ⊆ members) (h : r.Mirrors d p) :
    ∃ r', Disk.extract format rest r = (.ok (), r') ∧ r'.Mirrors d p ∧ (∀ q, r.isFile q = true → r'.isFile q = true) ∧
      ∀ m ∈ rest, m.bytes?.isSome = true → r'.isFile m.place = true := by
  induction rest generalizing r with
  | nil => exact ⟨r, rfl, h, fun _ hq => hq, by simp⟩
  | cons m rest ih =>
    rw [List.cons_subset] at hrest
    obtain ⟨r₁, hmember, hmirrors, hkeeps, hput⟩ := h.extractMember? hd hp hpacks hrest.1 format
    obtain ⟨r₂, hextract, hmirrors', hkeeps', hput'⟩ := ih hrest.2 hmirrors
    refine ⟨r₂, ?_, hmirrors', fun q hq => hkeeps' q (hkeeps q hq), List.forall_mem_cons.2 ⟨fun hm => ?_, hput'⟩⟩
    · rw [extract_cons_of_some hmember (hpacks.whole m hrest.1).1, hextract]
    · exact hkeeps' _ (hput hm)

end Mirrors

/-- An archive that packs a folder is extracted to its end, and gives back the files that were packed. -/
theorem Packs.extract (hpacks : Packs d p members) (hd : d.IsTree) (hfolder : d.isFolder p = true)
    (format : ArchiveFormat) :
    ∃ inner, format.extract (.archive format members) = (.ok (), inner) ∧ inner.isFile [] = false ∧
      ∀ rest, (inner.file? rest).map FileContent.text? = (d.file? (p ++ rest)).map FileContent.text? := by
  have hp : p ≠ [] := (hd.plain (by rw [isFolder_iff.1 hfolder]; rfl)).ne_nil
  have hempty : Mirrors ⟨[([], .folder)]⟩ d p := by
    have hentry : ∀ rest, entry? ⟨[([], .folder)]⟩ rest = if rest = [] then some .folder else none := by
      intro rest
      cases rest <;> rfl
    refine ⟨rfl, fun {rest} hrest => ?_, fun {rest content} hrest => ?_⟩
    · rw [isFolder_iff, hentry] at hrest
      split at hrest
      · next hnil => rwa [hnil, List.append_nil]
      · cases hrest
    · rw [file?_eq_some_iff, hentry] at hrest
      split at hrest <;> cases hrest
  obtain ⟨inner, hextract, hmirrors, -, hput⟩ := hempty.extract hd hp hpacks format (List.Subset.refl _)
  refine ⟨inner, ?_, isFile_eq_false_of_isFolder hmirrors.root, fun rest => ?_⟩
  · rw [ArchiveFormat.extract.eq_def]
    dsimp only
    rw [if_pos rfl, hextract]
  · cases hrest : inner.file? rest with
    | some content => exact (hmirrors.file hrest).symm
    | none =>
      -- a file there would be a member, and so be in the folder
      have hnone : d.file? (p ++ rest) = none := by
        by_contra hsome
        obtain ⟨m, hm, rfl, hbytes⟩ := hpacks.complete rest (Option.isSome_iff_ne_none.2 hsome)
        have hfile := hput m hm hbytes
        rw [isFile, hrest] at hfile
        cases hfile
      rw [hnone]

end Disk

end GraphDoc
