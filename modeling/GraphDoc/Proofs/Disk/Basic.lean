import GraphDoc.Disk.Basic
import GraphDoc.Proofs.Disk.Path
import GraphDoc.Proofs.Outcome
import GraphDoc.Proofs.Tree.Entries

/-!
# Disks by their paths

What an operation does to a disk is said by what stands at each path afterwards. A disk that is a tree of files stays
one when a file is written or a path is removed, and what stands on a tree does not depend on the order in which its
entries are listed.
-/

namespace GraphDoc

namespace Disk

variable {d : Disk} {p q : Path}

/-! ## What stands at a path -/

/-- What is put at a path stands there, and all else as before. -/
theorem entry?_put (d : Disk) (p q : Path) (entry : DiskEntry) :
    entry? (d.put p entry) q = if q = p then some entry else d.entry? q := by
  obtain ⟨entries⟩ := d
  simp only [put, entry?]
  induction entries with
  | nil =>
    rw [putEntry, List.lookup_cons]
    by_cases hq : q = p
    · simp [hq]
    · rw [beq_eq_false_iff_ne.2 hq, if_neg hq]
  | cons e rest ih =>
    obtain ⟨r, old⟩ := e
    rw [putEntry]
    by_cases hr : r = p
    · rw [beq_iff_eq.2 hr, if_pos rfl, List.lookup_cons, List.lookup_cons, hr]
      by_cases hq : q = p
      · simp [hq]
      · rw [beq_eq_false_iff_ne.2 hq, if_neg hq]
    · rw [beq_eq_false_iff_ne.2 hr, if_neg Bool.false_ne_true, List.lookup_cons, List.lookup_cons, ih]
      by_cases hqr : q = r
      · subst hqr
        simp [hr]
      · rw [beq_eq_false_iff_ne.2 hqr]

/-- What is removed is gone, with all that stands below it. -/
theorem entry?_remove (d : Disk) (p q : Path) :
    entry? (d.remove p) q = if p <+: q then none else d.entry? q := by
  obtain ⟨entries⟩ := d
  simp only [remove, entry?]
  induction entries with
  | nil => simp
  | cons e rest ih =>
    obtain ⟨r, entry⟩ := e
    by_cases hr : p <+: r
    · rw [List.filter_cons_of_neg (by simpa using hr), ih, List.lookup_cons]
      by_cases hqr : q = r
      · rw [if_pos (hqr ▸ hr), if_pos (hqr ▸ hr)]
      · rw [beq_eq_false_iff_ne.2 hqr]
    · rw [List.filter_cons_of_pos (by simpa [← Bool.not_eq_true] using hr), List.lookup_cons, List.lookup_cons, ih]
      by_cases hqr : q = r
      · subst hqr
        simp [hr]
      · rw [beq_eq_false_iff_ne.2 hqr]

theorem isFolder_iff : d.isFolder p = true ↔ d.entry? p = some .folder := by
  rw [isFolder, beq_iff_eq]

theorem file?_eq_some_iff {content : FileContent} :
    d.file? p = some content ↔ d.entry? p = some (.file content) := by
  rw [file?]
  split
  · next h => simp [h]
  · next h =>
    constructor
    · intro hnone
      simp at hnone
    · intro hsome
      exact absurd hsome (h content)

theorem isFile_iff : d.isFile p = true ↔ ∃ content, d.entry? p = some (.file content) := by
  rw [isFile, Option.isSome_iff_exists]
  exact exists_congr fun _ => file?_eq_some_iff

/-- Where a folder stands, no file does. -/
theorem isFile_eq_false_of_isFolder (h : d.isFolder p = true) : d.isFile p = false := by
  rw [isFolder_iff] at h
  rw [Bool.eq_false_iff, ne_eq, isFile_iff]
  simp [h]

theorem file?_congr {d' : Disk} (h : d.entry? p = d'.entry? q) : d.file? p = d'.file? q := by
  rw [file?, file?, h]

/-- The files below a path are listed with their contents. -/
theorem mem_filesBelow {content : FileContent} :
    (q, content) ∈ d.filesBelow p ↔ (q, .file content) ∈ d.entries ∧ p <+: q ∧ p ≠ q := by
  rw [filesBelow, List.mem_filterMap]
  constructor
  · rintro ⟨⟨r, entry⟩, hmem, hsome⟩
    cases entry with
    | folder => simp at hsome
    | file found =>
      simp only [Option.ite_none_right_eq_some, Option.some.injEq, Prod.mk.injEq] at hsome
      obtain ⟨hbelow, rfl, rfl⟩ := hsome
      exact ⟨hmem, by simpa using hbelow⟩
  · rintro ⟨hmem, hbelow, hne⟩
    exact ⟨(q, .file content), hmem, by simp [hbelow, hne]⟩

/-! ## The way to a path -/

/-- The way to a path goes through all that it starts with. -/
theorem mem_way : q ∈ way p ↔ q <+: p ∧ q ≠ [] := by
  rw [way, List.mem_map]
  constructor
  · rintro ⟨n, hn, rfl⟩
    rw [List.mem_range] at hn
    refine ⟨List.take_prefix _ _, fun hnil => ?_⟩
    rw [List.take_eq_nil_iff] at hnil
    rcases hnil with hnil | rfl
    · omega
    · simp at hn
  · rintro ⟨hpre, hne⟩
    have hpos : 0 < q.length := List.length_pos_iff.2 hne
    have hle : q.length ≤ p.length := hpre.length_le
    refine ⟨q.length - 1, by rw [List.mem_range]; omega, ?_⟩
    rw [Nat.sub_add_cancel hpos, ← List.prefix_iff_eq_take.1 hpre]

/-- What leads to a path and is not the path leads to the folder around it. -/
theorem prefix_dropLast_of_ne (h : q <+: p) (hne : q ≠ p) : q <+: p.dropLast := by
  obtain ⟨rest, rfl⟩ := h
  have hrest : rest ≠ [] := by
    rintro rfl
    simp at hne
  rw [List.dropLast_append_of_ne_nil hrest]
  exact List.prefix_append _ _

/-- A path is not on the way to the folder around it. -/
theorem not_mem_way_dropLast (p : Path) : p ∉ way p.dropLast := by
  rw [mem_way]
  rintro ⟨hpre, hnil⟩
  have hlen := hpre.length_le
  have hpos : 0 < p.length := List.length_pos_iff.2 hnil
  rw [List.length_dropLast] at hlen
  omega

/-- Putting folders makes folders of the given paths and leaves the rest alone. -/
theorem entry?_putFolders (d : Disk) (ps : List Path) (q : Path) :
    entry? (d.putFolders ps) q = if q ∈ ps then some .folder else d.entry? q := by
  induction ps generalizing d with
  | nil => simp [putFolders]
  | cons p ps ih =>
    have hstep : d.putFolders (p :: ps) = (if d.isFolder p then d else d.put p .folder).putFolders ps := rfl
    rw [hstep, ih]
    by_cases hq : q ∈ ps
    · simp [hq]
    · by_cases hqp : q = p
      · subst hqp
        simp only [hq, if_false, List.mem_cons, true_or, if_true]
        split
        · next hfolder => exact isFolder_iff.1 hfolder
        · rw [entry?_put, if_pos rfl]
      · simp only [hq, if_false, List.mem_cons, hqp, or_self]
        split
        · rfl
        · rw [entry?_put, if_neg hqp]

/-! ## Well-named disks -/

/-- Where no path stands twice, what is listed is what is found. -/
theorem mem_entries_iff (h : (d.entries.map Prod.fst).Nodup) {entry : DiskEntry} :
    (p, entry) ∈ d.entries ↔ d.entry? p = some entry := by
  constructor
  · intro hmem
    obtain ⟨before, after, hentries⟩ := List.append_of_mem hmem
    refine List.lookup_eq_some_iff.2 ⟨before, after, hentries, fun e he => ?_⟩
    rw [hentries, List.map_append, List.nodup_append] at h
    have hne := h.2.2 e.1 (List.mem_map_of_mem he) p (by simp)
    simpa using hne.symm
  · intro hentry
    obtain ⟨before, after, hentries, -⟩ := List.lookup_eq_some_iff.1 hentry
    rw [hentries]
    simp

/-- Putting an entry makes no path stand twice. -/
theorem nodup_put (h : (d.entries.map Prod.fst).Nodup) (p : Path) (entry : DiskEntry) :
    ((d.put p entry).entries.map Prod.fst).Nodup := by
  by_cases hnew : ∀ e ∈ d.entries, (e.1 == p) = false
  · rw [put, putEntry_of_new hnew, List.map_append, List.nodup_append]
    refine ⟨h, by simp, ?_⟩
    intro a ha b hb
    obtain ⟨e, he, rfl⟩ := List.mem_map.1 ha
    rw [List.map_singleton, List.mem_singleton] at hb
    rw [hb]
    exact beq_eq_false_iff_ne.1 (hnew e he)
  · rw [put, keys_putEntry_of_old hnew]
    exact h

/-- Whether every path of a disk stands once and is plain. -/
structure IsWellNamed (d : Disk) : Prop where
  distinct : (d.entries.map Prod.fst).Nodup
  plain : ∀ {p}, (d.entry? p).isSome = true → p.IsPlain

namespace IsWellNamed

/-- An entry at a plain path keeps a disk well named. -/
theorem put (h : d.IsWellNamed) (hp : p.IsPlain) (entry : DiskEntry) : (d.put p entry).IsWellNamed where
  distinct := nodup_put h.distinct p entry
  plain := by
    intro q hq
    rw [entry?_put] at hq
    split at hq
    · next heq => exact heq ▸ hp
    · exact h.plain hq

theorem putFolders (h : d.IsWellNamed) {ps : List Path} (hps : ∀ p ∈ ps, p.IsPlain) :
    (d.putFolders ps).IsWellNamed := by
  induction ps generalizing d with
  | nil => exact h
  | cons p ps ih =>
    have hrest : ∀ q ∈ ps, q.IsPlain := fun q hq => hps q (List.mem_cons_of_mem _ hq)
    refine ih (d := if d.isFolder p then d else d.put p .folder) ?_ hrest
    split
    · exact h
    · exact h.put (hps p List.mem_cons_self) .folder

theorem remove (h : d.IsWellNamed) (p : Path) : (d.remove p).IsWellNamed where
  distinct := h.distinct.sublist ((List.filter_sublist).map Prod.fst)
  plain := by
    intro q hq
    rw [entry?_remove] at hq
    split at hq
    · simp at hq
    · exact h.plain hq

/-- What stands on a disk does not depend on the order in which it is listed. -/
theorem of_perm (h : d.IsWellNamed) {d' : Disk} (hperm : d'.entries.Perm d.entries) :
    d'.IsWellNamed ∧ ∀ p, d'.entry? p = d.entry? p := by
  have hdistinct : (d'.entries.map Prod.fst).Nodup := (hperm.map Prod.fst).nodup_iff.2 h.distinct
  have hentry : ∀ p, d'.entry? p = d.entry? p := by
    intro p
    ext entry
    rw [← mem_entries_iff h.distinct, ← hperm.mem_iff, mem_entries_iff hdistinct]
  exact ⟨⟨hdistinct, fun hp => h.plain (hentry _ ▸ hp)⟩, hentry⟩

end IsWellNamed

/-! ## Trees of files -/

/-- Whether a disk is a tree of files: it is well named, and every path on it leads through folders. -/
structure IsTree (d : Disk) : Prop extends d.IsWellNamed where
  closed : ∀ {p q}, (d.entry? q).isSome = true → p <+: q → p ≠ q → p ≠ [] → d.isFolder p = true

namespace IsTree

/-- Whether a disk is a tree can be told entry by entry. -/
theorem of_entries (hdistinct : (d.entries.map Prod.fst).Nodup)
    (h : ∀ e ∈ d.entries, e.1 ≠ [] ∧ (∀ part ∈ e.1, '/' ∉ part.toList) ∧
      ∀ q ∈ way e.1.dropLast, d.isFolder q = true) : d.IsTree := by
  have hmem : ∀ {p}, (d.entry? p).isSome = true → ∃ entry, (p, entry) ∈ d.entries := by
    intro p hp
    obtain ⟨entry, hentry⟩ := Option.isSome_iff_exists.1 hp
    exact ⟨entry, (mem_entries_iff hdistinct).2 hentry⟩
  refine ⟨⟨hdistinct, fun hp => ?_⟩, fun hq hpre hne hnil => ?_⟩
  · obtain ⟨entry, hentry⟩ := hmem hp
    exact ⟨(h _ hentry).1, (h _ hentry).2.1⟩
  · obtain ⟨entry, hentry⟩ := hmem hq
    exact (h _ hentry).2.2 _ (mem_way.2 ⟨prefix_dropLast_of_ne hpre hne, hnil⟩)

/-- Making the folders to a path keeps a tree a tree. -/
theorem putFolders_way (h : d.IsTree) (hp : p.IsPlain) : (d.putFolders (way p)).IsTree where
  toIsWellNamed := h.putFolders fun q hq => hp.of_initial (mem_way.1 hq).1 (mem_way.1 hq).2
  closed := by
    intro q r hr hqr hne hnil
    rw [isFolder_iff, entry?_putFolders]
    split
    · rfl
    · next hq =>
      rw [entry?_putFolders] at hr
      split at hr
      · next hway => exact absurd (mem_way.2 ⟨hqr.trans (mem_way.1 hway).1, hnil⟩) hq
      · exact isFolder_iff.1 (h.closed hr hqr hne hnil)

/-- A file can be put where its folders are there and it replaces none. -/
theorem putFile (h : d.IsTree) (hp : p.IsPlain) (hway : ∀ q ∈ way p.dropLast, d.isFolder q = true)
    (hfolder : d.isFolder p = false) (content : FileContent) : (d.put p (.file content)).IsTree where
  toIsWellNamed := h.put hp _
  closed := by
    intro q r hr hqr hne hnil
    -- a folder stays one, for no folder is replaced
    have hkeeps : d.isFolder q = true → (d.put p (.file content)).isFolder q = true := by
      intro hq
      rw [isFolder_iff, entry?_put]
      split
      · next heq =>
        rw [heq, hfolder] at hq
        exact absurd hq Bool.false_ne_true
      · exact isFolder_iff.1 hq
    rw [entry?_put] at hr
    split at hr
    · next heq =>
      subst heq
      exact hkeeps (hway q (mem_way.2 ⟨prefix_dropLast_of_ne hqr hne, hnil⟩))
    · exact hkeeps (h.closed hr hqr hne hnil)

/-- Removing a path with all below it keeps a tree a tree. -/
theorem remove (h : d.IsTree) (p : Path) : (d.remove p).IsTree where
  toIsWellNamed := h.toIsWellNamed.remove p
  closed := by
    intro q r hr hqr hne hnil
    rw [entry?_remove] at hr
    split at hr
    · simp at hr
    · next hpr =>
      rw [isFolder_iff, entry?_remove, if_neg fun hpq => hpr (hpq.trans hqr)]
      exact isFolder_iff.1 (h.closed hr hqr hne hnil)

end IsTree

/-! ## Writing -/

/-- Whether a file can be written at a path: the path leads through no file, and no folder stands there. -/
structure IsWritable (d : Disk) (p : Path) : Prop where
  way : ∀ q ∈ Disk.way p.dropLast, d.isFile q = false
  place : d.isFolder p = false

/-- The disk with a file at a path, and the folders on the way to it. -/
def saved (d : Disk) (p : Path) (content : FileContent) : Disk :=
  (d.putFolders (way p.dropLast)).put p (.file content)

/-- After a file is saved, it stands at its path, below folders, and all else as before. -/
theorem entry?_saved (d : Disk) (p q : Path) (content : FileContent) :
    entry? (d.saved p content) q =
      if q = p then some (.file content) else if q ∈ way p.dropLast then some .folder else d.entry? q := by
  rw [saved, entry?_put, entry?_putFolders]

/-- Writing a file leaves all other files as they are. -/
theorem file?_saved (h : d.IsWritable p) (content : FileContent) (q : Path) :
    (d.saved p content).file? q = if q = p then some content else d.file? q := by
  by_cases hq : q = p
  · rw [if_pos hq, file?_eq_some_iff, entry?_saved, if_pos hq]
  · rw [if_neg hq]
    by_cases hway : q ∈ way p.dropLast
    · have hnone : d.file? q = none := by simpa [isFile] using h.way q hway
      rw [hnone, file?, entry?_saved, if_neg hq, if_pos hway]
    · rw [file?, entry?_saved, if_neg hq, if_neg hway, ← file?]

/-- A folder is made where no file stands at the path or on the way to it. -/
theorem makeFolder_eq_ok_iff {d' : Disk} :
    d.makeFolder p = .ok d' ↔
      d.isFile p = false ∧ (∀ q ∈ way p, d.isFile q = false) ∧ d' = d.putFolders (way p) := by
  rw [makeFolder]
  split
  · next hfile => simp [hfile]
  · next hfile =>
    split
    · next hway =>
      obtain ⟨q, hq, hqfile⟩ := List.any_eq_true.1 hway
      refine iff_of_false (by simp) fun h => ?_
      rw [h.2.1 q hq] at hqfile
      cases hqfile
    · next hway =>
      have hfree : ∀ q ∈ way p, d.isFile q = false := by
        simpa using List.any_eq_false.1 (Bool.eq_false_iff.2 hway)
      rw [Except.ok.injEq]
      exact ⟨fun h => ⟨by simpa using hfile, hfree, h.symm⟩, fun h => h.2.2.symm⟩

/-- On a disk whose root is no file, a file is written exactly where it can be. -/
theorem save_eq_ok_iff (hroot : d.isFile [] = false) {content : FileContent} {d' : Disk} :
    d.save p content = .ok d' ↔ d.IsWritable p ∧ d' = d.saved p content := by
  have hparent : (∀ q ∈ way p.dropLast, d.isFile q = false) → d.isFile p.dropLast = false := by
    intro hway
    by_cases hnil : p.dropLast = []
    · rwa [hnil]
    · exact hway _ (mem_way.2 ⟨List.prefix_refl _, hnil⟩)
  have hplace : (d.putFolders (way p.dropLast)).isFolder p = d.isFolder p := by
    rw [isFolder, entry?_putFolders, if_neg (not_mem_way_dropLast p), ← isFolder]
  rw [save, bind_eq_ok]
  simp only [makeFolder_eq_ok_iff, write]
  constructor
  · rintro ⟨made, ⟨-, hway, rfl⟩, hwrite⟩
    rw [hplace] at hwrite
    split at hwrite
    · cases hwrite
    · next hfolder => exact ⟨⟨hway, by simpa using hfolder⟩, (Except.ok.inj hwrite).symm⟩
  · rintro ⟨hwritable, rfl⟩
    refine ⟨_, ⟨hparent hwritable.way, hwritable.way, rfl⟩, ?_⟩
    rw [hplace, hwritable.place, if_neg Bool.false_ne_true]
    rfl

/-- Whatever file is written, what comes of it is settled. -/
theorem eq_saved_of_save {content : FileContent} {d' : Disk} (h : d.save p content = .ok d') :
    d' = d.saved p content := by
  rw [save, bind_eq_ok] at h
  obtain ⟨made, hmade, hwrite⟩ := h
  obtain ⟨-, -, rfl⟩ := makeFolder_eq_ok_iff.1 hmade
  rw [write] at hwrite
  split at hwrite
  · cases hwrite
  · exact (Except.ok.inj hwrite).symm

/-- What is put last at a path counts. -/
theorem put_put (d : Disk) (p : Path) (first second : DiskEntry) : (d.put p first).put p second = d.put p second := by
  obtain ⟨entries⟩ := d
  simp only [put, mk.injEq]
  induction entries with
  | nil => simp [putEntry]
  | cons e rest ih =>
    obtain ⟨q, old⟩ := e
    rw [putEntry, putEntry]
    split
    · next hq => rw [putEntry, if_pos hq]
    · next hq => rw [putEntry, if_neg hq, ih]

/-- What was written into a file can be replaced. -/
theorem write_saved (d : Disk) (p : Path) (first second : FileContent) :
    (d.saved p first).write p second = .ok (d.saved p second) := by
  have hfolder : (d.saved p first).isFolder p = false := by
    rw [isFolder, entry?_saved, if_pos rfl]
    rfl
  rw [write, hfolder, if_neg Bool.false_ne_true, saved, put_put, ← saved]

/-- Nothing stands at the root of a tree, whose paths all have parts. -/
theorem IsTree.isFile_nil (h : d.IsTree) : d.isFile [] = false := by
  rw [Bool.eq_false_iff, ne_eq, isFile_iff]
  rintro ⟨content, hcontent⟩
  exact (h.plain (by rw [hcontent]; rfl)).ne_nil rfl

/-- A file that can be written keeps a tree a tree. -/
theorem IsTree.saved (h : d.IsTree) (hp : p.IsPlain) (hwritable : d.IsWritable p) (content : FileContent) :
    (d.saved p content).IsTree := by
  have hmade : (d.putFolders (way p.dropLast)).IsTree := by
    by_cases hnil : p.dropLast = []
    · rw [hnil]
      exact h
    · exact h.putFolders_way (hp.of_initial ( List.dropLast_prefix p) hnil)
  refine hmade.putFile hp (fun q hq => ?_) ?_ content
  · rw [isFolder_iff, entry?_putFolders, if_pos hq]
  · rw [isFolder, entry?_putFolders, if_neg (not_mem_way_dropLast p), ← isFolder, hwritable.place]

/-! ## Written paths -/

/-- A written path that leads somewhere does so wherever no folder is gone and no file has vanished. -/
theorem reaches_mono {d' : Disk} (hfolder : ∀ q, d.isFolder q = true → d'.isFolder q = true)
    (hsome : ∀ q, (d.entry? q).isSome = true → (d'.entry? q).isSome = true) {folder : Path} {written : String}
    (h : d.reaches folder written = true) : d'.reaches folder written = true := by
  have hleads : ∀ (ps : List String) (here : Path), d.leads here ps = true → d'.leads here ps = true := by
    intro ps
    induction ps with
    | nil => exact hsome
    | cons part ps ih =>
      intro here hlead
      rw [leads, Bool.and_eq_true] at hlead ⊢
      exact ⟨hfolder here hlead.1, ih _ hlead.2⟩
  rw [reaches, Bool.and_eq_true] at h ⊢
  exact ⟨h.1, hleads _ _ h.2⟩

/-- Writing a file takes no folder away. -/
theorem IsWritable.isFolder_saved (h : d.IsWritable p) (content : FileContent) (hq : d.isFolder q = true) :
    (d.saved p content).isFolder q = true := by
  have hne : q ≠ p := by
    rintro rfl
    rw [h.place] at hq
    exact Bool.false_ne_true hq
  rw [isFolder_iff, entry?_saved, if_neg hne]
  split
  · rfl
  · exact isFolder_iff.1 hq

/-- A written path that leads somewhere still does after a file is saved. -/
theorem reaches_saved (h : d.IsWritable p) (content : FileContent) {folder : Path} {written : String}
    (hreaches : d.reaches folder written = true) : (d.saved p content).reaches folder written = true := by
  refine reaches_mono (fun q hq => h.isFolder_saved content hq) (fun q hq => ?_) hreaches
  rw [entry?_saved]
  split
  · rfl
  · split
    · rfl
    · exact hq

section Leads

variable {last : String} {ps : List String} {here : Path}

/-- Without two points in it, a written path starts at a folder that a writing has made or found. -/
theorem isFolder_start_saved (d : Disk) (content : FileContent) (hdown : ∀ part ∈ ps, part ≠ "..") (hhere : here ≠ [])
    (hp : ps.foldl Path.step here ++ [last] = p) : (d.saved p content).isFolder here = true := by
  have hway : here ∈ way p.dropLast := by
    rw [← hp, List.dropLast_concat]
    exact mem_way.2 ⟨Path.prefix_foldl_step hdown here, hhere⟩
  have hne : here ≠ p := fun heq => not_mem_way_dropLast p (heq ▸ hway)
  rw [isFolder_iff, entry?_saved, if_neg hne, if_pos hway]

/-- Without two points in them, the parts of a written path lead to the file that was saved there. -/
theorem leads_saved (d : Disk) (content : FileContent) (hlast : Path.IsName last) (hdown : ∀ part ∈ ps, part ≠ "..")
    (hhere : here ≠ []) (hp : ps.foldl Path.step here ++ [last] = p) :
    (d.saved p content).leads here (ps ++ [last]) = true := by
  have hfolder := isFolder_start_saved d content hdown hhere hp
  induction ps generalizing here with
  | nil =>
    rw [List.foldl_nil] at hp
    rw [List.nil_append, leads, leads, hfolder, Path.step_of_isName hlast, hp, entry?_saved, if_pos rfl]
    rfl
  | cons part ps ih =>
    have hrest : ∀ q ∈ ps, q ≠ ".." := fun q hq => hdown q (List.mem_cons_of_mem _ hq)
    have hnext := Path.prefix_step (hdown part List.mem_cons_self) here
    have hstep : here.step part ≠ [] := fun hnil => hhere (List.prefix_nil.1 (hnil ▸ hnext))
    rw [List.cons_append, leads, hfolder, Bool.true_and]
    exact ih hrest hstep hp (isFolder_start_saved d content hrest hstep hp)

end Leads

/-- A file that was written is found under the path as it was written, unless this goes up anywhere. -/
theorem reaches_saved_self (d : Disk) (content : FileContent) {folder : Path} (hfolder : folder ≠ [])
    {written last : String} {before : List String} (hparts : Path.parts written = before ++ [last])
    (hlast : Path.IsName last) (hdown : ∀ part ∈ before, part ≠ "..") :
    (d.saved (Path.resolve folder written) content).reaches folder written = true := by
  have hne : written ≠ "" := by
    rintro rfl
    have hsingle : before ++ [last] = [""] := hparts.symm.trans (by simp [Path.parts])
    rw [List.append_eq_singleton_iff] at hsingle
    rcases hsingle with ⟨-, heq⟩ | ⟨-, heq⟩
    · exact hlast.ne_empty (by simpa using heq)
    · cases heq
  have hstart : Path.start folder written ≠ [] := by
    rw [Path.start]
    split
    · simp
    · exact hfolder
  rw [reaches, Bool.and_eq_true, hparts]
  exact ⟨by simpa using hne, leads_saved d content hlast hdown hstart (Path.resolve_eq_append hparts hlast folder).symm⟩

end Disk

end GraphDoc
