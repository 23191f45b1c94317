import GraphDoc.Proofs.Command.Load

/-!
# What loading leaves behind

An archive is unpacked into a fresh folder, which is removed whatever comes of the documents in it. Only where the
unpacking itself fails is the folder forgotten: if a file is no archive of the format that its name announces, or one
that cannot be extracted to its end, loading stops and the folder stays, with what was extracted until then. Every such
load leaves another one.
-/

namespace GraphDoc.Command

open GraphDoc.Action

section Hosts

variable [Host]

/-! ## One load -/

/-- What goes wrong in extracting the archive at a path, if one is announced there, and what is extracted by then. -/
def damage? (d : Disk) (p : Path) : Option (ArchiveError × Disk) :=
  match d.file? p, ArchiveFormat.ofName? p.name with
  | some content, some format =>
    match Host.extract format content with
    | (.error e, left) => some (e, left)
    | (.ok _, _) => none
  | _, _ => none

/-- What goes wrong is what goes wrong in extracting the file, in the format that its name announces. -/
theorem damage?_eq_some_iff {d : Disk} {p : Path} {e : ArchiveError} {left : Disk} :
    damage? d p = some (e, left) ↔ ∃ content format, d.file? p = some content ∧
      ArchiveFormat.ofName? p.name = some format ∧ Host.extract format content = (.error e, left) := by
  rw [damage?]
  cases d.file? p with
  | none => simp
  | some content =>
    cases ArchiveFormat.ofName? p.name with
    | none => simp
    | some format =>
      cases hextract : Host.extract format content with
      | mk result inner => cases result <;> simp [hextract]

section Load

variable (setting : Setting) (debug verbose : Bool) {source : String} (s : Session)

/-- Where the archive of the source is damaged, loading stops and the folder stays with what was extracted. -/
theorem load_gives_of_damaged {e : ArchiveError} {left : Disk}
    (h : damage? s.disk (Path.resolve setting.folder source) = some (e, left)) :
    Gives (load setting debug verbose source) s (.error (.escaped (.archive e))) (s.disk.graft setting.scratch left)
      s.stdout := by
  obtain ⟨content, format, hfile, hformat, hextract⟩ := damage?_eq_some_iff.1 h
  rw [load]
  refine Gives.get_bind ?_
  simp only [hfile, hformat, Option.isSome_some, if_true]
  exact loadArchive_gives_of_damaged setting debug verbose s hformat hextract

/-- Any other load leaves the disk as it was. -/
theorem load_gives_of_sound (hscratch : s.disk.IsScratch setting.scratch)
    (h : damage? s.disk (Path.resolve setting.folder source) = none) :
    ∃ result, Gives (load setting debug verbose source) s result s.disk s.stdout := by
  rw [load]
  generalize Path.resolve setting.folder source = path at *
  refine Exists.imp (fun _ => Gives.get_bind) ?_
  cases hfile : s.disk.file? path with
  | none => exact ⟨_, loadFrom_gives debug verbose path.name path s⟩
  | some content =>
    cases hformat : ArchiveFormat.ofName? path.name with
    | none => exact ⟨_, loadFrom_gives debug verbose path.name path s⟩
    | some format =>
      cases hextract : Host.extract format content with
      | mk result inner =>
        cases result with
        | ok _ => exact ⟨_, loadArchive_gives setting debug verbose s hformat hextract hscratch⟩
        | error e =>
          have hdamage := damage?_eq_some_iff.2 ⟨content, format, hfile, hformat, hextract⟩
          rw [h] at hdamage
          cases hdamage

end Load

/-! ## Many loads -/

/-- A load: where it runs, with the place for unpacking that is given to it, how much it tells, and its source. -/
structure Request where
  setting : Setting
  debug : Bool := false
  verbose : Bool := false
  source : String

namespace Request

/-- The session after a load, whatever comes of it. -/
def after (r : Request) (s : Session) : Session :=
  ((ExceptT.run (load r.setting r.debug r.verbose r.source)).run s).2

/-- The session after loads one after the other. -/
def afterAll (s : Session) (rs : List Request) : Session := rs.foldl (fun s r => r.after s) s

/-- What goes wrong in extracting the archive that a load is given, if anything. -/
def fault? (r : Request) (d : Disk) : Option (ArchiveError × Disk) := damage? d (Path.resolve r.setting.folder r.source)

/-- Whether each load is given a place that is fresh by then. -/
def AllFresh (s : Session) : List Request → Prop
  | [] => True
  | r :: rest => s.disk.IsScratch r.setting.scratch ∧ AllFresh (r.after s) rest

/-- The places that were given to loads of archives that are damaged by then. -/
def forgotten (s : Session) : List Request → List Path
  | [] => []
  | r :: rest =>
    if (r.fault? s.disk).isSome then r.setting.scratch :: forgotten (r.after s) rest else forgotten (r.after s) rest

/-- A load leaves the disk as it was, or it was given a damaged archive and its folder stays. -/
theorem disk_after_cases (r : Request) (s : Session) (hscratch : s.disk.IsScratch r.setting.scratch) :
    (r.fault? s.disk = none ∧ (r.after s).disk = s.disk) ∨
      ∃ e left, r.fault? s.disk = some (e, left) ∧ (r.after s).disk = s.disk.graft r.setting.scratch left := by
  rw [after]
  cases hfault : r.fault? s.disk with
  | none =>
    obtain ⟨result, err, hrun⟩ := load_gives_of_sound r.setting r.debug r.verbose s hscratch hfault
    rw [hrun]
    exact .inl ⟨rfl, rfl⟩
  | some fault =>
    obtain ⟨err, hrun⟩ := load_gives_of_damaged r.setting r.debug r.verbose s hfault
    rw [hrun]
    exact .inr ⟨fault.1, fault.2, rfl, rfl⟩

/-- A load takes nothing away. -/
theorem entry?_after (r : Request) (s : Session) (hscratch : s.disk.IsScratch r.setting.scratch) {p : Path}
    {entry : DiskEntry} (hentry : s.disk.entry? p = some entry) : (r.after s).disk.entry? p = some entry := by
  obtain ⟨-, hdisk⟩ | ⟨e, left, -, hdisk⟩ := disk_after_cases r s hscratch
  · rw [hdisk, hentry]
  · have hapart : ¬r.setting.scratch <+: p := by
      rintro ⟨rest, rfl⟩
      rw [hscratch.fresh] at hentry
      cases hentry
    rw [hdisk, hscratch.entry?_graft_of_apart left hapart, hentry]

/-- Any number of loads take nothing away. -/
theorem entry?_afterAll {s : Session} {rs : List Request} (h : AllFresh s rs) {p : Path} {entry : DiskEntry}
    (hentry : s.disk.entry? p = some entry) : (afterAll s rs).disk.entry? p = some entry := by
  induction rs generalizing s with
  | nil => exact hentry
  | cons r rest ih => exact ih h.2 (entry?_after r s h.1 hentry)

/-- After any number of loads, the disk has a folder at each place that was given to the load of a damaged archive, and
is as it was outside of these folders. -/
theorem disk_afterAll {s : Session} {rs : List Request} (h : AllFresh s rs) :
    (∀ q ∈ forgotten s rs, (afterAll s rs).disk.isFolder q = true) ∧
      ∀ p, (∀ q ∈ forgotten s rs, ¬q <+: p) → (afterAll s rs).disk.entry? p = s.disk.entry? p := by
  induction rs generalizing s with
  | nil => exact ⟨by simp [forgotten], fun _ _ => rfl⟩
  | cons r rest ih =>
    obtain ⟨hscratch, hrest⟩ := h
    obtain ⟨hfolders, hapart⟩ := ih hrest
    have hstep : afterAll s (r :: rest) = afterAll (r.after s) rest := rfl
    rw [hstep, forgotten]
    obtain ⟨hfault, hdisk⟩ | ⟨e, left, hfault, hdisk⟩ := disk_after_cases r s hscratch
    · rw [hfault, Option.isSome_none, if_neg Bool.false_ne_true, ← hdisk]
      exact ⟨hfolders, hapart⟩
    · rw [hfault, Option.isSome_some, if_pos rfl]
      refine ⟨List.forall_mem_cons.2 ⟨?_, hfolders⟩, fun p hp => ?_⟩
      · have hmade : (r.after s).disk.isFolder r.setting.scratch = true := hdisk ▸ hscratch.isFolder_graft left
        exact Disk.isFolder_iff.2 (entry?_afterAll hrest (Disk.isFolder_iff.1 hmade))
      · rw [List.forall_mem_cons] at hp
        rw [hapart p hp.2, hdisk, hscratch.entry?_graft_of_apart left hp.1]

/-- The places of the folders that stay are all different, and nothing stood there before. So there is one more folder
for each load of a damaged archive. -/
theorem nodup_forgotten {s : Session} {rs : List Request} (h : AllFresh s rs) :
    (forgotten s rs).Nodup ∧ ∀ p ∈ forgotten s rs, s.disk.entry? p = none := by
  induction rs generalizing s with
  | nil => simp [forgotten]
  | cons r rest ih =>
    obtain ⟨hscratch, hrest⟩ := h
    obtain ⟨hnodup, hnone⟩ := ih hrest
    -- what stands on the disk stays there, so no later place is taken already
    have hlater : ∀ p ∈ forgotten (r.after s) rest, s.disk.entry? p = none := by
      intro p hp
      by_contra hsome
      obtain ⟨entry, hentry⟩ := Option.ne_none_iff_exists'.1 hsome
      have hafter := hnone p hp
      rw [entry?_after r s hscratch hentry] at hafter
      cases hafter
    rw [forgotten]
    obtain ⟨hfault, -⟩ | ⟨e, left, hfault, hdisk⟩ := disk_after_cases r s hscratch
    · rw [hfault, Option.isSome_none, if_neg Bool.false_ne_true]
      exact ⟨hnodup, hlater⟩
    · rw [hfault, Option.isSome_some, if_pos rfl, List.nodup_cons, List.forall_mem_cons]
      refine ⟨⟨fun hmem => ?_, hnodup⟩, by simpa using hscratch.fresh [], hlater⟩
      have hfolder := hscratch.isFolder_graft left
      rw [Disk.isFolder_iff, ← hdisk, hnone _ hmem] at hfolder
      cases hfolder

end Request

/-! ## What stays after a load -/

/-- Loading comes to an end on any source, and leaves the disk exactly as it was unless the source is a damaged archive.
Then it fails with the fault of the archive, and the folder that was made for it stays, with what was extracted by
then. -/
theorem load_leaves_disk_iff (setting : Setting) (debug verbose : Bool) (source : String) (s : Session)
    (hscratch : s.disk.IsScratch setting.scratch) :
    ∃ result disk, Gives (load setting debug verbose source) s result disk s.stdout ∧
      (disk = s.disk ↔ damage? s.disk (Path.resolve setting.folder source) = none) ∧
      ∀ e left, damage? s.disk (Path.resolve setting.folder source) = some (e, left) →
        result = .error (.escaped (.archive e)) ∧ disk.isFolder setting.scratch = true ∧
          disk.remove setting.scratch = s.disk ∧
          ∀ rest, rest ≠ [] → disk.entry? (setting.scratch ++ rest) = left.entry? rest := by
  cases hdamage : damage? s.disk (Path.resolve setting.folder source) with
  | none =>
    obtain ⟨result, hgives⟩ := load_gives_of_sound setting debug verbose s hscratch hdamage
    exact ⟨result, s.disk, hgives, by simp, by simp⟩
  | some fault =>
    obtain ⟨e, left⟩ := fault
    have hfolder := hscratch.isFolder_graft left
    refine ⟨_, _, load_gives_of_damaged setting debug verbose s hdamage, iff_of_false (fun heq => ?_) (by simp), ?_⟩
    · have hfresh := hscratch.fresh []
      rw [List.append_nil] at hfresh
      rw [heq, Disk.isFolder_iff, hfresh] at hfolder
      cases hfolder
    · rintro e' left' ⟨⟩
      refine ⟨rfl, hfolder, hscratch.remove_graft left, fun rest hrest => ?_⟩
      rw [hscratch.entry?_graft, if_neg hrest]

end Hosts

/-- A folder with a text under the name of an archive. -/
def misnamed : Disk where
  entries := [([""], .folder), (["", "r"], .folder), (["", "r", "broken.zip"], .file (.ofText "nope"))]

/-- After loading a text under the name of an archive, an empty folder stands where none stood before. -/
theorem load_leaves_misnamed :
    misnamed.isFolder ["", "t"] = false ∧
      ∃ result disk, Gives (load ⟨["", "r"], ["", "t"]⟩ false false "broken.zip") { disk := misnamed } result disk "" ∧
        result = .error (.escaped (.archive .badZip)) ∧ disk.isFolder ["", "t"] = true := by
  have hscratch : misnamed.IsScratch ["", "t"] :=
    (Disk.IsTree.of_entries (by decide) (by decide)).isScratch ⟨by decide, by decide⟩ (by decide) (by decide)
  obtain ⟨result, disk, hgives, -, hdamaged⟩ :=
    load_leaves_disk_iff ⟨["", "r"], ["", "t"]⟩ false false "broken.zip" { disk := misnamed } hscratch
  obtain ⟨hresult, hfolder, -⟩ := hdamaged .badZip ⟨[([], .folder)]⟩ (by decide)
  exact ⟨by decide, result, disk, hgives, hresult, hfolder⟩

end GraphDoc.Command
