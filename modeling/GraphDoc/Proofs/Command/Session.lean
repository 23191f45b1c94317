import GraphDoc.Command.Session
import GraphDoc.Proofs.Disk.Basic

/-!
# What actions come to

An action in a session comes to a result and leaves a disk and an output stream behind; what it writes to the error
stream is left open. There is one rule for each way to put actions together.
-/

namespace GraphDoc

/-! ## Hosts -/

namespace Text

end Text

namespace Host

/-- On the usual host, every text can be written into a file. -/
theorem encodes_usual (text : String) : Host.encodes text = true := by
  rw [encodes, List.all_eq_true]
  exact fun _ _ => rfl

/-- On the usual host, every text can be shown. -/
theorem canShow_usual (text : String) : Host.canShow text = true := by
  rw [canShow, List.all_eq_true]
  exact fun _ _ => rfl

variable [Host] {text : String}

end Host

namespace Action

variable {α β : Type} {s : Session} {disk disk' : Disk} {out out' : String}

/-- Whether an action in a session comes to the given result, disk and output. -/
def Gives (action : Action α) (s : Session) (result : Except Stop α) (disk : Disk) (out : String) : Prop :=
  ∃ err, (ExceptT.run action).run s = (result, ⟨disk, out, err⟩)

/-- An action that goes on runs its second part where the first has left off. -/
theorem run_bind_of_ok {x : Action α} {f : α → Action β} {a : α} {s' : Session}
    (hx : (ExceptT.run x).run s = (.ok a, s')) :
    (ExceptT.run (x >>= f)).run s = (ExceptT.run (f a)).run s' := by
  rw [ExceptT.run_bind, StateT.run_bind, hx]
  rfl

namespace Gives

theorem pure (a : α) (s : Session) : Gives (Pure.pure a) s (.ok a) s.disk s.stdout := ⟨s.stderr, rfl⟩

theorem throw (stop : Stop) (s : Session) : Gives (MonadExcept.throw stop : Action α) s (.error stop) s.disk s.stdout :=
  ⟨s.stderr, rfl⟩

theorem log (line : String) (s : Session) : Gives (Action.log line) s (.ok ()) s.disk s.stdout := ⟨_, rfl⟩

/-- A change of the disk does not touch the output. -/
theorem modifyDisk (f : Disk → Disk) (s : Session) :
    Gives (modify fun s => { s with disk := f s.disk }) s (.ok ()) (f s.disk) s.stdout := ⟨s.stderr, rfl⟩

/-- An action goes on with the result of its first part. -/
theorem bind {x : Action α} {f : α → Action β} {a : α} {result : Except Stop β} (hx : Gives x s (.ok a) disk out)
    (hf : ∀ err, Gives (f a) ⟨disk, out, err⟩ result disk' out') : Gives (x >>= f) s result disk' out' := by
  obtain ⟨err, hx⟩ := hx
  obtain ⟨err', hf⟩ := hf err
  exact ⟨err', (run_bind_of_ok hx).trans hf⟩

/-- An action may look at its session. -/
theorem get_bind {f : Session → Action α} {result : Except Stop α} (hf : Gives (f s) s result disk out) :
    Gives (get >>= f) s result disk out := hf

/-- An action stops where its first part does. -/
theorem bind_error {x : Action α} {f : α → Action β} {stop : Stop} (hx : Gives x s (.error stop) disk out) :
    Gives (x >>= f) s (.error stop) disk out := by
  obtain ⟨err, hx⟩ := hx
  refine ⟨err, ?_⟩
  rw [ExceptT.run_bind, StateT.run_bind, hx]
  rfl

/-- A change that the disk takes is made. -/
theorem changeDisk {change : Disk → Except DiskError Disk} (s : Session) (h : change s.disk = .ok disk) :
    Gives (Action.changeDisk change) s (.ok ()) disk s.stdout := by
  rw [Action.changeDisk]
  refine get_bind ?_
  rw [h]
  exact modifyDisk (fun _ => disk) s

/-- What is done at the end is done whatever comes of the action. -/
theorem cleanUp {x : Action α} {result : Except Stop α} (hx : Gives x s result disk out) (f : Disk → Disk) :
    Gives (tryFinally x (modify fun s => { s with disk := f s.disk })) s result (f disk) out := by
  obtain ⟨err, hx⟩ := hx
  refine ⟨err, ?_⟩
  change x s = _ at hx
  change (tryFinally x _ : Action α) s = _
  simp only [tryFinally, MonadFinally.tryFinally', Functor.map, ExceptT.map, ExceptT.mk, Bind.bind, StateT.bind, hx]
  cases result <;> rfl

section Host

variable [Host]

/-- A line of the error stream leaves the disk and the output as they are. -/
theorem report (line : String) (s : Session) : Gives (Action.report line) s (.ok ()) s.disk s.stdout := ⟨_, rfl⟩

/-- A line of the error stream makes no difference. -/
theorem reportIf {verbose : Bool} {line : String} {f : Unit → Action α} {result : Except Stop α}
    (hf : ∀ err, Gives (f ()) ⟨s.disk, s.stdout, err⟩ result disk out) :
    Gives (if verbose = true then Action.report line >>= f else f ()) s result disk out := by
  cases verbose with
  | false => exact hf s.stderr
  | true => exact (Gives.report line s).bind hf

/-- A line that can be shown goes to the output stream. -/
theorem print {line : String} (h : Host.canShow (line ++ "\n") = true) (s : Session) :
    Gives (Action.print line) s (.ok ()) s.disk (s.stdout ++ Host.onOut (line ++ "\n")) := by
  rw [Action.print, h]
  exact ⟨s.stderr, rfl⟩

/-- A line that cannot be shown stops the command. -/
theorem print_error {line : String} (h : Host.canShow (line ++ "\n") = false) (s : Session) :
    Gives (Action.print line) s (.error (.escaped .undecodable)) s.disk s.stdout := by
  rw [Action.print, h]
  exact (throw _ s).bind_error

variable {path : Path} (text : String) (s : Session)

/-- A text that can be written is what the file holds in the end. -/
theorem saveText (hroot : s.disk.isFile [] = false) (hwritable : s.disk.IsWritable path)
    (h : Host.encodes text = true) :
    Gives (Action.saveText path text) s (.ok ()) (s.disk.saved path (.ofText text)) s.stdout := by
  rw [Action.saveText, h]
  refine (changeDisk s ((Disk.save_eq_ok_iff hroot).2 ⟨hwritable, rfl⟩)).bind fun err => ?_
  change Gives (Action.changeDisk fun disk => disk.write path (.ofText text)) _ _ _ _
  refine changeDisk ⟨s.disk.saved path (.ofText ""), s.stdout, err⟩ ?_
  exact Disk.write_saved s.disk path (.ofText "") (.ofText text)

end Host

end Gives

/-! ## Failures -/

/-- Whether an action in a session stops because something is wrong. -/
def Stops (action : Action α) (s : Session) : Prop :=
  ∃ stop disk out, Gives action s (.error stop) disk out ∧ stop ≠ .finished

namespace Stops

theorem throw {stop : Stop} (h : stop ≠ .finished) (s : Session) : Stops (MonadExcept.throw stop : Action α) s :=
  ⟨stop, _, _, Gives.throw stop s, h⟩

/-- An action stops where its first part does. -/
theorem bind {x : Action α} (h : Stops x s) (f : α → Action β) : Stops (x >>= f) s := by
  obtain ⟨stop, disk, out, hx, hstop⟩ := h
  exact ⟨stop, disk, out, hx.bind_error, hstop⟩

/-- An action stops where its second part does. -/
theorem of_bind {x : Action α} {f : α → Action β} {a : α} (hx : Gives x s (.ok a) disk out)
    (h : ∀ err, Stops (f a) ⟨disk, out, err⟩) : Stops (x >>= f) s := by
  obtain ⟨err, hx⟩ := hx
  obtain ⟨stop, disk', out', ⟨err', hf⟩, hstop⟩ := h err
  exact ⟨stop, disk', out', ⟨err', (run_bind_of_ok hx).trans hf⟩, hstop⟩

theorem get_bind {f : Session → Action α} (h : Stops (f s) s) : Stops (get >>= f) s := h

end Stops

/-! ## Files -/

/-- Whether a result is no failure. -/
def Succeeds (result : Except Stop α) : Prop := ∀ stop, result = .error stop → stop = .finished

theorem succeeds_ok (a : α) : Succeeds (.ok a) := by
  rintro stop ⟨⟩

/-- Whether an action comes to the given result and output and leaves all files outside of the scratch folder as they
are, and the whole disk unless it fails. -/
def Leaves (scratch : Path) (action : Action α) (s : Session) (result : Except Stop α) (out : String) : Prop :=
  ∃ disk, Gives action s result disk out ∧ (∀ p, ¬scratch <+: p → disk.file? p = s.disk.file? p) ∧
    (Succeeds result → disk = s.disk)

variable {scratch : Path}

namespace Leaves

/-- An action that leaves the disk alone leaves the files alone. -/
theorem of_gives {action : Action α} {result : Except Stop α} (h : Gives action s result s.disk out) :
    Leaves scratch action s result out :=
  ⟨s.disk, h, fun _ _ => rfl, fun _ => rfl⟩

/-- An action that succeeds leaves the whole disk as it is. -/
theorem gives {action : Action α} {a : α} (h : Leaves scratch action s (.ok a) out) :
    Gives action s (.ok a) s.disk out := by
  obtain ⟨disk, hgives, -, hdisk⟩ := h
  rwa [hdisk (succeeds_ok a)] at hgives

/-- What a part leaves when it stops is what the whole leaves. -/
theorem bind_error {x : Action α} {f : α → Action β} {stop : Stop} (hx : Leaves scratch x s (.error stop) out) :
    Leaves scratch (x >>= f) s (.error stop) out := by
  obtain ⟨disk, hgives, hfiles, hdisk⟩ := hx
  refine ⟨disk, hgives.bind_error, hfiles, fun hsucceeds => hdisk fun stop' heq => hsucceeds stop' ?_⟩
  rw [Except.error.inj heq]

/-- An action goes on with what its first part leaves. -/
theorem bind {x : Action α} {f : α → Action β} {a : α} (hx : Leaves scratch x s (.ok a) out) :
    ∃ err, ∀ {result : Except Stop β} {out' : String}, Leaves scratch (f a) ⟨s.disk, out, err⟩ result out' →
      Leaves scratch (x >>= f) s result out' := by
  obtain ⟨err, hx⟩ := hx.gives
  refine ⟨err, ?_⟩
  rintro result out' ⟨disk, ⟨err', hf⟩, hdisk⟩
  exact ⟨disk, ⟨err', (run_bind_of_ok hx).trans hf⟩, hdisk⟩

end Leaves

/-- Whether an action leaves all files outside of the scratch folder as they are, and the whole disk unless it fails. -/
def Keeps (scratch : Path) (action : Action α) (s : Session) : Prop := ∃ result out, Leaves scratch action s result out

/-- Whether an action only looks at its session: it leaves all files outside of the scratch folder as they are, writes
nothing to the output and stops only because something is wrong. -/
def Looks (scratch : Path) (action : Action α) (s : Session) : Prop :=
  ∃ result, Leaves scratch action s result s.stdout ∧ result ≠ .error .finished

theorem Keeps.throw (stop : Stop) (s : Session) : Keeps scratch (MonadExcept.throw stop : Action α) s :=
  ⟨_, _, .of_gives (Gives.throw stop s)⟩

/-- A line changes no file, whether or not it can be shown. -/
theorem Keeps.print [Host] (line : String) (s : Session) : Keeps scratch (Action.print line) s := by
  cases hshown : Host.canShow (line ++ "\n") with
  | true => exact ⟨_, _, .of_gives (Gives.print hshown s)⟩
  | false => exact ⟨_, _, .of_gives (Gives.print_error hshown s)⟩

/-- Parts that change no file do not, one after the other. -/
theorem Keeps.bind {x : Action α} {f : α → Action β} (hx : Keeps scratch x s)
    (hf : ∀ a out err, Keeps scratch (f a) ⟨s.disk, out, err⟩) : Keeps scratch (x >>= f) s := by
  obtain ⟨result, out, hx⟩ := hx
  cases result with
  | error stop => exact ⟨_, _, hx.bind_error⟩
  | ok a =>
    obtain ⟨err, hbind⟩ := hx.bind (f := f)
    obtain ⟨result', out', hleaves⟩ := hf a out err
    exact ⟨result', out', hbind hleaves⟩

namespace Looks

/-- An action that only looks changes no file. -/
theorem keeps {action : Action α} (h : Looks scratch action s) : Keeps scratch action s := by
  obtain ⟨result, hleaves, -⟩ := h
  exact ⟨result, _, hleaves⟩

theorem pure (a : α) (s : Session) : Looks scratch (Pure.pure a) s := ⟨_, .of_gives (Gives.pure a s), by simp⟩

theorem throw {stop : Stop} (h : stop ≠ .finished) (s : Session) : Looks scratch (MonadExcept.throw stop : Action α) s :=
  ⟨_, .of_gives (Gives.throw stop s), by simpa using h⟩

theorem get_bind {f : Session → Action α} (h : Looks scratch (f s) s) : Looks scratch (get >>= f) s := h

theorem bind {x : Action α} {f : α → Action β} (hx : Looks scratch x s)
    (hf : ∀ a err, Looks scratch (f a) ⟨s.disk, s.stdout, err⟩) : Looks scratch (x >>= f) s := by
  obtain ⟨result, hx, hfinished⟩ := hx
  cases result with
  | error stop => exact ⟨_, hx.bind_error, fun heq => hfinished (by rw [Except.error.inj heq])⟩
  | ok a =>
    obtain ⟨err, hbind⟩ := hx.bind (f := f)
    obtain ⟨result', hleaves, hfinished'⟩ := hf a err
    exact ⟨result', hbind hleaves, hfinished'⟩

end Looks

/-! ## Runs -/

theorem run_get_bind (f : Session → Action α) (s : Session) :
    (ExceptT.run (get >>= f)).run s = (ExceptT.run (f s)).run s := rfl

variable [Host] {action : Action Unit} {d : Disk}

/-- A run of an action that goes through exits with zero and leaves what the action leaves. -/
theorem run_of_gives (h : Gives action { disk := d } (.ok ()) disk out) :
    (action.run d).exitCode = 0 ∧ (action.run d).stdout = out ∧ (action.run d).disk = disk := by
  obtain ⟨err, h⟩ := h
  simp [Action.run, h]

/-- A run exits with zero exactly where its action is no failure. -/
theorem run_of_gives_result {result : Except Stop Unit} (h : Gives action { disk := d } result disk out) :
    ((action.run d).exitCode = 0 ↔ Succeeds result) ∧ (action.run d).disk = disk := by
  obtain ⟨err, h⟩ := h
  rw [Action.run, h]
  cases result with
  | ok a => exact ⟨by simp [succeeds_ok], rfl⟩
  | error stop => cases stop <;> simp [Succeeds]

/-- A run of an action that stops does not exit with zero. -/
theorem exitCode_of_stops (h : Stops action { disk := d }) : (action.run d).exitCode ≠ 0 := by
  obtain ⟨stop, disk, out, hgives, hstop⟩ := h
  rw [ne_eq, (run_of_gives_result hgives).1]
  exact fun hsucceeds => hstop (hsucceeds stop rfl)

end Action

end GraphDoc
