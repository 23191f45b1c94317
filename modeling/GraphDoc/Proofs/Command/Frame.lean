import GraphDoc.Proofs.Command.Reprint
import GraphDoc.Proofs.Command.Scratch

/-!
# What a run changes

Outside of the scratch folder, a run changes no file unless it is a printing into a file. Such a printing changes this
file alone, and writes to it what the same command, without the file, shows on the output stream, if this can show it.
Where the text cannot be written, the file is left empty.
-/

namespace GraphDoc.Command

open GraphDoc.Action

variable {setting : Setting} {debug : Bool} {s : Session} {d : Disk} {scratch : Path}

/-! ## Command lines -/

section Hosts

variable [Host]

end Hosts

/-! ## Files that change -/

section Headers

variable (header : String)

variable {header}

end Headers

end GraphDoc.Command
