import GraphDoc.Number.Exact
import GraphDoc.Tree.Basic

/-!
# Entries

Entries in written order may repeat a key. `mergeEntries` gives what they mean: each key once, at the
place where it first stands and as it is first spelled, with the value it is given last.
-/

namespace GraphDoc

/-- The entries with `key` set to `value`: in its old place if the key is there, else at the end. -/
def putEntry {κ β : Type} (same : κ → κ → Bool) (key : κ) (value : β) : List (κ × β) → List (κ × β)
  | [] => [(key, value)]
  | (k, v) :: rest =>
    if same k key then (k, value) :: rest else (k, v) :: putEntry same key value rest

/-- Each key once, at its first place and with its last value. -/
def mergeEntries {κ β : Type} (same : κ → κ → Bool) (entries : List (κ × β)) : List (κ × β) :=
  entries.foldl (fun merged (key, value) => putEntry same key value merged) []

/-- A plain value without parts, up to what it is worth. -/
inductive Atom
  | none
  | text (value : String)
  | number (value : Number)
deriving DecidableEq

/-- Whether two atoms are equal values. -/
def Atom.same : Atom → Atom → Bool
  | .none, .none => true
  | .text a, .text b => a == b
  | .number a, .number b => a.same b
  | _, _ => false

namespace Key

/-- The value of a key. -/
def atom : Key → Atom
  | .none => .none
  | .bool b => .number (.ofBool b)
  | .int n => .number (.ofInt n)
  | .float x => .number (.ofBinary64 x)
  | .str s => .text s

/-- Whether two keys name the same entry. -/
def same (a b : Key) : Bool := a.atom.same b.atom

/-- The key that a name makes; it may be left empty. -/
def ofName : Option String → Key
  | some name => .str name
  | Option.none => .none

end Key

namespace Tree

/-- The name and value of an argument. A symbol has both as well, and a thing of unknown kind may. -/
def argument? (t : Tree) : Option (Key × Tree) :=
  match t.base with
  | .argument name value => some (.str name, value)
  | .symbol _ member => some (.str member.name, member.value)
  | .foreign _ ⟨_, _, some name, some value⟩ => some (Key.ofName name, value)
  | _ => Option.none

/-- What an object literal says, as a map does: each name once, with its last value. -/
def mapEntries (t : Tree) : List (Key × Tree) :=
  match t.base with
  | .inputObject arguments => mergeEntries Key.same (arguments.items.filterMap argument?)
  | _ => []

/-- The entries of an object literal whose names are not left empty. -/
def objectEntries (t : Tree) : List (String × Tree) :=
  t.mapEntries.filterMap fun (key, value) =>
    match key with
    | .str name => some (name, value)
    | _ => Option.none

end Tree

end GraphDoc
