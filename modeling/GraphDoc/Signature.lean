import GraphDoc.Digest.Sha256
import GraphDoc.Tree.Render

/-!
# Signatures and the cache

The signature of a tree is the digest of its printed text, so trees that print alike share it. A cache
keeps printed texts by signature; the first text stored under a signature stays.
-/

namespace GraphDoc

/-- The signature of a tree. -/
def Tree.signature [Surroundings] (t : Tree) : Rendered String := Sha256.hex <$> t.render ""

/-- Printed texts by signature, in the order in which they came. -/
structure Cache where
  entries : List (String × String) := []
deriving DecidableEq

namespace Cache

/-- The text stored under a signature. -/
def get? (c : Cache) (signature : String) : Option String := c.entries.lookup signature

/-- Whether a text is stored under a signature. -/
def contains (c : Cache) (signature : String) : Bool := (c.get? signature).isSome

/-- The number of stored texts. -/
def size (c : Cache) : Nat := c.entries.length

/-- Stores a text under its signature, unless there is one already. -/
def insert (c : Cache) (text : String) : Cache :=
  let signature := Sha256.hex text
  if c.contains signature then c else ⟨c.entries ++ [(signature, text)]⟩

/-- Prints a tree and stores the text. Gives the signature. -/
def add (c : Cache) (t : Tree) : Rendered (String × Cache) := do
  let text ← t.render ""
  return (Sha256.hex text, c.insert text)

end Cache

end GraphDoc
