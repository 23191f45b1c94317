import GraphDoc.Text.Parts
import GraphDoc.Tree.Render

/-!
# Hooks

A pipeline prints a document with hooks around the printing: hooks before it choose the definitions,
hooks after it change the text. A filter can only stand before and a header only after; a hook in the
wrong place is noticed when its turn comes.
-/

namespace GraphDoc

/-- What a definition's name must and must not look like. An absent or empty criterion does not
count. -/
structure NameFilter where
  excludePrefix : Option String := none
  excludeSuffix : Option String := none
  includePrefix : Option String := none
  includeSuffix : Option String := none
deriving DecidableEq

/-- A criterion that counts. -/
def NameFilter.criterion? (given : Option String) : Option String := given.filter (· ≠ "")

/-- Whether a name passes the filter. -/
def NameFilter.accepts (f : NameFilter) (name : String) : Bool :=
  !(criterion? f.excludePrefix).any (Text.startsWith name) &&
    !(criterion? f.excludeSuffix).any (Text.endsWith name) &&
    (criterion? f.includePrefix).all (Text.startsWith name) &&
    (criterion? f.includeSuffix).all (Text.endsWith name)

/-- Whether a definition passes the filter. A definition without a name always does. -/
def NameFilter.keeps (f : NameFilter) (definition : Tree) : Bool :=
  definition.name?.all f.accepts

/-- The document with only the definitions that pass the test. -/
def Tree.filterDefinitions (keep : Tree → Bool) : Tree → Tree
  | .document definitions => .document (.tuple (definitions.items.filter keep))
  | .derived derivation of => .derived derivation (of.filterDefinitions keep)
  | t => t

/-- The text with a header above it and a blank line between them. -/
def addHeader (header text : String) : String :=
  (if Text.endsWith header "\n" then header ++ "\n" else header ++ "\n\n") ++ text

/-- A hook of either kind. -/
inductive Hook
  | filter (criteria : NameFilter)
  | header (text : String)
deriving DecidableEq

/-- Why a pipeline gives no text. -/
inductive HookError
  /-- A header stands before the printing. -/
  | headerBefore
  /-- A filter stands after the printing. -/
  | filterAfter
  | render (error : RenderError)
deriving DecidableEq

/-- What a message says of the failure. -/
def HookError.message : HookError → String
  | .headerBefore => "'AddHeaderHook' object has no attribute 'pre_render'"
  | .filterAfter => "'FilterDefinitionsHook' object has no attribute 'post_render'"
  | .render e => e.message

namespace Hook

/-- What a hook makes of the document before it is printed. -/
def before (document : Tree) : Hook → Except HookError Tree
  | .filter criteria => .ok (document.filterDefinitions criteria.keeps)
  | .header _ => .error .headerBefore

/-- What a hook makes of the printed text. -/
def after (text : String) : Hook → Except HookError String
  | .filter _ => .error .filterAfter
  | .header above => .ok (addHeader above text)

end Hook

/-- The hooks around a printing, each list in the order in which its hooks run. -/
structure Pipeline where
  before : List Hook := []
  after : List Hook := []
deriving DecidableEq

namespace Pipeline

/-- Adds a hook to those that run before. -/
def addBefore (p : Pipeline) (hook : Hook) : Pipeline := { p with before := p.before ++ [hook] }

/-- Adds a hook to those that run after. -/
def addAfter (p : Pipeline) (hook : Hook) : Pipeline := { p with after := p.after ++ [hook] }

/-- The document as the hooks before leave it. -/
def runBefore (p : Pipeline) (document : Tree) : Except HookError Tree :=
  p.before.foldlM Hook.before document

/-- The text as the hooks after leave it. -/
def runAfter (p : Pipeline) (text : String) : Except HookError String :=
  p.after.foldlM Hook.after text

/-- Prints a document with the hooks around the printing. -/
def print (p : Pipeline) (document : Tree) : Except HookError String := do
  let document ← p.runBefore document
  let text ← (document.render "").mapError .render
  p.runAfter text

end Pipeline

end GraphDoc
