import GraphDoc.Document
import GraphDoc.Signature

/-!
# A demonstration

A query put together by hand and printed, with its signature, and a small schema that is read and
printed again.
-/

namespace GraphDoc.Demo

/-- A field without parts. -/
def plainField (name : String) : Tree := .field name none (.tuple []) (.tuple []) (.tuple [])

/-- The query of the demonstration. -/
def query : Tree :=
  .operation "query" (some "GetUser")
    (.tuple [
      .variableDefinition "id" (.nonNullType (.typeName "ID")) .none,
      .variableDefinition "withFriends" (.typeName "Boolean") (.bool false)])
    (.tuple [])
    (.tuple [
      .field "user" none (.tuple [.argument "id" (.variable "id")]) (.tuple []) (.tuple [
        .fragmentSpread "UserFields" (.tuple []),
        .field "friends" none (.tuple [.argument "first" (.int 5)])
          (.tuple [.directive "include" (.tuple [.argument "if" (.variable "withFriends")])])
          (.tuple [plainField "id"])])])

/-- The fragment that the query spreads. -/
def userFields : Tree :=
  .fragment "UserFields" (.typeName "User") (.tuple [])
    (.tuple [plainField "id",
      .field "name" (some "displayName") (.tuple []) (.tuple []) (.tuple [])])

/-- The document of the demonstration. -/
def document : Tree := .document (.tuple [query, userFields])

/-- The schema of the demonstration. -/
def schema : String := "
\"\"\"A person with an account\"\"\"
type User implements Node \x7b
  id: ID!
  friends(first: Int = 10): [User!]!
\x7d

enum Role \x7b ADMIN GUEST \x7d

directive @auth(requires: Role = ADMIN) on FIELD_DEFINITION
"

/-- What the demonstration prints. -/
def text : Option String := do
  let query ← (document.render "").toOption
  let signature ← document.signature.toOption
  let schema ← (parseDocument schema).toOption
  let schema ← (schema.render "").toOption
  return "Hand-built query:\n" ++ query ++ "\n\nSignature: " ++ signature ++
    "\n\nSchema round trip (descriptions are dropped):\n" ++ schema ++ "\n"

end GraphDoc.Demo
