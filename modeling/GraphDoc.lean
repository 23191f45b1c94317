import GraphDoc.Demo
import GraphDoc.Main
import GraphDoc.Proofs.Document.HandBuilt
import GraphDoc.Proofs.Document.Readable
import GraphDoc.Proofs.Document.RoundTrip
import GraphDoc.Proofs.Syntax.Conversion
import GraphDoc.Proofs.Syntax.Refusals
import GraphDoc.Proofs.Syntax.Lines
import GraphDoc.Proofs.Syntax.Marked
import GraphDoc.Proofs.Syntax.MarkedDefinitions
import GraphDoc.Proofs.Document.Identity
import GraphDoc.Proofs.Document.FixedPoint
import GraphDoc.Proofs.Tree.Contents
import GraphDoc.Proofs.Document.Signatures
import GraphDoc.Proofs.Cache
import GraphDoc.Proofs.Document.Roots
import GraphDoc.Proofs.Command.Reprint
import GraphDoc.Proofs.Document.TypeReferences
import GraphDoc.Proofs.Document.Values
import GraphDoc.Proofs.Document.Filters
import GraphDoc.Proofs.Command.Frame
import GraphDoc.Proofs.Document.BlankLines
import GraphDoc.Proofs.Document.Indentation
import GraphDoc.Proofs.Tree.Reached
import GraphDoc.Proofs.Tree.Changes
import GraphDoc.Proofs.Document.Headers
import GraphDoc.Proofs.Tree.Congruence
import GraphDoc.Proofs.Command.Scratch
