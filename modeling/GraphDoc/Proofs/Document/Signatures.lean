import GraphDoc.Proofs.Cache
import GraphDoc.Proofs.Document.Identity
import GraphDoc.Proofs.Tree.Contents
import GraphDoc.Proofs.Tree.FromSource

/-!
# Signatures of equal documents

Equal documents with truth values in the same places have one text, so one signature and one entry in a cache.
-/

namespace GraphDoc

open GraphDoc.Tree

/-- The definitions that show are those that show without the descriptions. -/
theorem shown_map_eraseDescriptions (ds : List Tree) :
    shown (ds.map eraseDescriptions) = (shown ds).map eraseDescriptions := by
  simp [shown, List.filter_map, Function.comp_def, isSuppressed_eraseDescriptions]

/-- Descriptions change neither what is shown nor its normal form. -/
theorem map_normal_shown_eraseDescriptions (ds : List Tree) :
    (shown (ds.map eraseDescriptions)).map normal = (shown ds).map normal := by
  rw [shown_map_eraseDescriptions, List.map_map]
  exact List.map_congr_left fun d _ => normal_eraseDescriptions d

/-- Descriptions make no difference to the normal form of a document. -/
theorem normalDocument_eraseDescriptions (ds : List Tree) :
    (Tree.document (.tuple ds)).eraseDescriptions.normalDocument = (Tree.document (.tuple ds)).normalDocument := by
  have herase : (Tree.document (.tuple ds)).eraseDescriptions = .document (.tuple (ds.map eraseDescriptions)) :=
    eraseDescriptions_eq _
  rw [herase, normalDocument_document, normalDocument_document, map_normal_shown_eraseDescriptions]

/-- Equal documents that were read have the same normal form, if their truth values stand in the same places. -/
theorem normalDocument_eq_of_same {a b : String} {t u : Tree} (ht : parseDocument a = .ok t)
    (hu : parseDocument b = .ok u) (hsame : t.same u = true) (hbools : t.nodes.map isBool = u.nodes.map isBool) :
    t.normalDocument = u.normalDocument := by
  obtain ⟨ds, rfl, -⟩ := exists_definitions_of_parseDocument ht
  obtain ⟨es, rfl, -⟩ := exists_definitions_of_parseDocument hu
  have hds : FromSource (.document (.tuple ds)) := fromSource_iff.2 ⟨trivial, fromSource_of_parseDocument ht⟩
  have hes : FromSource (.document (.tuple es)) := fromSource_iff.2 ⟨trivial, fromSource_of_parseDocument hu⟩
  rw [← normalDocument_eraseDescriptions ds, ← normalDocument_eraseDescriptions es,
    eraseDescriptions_eq_of_same hds hes hsame hbools]

/-- Equal documents that were read, with truth values in the same places, have the same text and the same
signature, and a cache that has stored one of them stays as it is when the other is added. -/
theorem signature_eq_of_same {a b : String} {t u : Tree} (ht : parseDocument a = .ok t)
    (hu : parseDocument b = .ok u) (hsame : t.same u = true) (hbools : t.nodes.map isBool = u.nodes.map isBool) :
    ∃ text, t.render "" = .ok text ∧ u.render "" = .ok text ∧
      t.signature = .ok (Sha256.hex text) ∧ u.signature = .ok (Sha256.hex text) ∧
      ∀ cache : Cache, ∃ stored, cache.add t = .ok (Sha256.hex text, stored) ∧
        cache.add u = .ok (Sha256.hex text, stored) ∧ stored.add u = .ok (Sha256.hex text, stored) := by
  obtain ⟨ds, hds, hnormal, -, htext⟩ := exists_shown_of_parseDocument ht
  obtain ⟨es, hes, hnormal', -, htext'⟩ := exists_shown_of_parseDocument hu
  -- one normal form, so one text
  have heq : documentText ds = documentText es := by
    have hforms := normalDocument_eq_of_same ht hu hsame hbools
    rw [hnormal, hnormal', Tree.document.injEq, Seq.tuple_inj] at hforms
    exact (documentText_eq_iff hds hes).2 hforms
  rw [← heq] at htext'
  refine ⟨_, htext, htext', by rw [signature, htext]; rfl, by rw [signature, htext']; rfl, fun cache => ?_⟩
  refine ⟨_, Cache.add_eq htext cache, Cache.add_eq htext' cache, ?_⟩
  rw [Cache.add_eq htext', Cache.insert_insert]

/-- A scalar type with a directive that has a truth value. -/
def describedScalar (description : Option String) : Tree :=
  .document (.tuple [.scalarType "A" (.tuple [.directive "b" (.tuple [.argument "x" (.bool true)])]) description])

/-- The tokens of a scalar type whose directive carries a truth value. -/
private theorem ofChars_plainScalar :
    Tape.ofChars "scalar A@b(x:true)".toList = .next (.name "scalar") "scalar A@b(x:true)".toList
      (.next (.name "A") "A@b(x:true)".toList (.next (.punct .at) "@b(x:true)".toList
        (.next (.name "b") "b(x:true)".toList (.next (.punct .parenL) "(x:true)".toList
          (.next (.name "x") "x:true)".toList (.next (.punct .colon) ":true)".toList
            (.next (.name "true") "true)".toList (.next (.punct .parenR) ")".toList .finish)))))))) := by
  show Tape.ofChars ("scalar".toList ++ ' ' :: ("A".toList ++ '@' :: ("b".toList ++ '(' :: ("x".toList ++
    ':' :: ("true".toList ++ ')' :: []))))) = _
  rw [Tape.ofChars_name (by decide) (by simp [isBoundary, isNameChar]), Tape.ofChars_space,
    Tape.ofChars_name (by decide) (by simp [isBoundary, isNameChar]), Tape.ofChars_punct (m := .at) (by decide),
    Tape.ofChars_name (by decide) (by simp [isBoundary, isNameChar]), Tape.ofChars_punct (m := .parenL) (by decide),
    Tape.ofChars_name (by decide) (by simp [isBoundary, isNameChar]), Tape.ofChars_punct (m := .colon) (by decide),
    Tape.ofChars_name (by decide) (by simp [isBoundary, isNameChar]), Tape.ofChars_punct (m := .parenR) (by decide),
    Tape.ofChars_nil]
  rfl

/-- A description makes no difference to the signature. -/
theorem signature_eq_of_description :
    parseDocument "\"d\" scalar A@b(x:true)" = .ok (describedScalar (some "d")) ∧
      parseDocument "scalar A@b(x:true)" = .ok (describedScalar Option.none) ∧
      (describedScalar (some "d")).same (describedScalar Option.none) = true ∧
      ∃ signature, (describedScalar (some "d")).signature = .ok signature ∧
        (describedScalar Option.none).signature = .ok signature := by
  have hplain : parseDocument "scalar A@b(x:true)" = .ok (describedScalar Option.none) := by
    rw [parseDocument, parseWith, Syntax.Document.read, Syntax.read, Tape.ofSource, ofChars_plainScalar]
    rfl
  have hquoted : parseDocument "\"d\" scalar A@b(x:true)" = .ok (describedScalar (some "d")) := by
    have htape : Tape.ofSource "\"d\" scalar A@b(x:true)" =
        .next (.string "d") "\"d\" scalar A@b(x:true)".toList (Tape.ofChars "scalar A@b(x:true)".toList) := by
      show Tape.ofChars ((Text.quote "d").toList ++ ' ' :: "scalar A@b(x:true)".toList) = _
      rw [Tape.ofChars_quote (by simp [isBoundary, isNameChar]), Tape.ofChars_space]
      rfl
    rw [parseDocument, parseWith, Syntax.Document.read, Syntax.read, htape, ofChars_plainScalar]
    rfl
  have hsame : (describedScalar (some "d")).same (describedScalar Option.none) = true := by decide
  have hbools : (describedScalar (some "d")).nodes.map isBool = (describedScalar Option.none).nodes.map isBool := by
    simp [describedScalar, nodes_eq, children, isBool]
  obtain ⟨text, -, -, hsignature, hsignature', -⟩ := signature_eq_of_same hquoted hplain hsame hbools
  exact ⟨hquoted, hplain, hsame, _, hsignature, hsignature'⟩

end GraphDoc
