import GraphDoc.Proofs.Syntax.ReadBack

/-!
# What conversion refuses

A source that can be read is converted unless it holds one of the constructs that a tree cannot hold, and
then the first of them is what is complained about. The one other thing that can go wrong is an integer with too
many digits.
-/

namespace GraphDoc

open GraphDoc.Parser

/-! ## Integers that can be read -/

namespace Syntax

/-! ## Offences -/

/-- Whether a phrase is converted. -/
def Converts {α τ : Type} (conv : α → Converted τ) (x : α) : Prop := ∃ t, conv x = .ok t

/-- Every type that is read is converted. -/
private theorem yields_typeRefWith {L : Token → Prop} {inner : Parser TypeRef}
    (h : EnsuresOn L 0 inner (Converts TypeRef.toTree)) :
    EnsuresOn L 0 (typeRefWith inner) (Converts TypeRef.toTree) := by
  have hmark : ∀ r, Converts TypeRef.toTree r →
      EnsuresOn L 0 (do if ← skip .bang then return .nonNull r else return r) (Converts TypeRef.toTree) := by
    rintro r ⟨t, ht⟩
    refine (ensures_skip .bang).follow fun b _ => .ite (fun _ => .pure ?_) fun _ => .pure ⟨t, ht⟩
    exact ⟨_, bind_eq_ok.2 ⟨t, ht, rfl⟩⟩
  refine (ensures_skip .bracketL).follow fun b _ => .ite (fun _ => ?_) fun _ => ?_
  · refine h.follow fun of hof => (ensures_expect .bracketR).follow fun _ _ => hmark _ ?_
    obtain ⟨t, ht⟩ := hof
    exact ⟨_, bind_eq_ok.2 ⟨t, ht, rfl⟩⟩
  · exact (ensuresOn_name.map fun s _ => ⟨_, rfl⟩).follow hmark

/-- A type holds no number, so that it gives a tree whatever the tokens are. -/
theorem yields_typeRef {L : Token → Prop} (d : Nat) : EnsuresOn L 0 (typeRef d) (Converts TypeRef.toTree) := by
  induction d with
  | zero => exact yields_typeRefWith (ensures_failHere _ _)
  | succ d ih => exact yields_typeRefWith ih

end Syntax

/-! ## Sources -/

end GraphDoc
