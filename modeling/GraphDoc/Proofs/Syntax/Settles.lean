import GraphDoc.Proofs.Syntax.Reads

/-!
# Settled runs

A run of a parser is settled when it is known what the parser reads, or that it reads nothing.
-/

namespace GraphDoc

open GraphDoc.Parser
open Syntax (Converted)

/-- Whether a parser, run on the given tape, ends at another one with each of the given results, and fails
where there are none. -/
structure Settles {α β : Type} (p : Parser α) (conv : α → Converted β) (tape after : Tape) (R : β → Prop) :
    Prop where
  reads : ∀ r, R r → ∃ x, p tape = .ok (x, after) ∧ conv x = .ok r
  fails : (∀ r, ¬ R r) → Fails p tape

namespace Settles

variable {α β γ δ : Type} {p : Parser α} {conv : α → Converted β} {tape after : Tape} {R : β → Prop}

/-- What is settled may be said in other words. -/
theorem congr {R' : β → Prop} (h : Settles p conv tape after R) (hR : ∀ r, R r ↔ R' r) :
    Settles p conv tape after R' where
  reads := fun r hr => h.reads r ((hR r).2 hr)
  fails := fun hr => h.fails fun r hr' => hr r ((hR r).1 hr')

/-- A first step that succeeds leaves the matter to what follows. -/
theorem of_run {q : Parser α} {tape' : Tape} (h : Settles q conv tape' after R)
    (hrun : p tape = q tape') : Settles p conv tape after R where
  reads := fun r hr => by rw [hrun]; exact h.reads r hr
  fails := fun hr => by rw [Fails, hrun]; exact h.fails hr

/-- A failure settles that there is no result. -/
theorem of_fails (h : Fails p tape) (hR : ∀ r, ¬ R r) : Settles p conv tape after R where
  reads := fun r hr => absurd hr (hR r)
  fails := fun _ => h

/-- A success settles what the result is. -/
theorem of_ok {x : α} {r : β} (hrun : p tape = .ok (x, after)) (hx : conv x = .ok r) :
    Settles p conv tape after (· = r) where
  reads := by
    rintro _ rfl
    exact ⟨x, hrun, hx⟩
  fails := fun hnone => absurd rfl (hnone r)

/-- A phrase that is read is settled. -/
theorem of_reads {bad : List Punct} {cs k : List Char} {r : β} (h : Reads p conv bad cs r) (hk : Clear bad k) :
    Settles p conv (Tape.ofChars (cs ++ k)) (Tape.ofChars k) (· = r) where
  reads := by
    rintro _ rfl
    exact h k hk
  fails := fun hnone => absurd rfl (hnone r)

/-- A phrase that is settled once the first of its parts is. -/
theorem map {f : α → Parser γ} {conv' : γ → Converted δ} {g : β → δ} {after' : Tape}
    (h : Settles p conv tape after R)
    (hf : ∀ x r, conv x = .ok r → ∃ y, f x after = .ok (y, after') ∧ conv' y = .ok (g r)) :
    Settles (p >>= f) conv' tape after' fun s => ∃ r, R r ∧ s = g r where
  reads := by
    rintro _ ⟨r, hr, rfl⟩
    obtain ⟨x, hrun, hx⟩ := h.reads r hr
    obtain ⟨y, hy, hconv⟩ := hf x r hx
    exact ⟨y, by rw [bind_run hrun, hy], hconv⟩
  fails := fun hr => (h.fails fun r hr' => hr (g r) ⟨r, hr', rfl⟩).bind f

/-- A phrase that has one result under a condition, and so has what is made of it. -/
theorem finish {f : α → Parser γ} {conv' : γ → Converted δ} {C : Prop} {r : β} {s : δ} {after' : Tape}
    (h : Settles p conv tape after fun r' => C ∧ r' = r)
    (hf : ∀ x, conv x = .ok r → ∃ y, f x after = .ok (y, after') ∧ conv' y = .ok s) :
    Settles (p >>= f) conv' tape after' fun s' => C ∧ s' = s where
  reads := by
    rintro _ ⟨hC, rfl⟩
    obtain ⟨x, hrun, hx⟩ := h.reads r ⟨hC, rfl⟩
    obtain ⟨y, hy, hconv⟩ := hf x hx
    exact ⟨y, by rw [bind_run hrun, hy], hconv⟩
  fails := fun hnone => (h.fails fun r' hr' => hnone s ⟨hr'.1, rfl⟩).bind f

/-- A row is settled once its first item and the row behind it are. -/
theorem step {item : Parser α} {test : Token → Bool} {middle : Tape} {Rs : List β → Prop} {P : α → Prop}
    (hone : Ensures 1 item P) (hlex : tape.Lexical) {t : Token} (hfront : tape.front = some t)
    (ht : test t = true) (hitem : Settles item conv tape middle R)
    (hrest : Settles (itemsWhile test item) (·.mapM conv) middle after Rs) :
    Settles (itemsWhile test item) (·.mapM conv) tape after fun rs => ∃ r rest, R r ∧ Rs rest ∧ rs = r :: rest where
  reads := by
    rintro _ ⟨r, rest, hr, hrs, rfl⟩
    obtain ⟨x, hrun, hx⟩ := hitem.reads r hr
    obtain ⟨xs, hruns, hxs⟩ := hrest.reads rest hrs
    refine ⟨x :: xs, ?_, ?_⟩
    · rw [itemsWhile_step hone hlex hfront ht, bind_run hrun, bind_run hruns]
      rfl
    · rw [List.mapM_cons, hx, hxs]
      rfl
  fails := by
    intro hnone
    rw [Fails, itemsWhile_step hone hlex hfront ht]
    -- if the first item is read, it is the row behind it that fails
    by_cases hsome : ∃ r, R r
    · obtain ⟨r, hr⟩ := hsome
      obtain ⟨x, hrun, -⟩ := hitem.reads r hr
      have hfails := hrest.fails fun rest hrs => hnone _ ⟨r, rest, hr, hrs, rfl⟩
      exact Fails.of_bind hrun (hfails.bind _)
    · exact (hitem.fails fun r hr => hsome ⟨r, hr⟩).bind _

end Settles

end GraphDoc
