import GraphDoc.Source.Literal
import Mathlib.Data.List.Forall2

/-!
# Outcomes of lists

A computation over a list succeeds exactly if it succeeds on every item, with the results in order.
-/

namespace GraphDoc

variable {ε α β : Type}

/-- A mapped computation gives a result when the computation does. -/
theorem map_eq_ok {x : Except ε α} {g : α → β} {b : β} : g <$> x = .ok b ↔ ∃ a, x = .ok a ∧ g a = b := by
  cases x <;> simp [Functor.map, Except.map]

/-- Renaming the error does not touch the results. -/
theorem mapError_eq_ok {ε' : Type} {x : Except ε α} {g : ε → ε'} {a : α} :
    x.mapError g = .ok a ↔ x = .ok a := by
  cases x <;> simp [Except.mapError]

/-- Running over a list succeeds when every item does, with the results in order. -/
theorem mapM_eq_ok {f : α → Except ε β} {xs : List α} {ys : List β} :
    xs.mapM f = .ok ys ↔ List.Forall₂ (fun x y => f x = .ok y) xs ys := by
  induction xs generalizing ys with
  | nil =>
    rw [List.mapM_nil, pure_eq_ok, List.forall₂_nil_left_iff]
    exact eq_comm
  | cons x xs ih =>
    rw [List.mapM_cons, bind_eq_ok]
    constructor
    · rintro ⟨y, hy, h⟩
      obtain ⟨zs, hzs, h⟩ := bind_eq_ok.1 h
      rw [← pure_eq_ok.1 h]
      exact .cons hy (ih.1 hzs)
    · rintro (_ | ⟨hy, hys⟩)
      exact ⟨_, hy, bind_eq_ok.2 ⟨_, ih.2 hys, rfl⟩⟩

/-- Every result comes from an item. -/
theorem exists_of_mem_of_mapM {f : α → Except ε β} {xs : List α} {ys : List β}
    (h : xs.mapM f = .ok ys) {y : β} (hy : y ∈ ys) : ∃ x ∈ xs, f x = .ok y := by
  have hall := mapM_eq_ok.1 h
  induction hall with
  | nil => cases hy
  | cons hx hxs ih =>
    rcases List.mem_cons.1 hy with rfl | hy
    · exact ⟨_, by simp, hx⟩
    · obtain ⟨x, hmem, hfx⟩ := ih (mapM_eq_ok.2 hxs) hy
      exact ⟨x, List.mem_cons_of_mem _ hmem, hfx⟩

/-- What holds of all items, item by item, holds of all results. -/
theorem forall_mem_iff_of_mapM {f : α → Except ε β} {xs : List α} {ys : List β} (h : xs.mapM f = .ok ys) {P : α → Prop}
    {Q : β → Prop} (hiff : ∀ x ∈ xs, ∀ y, f x = .ok y → (P x ↔ Q y)) : (∀ x ∈ xs, P x) ↔ ∀ y ∈ ys, Q y := by
  have hall := mapM_eq_ok.1 h
  clear h
  induction hall with
  | nil => simp
  | cons hx hxs ih =>
    have hrest := ih fun x hmem => hiff x (List.mem_cons_of_mem _ hmem)
    rw [List.forall_mem_cons, List.forall_mem_cons, hiff _ (by simp) _ hx]
    exact and_congr_right fun _ => hrest

/-- What succeeds on every item succeeds on the list. -/
theorem mapM_of_forall {f : α → Except ε β} {g : α → β} {xs : List α}
    (h : ∀ x ∈ xs, f x = .ok (g x)) : xs.mapM f = .ok (xs.map g) := by
  rw [mapM_eq_ok, List.forall₂_map_right_iff, List.forall₂_same]
  exact h

/-- Only what the function does on the items matters. -/
theorem mapM_congr {f g : α → Except ε β} {xs : List α} (h : ∀ x ∈ xs, f x = g x) : xs.mapM f = xs.mapM g := by
  induction xs with
  | nil => rfl
  | cons x xs ih =>
    rw [List.mapM_cons, List.mapM_cons, h x List.mem_cons_self, ih fun y hy => h y (List.mem_cons_of_mem _ hy)]

/-- Running over a list without effect gives the list back. -/
theorem eq_of_mapM_pure {xs ys : List α} (h : xs.mapM (pure : α → Except ε α) = .ok (ys.map id)) : xs = ys := by
  rw [List.mapM_pure, List.map_id] at h
  simpa [pure, Except.pure] using h

end GraphDoc
