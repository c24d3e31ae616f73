/-
  OwnNet.Parsing.Unambiguous — writers whose texts are read back in one way.

  A value is read only as it is written where no other value's text, whatever follows, starts a
  text of its own: two texts that agree with what follows them then have one value and one rest.
  What may follow is a set, since a number ends where its digits do.

  Proved: what is put together from such writers is such a writer: after a fixed lead (`after`),
  and in a list between separators (`joined`, `listed`).
-/

import Mathlib.Data.List.Basic
import Mathlib.Data.List.Forall2

namespace OwnNet.Parsing

variable {τ α β : Type}

/-- `a` is read only as itself, up to `R`, in front of what `F` lets follow. -/
def ReadsOnly (F : List τ → Prop) (f : α → List τ) (R : α → α → Prop) (a : α) : Prop :=
  ∀ b r r', F r → F r' → f a ++ r = f b ++ r' → R a b ∧ r = r'

namespace ReadsOnly

variable {F : List τ → Prop} {f : α → List τ} {R : α → α → Prop}

theorem after {a : α} (h : ReadsOnly F f R a) (lead : List τ) : ReadsOnly F (fun a => lead ++ f a) R a := by
  intro b r r' hr hr' he
  rw [List.append_assoc, List.append_assoc] at he
  exact h b r r' hr hr' (List.append_cancel_left he)

/-- A list that is not empty, its items apart by one token and closed by another. -/
theorem joined {s c : τ} {sep close : List τ} (hsc : s ≠ c) (hs : ∀ r, F (s :: r)) (hc : ∀ r, F (c :: r)) {as bs : List α}
    (h : ∀ a ∈ as, ReadsOnly F f R a) (ha : as ≠ []) (hb : bs ≠ []) {r r' : List τ}
    (he : (s :: sep).intercalate (as.map f) ++ (c :: close ++ r) = (s :: sep).intercalate (bs.map f) ++ (c :: close ++ r')) :
    List.Forall₂ R as bs ∧ r = r' := by
  induction as generalizing bs with
  | nil => exact absurd rfl ha
  | cons a as ih =>
    cases bs with
    | nil => exact absurd rfl hb
    | cons b bs =>
      have hfirst := h a List.mem_cons_self
      cases as with
      | nil =>
        cases bs with
        | nil =>
          simp only [List.map_cons, List.map_nil, List.intercalate_singleton, List.cons_append] at he
          obtain ⟨hR, hrest⟩ := hfirst b _ _ (hc _) (hc _) he
          exact ⟨.cons hR .nil, List.append_cancel_left (List.cons.inj hrest).2⟩
        | cons b' bs =>
          simp only [List.map_cons, List.map_nil, List.intercalate_singleton, List.intercalate_cons_cons, List.append_assoc,
            List.cons_append] at he
          obtain ⟨-, hrest⟩ := hfirst b _ _ (hc _) (hs _) he
          exact absurd (List.cons.inj hrest).1.symm hsc
      | cons a' as =>
        cases bs with
        | nil =>
          simp only [List.map_cons, List.map_nil, List.intercalate_singleton, List.intercalate_cons_cons, List.append_assoc,
            List.cons_append] at he
          obtain ⟨-, hrest⟩ := hfirst b _ _ (hs _) (hc _) he
          exact absurd (List.cons.inj hrest).1 hsc
        | cons b' bs =>
          rw [List.map_cons, List.map_cons, List.map_cons, List.map_cons, List.intercalate_cons_cons,
            List.intercalate_cons_cons] at he
          simp only [List.append_assoc, List.cons_append] at he
          obtain ⟨hR, hrest⟩ := hfirst b _ _ (hs _) (hs _) he
          obtain ⟨hall, hr⟩ := @ih (b' :: bs) (fun x hx => h x (List.mem_cons_of_mem _ hx)) (by simp) (by simp)
            (by simpa using List.append_cancel_left (List.cons.inj hrest).2)
          exact ⟨.cons hR hall, hr⟩

/-- A list that may be empty: no item starts as the list is closed. -/
theorem listed {s c : τ} {sep close : List τ} (hsc : s ≠ c) (hs : ∀ r, F (s :: r)) (hc : ∀ r, F (c :: r)) {as bs : List α}
    (h : ∀ a ∈ as, ReadsOnly F f R a) (hne : ∀ a t t', f a ++ t ≠ c :: t') {r r' : List τ}
    (he : (s :: sep).intercalate (as.map f) ++ (c :: close ++ r) = (s :: sep).intercalate (bs.map f) ++ (c :: close ++ r')) :
    List.Forall₂ R as bs ∧ r = r' := by
  have hstart : ∀ (a : α) (as : List α) (t : List τ), ∃ t', (s :: sep).intercalate ((a :: as).map f) ++ t = f a ++ t' := by
    intro a as t
    cases as with
    | nil => exact ⟨t, by simp⟩
    | cons a' as =>
      exact ⟨_, by rw [List.map_cons, List.map_cons, List.intercalate_cons_cons, List.append_assoc, List.append_assoc]⟩
  cases as with
  | nil =>
    cases bs with
    | nil => exact ⟨.nil, List.append_cancel_left (List.cons.inj he).2⟩
    | cons b bs =>
      obtain ⟨t', ht⟩ := hstart b bs (c :: close ++ r')
      rw [ht] at he
      exact absurd he.symm (hne b t' _)
  | cons a as =>
    cases bs with
    | nil =>
      obtain ⟨t', ht⟩ := hstart a as (c :: close ++ r)
      rw [ht] at he
      exact absurd he (hne a t' _)
    | cons b bs => exact joined hsc hs hc h (by simp) (by simp) he

end ReadsOnly

end OwnNet.Parsing
