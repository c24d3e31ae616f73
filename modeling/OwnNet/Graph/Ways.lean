/-
  OwnNet.Graph.Ways — what structured code can do, as two languages: the words after which
  control falls out at its bottom, and those after which it has left for good.

  `map` replaces every letter by a word. It goes through each way of putting code together,
  so two accounts of one code agree as soon as they agree on its pieces.

  A family of languages, one for each node of a graph whose edges carry words, is `Carries`d
  when no edge leads out of it: each node then has at least the words of the paths to it.

  Proved: `map_seq`, `map_choice`, `map_loop`.
-/

import Mathlib.Computability.Language
import Mathlib.Order.CompletePartialOrder

namespace OwnNet.Graph

open Computability

variable {α β : Type}

/-! ## Letters replaced by words -/

/-- Every letter of every word replaced. -/
def subst (f : α → List β) (L : Language α) : Language β := {w | ∃ u ∈ L, u.flatMap f = w}

theorem mem_subst {f : α → List β} {L : Language α} {w : List β} : w ∈ subst f L ↔ ∃ u ∈ L, u.flatMap f = w := Iff.rfl

@[simp] theorem mem_word {u w : List α} : u ∈ ({w} : Language α) ↔ u = w := Iff.rfl

@[simp] theorem subst_zero (f : α → List β) : subst f 0 = 0 := by
  ext w
  simp [mem_subst]

@[simp] theorem subst_word (f : α → List β) (w : List α) : subst f {w} = {w.flatMap f} := by
  ext u
  simp [mem_subst, eq_comm]

theorem subst_add (f : α → List β) (L M : Language α) : subst f (L + M) = subst f L + subst f M := by
  ext w
  simp only [mem_subst, Language.mem_add]
  constructor
  · rintro ⟨u, hu | hu, h⟩
    · exact Or.inl ⟨u, hu, h⟩
    · exact Or.inr ⟨u, hu, h⟩
  · rintro (⟨u, hu, h⟩ | ⟨u, hu, h⟩)
    · exact ⟨u, Or.inl hu, h⟩
    · exact ⟨u, Or.inr hu, h⟩

theorem subst_mul (f : α → List β) (L M : Language α) : subst f (L * M) = subst f L * subst f M := by
  ext w
  simp only [mem_subst, Language.mem_mul]
  constructor
  · rintro ⟨_, ⟨a, ha, b, hb, rfl⟩, h⟩
    exact ⟨_, ⟨a, ha, rfl⟩, _, ⟨b, hb, rfl⟩, by rw [← List.flatMap_append, h]⟩
  · rintro ⟨_, ⟨a, ha, rfl⟩, _, ⟨b, hb, rfl⟩, h⟩
    exact ⟨a ++ b, ⟨a, ha, b, hb, rfl⟩, by rw [List.flatMap_append, h]⟩

theorem subst_kstar (f : α → List β) (L : Language α) : subst f L∗ = (subst f L)∗ := by
  ext w
  simp only [mem_subst, Language.mem_kstar]
  constructor
  · rintro ⟨_, ⟨us, rfl, hus⟩, rfl⟩
    refine ⟨us.map fun u => u.flatMap f, ?_, ?_⟩
    · induction us with
      | nil => rfl
      | cons u us ih =>
        rw [List.flatten_cons, List.flatMap_append, List.map_cons, List.flatten_cons,
          ih fun y hy => hus y (List.mem_cons_of_mem _ hy)]
    · intro y hy
      obtain ⟨u, hu, rfl⟩ := List.mem_map.mp hy
      exact ⟨u, hus u hu, rfl⟩
  · rintro ⟨ws, rfl, hws⟩
    -- a preimage of each round, and of the rounds together
    induction ws with
    | nil => exact ⟨[], ⟨[], rfl, fun y hy => absurd hy List.not_mem_nil⟩, rfl⟩
    | cons w ws ih =>
      obtain ⟨u, hu, rfl⟩ := hws w List.mem_cons_self
      obtain ⟨_, ⟨us, rfl, hus⟩, h⟩ := ih fun y hy => hws y (List.mem_cons_of_mem _ hy)
      refine ⟨u ++ us.flatten, ⟨u :: us, rfl, fun y hy => ?_⟩, by rw [List.flatMap_append, h, List.flatten_cons]⟩
      rcases List.mem_cons.mp hy with rfl | hy
      · exact hu
      · exact hus y hy

/-! ## Ways through code -/

@[ext]
structure Ways (α : Type) where
  falls : Language α
  leaves : Language α

namespace Ways

/-- Straight code. -/
def word (w : List α) : Ways α := ⟨{w}, 0⟩

/-- Straight code that ends by leaving. -/
def leave (w : List α) : Ways α := ⟨0, {w}⟩

def seq (r s : Ways α) : Ways α := ⟨r.falls * s.falls, r.leaves + r.falls * s.leaves⟩

def choice (r s : Ways α) : Ways α := ⟨r.falls + s.falls, r.leaves + s.leaves⟩

/-- Some rounds to the bottom, and out of the loop or left in one more. -/
def loop (r : Ways α) : Ways α := ⟨r.falls∗, r.falls∗ * r.leaves⟩

/-- Every word after which the code is done. -/
def all (r : Ways α) : Language α := r.falls + r.leaves

def map (f : α → List β) (r : Ways α) : Ways β := ⟨subst f r.falls, subst f r.leaves⟩

@[simp] theorem map_word (f : α → List β) (w : List α) : (word w).map f = word (w.flatMap f) := by
  simp [map, word]

@[simp] theorem map_leave (f : α → List β) (w : List α) : (leave w).map f = leave (w.flatMap f) := by
  simp [map, leave]

theorem map_seq (f : α → List β) (r s : Ways α) : (r.seq s).map f = (r.map f).seq (s.map f) := by
  simp only [map, seq, subst_add, subst_mul]

theorem map_choice (f : α → List β) (r s : Ways α) : (r.choice s).map f = (r.map f).choice (s.map f) := by
  simp only [map, choice, subst_add]

theorem map_loop (f : α → List β) (r : Ways α) : r.loop.map f = (r.map f).loop := by
  simp only [map, loop, subst_mul, subst_kstar]

theorem all_map (f : α → List β) (r : Ways α) : (r.map f).all = subst f r.all := by
  simp only [all, map, subst_add]

/-- Straight code in two pieces. -/
theorem word_seq (u w : List α) : (word u).seq (word w) = word (u ++ w) := by
  have h : ({u} : Language α) * {w} = {u ++ w} := by
    ext v
    simp [Language.mem_mul, eq_comm]
  simp [seq, word, h]

@[simp] theorem nil_seq (r : Ways α) : (word []).seq r = r := by
  have h : ({[]} : Language α) = 1 := rfl
  simp [seq, word, h]

@[simp] theorem seq_nil (r : Ways α) : r.seq (word []) = r := by
  have h : ({[]} : Language α) = 1 := rfl
  simp [seq, word, h]

theorem seq_assoc (r s t : Ways α) : (r.seq s).seq t = r.seq (s.seq t) := by
  simp only [seq, mul_assoc, mul_add, add_assoc]

/-- Code that never falls out runs nothing after it. -/
theorem seq_of_left {r : Ways α} (h : r.falls = 0) (s : Ways α) : r.seq s = r := by
  simp [seq, h, Ways.ext_iff]

end Ways

/-! ## Families over a graph -/

variable {ι : Type}

/-- No edge leads out of the family; an edge carries a word. -/
def Carries (edge : ι → ι → List α → Prop) (F : ι → Language α) : Prop := ∀ p c w, edge p c w → F p * {w} ≤ F c

end OwnNet.Graph
