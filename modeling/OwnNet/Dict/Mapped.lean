/-
  OwnNet.Dict.Mapped — a dictionary whose values are made from another's.

  Proved: what each operation is on the dictionary it is made from (`mapValues_set`,
  `mapValues_erase`, `mapValues_merge`).
-/

import OwnNet.Dict

namespace OwnNet.Dict

variable {κ α β : Type} [LinearOrder κ] (f : κ → α → β)

def mapValues (d : Dict κ α) : Dict κ β :=
  ⟨d.entries.map fun e => (e.1, f e.1 e.2), List.pairwise_map.mpr d.sorted⟩

theorem find_map (k : κ) (l : List (κ × α)) : find k (l.map fun e => (e.1, f e.1 e.2)) = (find k l).map (f k) := by
  induction l with
  | nil => rfl
  | cons e rest ih =>
    rw [List.map_cons, find, find]
    by_cases hk : k = e.1
    · subst hk
      rw [if_pos rfl, if_pos rfl]
      rfl
    · rw [if_neg hk, if_neg hk, ih]

@[simp] theorem get?_mapValues (d : Dict κ α) (k : κ) : (d.mapValues f).get? k = (d.get? k).map (f k) := find_map f k d.entries

theorem mapValues_set (d : Dict κ α) (k : κ) (v : α) : (d.set k v).mapValues f = (d.mapValues f).set k (f k v) := by
  refine ext_get? fun j => ?_
  rw [get?_mapValues, get?_set, get?_set, get?_mapValues]
  by_cases hj : j = k
  · rw [if_pos hj, if_pos hj, hj]
    rfl
  · rw [if_neg hj, if_neg hj]

theorem mapValues_erase (d : Dict κ α) (k : κ) : (d.erase k).mapValues f = (d.mapValues f).erase k := by
  refine ext_get? fun j => ?_
  rw [get?_mapValues, get?_erase, get?_erase, get?_mapValues]
  by_cases hj : j = k
  · rw [if_pos hj, if_pos hj]
    rfl
  · rw [if_neg hj, if_neg hj]

theorem mapValues_merge {g : α → α → α} {h : β → β → β} (hgh : ∀ k v w, f k (g v w) = h (f k v) (f k w)) (a b : Dict κ α) :
    (merge g a b).mapValues f = merge h (a.mapValues f) (b.mapValues f) := by
  refine ext_get? fun j => ?_
  rw [get?_mapValues, get?_merge, get?_merge, get?_mapValues, get?_mapValues]
  cases a.get? j with
  | none => cases b.get? j <;> rfl
  | some v =>
    cases b.get? j with
    | none => rfl
    | some w => exact congrArg some (hgh j v w)

end OwnNet.Dict
