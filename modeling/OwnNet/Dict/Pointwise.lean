/-
  OwnNet.Dict.Pointwise — dictionaries compared key by key: what is bound in the smaller is
  bound in the larger, to something above it.

  Proved: merging by a least upper bound of values is one of dictionaries (`le_merge_left`,
  `le_merge_right`, `merge_le`); over finitely many keys and values there are finitely many
  dictionaries (`finite_dicts`).
-/

import OwnNet.Dict
import Mathlib.Data.Finite.Prod
import Mathlib.Data.Set.Finite.Powerset

namespace OwnNet

namespace Dict

variable {κ α : Type} [LinearOrder κ]

def Le (r : α → α → Prop) (a b : Dict κ α) : Prop := ∀ k v, a.get? k = some v → ∃ w, b.get? k = some w ∧ r v w

variable {r : α → α → Prop} {f : α → α → α} {a b c : Dict κ α}

theorem Le.refl (hr : ∀ v, r v v) (a : Dict κ α) : Le r a a := fun _ v hv => ⟨v, hv, hr v⟩

theorem Le.trans (hr : ∀ u v w, r u v → r v w → r u w) (hab : Le r a b) (hbc : Le r b c) : Le r a c := by
  intro k u hu
  obtain ⟨v, hv, huv⟩ := hab k u hu
  obtain ⟨w, hw, hvw⟩ := hbc k v hv
  exact ⟨w, hw, hr u v w huv hvw⟩

theorem Le.antisymm (hr : ∀ v w, r v w → r w v → v = w) (hab : Le r a b) (hba : Le r b a) : a = b := by
  apply ext_get?
  intro k
  cases ha : a.get? k with
  | none =>
    cases hb : b.get? k with
    | none => rfl
    | some w =>
      obtain ⟨v, hv, -⟩ := hba k w hb
      rw [ha] at hv
      cases hv
  | some v =>
    obtain ⟨w, hw, hvw⟩ := hab k v ha
    obtain ⟨v', hv', hwv⟩ := hba k w hw
    rw [ha] at hv'
    cases hv'
    rw [hw, hr v w hvw hwv]

theorem Le.set (h : Le r a b) (k : κ) {v w : α} (hvw : r v w) : Le r (a.set k v) (b.set k w) := by
  intro j u hu
  rw [get?_set] at hu ⊢
  split at hu
  next hj =>
    rw [if_pos hj]
    cases hu
    exact ⟨w, rfl, hvw⟩
  next hj =>
    rw [if_neg hj]
    exact h j u hu

theorem le_merge_left (hr : ∀ v, r v v) (hleft : ∀ k v w, a.get? k = some v → b.get? k = some w → r v (f v w)) :
    Le r a (merge f a b) := by
  intro k v hv
  rw [get?_merge, hv]
  cases hb : b.get? k with
  | none => exact ⟨v, rfl, hr v⟩
  | some w => exact ⟨f v w, rfl, hleft k v w hv hb⟩

theorem le_merge_right (hr : ∀ v, r v v) (hright : ∀ k v w, a.get? k = some v → b.get? k = some w → r w (f v w)) :
    Le r b (merge f a b) := by
  intro k w hw
  rw [get?_merge, hw]
  cases ha : a.get? k with
  | none => exact ⟨w, rfl, hr w⟩
  | some v => exact ⟨f v w, rfl, hright k v w ha hw⟩

theorem merge_le (hleast : ∀ v w x, r v x → r w x → r (f v w) x) (ha : Le r a c) (hb : Le r b c) : Le r (merge f a b) c := by
  intro k u hu
  rw [get?_merge] at hu
  cases hav : a.get? k with
  | none =>
    cases hbw : b.get? k with
    | none =>
      rw [hav, hbw] at hu
      cases hu
    | some w =>
      rw [hav, hbw] at hu
      cases hu
      exact hb k _ hbw
  | some v =>
    obtain ⟨x, hx, hvx⟩ := ha k v hav
    cases hbw : b.get? k with
    | none =>
      rw [hav, hbw] at hu
      cases hu
      exact ⟨x, hx, hvx⟩
    | some w =>
      obtain ⟨y, hy, hwy⟩ := hb k w hbw
      rw [hx] at hy
      cases hy
      rw [hav, hbw] at hu
      cases hu
      exact ⟨x, hx, hleast v w x hvx hwy⟩

theorem merge_set (f : α → α → α) (a b : Dict κ α) (k : κ) (v w : α) :
    merge f (a.set k v) (b.set k w) = (merge f a b).set k (f v w) := by
  apply ext_get?
  intro j
  rw [get?_merge, get?_set, get?_set, get?_set, get?_merge]
  by_cases hj : j = k
  · rw [if_pos hj, if_pos hj, if_pos hj]
    rfl
  · rw [if_neg hj, if_neg hj, if_neg hj]

/-- Every binding has its key in `I` and its value in `V`. -/
def Into (I : Set κ) (V : Set α) (d : Dict κ α) : Prop := ∀ k v, d.get? k = some v → k ∈ I ∧ v ∈ V

theorem Into.set {I : Set κ} {V : Set α} {d : Dict κ α} (h : d.Into I V) {k : κ} {v : α} (hk : k ∈ I) (hv : v ∈ V) :
    (d.set k v).Into I V := by
  intro j w hw
  rw [get?_set] at hw
  split at hw
  next hj =>
    cases hw
    exact ⟨hj ▸ hk, hv⟩
  next => exact h j w hw

theorem Into.merge {I : Set κ} {V : Set α} (ha : a.Into I V) (hb : b.Into I V) (hf : ∀ v ∈ V, ∀ w ∈ V, f v w ∈ V) :
    (merge f a b).Into I V := by
  intro k u hu
  rw [get?_merge] at hu
  cases hav : a.get? k with
  | none =>
    cases hbw : b.get? k with
    | none =>
      rw [hav, hbw] at hu
      cases hu
    | some w =>
      rw [hav, hbw] at hu
      cases hu
      exact hb k _ hbw
  | some v =>
    cases hbw : b.get? k with
    | none =>
      rw [hav, hbw] at hu
      cases hu
      exact ha k _ hav
    | some w =>
      rw [hav, hbw] at hu
      cases hu
      exact ⟨(ha k v hav).1, hf v (ha k v hav).2 w (hb k w hbw).2⟩

theorem finite_dicts {I : Set κ} {V : Set α} (hI : I.Finite) (hV : V.Finite) : {d : Dict κ α | d.Into I V}.Finite := by
  refine Set.Finite.of_injOn (f := fun d : Dict κ α => {e : κ × α | e ∈ d.entries}) (t := {T | T ⊆ I ×ˢ V}) ?_ ?_
    (hI.prod hV).finite_subsets
  · intro d hd e he
    exact hd e.1 e.2 (mem_entries.mp he)
  · intro d _ d' _ heq
    apply ext_get?
    intro k
    apply Option.ext
    intro v
    rw [← mem_entries, ← mem_entries]
    exact Set.ext_iff.mp heq (k, v)

end Dict

end OwnNet
