/-
  OwnNet.Dict.Index — the dictionary a list of entries writes, in its order: of two entries
  under one key the later stays.

  Proved: what is looked up was written (`index_mem`); where no key repeats everything
  written is looked up (`index_some`).
-/

import Mathlib.Data.List.Induction
import Mathlib.Data.List.Nodup
import OwnNet.Dict

namespace OwnNet

namespace Dict

variable {κ β γ : Type} [LinearOrder κ]

def index (key : β → κ) (val : β → γ) (l : List β) : Dict κ γ := l.foldl (fun d b => d.set (key b) (val b)) empty

variable {key : β → κ} {val : β → γ} {l : List β}

@[simp] theorem index_nil : index key val [] = empty := rfl

theorem index_append (b : β) : index key val (l ++ [b]) = (index key val l).set (key b) (val b) := by
  simp [index]

theorem index_mem {k : κ} {v : γ} (h : (index key val l).get? k = some v) : ∃ b ∈ l, key b = k ∧ val b = v := by
  induction l using List.reverseRecOn with
  | nil => cases h
  | append_singleton l b ih =>
    rw [index_append, get?_set] at h
    by_cases e : k = key b
    · rw [if_pos e] at h
      exact ⟨b, by simp, e.symm, Option.some.inj h⟩
    · rw [if_neg e] at h
      obtain ⟨c, hc, hk⟩ := ih h
      exact ⟨c, List.mem_append_left _ hc, hk⟩

theorem index_isSome {b : β} (hb : b ∈ l) : ((index key val l).get? (key b)).isSome := by
  induction l using List.reverseRecOn with
  | nil => cases hb
  | append_singleton l c ih =>
    rw [index_append, get?_set]
    by_cases e : key b = key c
    · rw [if_pos e]
      rfl
    · rw [if_neg e]
      rcases List.mem_append.mp hb with hb | hb
      · exact ih hb
      · exact absurd (by rw [List.mem_singleton.mp hb]) e

theorem index_some (hn : (l.map key).Nodup) {b : β} (hb : b ∈ l) : (index key val l).get? (key b) = some (val b) := by
  obtain ⟨v, hv⟩ := Option.isSome_iff_exists.mp (@index_isSome _ _ _ _ key val _ _ hb)
  obtain ⟨c, hc, hk, rfl⟩ := index_mem hv
  rw [hv, List.inj_on_of_nodup_map hn hc hb hk]

end Dict

end OwnNet
