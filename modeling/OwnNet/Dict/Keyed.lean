/-
  OwnNet.Dict.Keyed — lists of records read by a key: what answers is the first under it.

  Proved: the answer has the key (`of_find_key`), and there is one where something has
  (`find_key_none`); where the key tells the records apart every one answers to its own
  (`find_key_eq`, `find_key_of_mem`), so that their order does not matter (`find_key_perm`);
  and so for keys with their values (`of_find_fst`, `find_fst_none`, `find_fst_of_mem`).
-/

import Mathlib.Data.List.Nodup

namespace OwnNet.Dict

section Records

variable {α κ : Type} [DecidableEq κ] {key : α → κ} {l l' : List α} {k : κ} {a : α}

theorem of_find_key (h : l.find? (fun b => key b = k) = some a) : a ∈ l ∧ key a = k :=
  ⟨List.mem_of_find?_eq_some h, by simpa using List.find?_some h⟩

theorem find_key_none : l.find? (fun b => key b = k) = none ↔ k ∉ l.map key := by
  rw [List.find?_eq_none]
  simp only [decide_eq_true_eq, List.mem_map, not_exists, not_and]

theorem find_key_eq (hkey : ∀ a ∈ l, ∀ b ∈ l, key a = key b → a = b) (h : a ∈ l) : l.find? (fun b => key b = key a) = some a := by
  cases hf : l.find? fun b => key b = key a with
  | none => exact absurd (List.mem_map_of_mem h) (find_key_none.mp hf)
  | some b =>
    obtain ⟨hb, hk⟩ := of_find_key hf
    rw [hkey b hb a h hk]

theorem find_key_of_mem (hn : (l.map key).Nodup) (h : a ∈ l) : l.find? (fun b => key b = key a) = some a :=
  find_key_eq (fun _ hb _ hc => List.inj_on_of_nodup_map hn hb hc) h

theorem exists_find_key (h : k ∈ l.map key) : ∃ a, l.find? (fun b => key b = k) = some a :=
  Option.ne_none_iff_exists'.mp fun hnone => find_key_none.mp hnone h

/-- Where the key tells the records apart the order does not matter to a lookup. -/
theorem find_key_perm (hkey : ∀ a ∈ l, ∀ b ∈ l, key a = key b → a = b) (hp : l.Perm l') (k : κ) :
    l'.find? (fun b => key b = k) = l.find? fun b => key b = k := by
  cases h : l.find? fun b => key b = k with
  | some a =>
    obtain ⟨ha, rfl⟩ := of_find_key h
    exact find_key_eq (fun b hb c hc => hkey b (hp.mem_iff.mpr hb) c (hp.mem_iff.mpr hc)) (hp.mem_iff.mp ha)
  | none =>
    rw [find_key_none] at h ⊢
    exact fun hk => h ((hp.map key).mem_iff.mpr hk)

end Records

section Pairs

variable {κ β : Type} [DecidableEq κ] {d : List (κ × β)} {k : κ} {v : β}

theorem of_find_fst (h : (d.find? fun e => e.1 = k).map Prod.snd = some v) : (k, v) ∈ d := by
  obtain ⟨e, he, rfl⟩ := Option.map_eq_some_iff.mp h
  obtain ⟨hmem, rfl⟩ := of_find_key he
  exact hmem

theorem find_fst_none : (d.find? fun e => e.1 = k).map Prod.snd = none ↔ k ∉ d.map Prod.fst := by
  rw [Option.map_eq_none_iff, find_key_none]

theorem find_fst_of_mem (hn : (d.map Prod.fst).Nodup) (h : (k, v) ∈ d) : (d.find? fun e => e.1 = k).map Prod.snd = some v := by
  rw [find_key_of_mem hn h]
  rfl

end Pairs

end OwnNet.Dict
