/-
  OwnNet.Json.Unique — a canonical text is read back in one way: no two strings start one text,
  and no two records of one set of keys have the same.

  Proved: `dumpStr_unique`: what a quoted string is followed by does not change where it ends;
  `dumps_flat`: records with the same keys and no members but texts, truth values and null differ
  where their texts do.
-/

import OwnNet.Json.Dumps
import Mathlib.Data.List.Infix

namespace OwnNet.Json

/-! ## Strings -/

/-- The characters that are escaped. -/
def escapes : List Nat := List.range 32 ++ [34, 92]

theorem mem_escapes {c : Char} : c.toNat ∈ escapes ↔ c.toNat < 32 ∨ c = '"' ∨ c = '\\' := by
  rw [escapes, List.mem_append, List.mem_range, List.mem_cons, List.mem_singleton, show (34 : Nat) = '"'.toNat from rfl,
    show (92 : Nat) = '\\'.toNat from rfl, Char.toNat_inj, Char.toNat_inj]

/-- None is written with the start of what another is. -/
theorem escapes_apart : ∀ m ∈ escapes, ∀ n ∈ escapes, (dumpChar (Char.ofNat m)).isPrefixOf
    (dumpChar (Char.ofNat n)) = true → m = n := by
  decide +kernel

theorem escaped_head {c : Char} (h : c.toNat ∈ escapes) : ∃ rest, dumpChar c = '\\' :: rest := by
  have hhead : ∀ n ∈ escapes, (dumpChar (Char.ofNat n)).head? = some '\\' := by decide
  have hc := hhead _ h
  rw [Char.ofNat_toNat] at hc
  exact ⟨_, (List.head?_eq_some_iff.mp hc).choose_spec⟩

/-- Any other is written as it is. -/
theorem dumpChar_plain {c : Char} (h : c.toNat ∉ escapes) : dumpChar c = [c] := by
  simp only [mem_escapes, not_or] at h
  obtain ⟨hlow, hquote, hslash⟩ := h
  have hne : ∀ d : Char, d.toNat < 32 → c ≠ d := fun d hd hcd => by subst hcd; omega
  unfold dumpChar
  rw [if_neg hquote, if_neg hslash, if_neg (hne '\n' (by decide)), if_neg (hne '\r' (by decide)), if_neg (hne '\t' (by decide)),
    if_neg (by omega), if_neg (by omega), if_neg (by omega)]

theorem prefix_of_append {a b r r' : List Char} (h : a ++ r = b ++ r') : a <+: b ∨ b <+: a := by
  rcases Nat.le_total a.length b.length with hl | hl
  · exact .inl (List.prefix_of_prefix_length_le (h ▸ List.prefix_append a r) (List.prefix_append b r') hl)
  · exact .inr (List.prefix_of_prefix_length_le (List.prefix_append b r') (h ▸ List.prefix_append a r) hl)

theorem dumpChar_unique {c c' : Char} {r r' : List Char} (h : dumpChar c ++ r = dumpChar c' ++ r') : c = c' ∧ r = r' := by
  have hsame : c = c' := by
    by_cases hc : c.toNat ∈ escapes <;> by_cases hc' : c'.toNat ∈ escapes
    · have hnat : c.toNat = c'.toNat := by
        rcases prefix_of_append h with hp | hp
        · refine escapes_apart _ hc _ hc' ?_
          rw [Char.ofNat_toNat, Char.ofNat_toNat, List.isPrefixOf_iff_prefix]
          exact hp
        · refine (escapes_apart _ hc' _ hc ?_).symm
          rw [Char.ofNat_toNat, Char.ofNat_toNat, List.isPrefixOf_iff_prefix]
          exact hp
      exact Char.toNat_inj.mp hnat
    · obtain ⟨rest, hd⟩ := escaped_head hc
      rw [hd, dumpChar_plain hc'] at h
      exact absurd (mem_escapes.mpr (.inr (.inr (List.cons.inj h).1.symm))) hc'
    · obtain ⟨rest, hd⟩ := escaped_head hc'
      rw [hd, dumpChar_plain hc] at h
      exact absurd (mem_escapes.mpr (.inr (.inr (List.cons.inj h).1))) hc
    · rw [dumpChar_plain hc, dumpChar_plain hc'] at h
      exact (List.cons.inj h).1
  subst hsame
  exact ⟨rfl, List.append_cancel_left h⟩

/-- No character is written with a quote in front. -/
theorem dumpChar_head (c : Char) : ∃ d rest, dumpChar c = d :: rest ∧ d ≠ '"' := by
  by_cases hc : c.toNat ∈ escapes
  · obtain ⟨rest, hd⟩ := escaped_head hc
    exact ⟨'\\', rest, hd, by decide⟩
  · exact ⟨c, [], dumpChar_plain hc, fun hq => hc (mem_escapes.mpr (.inr (.inl hq)))⟩

theorem dumpChars_unique {cs cs' r r' : List Char} (h : cs.flatMap dumpChar ++ '"' :: r = cs'.flatMap dumpChar ++ '"' :: r') :
    cs = cs' ∧ r = r' := by
  induction cs generalizing cs' with
  | nil =>
    cases cs' with
    | nil => exact ⟨rfl, (List.cons.inj h).2⟩
    | cons c' cs' =>
      obtain ⟨d, rest, hd, hq⟩ := dumpChar_head c'
      rw [List.flatMap_cons, hd] at h
      exact absurd (List.cons.inj h).1.symm hq
  | cons c cs ih =>
    cases cs' with
    | nil =>
      obtain ⟨d, rest, hd, hq⟩ := dumpChar_head c
      rw [List.flatMap_cons, hd] at h
      exact absurd (List.cons.inj h).1 hq
    | cons c' cs' =>
      rw [List.flatMap_cons, List.flatMap_cons, List.append_assoc, List.append_assoc] at h
      obtain ⟨rfl, hrest⟩ := dumpChar_unique h
      obtain ⟨rfl, hr⟩ := ih hrest
      exact ⟨rfl, hr⟩

theorem toList_dumpStr (s : String) : (dumpStr s).toList = '"' :: (s.toList.flatMap dumpChar ++ ['"']) := by
  unfold dumpStr
  rw [String.toList_ofList, List.cons_append]

theorem dumpStr_unique {s s' : String} {r r' : List Char}
    (h : (dumpStr s).toList ++ r = (dumpStr s').toList ++ r') : s = s' ∧ r = r' := by
  rw [toList_dumpStr, toList_dumpStr, List.cons_append, List.cons_append, List.append_assoc, List.append_assoc] at h
  obtain ⟨hs, rfl⟩ := dumpChars_unique (List.cons.inj h).2
  exact ⟨String.toList_inj.mp hs, rfl⟩

/-! ## Records of texts -/

/-- A member of a flat record. -/
def leafy : Json → Bool
  | .null => true
  | .bool _ => true
  | .str _ => true
  | _ => false

/-- The first character of a leaf, which tells its kind. -/
def leafHead : Json → Char
  | .null => 'n'
  | .bool b => if b then 't' else 'f'
  | _ => '"'

theorem dumps_head {j : Json} (hj : leafy j = true) : ∃ rest, (dumps j).toList = leafHead j :: rest := by
  cases j with
  | null => exact ⟨['u', 'l', 'l'], by rw [dumps]; decide⟩
  | bool b =>
    cases b with
    | true => exact ⟨['r', 'u', 'e'], by rw [dumps]; decide⟩
    | false => exact ⟨['a', 'l', 's', 'e'], by rw [dumps]; decide⟩
  | str s => exact ⟨s.toList.flatMap dumpChar ++ ['"'], by rw [dumps, toList_dumpStr]; rfl⟩
  | int n => cases hj
  | float text => cases hj
  | arr items => cases hj
  | obj fields => cases hj

theorem leafHead_inj {j j' : Json} (hj : leafy j = true) (hj' : leafy j' = true) (h : leafHead j = leafHead j') :
    j = j' ∨ ∃ s s', j = .str s ∧ j' = .str s' := by
  cases j <;> cases j' <;> simp_all [leafy, leafHead] <;> split at h <;> simp_all

theorem dumps_leafy {j j' : Json} (hj : leafy j = true) (hj' : leafy j' = true) {r r' : List Char}
    (h : (dumps j).toList ++ r = (dumps j').toList ++ r') : j = j' ∧ r = r' := by
  obtain ⟨rest, htext⟩ := dumps_head hj
  obtain ⟨rest', htext'⟩ := dumps_head hj'
  have hhead : leafHead j = leafHead j' := by
    rw [htext, htext', List.cons_append, List.cons_append] at h
    exact (List.cons.inj h).1
  rcases leafHead_inj hj hj' hhead with rfl | ⟨s, s', rfl, rfl⟩
  · exact ⟨rfl, List.append_cancel_left h⟩
  · rw [dumps, dumps] at h
    obtain ⟨rfl, hr⟩ := dumpStr_unique h
    exact ⟨rfl, hr⟩

theorem dumpFields_eq (fields : List (String × Json)) : dumpFields fields = fields.map fun f => (f.1, dumps f.2) := by
  induction fields with
  | nil => rw [dumpFields]; rfl
  | cons f rest ih => rw [dumpFields, ih]; rfl

def memberText (m : String × Json) : List Char := (dumpStr m.1 ++ ":" ++ dumps m.2).toList

def membersText (ms : List (String × Json)) : List Char :=
  (",".intercalate (ms.map fun m => dumpStr m.1 ++ ":" ++ dumps m.2)).toList

theorem membersText_one (m : String × Json) : membersText [m] = memberText m := by
  unfold membersText memberText
  rw [List.map_cons, List.map_nil, String.intercalate_singleton]

theorem membersText_cons (m n : String × Json) (ms : List (String × Json)) :
    membersText (m :: n :: ms) = memberText m ++ ',' :: membersText (n :: ms) := by
  unfold membersText memberText
  simp only [List.map_cons, String.intercalate_cons_cons, String.toList_append]
  simp

theorem memberText_unique {m m' : String × Json} {r r' : List Char} (hm : leafy m.2 = true) (hm' : leafy m'.2 = true)
    (h : memberText m ++ r = memberText m' ++ r') : m = m' ∧ r = r' := by
  simp only [memberText, String.toList_append, List.append_assoc] at h
  obtain ⟨hkey, hrest⟩ := dumpStr_unique h
  obtain ⟨hval, hr⟩ := dumps_leafy hm hm' (List.append_cancel_left hrest)
  exact ⟨Prod.ext hkey hval, hr⟩

/-- Members of leaves, whatever closes them. -/
theorem membersText_unique {ms ms' : List (String × Json)} (hm : ∀ m ∈ ms, leafy m.2 = true) (hm' : ∀ m ∈ ms', leafy m.2 = true)
    (hl : ms.length = ms'.length) {r r' : List Char} (h : membersText ms ++ r = membersText ms' ++ r') : ms = ms' := by
  induction ms generalizing ms' with
  | nil => exact (List.length_eq_zero_iff.mp hl.symm).symm
  | cons m ms ih =>
    cases ms' with
    | nil => cases hl
    | cons m' ms' =>
      have hleaf := hm m List.mem_cons_self
      have hleaf' := hm' m' List.mem_cons_self
      have hrest := ih (fun m hn => hm m (List.mem_cons_of_mem _ hn))
        (fun m hn => hm' m (List.mem_cons_of_mem _ hn)) (Nat.succ.inj hl)
      cases ms with
      | nil =>
        have hnil : ms' = [] := List.length_eq_zero_iff.mp (Nat.succ.inj hl).symm
        subst hnil
        rw [membersText_one, membersText_one] at h
        rw [(memberText_unique hleaf hleaf' h).1]
      | cons n ms =>
        cases ms' with
        | nil => cases hl
        | cons n' ms' =>
          rw [membersText_cons, membersText_cons, List.append_assoc, List.append_assoc] at h
          obtain ⟨hfirst, h⟩ := memberText_unique hleaf hleaf' h
          rw [hfirst, hrest (List.cons.inj h).2]

/-- The members of a record in the order they are written in. -/
def inKeyOrder (fields : List (String × Json)) : List (String × Json) := fields.insertionSort fun a b => a.1 ≤ b.1

theorem dumps_obj (fields : List (String × Json)) :
    (dumps (.obj fields)).toList = '\x7b' :: (membersText (inKeyOrder fields) ++ ['\x7d']) := by
  have hsort : (inKeyOrder fields).map (fun f => (f.1, dumps f.2)) = (dumpFields fields).insertionSort fun a b => a.1 ≤ b.1 := by
    rw [dumpFields_eq]
    exact List.map_insertionSort _ _ (fun f : String × Json => (f.1, dumps f.2)) fields fun _ _ _ _ => Iff.rfl
  rw [dumps, ← hsort, List.map_map]
  simp only [String.toList_append]
  rfl

/-- Records of leaves under one list of keys have one text only where they are one. -/
theorem dumps_flat {fields fields' : List (String × Json)} (hkeys : fields.map Prod.fst = fields'.map Prod.fst)
    (hn : (fields.map Prod.fst).Nodup) (hf : ∀ f ∈ fields, leafy f.2 = true) (hf' : ∀ f ∈ fields', leafy f.2 = true)
    (h : dumps (.obj fields) = dumps (.obj fields')) : fields = fields' := by
  have hlen : fields.length = fields'.length := by simpa using congrArg List.length hkeys
  have hsorted : inKeyOrder fields = inKeyOrder fields' := by
    have htext := congrArg String.toList h
    rw [dumps_obj, dumps_obj] at htext
    refine membersText_unique (fun m hm => hf m ((List.mem_insertionSort _).mp hm))
      (fun m hm => hf' m ((List.mem_insertionSort _).mp hm))
      ?_ (List.cons.inj htext).2
    rw [inKeyOrder, inKeyOrder, List.length_insertionSort, List.length_insertionSort, hlen]
  have hperm : fields.Perm fields' := (List.perm_insertionSort _ fields).symm.trans
    ((hsorted ▸ List.Perm.refl _ : (inKeyOrder fields).Perm (inKeyOrder fields')).trans (List.perm_insertionSort _ fields'))
  refine List.ext_getElem hlen fun i hi hi' => ?_
  have hmem : fields[i] ∈ fields' := hperm.mem_iff.mp (List.getElem_mem hi)
  have hkey : (fields[i]).1 = (fields'[i]).1 := by
    have := List.getElem_of_eq hkeys (i := i) (by simpa using hi)
    simpa using this
  exact List.inj_on_of_nodup_map (hkeys ▸ hn) hmem (List.getElem_mem hi') hkey

end OwnNet.Json
