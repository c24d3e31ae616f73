/-
  OwnNet.Repro.Minimal — what `_minimal_difference` names: a place both values reach through
  containers of one type, and what they hold there.

  A key that only one side has is read from the other side as null, so where it holds null itself
  the two values named are the same.

  Proved: `minimal_difference_iff`: the values named differ exactly where the first difference is
  no such key.
-/

import OwnNet.Dict.Keyed
import OwnNet.Repro.Reduce

namespace OwnNet.Repro

/-! ## Places -/

inductive Part where
  | key (k : String)
  | item (i : Nat)
  | keys
  | length

def Part.text : Part → String
  | .key k => "." ++ k
  | .item i => "[" ++ toString i ++ "]"
  | .keys => "[keys]"
  | .length => "[len]"

def pathText : List Part → String
  | [] => ""
  | p :: rest => p.text ++ pathText rest

/-- What a value holds at a place: an absent key reads as null, and the keys of an object and the
    length of a list have places of their own. -/
inductive Holds : Json → List Part → Json → Prop
  | here (j : Json) : Holds j [] j
  | key {fields : List (String × Json)} {k : String} {v w : Json} {rest : List Part} :
    (k, v) ∈ fields → Holds v rest w → Holds (.obj fields) (.key k :: rest) w
  | absent {fields : List (String × Json)} {k : String} : k ∉ fields.map Prod.fst → Holds (.obj fields) [.key k] .null
  | item {items : List Json} {i : Nat} {v w : Json} {rest : List Part} :
    items[i]? = some v → Holds v rest w → Holds (.arr items) (.item i :: rest) w
  | keys (fields : List (String × Json)) : Holds (.obj fields) [.keys] (keyTexts fields)
  | length (items : List Json) : Holds (.arr items) [.length] (.int items.length)

/-- Containers of one type. -/
inductive Containers : Json → Json → Prop
  | obj (a b : List (String × Json)) : Containers (.obj a) (.obj b)
  | arr (a b : List Json) : Containers (.arr a) (.arr b)

/-- Both sides go through containers of one type all the way to the place. -/
def Alongside (l r : Json) (place : List Part) : Prop :=
  ∀ before after, place = before ++ after → after ≠ [] → ∃ u w, Holds l before u ∧ Holds r before w ∧ Containers u w

/-- Every field here is there, and the same. -/
def FieldsAgree (fields there : List (String × Json)) : Prop := ∀ f ∈ fields, ∃ w, member there f.1 = some w ∧ same f.2 w = true

/-- The items before a position are the same. -/
def ItemsAgree (as bs : List Json) (i : Nat) : Prop := ∀ j < i, ∃ u x, as[j]? = some u ∧ bs[j]? = some x ∧ same u x = true

/-- The walk comes to a key that one side has not got and the other has as null. -/
inductive NullAgainstAbsent : Json → Json → Prop
  | left {a b before after : List (String × Json)} {k : String} :
    a = before ++ (k, .null) :: after → FieldsAgree before b → member b k = none → NullAgainstAbsent (.obj a) (.obj b)
  | right {a b before after : List (String × Json)} {k : String} :
    b = before ++ (k, .null) :: after → FieldsAgree a b → (∀ f ∈ before, (member a f.1).isSome) → member a k = none →
      NullAgainstAbsent (.obj a) (.obj b)
  | key {a b before after : List (String × Json)} {k : String} {v w : Json} :
    a = before ++ (k, v) :: after → FieldsAgree before b → member b k = some w → same v w = false → NullAgainstAbsent v w →
      NullAgainstAbsent (.obj a) (.obj b)
  | item {as bs : List Json} {i : Nat} {v w : Json} :
    ItemsAgree as bs i → as[i]? = some v → bs[i]? = some w → same v w = false → NullAgainstAbsent v w →
      NullAgainstAbsent (.arr as) (.arr bs)

/-! ## Walking two values at once -/

/-- The place the search ends at, and the values it ends with. -/
inductive Reached : Json → Json → List Part → Json → Json → Prop
  | here (l r : Json) : Reached l r [] l r
  | key {f g : List (String × Json)} {k : String} {v w a b : Json} {rest : List Part} :
    (k, v) ∈ f → (k, w) ∈ g → Reached v w rest a b → Reached (.obj f) (.obj g) (.key k :: rest) a b
  | leftKey {f g : List (String × Json)} {k : String} {v : Json} :
    (k, v) ∈ f → k ∉ g.map Prod.fst → Reached (.obj f) (.obj g) [.key k] v .null
  | rightKey {f g : List (String × Json)} {k : String} {w : Json} :
    k ∉ f.map Prod.fst → (k, w) ∈ g → Reached (.obj f) (.obj g) [.key k] .null w
  | item {as bs : List Json} {i : Nat} {v w a b : Json} {rest : List Part} :
    as[i]? = some v → bs[i]? = some w → Reached v w rest a b → Reached (.arr as) (.arr bs) (.item i :: rest) a b
  | keys (f g : List (String × Json)) : Reached (.obj f) (.obj g) [.keys] (keyTexts f) (keyTexts g)
  | length (as bs : List Json) : Reached (.arr as) (.arr bs) [.length] (.int as.length) (.int bs.length)

namespace Reached

variable {l r a b : Json} {place : List Part}

theorem holds (h : Reached l r place a b) : Holds l place a ∧ Holds r place b := by
  induction h with
  | here l r => exact ⟨.here l, .here r⟩
  | key hv hw _ ih => exact ⟨.key hv ih.1, .key hw ih.2⟩
  | leftKey hv hw => exact ⟨.key hv (.here _), .absent hw⟩
  | rightKey hv hw => exact ⟨.absent hv, .key hw (.here _)⟩
  | item hv hw _ ih => exact ⟨.item hv ih.1, .item hw ih.2⟩
  | keys f g => exact ⟨.keys f, .keys g⟩
  | length as bs => exact ⟨.length as, .length bs⟩

/-- A place one step down has only its parent above it. -/
theorem alongside_one (hc : Containers l r) (p : Part) : Alongside l r [p] := by
  intro before after hplace hne
  cases before with
  | nil => exact ⟨l, r, .here l, .here r, hc⟩
  | cons q before =>
    obtain ⟨-, hnil⟩ := List.cons.inj hplace
    exact absurd (List.append_eq_nil_iff.mp hnil.symm).2 hne

theorem alongside (h : Reached l r place a b) : Alongside l r place := by
  induction h with
  | here l r =>
    intro before after hplace hne
    exact absurd (List.append_eq_nil_iff.mp hplace.symm).2 hne
  | @key f g k v w a b rest hv hw _ ih =>
    intro before after hplace hne
    cases before with
    | nil => exact ⟨_, _, .here _, .here _, .obj f g⟩
    | cons p before =>
      obtain ⟨rfl, hrest⟩ := List.cons.inj hplace
      obtain ⟨u, x, hu, hx, hc⟩ := ih before after hrest hne
      exact ⟨u, x, .key hv hu, .key hw hx, hc⟩
  | leftKey hv hw => exact alongside_one (.obj _ _) _
  | rightKey hv hw => exact alongside_one (.obj _ _) _
  | @item as bs i v w a b rest hv hw _ ih =>
    intro before after hplace hne
    cases before with
    | nil => exact ⟨_, _, .here _, .here _, .arr as bs⟩
    | cons p before =>
      obtain ⟨rfl, hrest⟩ := List.cons.inj hplace
      obtain ⟨u, x, hu, hx, hc⟩ := ih before after hrest hne
      exact ⟨u, x, .item hv hu, .item hw hx, hc⟩
  | keys f g => exact alongside_one (.obj f g) _
  | length as bs => exact alongside_one (.arr as bs) _

end Reached

/-! ## The walk over fields and items -/

theorem member_mem {fields : List (String × Json)} {k : String} {v : Json} (h : member fields k = some v) : (k, v) ∈ fields :=
  Dict.of_find_fst h

theorem member_none {fields : List (String × Json)} {k : String} : member fields k = none ↔ k ∉ fields.map Prod.fst :=
  Dict.find_fst_none

theorem fieldDifference_none {as b : List (String × Json)} {path : String} (h : fieldDifference as b path = none) :
    FieldsAgree as b := by
  induction as with
  | nil => exact fun f hf => absurd hf List.not_mem_nil
  | cons f rest ih =>
    obtain ⟨k, v⟩ := f
    rw [fieldDifference] at h
    cases hm : member b k with
    | none => rw [hm] at h; cases h
    | some w =>
      simp only [hm] at h
      by_cases hs : same v w = true
      · rw [if_pos hs] at h
        exact List.forall_mem_cons.mpr ⟨⟨w, hm, hs⟩, ih h⟩
      · rw [if_neg hs] at h
        cases h

theorem fieldDifference_some {as b : List (String × Json)} {path : String} {d : String × Json × Json}
    (h : fieldDifference as b path = some d) : ∃ before k v after, as = before ++ (k, v) :: after ∧ FieldsAgree before b ∧
      ((member b k = none ∧ d = (path ++ "." ++ k, v, .null)) ∨
        ∃ w, member b k = some w ∧ same v w = false ∧ d = minimalDifference v w (path ++ "." ++ k)) := by
  induction as with
  | nil => cases h
  | cons f rest ih =>
    obtain ⟨k, v⟩ := f
    have hnil : FieldsAgree [] b := fun f hf => absurd hf List.not_mem_nil
    rw [fieldDifference] at h
    cases hm : member b k with
    | none =>
      simp only [hm, Option.some.injEq] at h
      exact ⟨[], k, v, rest, rfl, hnil, .inl ⟨hm, h.symm⟩⟩
    | some w =>
      simp only [hm] at h
      by_cases hs : same v w = true
      · rw [if_pos hs] at h
        obtain ⟨before, k', v', after, rfl, hagree, hd⟩ := ih h
        exact ⟨(k, v) :: before, k', v', after, rfl, List.forall_mem_cons.mpr ⟨⟨w, hm, hs⟩, hagree⟩, hd⟩
      · rw [if_neg hs, Option.some.injEq] at h
        exact ⟨[], k, v, rest, rfl, hnil, .inr ⟨w, hm, by simpa using hs, h.symm⟩⟩

theorem itemDifference_none {as bs : List Json} {i : Nat} {path : String} (h : itemDifference as bs i path = none) :
    ∀ (n : Nat) (v w : Json), as[n]? = some v → bs[n]? = some w → same v w = true := by
  induction as generalizing bs i with
  | nil => exact fun n v w hv => by simp at hv
  | cons a as ih =>
    cases bs with
    | nil => exact fun n v w _ hw => by simp at hw
    | cons b bs =>
      rw [itemDifference] at h
      by_cases hs : same a b = true
      · rw [if_pos hs] at h
        intro n v w hv hw
        cases n with
        | zero =>
          cases hv
          cases hw
          exact hs
        | succ n => exact ih h n v w hv hw
      · rw [if_neg hs] at h
        cases h

theorem itemDifference_some {as bs : List Json} {i : Nat} {path : String} {d : String × Json × Json}
    (h : itemDifference as bs i path = some d) :
    ∃ n v w, ItemsAgree as bs n ∧ as[n]? = some v ∧ bs[n]? = some w ∧ same v w = false ∧
      d = minimalDifference v w (path ++ "[" ++ toString (i + n) ++ "]") := by
  induction as generalizing bs i with
  | nil => cases h
  | cons a as ih =>
    cases bs with
    | nil => cases h
    | cons b bs =>
      rw [itemDifference] at h
      by_cases hs : same a b = true
      · rw [if_pos hs] at h
        obtain ⟨n, v, w, hagree, hv, hw, hvw, hd⟩ := ih h
        refine ⟨n + 1, v, w, fun j hj => ?_, hv, hw, hvw, ?_⟩
        · cases j with
          | zero => exact ⟨a, b, rfl, rfl, hs⟩
          | succ j => exact hagree j (by omega)
        · rw [hd, Nat.add_assoc, Nat.add_comm 1 n]
      · rw [if_neg hs, Option.some.injEq] at h
        exact ⟨0, a, b, fun j hj => by omega, rfl, rfl, by simpa using hs, h.symm⟩

/-! ## The first difference -/

/-- The first element without a property is where it is. -/
theorem first_unique {α : Type} {p : α → Prop} {a a' c c' : List α} {x x' : α} (h : a ++ x :: c = a' ++ x' :: c')
    (ha : ∀ y ∈ a, p y)
    (ha' : ∀ y ∈ a', p y) (hx : ¬ p x) (hx' : ¬ p x') : a = a' ∧ x = x' := by
  induction a generalizing a' with
  | nil =>
    cases a' with
    | nil => exact ⟨rfl, (List.cons.inj h).1⟩
    | cons y' a' => exact absurd ((List.cons.inj h).1 ▸ ha' y' List.mem_cons_self) hx
  | cons y a ih =>
    cases a' with
    | nil => exact absurd ((List.cons.inj h).1 ▸ ha y List.mem_cons_self) hx'
    | cons y' a' =>
      obtain ⟨rfl, hrest⟩ := List.cons.inj h
      obtain ⟨rfl, hxx⟩ := ih hrest (fun z hz => ha z (List.mem_cons_of_mem _ hz)) fun z hz => ha' z (List.mem_cons_of_mem _ hz)
      exact ⟨rfl, hxx⟩

section Fields

variable {a b before after : List (String × Json)} {k : String} {v w : Json}

theorem not_agree_none (h : member b k = none) : ¬ ∃ w, member b k = some w ∧ same v w = true := fun ⟨w, hw, _⟩ => by
  rw [h] at hw
  cases hw

theorem not_agree_some (h : member b k = some w) (hs : same v w = false) :
    ¬ ∃ w, member b k = some w ∧ same v w = true := fun ⟨w', hw, hs'⟩ => by
  rw [h] at hw
  cases hw
  rw [hs] at hs'
  cases hs'

/-- The first field that differs is not there. -/
theorem null_left (ha : a = before ++ (k, v) :: after) (hb : FieldsAgree before b) (hk : member b k = none) :
    NullAgainstAbsent (.obj a) (.obj b) ↔ same v .null = true := by
  have hnull : same v .null = true ↔ v = .null := by cases v <;> simp [same]
  rw [hnull]
  refine ⟨fun h => ?_, fun h => .left (h ▸ ha) hb hk⟩
  cases h with
  | left ha' hb' hk' =>
    obtain ⟨-, hx⟩ := first_unique (ha.symm.trans ha') hb hb' (not_agree_none hk) (not_agree_none hk')
    exact (Prod.mk.inj hx).2
  | right _ hall _ _ =>
    exact absurd (hall (k, v) (ha ▸ by simp)) (not_agree_none hk)
  | key ha' hb' hw hs _ =>
    obtain ⟨-, hx⟩ := first_unique (ha.symm.trans ha') hb hb' (not_agree_none hk) (not_agree_some hw hs)
    rw [← (Prod.mk.inj hx).1, hk] at hw
    cases hw

/-- The first field that differs has another value. -/
theorem null_key (ha : a = before ++ (k, v) :: after) (hb : FieldsAgree before b) (hk : member b k = some w)
    (hs : same v w = false) :
    NullAgainstAbsent (.obj a) (.obj b) ↔ NullAgainstAbsent v w := by
  refine ⟨fun h => ?_, fun h => .key ha hb hk hs h⟩
  cases h with
  | left ha' hb' hk' =>
    obtain ⟨-, hx⟩ := first_unique (ha.symm.trans ha') hb hb' (not_agree_some hk hs) (not_agree_none hk')
    rw [← (Prod.mk.inj hx).1, hk] at hk'
    cases hk'
  | right _ hall _ _ =>
    exact absurd (hall (k, v) (ha ▸ by simp)) (not_agree_some hk hs)
  | key ha' hb' hw hs' hnull =>
    obtain ⟨-, hx⟩ := first_unique (ha.symm.trans ha') hb hb' (not_agree_some hk hs) (not_agree_some hw hs')
    obtain ⟨rfl, rfl⟩ := Prod.mk.inj hx
    rw [hk] at hw
    cases hw
    exact hnull

/-- All the fields are there and the same; the first one that is the other side's only. -/
theorem null_right (hall : FieldsAgree a b) (hb : b = before ++ (k, w) :: after) (hbefore : ∀ f ∈ before, (member a f.1).isSome)
    (hk : member a k = none) : NullAgainstAbsent (.obj a) (.obj b) ↔ same .null w = true := by
  have hnull : same .null w = true ↔ w = .null := by cases w <;> simp [same]
  rw [hnull]
  refine ⟨fun h => ?_, fun h => .right (h ▸ hb) hall hbefore hk⟩
  cases h with
  | left ha' _ hk' => exact absurd (hall _ (ha' ▸ List.mem_append_right _ List.mem_cons_self)) (not_agree_none hk')
  | right hb' _ hbefore' hk' =>
    have hx := first_unique (p := fun f => (member a f.1).isSome) (hb.symm.trans hb') hbefore hbefore'
      (by simp [hk]) (by simp [hk'])
    exact (Prod.mk.inj hx.2).2
  | key ha' _ hw hs _ => exact absurd (hall _ (ha' ▸ List.mem_append_right _ List.mem_cons_self)) (not_agree_some hw hs)

/-- No field differs and none is the other side's only. -/
theorem not_null (hall : FieldsAgree a b) (hb : ∀ f ∈ b, (member a f.1).isSome) : ¬ NullAgainstAbsent (.obj a) (.obj b) := by
  intro h
  cases h with
  | left ha' _ hk' => exact absurd (hall _ (ha' ▸ List.mem_append_right _ List.mem_cons_self)) (not_agree_none hk')
  | right hb' _ _ hk' =>
    have := hb _ (hb' ▸ List.mem_append_right _ List.mem_cons_self)
    rw [hk'] at this
    cases this
  | key ha' _ hw hs _ => exact absurd (hall _ (ha' ▸ List.mem_append_right _ List.mem_cons_self)) (not_agree_some hw hs)

end Fields

section Items

variable {as bs : List Json} {i : Nat} {v w : Json}

theorem null_item (hb : ItemsAgree as bs i) (hv : as[i]? = some v) (hw : bs[i]? = some w) (hs : same v w = false) :
    NullAgainstAbsent (.arr as) (.arr bs) ↔ NullAgainstAbsent v w := by
  refine ⟨fun h => ?_, fun h => .item hb hv hw hs h⟩
  have hno : ∀ {i j : Nat} {v w : Json}, ItemsAgree as bs i → as[j]? = some v → bs[j]? = some w → same v w = false → ¬ j < i := by
    intro i j v w hagree hv hw hs hj
    obtain ⟨u, x, hu, hx, hux⟩ := hagree j hj
    rw [hv] at hu
    rw [hw] at hx
    cases hu
    cases hx
    rw [hs] at hux
    cases hux
  cases h with
  | @item _ _ j v' w' hb' hv' hw' hs' hnull =>
    have hij : i = j := by
      have := hno hb hv' hw' hs'
      have := hno hb' hv hw hs
      omega
    subst hij
    rw [hv] at hv'
    rw [hw] at hw'
    cases hv'
    cases hw'
    exact hnull

theorem not_null_items (h : ∀ (i : Nat) (v w : Json), as[i]? = some v → bs[i]? = some w → same v w = true) :
    ¬ NullAgainstAbsent (.arr as) (.arr bs) := by
  intro hnull
  cases hnull with
  | item _ hv hw hs _ =>
    rw [h _ _ _ hv hw] at hs
    cases hs

end Items

/-! ## What is named -/

theorem pathText_cons (path : String) (p : Part) (rest : List Part) :
    path ++ pathText (p :: rest) = path ++ p.text ++ pathText rest :=
  (String.append_assoc ..).symm

theorem pathText_one (path : String) (p : Part) : path ++ pathText [p] = path ++ p.text := by
  rw [pathText_cons, pathText, String.append_empty]

/-- The search ends at a place it reached, with what it found there. -/
structure Named (l r : Json) (path : String) (d : String × Json × Json) : Prop where
  reached : ∃ place, d.1 = path ++ pathText place ∧ Reached l r place d.2.1 d.2.2
  apart : same d.2.1 d.2.2 = true ↔ NullAgainstAbsent l r

theorem Named.here {l r : Json} {path : String} (h : same l r = false) (hn : ¬ NullAgainstAbsent l r) :
    Named l r path (path, l, r) where
  reached := ⟨[], by rw [pathText, String.append_empty], .here l r⟩
  apart := ⟨fun hs => absurd (h.symm.trans hs) (by decide), fun hnull => absurd hnull hn⟩

theorem same_texts (a b : List String) : sameItems (a.map .str) (b.map .str) = decide (a = b) := by
  induction a generalizing b with
  | nil => cases b <;> simp [sameItems]
  | cons x a ih => cases b <;> simp [sameItems, same, ih]

theorem keyTexts_eq (fields : List (String × Json)) : keyTexts fields = .arr ((fields.map Prod.fst).map .str) := by
  unfold keyTexts
  rw [List.map_map]
  rfl

/-- Induction on the left value: what differs first is deeper in both, or is where the search ends. -/
theorem minimalDifference_named : ∀ l r path, same l r = false → Named l r path (minimalDifference l r path) := by
  have hleaf : ∀ {l r : Json} {path : String}, same l r = false → (∀ a b, ¬ (l = .obj a ∧ r = .obj b)) →
    (∀ a b, ¬ (l = .arr a ∧ r = .arr b)) →
      minimalDifference l r path = (path, l, r) → Named l r path (minimalDifference l r path) := by
    intro l r path hs hobj harr hd
    rw [hd]
    refine .here hs fun hnull => ?_
    cases hnull with
    | left => exact hobj _ _ ⟨rfl, rfl⟩
    | right => exact hobj _ _ ⟨rfl, rfl⟩
    | key => exact hobj _ _ ⟨rfl, rfl⟩
    | item => exact harr _ _ ⟨rfl, rfl⟩
  apply Json.induct (P := fun l => ∀ r path, same l r = false → Named l r path (minimalDifference l r path))
    (Q := fun as => ∀ l ∈ as, ∀ r path, same l r = false → Named l r path (minimalDifference l r path))
    (R := fun as => ∀ p ∈ as, ∀ r path, same p.2 r = false → Named p.2 r path (minimalDifference p.2 r path))
  · exact fun r path h => hleaf h (by simp) (by simp) (by cases r <;> rfl)
  · exact fun b r path h => hleaf h (by simp) (by simp) (by cases r <;> rfl)
  · exact fun n r path h => hleaf h (by simp) (by simp) (by cases r <;> rfl)
  · exact fun t r path h => hleaf h (by simp) (by simp) (by cases r <;> rfl)
  · exact fun s r path h => hleaf h (by simp) (by simp) (by cases r <;> rfl)
  · intro as ih r path h
    cases r with
    | arr bs =>
      rw [minimalDifference]
      cases hd : itemDifference as bs 0 path with
      | some d =>
        obtain ⟨n, v, w, hagree, hv, hw, hs, rfl⟩ := itemDifference_some hd
        obtain ⟨⟨place, hplace, hreach⟩, hapart⟩ := ih v (List.mem_of_getElem? hv) w (path ++ "[" ++ toString (0 + n) ++ "]") hs
        refine ⟨⟨.item n :: place, ?_, .item hv hw hreach⟩, hapart.trans (null_item hagree hv hw hs).symm⟩
        rw [hplace, pathText_cons, Part.text, Nat.zero_add]
        simp only [String.append_assoc]
      | none =>
        have hsame := itemDifference_none hd
        simp only
        by_cases hl : as.length = bs.length
        · rw [if_neg (by simpa using hl)]
          exact .here h (not_null_items hsame)
        · rw [if_pos hl]
          refine ⟨⟨[.length], (pathText_one path .length).symm, .length as bs⟩,
            ⟨fun hs => ?_, fun hnull => absurd hnull (not_null_items hsame)⟩⟩
          simp only [same, decide_eq_true_eq] at hs
          omega
    | _ => exact hleaf h (by simp) (by simp) rfl
  · intro a ih r path h
    cases r with
    | obj b =>
      rw [minimalDifference]
      cases hd : fieldDifference a b path with
      | some d =>
        obtain ⟨before, k, v, after, ha, hagree, hcase⟩ := fieldDifference_some hd
        have hmem : (k, v) ∈ a := ha ▸ List.mem_append_right _ List.mem_cons_self
        rcases hcase with ⟨hk, rfl⟩ | ⟨w, hk, hs, rfl⟩
        · refine ⟨⟨[.key k], ?_, .leftKey hmem (member_none.mp hk)⟩, (null_left ha hagree hk).symm⟩
          rw [pathText_one, Part.text, String.append_assoc]
        · obtain ⟨⟨place, hplace, hreach⟩, hapart⟩ := ih (k, v) hmem w (path ++ "." ++ k) hs
          refine ⟨⟨.key k :: place, ?_, .key hmem (member_mem hk) hreach⟩, hapart.trans (null_key ha hagree hk hs).symm⟩
          rw [hplace, pathText_cons, Part.text]
          simp only [String.append_assoc]
      | none =>
        have hall := fieldDifference_none hd
        simp only
        cases hf : b.find? fun f => (member a f.1).isNone with
        | some f =>
          obtain ⟨k, w⟩ := f
          obtain ⟨hk, before, after, hb, hbefore⟩ := List.find?_eq_some_iff_append.mp hf
          have hk : member a k = none := by simpa using hk
          have hmem : (k, w) ∈ b := hb ▸ List.mem_append_right _ List.mem_cons_self
          simp only
          refine ⟨⟨[.key k], ?_, .rightKey (member_none.mp hk) hmem⟩, (null_right hall hb (fun f hf => ?_) hk).symm⟩
          · rw [pathText_one, Part.text, String.append_assoc]
          · simpa [Option.isSome_iff_ne_none] using hbefore f hf
        | none =>
          have hb : ∀ f ∈ b, (member a f.1).isSome := fun f hf' => by
            simpa [Option.isSome_iff_ne_none] using List.find?_eq_none.mp hf f hf'
          simp only
          by_cases hkeys : a.map Prod.fst = b.map Prod.fst
          · rw [if_neg (by simpa using hkeys)]
            exact .here h (not_null hall hb)
          · rw [if_pos hkeys]
            refine ⟨⟨[.keys], (pathText_one path .keys).symm, .keys a b⟩,
              ⟨fun hs => ?_, fun hnull => absurd hnull (not_null hall hb)⟩⟩
            simp only [keyTexts_eq, same, same_texts, decide_eq_true_eq] at hs
            exact absurd hs hkeys
    | _ => exact hleaf h (by simp) (by simp) rfl
  · exact fun l hl => absurd hl List.not_mem_nil
  · exact fun l ls hl hls => List.forall_mem_cons.mpr ⟨hl, hls⟩
  · exact fun p hp => absurd hp List.not_mem_nil
  · exact fun k l rest hl hrest => List.forall_mem_cons.mpr ⟨hl, hrest⟩

/-- Of two values that differ, the search names a place that both reach through containers of one
    type and what they hold there; that differs too, unless the first difference is a key that one
    side has not got and the other has as null. -/
theorem minimal_difference_iff (l r : Json) (h : same l r = false) :
    ((∃ place, (minimalDifference l r "").1 = pathText place ∧ Holds l place (minimalDifference l r "").2.1 ∧
        Holds r place (minimalDifference l r "").2.2 ∧ Alongside l r place) ∧
      same (minimalDifference l r "").2.1 (minimalDifference l r "").2.2 = false) ↔ ¬ NullAgainstAbsent l r := by
  obtain ⟨⟨place, hplace, hreach⟩, hapart⟩ := minimalDifference_named l r "" h
  have hplace : (minimalDifference l r "").1 = pathText place := hplace.trans String.empty_append
  rw [← hapart, Bool.not_eq_true]
  exact ⟨fun hboth => hboth.2, fun hs => ⟨⟨place, hplace, hreach.holds.1, hreach.holds.2, hreach.alongside⟩, hs⟩⟩

/-- Two values that part company two levels down, where one has null and the other a number. -/
theorem minimal_difference_nested :
    ¬ NullAgainstAbsent (.obj [("a", .arr [.int 1, .obj [("b", .null)]])])
        (.obj [("a", .arr [.int 1, .obj [("b", .int 2)]])]) := by
  have hreach : Reached (.obj [("a", .arr [.int 1, .obj [("b", .null)]])]) (.obj [("a", .arr [.int 1, .obj [("b", .int 2)]])])
      [.key "a", .item 1, .key "b"] .null (.int 2) :=
    .key List.mem_cons_self List.mem_cons_self (.item rfl rfl (.key List.mem_cons_self List.mem_cons_self (.here _ _)))
  refine (minimal_difference_iff _ _ (by decide)).mp ⟨⟨[.key "a", .item 1, .key "b"], by decide, ?_, ?_, hreach.alongside⟩, ?_⟩
  · exact hreach.holds.1
  · exact hreach.holds.2
  · decide

/-- A key that one side has as null and the other has not is named with null on both sides. -/
theorem null_named_twice : ¬ ∀ l r : Json, same l r = false →
    same (minimalDifference l r "").2.1 (minimalDifference l r "").2.2 = false := by
  intro h
  have hsame := h (.obj [("a", .null)]) (.obj []) (by decide)
  exact absurd hsame (by decide)

end OwnNet.Repro
