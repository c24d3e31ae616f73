/-
  OwnNet.Json.Same — documents that are one value, whatever the order of their members; and the
  objects that hold some members by name and all the others as they are.

  Proved: `same_self`: a document whose keys are distinct is the same as itself; `same_obj`: two
  objects are the same where every key reads the same in both; `same_record`: an object taken
  apart into named members and the rest, and put together again, is the same where each of the
  named members is.
-/

import Mathlib.Data.List.Perm.Subperm
import OwnNet.Json.Fields

namespace OwnNet.Json

mutual

/-- `==` of two values: a dictionary has no order, and a number its kind. -/
def same : Json → Json → Bool
  | .null, .null => true
  | .bool a, .bool b => a = b
  | .int a, .int b => a = b
  | .float a, .float b => a = b
  | .str a, .str b => a = b
  | .arr a, .arr b => sameItems a b
  | .obj a, .obj b => a.length = b.length && sameMembers a b
  | _, _ => false

def sameItems : List Json → List Json → Bool
  | [], [] => true
  | a :: as, b :: bs => same a b && sameItems as bs
  | _, _ => false

def sameMembers : List (String × Json) → List (String × Json) → Bool
  | [], _ => true
  | (k, v) :: rest, b =>
    (match lookup b k with
      | some w => same v w
      | none => false) && sameMembers rest b

end

/-- Two members that may be absent. -/
def sameOpt : Option Json → Option Json → Bool
  | none, none => true
  | some a, some b => same a b
  | _, _ => false

mutual

/-- The keys of every object are distinct. -/
def distinct : Json → Bool
  | .arr items => distinctItems items
  | .obj fields => (fields.map Prod.fst).Nodup && distinctFields fields
  | _ => true

def distinctItems : List Json → Bool
  | [] => true
  | j :: rest => distinct j && distinctItems rest

def distinctFields : List (String × Json) → Bool
  | [] => true
  | (_, j) :: rest => distinct j && distinctFields rest

end

theorem distinctItems_iff {items : List Json} : distinctItems items = true ↔ ∀ i ∈ items, distinct i = true := by
  induction items with
  | nil => exact iff_of_true rfl fun _ h => absurd h List.not_mem_nil
  | cons j rest ih => rw [distinctItems, Bool.and_eq_true, ih, List.forall_mem_cons]

theorem distinctFields_iff {fields : List (String × Json)} :
    distinctFields fields = true ↔ ∀ f ∈ fields, distinct f.2 = true := by
  induction fields with
  | nil => exact iff_of_true rfl fun _ h => absurd h List.not_mem_nil
  | cons f rest ih =>
    obtain ⟨k, j⟩ := f
    rw [distinctFields, Bool.and_eq_true, ih, List.forall_mem_cons]

theorem distinct_arr {items : List Json} : distinct (.arr items) = true ↔ ∀ i ∈ items, distinct i = true := distinctItems_iff

theorem distinct_obj {fields : List (String × Json)} :
    distinct (.obj fields) = true ↔ (fields.map Prod.fst).Nodup ∧ ∀ f ∈ fields, distinct f.2 = true := by
  rw [distinct, Bool.and_eq_true, decide_eq_true_eq, distinctFields_iff]

/-! ## Looking a key up -/

theorem mem_of_lookup {fields : List (String × Json)} {key : String} {j : Json} (h : lookup fields key = some j) :
    (key, j) ∈ fields :=
  Dict.of_find_fst h

theorem lookup_eq_none {fields : List (String × Json)} {key : String} : lookup fields key = none ↔ key ∉ fields.map Prod.fst :=
  Dict.find_fst_none

theorem lookup_append {a b : List (String × Json)} {key : String} : lookup (a ++ b) key = (lookup a key).or (lookup b key) := by
  unfold lookup
  rw [List.find?_append]
  cases a.find? fun f => f.1 = key <;> rfl

theorem distinct_of_lookup {fields : List (String × Json)} (h : distinct (.obj fields) = true) {key : String} {j : Json}
    (hj : lookup fields key = some j) : distinct j = true := (distinct_obj.mp h).2 _ (mem_of_lookup hj)

/-! ## The same value -/

theorem sameMembers_iff {a b : List (String × Json)} :
    sameMembers a b = true ↔ ∀ f ∈ a, ∃ w, lookup b f.1 = some w ∧ same f.2 w = true := by
  induction a with
  | nil => exact iff_of_true rfl fun _ h => absurd h List.not_mem_nil
  | cons f rest ih =>
    obtain ⟨k, v⟩ := f
    rw [sameMembers, Bool.and_eq_true, ih, List.forall_mem_cons]
    refine and_congr_left fun _ => ?_
    cases lookup b k with
    | none => exact ⟨fun h => (by cases h), fun ⟨_, h, _⟩ => (by cases h)⟩
    | some w => exact ⟨fun h => ⟨w, rfl, h⟩, fun ⟨_, hw, h⟩ => by cases hw; exact h⟩

theorem sameOpt_iff {a b : Option Json} :
    sameOpt a b = true ↔ (a = none ∧ b = none) ∨ ∃ v w, a = some v ∧ b = some w ∧ same v w = true := by
  cases a <;> cases b <;> simp [sameOpt]

theorem lookup_isSome {fields : List (String × Json)} {key : String} :
    (∃ j, lookup fields key = some j) ↔ key ∈ fields.map Prod.fst := by
  rw [← Option.ne_none_iff_exists', ne_eq, lookup_eq_none, not_not]

/-- Two objects are the same where every key reads the same in both. -/
theorem same_obj {a b : List (String × Json)} (ha : (a.map Prod.fst).Nodup) (hb : (b.map Prod.fst).Nodup) :
    same (.obj a) (.obj b) = true ↔ ∀ key, sameOpt (lookup a key) (lookup b key) = true := by
  rw [same, Bool.and_eq_true, decide_eq_true_eq, sameMembers_iff]
  constructor
  · rintro ⟨hlength, hall⟩ key
    rw [sameOpt_iff]
    cases hkey : lookup a key with
    | some v =>
      obtain ⟨w, hw, hsame⟩ := hall _ (mem_of_lookup hkey)
      exact .inr ⟨v, w, rfl, hw, hsame⟩
    | none =>
      -- as many keys, each of them found: there is no room for another
      have hsub : a.map Prod.fst ⊆ b.map Prod.fst := by
        intro k hk
        obtain ⟨f, hf, rfl⟩ := List.mem_map.mp hk
        obtain ⟨w, hw, -⟩ := hall f hf
        exact lookup_isSome.mp ⟨w, hw⟩
      have hperm := (List.subperm_of_subset ha hsub).perm_of_length_le (by simp [hlength])
      exact .inl ⟨rfl, lookup_eq_none.mpr fun h => lookup_eq_none.mp hkey (hperm.mem_iff.mpr h)⟩
  · intro h
    have hkeys : ∀ key, key ∈ a.map Prod.fst ↔ key ∈ b.map Prod.fst := by
      intro key
      rw [← lookup_isSome, ← lookup_isSome]
      rcases sameOpt_iff.mp (h key) with ⟨hna, hnb⟩ | ⟨v, w, hva, hwb, -⟩
      · simp [hna, hnb]
      · simp [hva, hwb]
    refine ⟨?_, fun f hf => ?_⟩
    · have := ((List.perm_ext_iff_of_nodup ha hb).mpr hkeys).length_eq
      simpa using this
    · rcases sameOpt_iff.mp (h f.1) with ⟨hna, -⟩ | ⟨v, w, hva, hwb, hsame⟩
      · exact absurd (List.mem_map_of_mem hf) (lookup_eq_none.mp hna)
      · rw [lookup_of_mem ha (show (f.1, f.2) ∈ a from hf)] at hva
        cases hva
        exact ⟨w, hwb, hsame⟩

/-- A document whose keys are distinct is the same as itself. -/
theorem same_self : ∀ j, distinct j = true → same j j = true := by
  apply Json.induct (P := fun j => distinct j = true → same j j = true)
    (Q := fun l => (∀ i ∈ l, distinct i = true) → sameItems l l = true)
    (R := fun l => (∀ f ∈ l, distinct f.2 = true) → ∀ f ∈ l, same f.2 f.2 = true)
  · exact fun _ => rfl
  · exact fun b _ => decide_eq_true rfl
  · exact fun n _ => decide_eq_true rfl
  · exact fun t _ => decide_eq_true rfl
  · exact fun s _ => decide_eq_true rfl
  · exact fun items ih h => ih (distinct_arr.mp h)
  · intro fields ih h
    obtain ⟨hn, hall⟩ := distinct_obj.mp h
    rw [same, Bool.and_eq_true, decide_eq_true_eq, sameMembers_iff]
    exact ⟨rfl, fun f hf => ⟨f.2, lookup_of_mem hn hf, ih hall f hf⟩⟩
  · exact fun _ => rfl
  · intro j js hj hjs h
    rw [List.forall_mem_cons] at h
    rw [sameItems, Bool.and_eq_true]
    exact ⟨hj h.1, hjs h.2⟩
  · exact fun _ f hf => absurd hf List.not_mem_nil
  · intro k j rest hj hrest h
    rw [List.forall_mem_cons] at h
    exact List.forall_mem_cons.mpr ⟨hj h.1, hrest h.2⟩

theorem sameOpt_self {o : Option Json} (h : ∀ v, o = some v → distinct v = true) : sameOpt o o = true := by
  cases o with
  | none => rfl
  | some v => exact same_self v (h v rfl)

/-- Items that are written out as they were read, or not. -/
theorem sameItems_reads {α : Type} {R : Json → α → Prop} {g : α → Json} {p : Json → Prop} {items : List Json} {as : List α}
    (h : List.Forall₂ R items as) (hg : ∀ i ∈ items, ∀ a, R i a → (same (g a) i = true ↔ p i)) :
    sameItems (as.map g) items = true ↔ ∀ i ∈ items, p i := by
  induction h with
  | nil => exact iff_of_true rfl fun _ h => absurd h List.not_mem_nil
  | cons hab _ ih =>
    rw [List.map_cons, sameItems, Bool.and_eq_true, List.forall_mem_cons, hg _ List.mem_cons_self _ hab,
      ih fun i hi => hg i (List.mem_cons_of_mem _ hi)]

/-! ## Records -/

/-- The members that are not absent. -/
def written (members : List (String × Option Json)) : List (String × Json) := members.filterMap fun m => m.2.map fun v => (m.1, v)

/-- The members of other names. -/
def rest (names : List String) (fields : List (String × Json)) : List (String × Json) := fields.filter fun f => f.1 ∉ names

/-- An object of named members and others; of two members of one name, the other stands. -/
def record (members : List (String × Option Json)) (extra : List (String × Json)) : Json :=
  .obj (rest (extra.map Prod.fst) (written members) ++ extra)

theorem written_names {members : List (String × Option Json)} :
    ((written members).map Prod.fst).Sublist (members.map Prod.fst) := by
  induction members with
  | nil => exact List.Sublist.slnil
  | cons m ms ih =>
    obtain ⟨k, o⟩ := m
    cases o with
    | none => exact ih.cons _
    | some v => exact ih.cons_cons _

theorem lookup_written {members : List (String × Option Json)} (hn : (members.map Prod.fst).Nodup) {m : String × Option Json}
    (hm : m ∈ members) : lookup (written members) m.1 = m.2 := by
  obtain ⟨k, o⟩ := m
  have hkeys : ((written members).map Prod.fst).Nodup := hn.sublist written_names
  cases o with
  | some v => exact lookup_of_mem hkeys (List.mem_filterMap.mpr ⟨_, hm, rfl⟩)
  | none =>
    refine lookup_eq_none.mpr fun h => ?_
    obtain ⟨⟨k', v⟩, hv, rfl⟩ := List.mem_map.mp h
    obtain ⟨m, hm', heq⟩ := List.mem_filterMap.mp hv
    obtain ⟨w, hw, heq⟩ := Option.map_eq_some_iff.mp heq
    cases heq
    -- one name, two members: they are one
    have : m = (m.1, none) := List.inj_on_of_nodup_map hn hm' hm rfl
    rw [this] at hw
    cases hw

theorem mem_rest {names : List String} {fields : List (String × Json)} {f : String × Json} :
    f ∈ rest names fields ↔ f ∈ fields ∧ f.1 ∉ names := by
  unfold rest
  rw [List.mem_filter, decide_eq_true_eq]

theorem lookup_rest {names : List String} {fields : List (String × Json)} {key : String} (h : key ∉ names) :
    lookup (rest names fields) key = lookup fields key := by
  unfold lookup rest
  rw [List.find?_filter]
  congr 2
  funext f
  by_cases hkey : f.1 = key
  · simp [hkey, h]
  · simp [hkey]

theorem lookup_rest_none {names : List String} {fields : List (String × Json)} {key : String} (h : key ∈ names) :
    lookup (rest names fields) key = none := by
  refine lookup_eq_none.mpr fun hmem => ?_
  obtain ⟨f, hf, rfl⟩ := List.mem_map.mp hmem
  exact (mem_rest.mp hf).2 h

/-- An object taken apart and put together again. -/
theorem same_record {members : List (String × Option Json)} (names : List String) {fields : List (String × Json)}
    (hnames : members.map Prod.fst = names) (hn : names.Nodup) (hf : distinct (.obj fields) = true) :
    same (record members (rest names fields)) (.obj fields) = true ↔ ∀ m ∈ members, sameOpt m.2 (lookup fields m.1) = true := by
  subst hnames
  have hfields := (distinct_obj.mp hf).1
  have hapart : rest ((rest (members.map Prod.fst) fields).map Prod.fst) (written members) = written members := by
    refine List.filter_eq_self.mpr fun f hfw => decide_eq_true fun hrest => ?_
    obtain ⟨g, hg, hkey⟩ := List.mem_map.mp hrest
    exact (mem_rest.mp hg).2 (hkey ▸ written_names.subset (List.mem_map_of_mem hfw))
  have hkeys : ((written members ++ rest (members.map Prod.fst) fields).map Prod.fst).Nodup := by
    rw [List.map_append]
    refine List.Nodup.append (hn.sublist written_names) (hfields.sublist (List.filter_sublist.map _)) fun k hw hr => ?_
    obtain ⟨g, hg, rfl⟩ := List.mem_map.mp hr
    exact (mem_rest.mp hg).2 (written_names.subset hw)
  unfold record
  rw [hapart, same_obj hkeys hfields]
  constructor
  · intro h m hm
    have := h m.1
    rw [lookup_append, lookup_written hn hm, lookup_rest_none (List.mem_map_of_mem hm), Option.or_none] at this
    exact this
  · intro h key
    rw [lookup_append]
    by_cases hkey : key ∈ members.map Prod.fst
    · obtain ⟨m, hm, rfl⟩ := List.mem_map.mp hkey
      rw [lookup_written hn hm, lookup_rest_none hkey, Option.or_none]
      exact h m hm
    · rw [lookup_eq_none.mpr fun hw => hkey (written_names.subset hw), Option.none_or, lookup_rest hkey]
      exact sameOpt_self fun v hv => distinct_of_lookup hf hv

/-! ## Depth -/

mutual

/-- How many values enclose the deepest one, itself counted. -/
def levels : Json → Nat
  | .arr items => levelsItems items + 1
  | .obj fields => levelsFields fields + 1
  | _ => 1

def levelsItems : List Json → Nat
  | [] => 0
  | j :: rest => max (levels j) (levelsItems rest)

def levelsFields : List (String × Json) → Nat
  | [] => 0
  | (_, j) :: rest => max (levels j) (levelsFields rest)

end

mutual

/-- How many containers are open at once, where it is read. -/
def nesting : Json → Nat
  | .arr items => nestingItems items + 1
  | .obj fields => nestingFields fields + 1
  | _ => 0

def nestingItems : List Json → Nat
  | [] => 0
  | j :: rest => max (nesting j) (nestingItems rest)

def nestingFields : List (String × Json) → Nat
  | [] => 0
  | (_, j) :: rest => max (nesting j) (nestingFields rest)

end

theorem levels_item {items : List Json} {i : Json} (h : i ∈ items) : levels i < levels (.arr items) := by
  rw [levels]
  induction items with
  | nil => cases h
  | cons j rest ih =>
    rw [levelsItems]
    rcases List.mem_cons.mp h with rfl | h
    · omega
    · have := ih h
      omega

theorem levels_member {fields : List (String × Json)} {f : String × Json} (h : f ∈ fields) :
    levels f.2 < levels (.obj fields) := by
  rw [levels]
  induction fields with
  | nil => cases h
  | cons g rest ih =>
    obtain ⟨k, j⟩ := g
    rw [levelsFields]
    rcases List.mem_cons.mp h with rfl | h
    · show levels j < _
      omega
    · have := ih h
      omega

theorem levels_lookup {fields : List (String × Json)} {key : String} {j : Json} (h : lookup fields key = some j) :
    levels j < levels (.obj fields) := levels_member (mem_of_lookup h)

theorem levels_le : ∀ j, levels j ≤ nesting j + 1 := by
  apply Json.induct (P := fun j => levels j ≤ nesting j + 1) (Q := fun l => levelsItems l ≤ nestingItems l + 1)
    (R := fun l => levelsFields l ≤ nestingFields l + 1)
  · exact Nat.le_refl 1
  · exact fun _ => Nat.le_refl 1
  · exact fun _ => Nat.le_refl 1
  · exact fun _ => Nat.le_refl 1
  · exact fun _ => Nat.le_refl 1
  · exact fun items ih => Nat.succ_le_succ ih
  · exact fun fields ih => Nat.succ_le_succ ih
  · exact Nat.zero_le 1
  · intro j js hj hjs
    rw [levelsItems, nestingItems]
    omega
  · exact Nat.zero_le 1
  · intro k j rest hj hrest
    rw [levelsFields, nestingFields]
    omega

end OwnNet.Json
