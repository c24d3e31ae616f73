/-
  OwnNet.Repro.Handles — what `normalize_handles` touches.

  The rewrite and the scan for leftovers go by spelling, so a string of the program that is spelled
  as a handle is rewritten where a handle is spelled so too, and a leftover where none is. The
  binding of an exclusive loan is minted by the same counter and is spelled otherwise: it stays.

  Proved: `touches_iff`: where the handles referred to have records, just the handles are touched,
  and the counters make no difference, exactly where no string is spelled as a handle and there is
  no loan.
-/

import OwnNet.Repro.Normalize

namespace OwnNet.Repro

open Dict

/-! ## Spelled as a handle -/

theorem decimal_of_digit {c : Char} (h : c.isDigit = true) : decimal c = true := by
  rw [decimal, List.any_eq_true]
  refine ⟨0x30, by simp [decimalZeros], ?_⟩
  rw [decide_eq_true_iff]
  simp only [Char.isDigit, Bool.and_eq_true, decide_eq_true_eq] at h
  have hlow : 48 ≤ c.toNat := h.1
  have hhigh : c.toNat ≤ 57 := h.2
  omega

theorem digitsToEnd_numeral (n : Nat) : digitsToEnd (Parsing.numeral n) = true := by
  have hlast : (Parsing.numeral n).getLast? ≠ some '\n' := by
    intro hlast
    exact absurd (Parsing.numeral_digits (List.mem_of_getLast? hlast)) (by decide)
  simp only [digitsToEnd, if_neg hlast, Bool.and_eq_true, decide_eq_true_eq, List.all_eq_true]
  exact ⟨Parsing.numeral_ne_nil n, fun c hc => decimal_of_digit (Parsing.numeral_digits hc)⟩

/-- A handle is spelled as one, and shows what it was minted for. -/
theorem mintOf_handle (h : Handle) : mintOf h.text = some h.mint := by
  obtain ⟨mint, n⟩ := h
  have hdigits := digitsToEnd_numeral n
  cases mint <;> simp [mintOf, Handle.text_toList, Mint.text, Mint.opening, List.isPrefixOf, hdigits]

theorem not_minted_of_bar {s : String} (h : '|' ∈ s.toList) : mintOf s = none := by
  refine List.find?_eq_none.mpr fun m _ hm => ?_
  rw [Bool.and_eq_true] at hm
  obtain ⟨rest, hrest⟩ := List.isPrefixOf_iff_prefix.mp hm.1
  rw [← hrest, List.drop_left] at hm
  rw [← hrest, List.mem_append] at h
  have hopening : '|' ∉ m.opening := by cases m <;> decide
  have hin : '|' ∈ rest := h.resolve_left hopening
  have hdigits := hm.2
  simp only [digitsToEnd, Bool.and_eq_true, List.all_eq_true] at hdigits
  have hbar : decimal '|' = true := by
    refine hdigits.2 '|' ?_
    by_cases hlast : rest.getLast? = some '\n'
    · rw [if_pos hlast]
      obtain ⟨init, hinit⟩ := List.getLast?_eq_some_iff.mp hlast
      rw [hinit, List.dropLast_concat]
      rw [hinit, List.mem_append] at hin
      exact hin.resolve_right (by decide)
    · rw [if_neg hlast]
      exact hin
  revert hbar
  decide

theorem word_not_minted (w : Word) : mintOf w.text = none := by
  cases w <;> decide

theorem loan_not_minted (n : Nat) : mintOf (Ref.loan n).text = none := by
  have hlist : (Ref.loan n).text.toList = 'b' :: 'r' :: 'w' :: '_' :: Parsing.numeral n := by
    rw [Ref.text, String.toList_append]
    rfl
  simp [mintOf, hlist, Mint.opening, Mint.text, List.isPrefixOf]

theorem mint_not_minted (m : Mint) : mintOf m.text = none := by
  cases m <;> decide

theorem Ref.text_inj {r s : Ref} (h : r.text = s.text) : r = s := by
  cases r with
  | handle a =>
    cases s with
    | handle b => rw [Handle.text_inj h]
    | loan n =>
      have hmint := mintOf_handle a
      rw [show a.text = (Ref.loan n).text from h, loan_not_minted] at hmint
      cases hmint
  | loan m =>
    cases s with
    | handle b =>
      have hmint := mintOf_handle b
      rw [show b.text = (Ref.loan m).text from h.symm, loan_not_minted] at hmint
      cases hmint
    | loan n =>
      have hlist := congrArg String.toList h
      rw [Ref.text, Ref.text, String.toList_append, String.toList_append] at hlist
      rw [Parsing.numeral_inj (List.append_cancel_left hlist)]

theorem identity_bar (record : List (String × Json)) : '|' ∈ (identity record).toList := by
  simp only [identity, List.map_cons, String.intercalate_cons_cons, String.toList_append]
  simp

theorem stable_not_minted (d : Layer2) : ∀ s ∈ d.stableIds, mintOf s = none := by
  intro s hs
  have hbar : ∀ id ∈ d.handles.map HandleRecord.identity, '|' ∈ id.toList := by
    intro id hid
    obtain ⟨r, -, rfl⟩ := List.mem_map.mp hid
    exact identity_bar _
  refine not_minted_of_bar ?_
  rcases mem_marked.mp hs with hs | ⟨a, n, hn, hlt, rfl⟩
  · exact hbar s hs
  · rw [tilde_toList]
    exact List.mem_append_left _ (hbar a (List.count_pos_iff.mp (by omega)))

/-! ## Parts of a document -/

namespace Tagged

mutual

/-- The program's own strings. -/
def users : Tagged → List String
  | user value => texts value
  | word _ => []
  | ref _ => []
  | arr items => usersItems items
  | obj fields => usersFields fields

def usersItems : List Tagged → List String
  | [] => []
  | t :: rest => users t ++ usersItems rest

def usersFields : List (String × Tagged) → List String
  | [] => []
  | (_, t) :: rest => users t ++ usersFields rest

end

mutual

def refs : Tagged → List Ref
  | user _ => []
  | word _ => []
  | ref r => [r]
  | arr items => refsItems items
  | obj fields => refsFields fields

def refsItems : List Tagged → List Ref
  | [] => []
  | t :: rest => refs t ++ refsItems rest

def refsFields : List (String × Tagged) → List Ref
  | [] => []
  | (_, t) :: rest => refs t ++ refsFields rest

end

/-- Induction on a document, from its items and fields. -/
theorem induct {P : Tagged → Prop} (user : ∀ v, P (user v)) (word : ∀ w, P (word w)) (ref : ∀ r, P (ref r))
    (arr : ∀ items, (∀ t ∈ items, P t) → P (arr items)) (obj : ∀ fields, (∀ f ∈ fields, P f.2) → P (obj fields))
    (t : Tagged) : P t :=
  Tagged.rec (motive_1 := P) (motive_2 := fun items => ∀ t ∈ items, P t) (motive_3 := fun fields => ∀ f ∈ fields,
    P f.2) (motive_4 := fun f => P f.2)
    user word ref arr obj (fun _ h => absurd h List.not_mem_nil)
    (fun _ _ ht hrest u hu => (List.mem_cons.mp hu).elim (fun he => he ▸ ht) (hrest u)) (fun _ h => absurd h List.not_mem_nil)
    (fun _ _ hf hrest g hg => (List.mem_cons.mp hg).elim (fun he => he ▸ hf) (hrest g)) (fun _ _ h => h) t

theorem mem_usersItems {items : List Tagged} {s : String} : s ∈ usersItems items ↔ ∃ t ∈ items, s ∈ users t := by
  induction items with
  | nil => simp [usersItems]
  | cons t rest ih => simp [usersItems, ih]

theorem mem_usersFields {fields : List (String × Tagged)} {s : String} :
    s ∈ usersFields fields ↔ ∃ f ∈ fields, s ∈ users f.2 := by
  induction fields with
  | nil => simp [usersFields]
  | cons f rest ih => simp [usersFields, ih]

theorem mem_refsItems {items : List Tagged} {r : Ref} : r ∈ refsItems items ↔ ∃ t ∈ items, r ∈ refs t := by
  induction items with
  | nil => simp [refsItems]
  | cons t rest ih => simp [refsItems, ih]

theorem mem_refsFields {fields : List (String × Tagged)} {r : Ref} : r ∈ refsFields fields ↔ ∃ f ∈ fields, r ∈ refs f.2 := by
  induction fields with
  | nil => simp [refsFields]
  | cons f rest ih => simp [refsFields, ih]

end Tagged

theorem mem_textsItems {items : List Json} {s : String} : s ∈ textsItems items ↔ ∃ j ∈ items, s ∈ texts j := by
  induction items with
  | nil => simp [textsItems]
  | cons j rest ih => simp [textsItems, ih]

theorem mem_textsFields {fields : List (String × Json)} {s : String} : s ∈ textsFields fields ↔ ∃ f ∈ fields, s ∈ texts f.2 := by
  induction fields with
  | nil => simp [textsFields]
  | cons f rest ih => simp [textsFields, ih]

theorem rewrite_self {f : String → String} (j : Json) : (∀ s ∈ texts j, f s = s) → rewrite f j = j := by
  refine Json.induct (P := fun j => (∀ s ∈ texts j, f s = s) → rewrite f j = j)
    (Q := fun items => (∀ s ∈ textsItems items, f s = s) → rewriteItems f items = items)
    (R := fun fields => (∀ s ∈ textsFields fields, f s = s) → rewriteFields f fields = fields)
    (fun _ => rfl) (fun _ _ => rfl) (fun _ _ => rfl) (fun _ _ => rfl) ?_ ?_ ?_ (fun _ => rfl) ?_ (fun _ => rfl) ?_ j
  · intro s h
    rw [rewrite, h s (by simp [texts])]
  · intro items ih h
    rw [rewrite, ih h]
  · intro fields ih h
    rw [rewrite, ih h]
  · intro j rest ihj ih h
    rw [rewriteItems, ihj fun s hs => h s (List.mem_append_left _ hs), ih fun s hs => h s (List.mem_append_right _ hs)]
  · intro k j rest ihj ih h
    rw [rewriteFields, ihj fun s hs => h s (List.mem_append_left _ hs), ih fun s hs => h s (List.mem_append_right _ hs)]

theorem texts_rewrite (f : String → String) (j : Json) : texts (rewrite f j) = (texts j).map f := by
  refine Json.induct (P := fun j => texts (rewrite f j) = (texts j).map f)
    (Q := fun items => textsItems (rewriteItems f items) = (textsItems items).map f)
    (R := fun fields => textsFields (rewriteFields f fields) = (textsFields fields).map f)
    rfl (fun _ => rfl) (fun _ => rfl) (fun _ => rfl) (fun _ => rfl) (fun _ ih => ih) (fun _ ih => ih) rfl ?_ rfl ?_ j
  · intro j rest ihj ih
    rw [rewriteItems, textsItems, textsItems, ihj, ih, List.map_append]
  · intro k j rest ihj ih
    rw [rewriteFields, textsFields, textsFields, ihj, ih, List.map_append]

namespace Tagged

/-- What is rewritten is the minted names, where nothing else is spelled as one. -/
theorem rewrite_untag {f : String → String} (hword : ∀ w : Word, f w.text = w.text) (name : Ref → String) (t : Tagged)
    (h : ∀ s ∈ users t, f s = s) : rewrite f (untag name t) = untag (f ∘ name) t := by
  induction t using induct with
  | user v => exact rewrite_self v h
  | word w => exact congrArg Json.str (hword w)
  | ref r => rfl
  | arr items ih =>
    rw [untag, untag, rewrite, untagItems_eq, untagItems_eq, rewriteItems_eq, List.map_map]
    exact congrArg Json.arr (List.map_congr_left fun t ht => ih t ht fun s hs => h s (mem_usersItems.mpr ⟨t, ht, hs⟩))
  | obj fields ih =>
    rw [untag, untag, rewrite, untagFields_eq, untagFields_eq, rewriteFields_eq, List.map_map]
    refine congrArg Json.obj (List.map_congr_left fun e he => ?_)
    exact congrArg (Prod.mk e.1) (ih e he fun s hs => h s (mem_usersFields.mpr ⟨e, he, hs⟩))

theorem mem_texts_untag (name : Ref → String) (t : Tagged) (s : String) (h : s ∈ texts (untag name t)) :
    s ∈ users t ∨ (∃ w : Word, s = w.text) ∨ ∃ r ∈ refs t, s = name r := by
  induction t using induct with
  | user v => exact .inl h
  | word w => exact .inr (.inl ⟨w, by simpa [untag, texts] using h⟩)
  | ref r => exact .inr (.inr ⟨r, by simp [refs], by simpa [untag, texts] using h⟩)
  | arr items ih =>
    rw [untag, untagItems_eq, texts, mem_textsItems] at h
    obtain ⟨j, hj, hs⟩ := h
    obtain ⟨t, ht, rfl⟩ := List.mem_map.mp hj
    rcases ih t ht hs with hs | hs | ⟨r, hr, hs⟩
    · exact .inl (mem_usersItems.mpr ⟨t, ht, hs⟩)
    · exact .inr (.inl hs)
    · exact .inr (.inr ⟨r, mem_refsItems.mpr ⟨t, ht, hr⟩, hs⟩)
  | obj fields ih =>
    rw [untag, untagFields_eq, texts, mem_textsFields] at h
    obtain ⟨e, he, hs⟩ := h
    obtain ⟨e, he', rfl⟩ := List.mem_map.mp he
    rcases ih e he' hs with hs | hs | ⟨r, hr, hs⟩
    · exact .inl (mem_usersFields.mpr ⟨e, he', hs⟩)
    · exact .inr (.inl hs)
    · exact .inr (.inr ⟨r, mem_refsFields.mpr ⟨e, he', hr⟩, hs⟩)

theorem texts_of_users (name : Ref → String) (t : Tagged) (s : String) (h : s ∈ users t) : s ∈ texts (untag name t) := by
  induction t using induct with
  | user v => exact h
  | word w => cases h
  | ref r => cases h
  | arr items ih =>
    obtain ⟨t, ht, hs⟩ := mem_usersItems.mp h
    rw [untag, untagItems_eq, texts, mem_textsItems]
    exact ⟨untag name t, List.mem_map_of_mem ht, ih t ht hs⟩
  | obj fields ih =>
    obtain ⟨e, he, hs⟩ := mem_usersFields.mp h
    rw [untag, untagFields_eq, texts, mem_textsFields]
    exact ⟨(e.1, untag name e.2), List.mem_map_of_mem (f := fun f => (f.1, untag name f.2)) he, ih e he hs⟩

theorem texts_of_refs (name : Ref → String) (t : Tagged) (r : Ref) (h : r ∈ refs t) : name r ∈ texts (untag name t) := by
  induction t using induct with
  | user v => cases h
  | word w => cases h
  | ref r' =>
    rw [List.mem_singleton.mp h]
    exact List.mem_singleton_self _
  | arr items ih =>
    obtain ⟨t, ht, hr⟩ := mem_refsItems.mp h
    rw [untag, untagItems_eq, texts, mem_textsItems]
    exact ⟨untag name t, List.mem_map_of_mem ht, ih t ht hr⟩
  | obj fields ih =>
    obtain ⟨e, he, hr⟩ := mem_refsFields.mp h
    rw [untag, untagFields_eq, texts, mem_textsFields]
    exact ⟨(e.1, untag name e.2), List.mem_map_of_mem (f := fun f => (f.1, untag name f.2)) he, ih e he hr⟩

/-- A document shows what each of its minted names is. -/
theorem untag_eq (name name' : Ref → String) (t : Tagged) : untag name t = untag name' t ↔ ∀ r ∈ refs t, name r = name' r := by
  induction t using induct with
  | user v => simp [untag, refs]
  | word w => simp [untag, refs]
  | ref r => simp [untag, refs]
  | arr items ih =>
    rw [untag, untag, untagItems_eq, untagItems_eq, Json.arr.injEq, List.map_inj_left]
    refine ⟨fun h r hr => ?_, fun h t ht => (ih t ht).mpr fun r hr => h r (mem_refsItems.mpr ⟨t, ht, hr⟩)⟩
    obtain ⟨t, ht, hr⟩ := mem_refsItems.mp hr
    exact (ih t ht).mp (h t ht) r hr
  | obj fields ih =>
    rw [untag, untag, untagFields_eq, untagFields_eq, Json.obj.injEq, List.map_inj_left]
    simp only [Prod.mk.injEq, true_and]
    refine ⟨fun h r hr => ?_, fun h e he => (ih e he).mpr fun r hr => h r (mem_refsFields.mpr ⟨e, he, hr⟩)⟩
    obtain ⟨e, he, hr⟩ := mem_refsFields.mp hr
    exact (ih e he).mp (h e he) r hr

end Tagged

/-! ## Lowered documents -/

namespace Layer2

variable (d : Layer2)

/-- The program's own strings: names, files, events, callees and what else a record notes. -/
def users : List String := Tagged.usersFields (projectLowered d)

def refs : List Ref := Tagged.refsFields (projectLowered d)

def functionRefs : List Ref := Tagged.refsItems (d.functions.map functionEntry)

/-- Every handle the functions refer to has a record. -/
def Recorded : Prop := ∀ h, Ref.handle h ∈ d.functionRefs → h ∈ d.handles.map HandleRecord.handle

/-- Nothing else is spelled as a handle, and nothing else is minted. -/
def Plain : Prop := (∀ s ∈ d.users, mintOf s = none) ∧ ∀ n, Ref.loan n ∉ d.functionRefs

/-- Other counters, by no two of which one name is had. -/
structure Renaming (σ : Ref → Ref) : Prop where
  handle : ∀ h, ∃ n, σ (.handle h) = .handle ⟨h.mint, n⟩
  loan : ∀ n, ∃ m, σ (.loan n) = .loan m
  inj : ∀ r ∈ d.refs, ∀ s ∈ d.refs, σ r = σ s → r = s

def noted (name : Ref → String) (r : HandleRecord) : Json :=
  .obj (("handle", .str (name (.handle r.handle))) :: (r.kept ++ [("mint", .str r.handle.mint.text)]))

/-- The document with `name` for what was minted, and the mints noted. -/
def normal (name : Ref → String) : List (String × Json) :=
  (d.json name).map fun f => if f.1 = "handles" then (f.1, Json.arr (d.handles.map (noted name))) else f

/-- A handle's stable id; a loan's binding as it is. -/
def stableName (r : Ref) : String := d.called Ref.text r.text

variable {d}

theorem json_eq (name : Ref → String) : d.json name = (projectLowered d).map fun f =>
    (f.1, Tagged.untag name f.2) := Tagged.untagFields_eq _ _

theorem handles_field : ("handles", Tagged.arr (d.handles.map fun r => Tagged.obj (handleFields r))) ∈ projectLowered d := by
  simp [projectLowered]

theorem functions_field : ("functions", Tagged.arr (d.functions.map functionEntry)) ∈ projectLowered d := by
  simp [projectLowered]

theorem users_of_kept {r : HandleRecord} (hr : r ∈ d.handles) {s : String} (hs : s ∈ textsFields r.kept) : s ∈ d.users := by
  refine Tagged.mem_usersFields.mpr ⟨_, handles_field, Tagged.mem_usersItems.mpr ⟨_, List.mem_map_of_mem hr, ?_⟩⟩
  obtain ⟨f, hf, hs⟩ := mem_textsFields.mp hs
  exact Tagged.mem_usersFields.mpr ⟨(f.1, .user f.2),
    List.mem_cons_of_mem _ (List.mem_map_of_mem (f := fun f => (f.1, Tagged.user f.2)) hf), hs⟩

theorem kept_keys {r : HandleRecord} {f : String × Json} (hf : f ∈ r.kept) : f.1 ∈ handleKeys := by
  obtain ⟨k, hk, hf⟩ := List.mem_filterMap.mp hf
  obtain ⟨v, -, rfl⟩ := Option.map_eq_some_iff.mp hf
  exact hk

theorem functionRefs_sub {r : Ref} (h : r ∈ d.functionRefs) : r ∈ d.refs := Tagged.mem_refsFields.mpr ⟨_, functions_field, h⟩

theorem handle_mem_refs {r : HandleRecord} (hr : r ∈ d.handles) : Ref.handle r.handle ∈ d.refs := by
  refine Tagged.mem_refsFields.mpr ⟨_, handles_field, Tagged.mem_refsItems.mpr ⟨_, List.mem_map_of_mem hr, ?_⟩⟩
  simp [handleFields, Tagged.refs, Tagged.refsFields]

/-- What is minted is in the functions, or has a record. -/
theorem mem_refs {r : Ref} (h : r ∈ d.refs) : r ∈ d.functionRefs ∨ ∃ rec ∈ d.handles, r = .handle rec.handle := by
  obtain ⟨f, hf, hr⟩ := Tagged.mem_refsFields.mp h
  have hoptional : ∀ {α : Type} (g : α → Tagged) (o : Option α), (∀ a, Tagged.refs (g a) = []) →
      Tagged.refs (Tagged.optional g o) = [] := by
    intro α g o hg
    cases o with
    | none => rfl
    | some a => exact hg a
  simp only [projectLowered, List.mem_cons, List.not_mem_nil, or_false] at hf
  rcases hf with rfl | rfl | rfl | rfl | rfl | rfl | rfl
  · cases hr
  · cases hr
  · obtain ⟨t, ht, hr⟩ := Tagged.mem_refsItems.mp hr
    obtain ⟨x, -, rfl⟩ := List.mem_map.mp ht
    simp [resourceEntry, Tagged.refs, Tagged.refsFields, Tagged.text, hoptional, Tagged.mem_refsItems] at hr
  · obtain ⟨t, ht, hr⟩ := Tagged.mem_refsItems.mp hr
    obtain ⟨x, -, rfl⟩ := List.mem_map.mp ht
    simp [externEntry, Tagged.refs, Tagged.refsFields, Tagged.text, Tagged.mem_refsItems] at hr
  · obtain ⟨t, ht, hr⟩ := Tagged.mem_refsItems.mp hr
    obtain ⟨x, -, rfl⟩ := List.mem_map.mp ht
    simp [lifetimeEntry, Tagged.refs, Tagged.refsFields, Tagged.text, hoptional] at hr
  · exact .inl hr
  · obtain ⟨t, ht, hr⟩ := Tagged.mem_refsItems.mp hr
    obtain ⟨rec, hrec, rfl⟩ := List.mem_map.mp ht
    obtain ⟨f, hf, hr⟩ := Tagged.mem_refsFields.mp hr
    rcases List.mem_cons.mp hf with rfl | hf
    · exact .inr ⟨rec, hrec, List.mem_singleton.mp hr⟩
    · obtain ⟨g, -, rfl⟩ := List.mem_map.mp hf
      cases hr

/-! Rewriting a document. -/

section Named

variable {name : Ref → String}

theorem called_of_not_mem {s : String} (h : s ∉ d.handleNames name) : d.called name s = s := by
  have hlook : ((d.handleNames name).zip d.stableIds).lookup s = none := by
    rw [List.lookup_eq_none_iff]
    intro e he
    have hin := (List.of_mem_zip he).1
    rw [bne_iff_ne]
    exact fun hs => h (hs ▸ hin)
  rw [called, renamed, hlook]
  rfl

variable (hname : ∀ r ∈ d.handles, mintOf (name (.handle r.handle)) = some r.handle.mint)

include hname

theorem called_of_not_minted {s : String} (h : mintOf s = none) : d.called name s = s := by
  refine called_of_not_mem fun hin => ?_
  obtain ⟨r, hr, rfl⟩ := List.mem_map.mp hin
  rw [hname r hr] at h
  cases h

theorem stamped_eq (hplain : ∀ s ∈ d.users, mintOf s = none) {r : HandleRecord} (hr : r ∈ d.handles) :
    stamped ((d.handleNames name).zip d.stableIds) (handleJson name r) = noted (d.called name ∘ name) r := by
  have hkept : rewriteFields (renamed ((d.handleNames name).zip d.stableIds)) r.kept = r.kept := by
    have hself := rewrite_self (f := renamed ((d.handleNames name).zip d.stableIds)) (.obj r.kept) fun s hs =>
      called_of_not_minted hname (hplain s (users_of_kept hr hs))
    exact Json.obj.inj hself
  have hfresh : "mint" ∉ (("handle", Json.str (d.called name (name (.handle r.handle)))) :: r.kept).map Prod.fst := by
    rw [List.map_cons, List.mem_cons, not_or]
    refine ⟨by simp, fun hin => ?_⟩
    obtain ⟨f, hf, hmint⟩ := List.mem_map.mp hin
    have hkey := kept_keys hf
    rw [hmint] at hkey
    revert hkey
    decide
  have hminted : mintedOf (handleJson name r) = some (name (.handle r.handle)) := by
    simp [mintedOf, handleJson, fieldsOf, member]
  have hrecord : rewriteFields (renamed ((d.handleNames name).zip d.stableIds)) (fieldsOf (handleJson name r)) =
      ("handle", Json.str (d.called name (name (.handle r.handle)))) :: r.kept := by
    rw [handleJson, fieldsOf, rewriteFields, hkept]
    rfl
  rw [stamped, hminted]
  simp only [hrecord, upsert_fresh hfresh, hname r hr, Option.elim_some]
  rfl

/-- Where nothing else is spelled as a handle, just the handles are rewritten. -/
theorem rewritten_eq (hplain : ∀ s ∈ d.users, mintOf s = none) : d.rewritten name = d.normal (d.called name ∘ name) := by
  rw [rewritten, normal, json_eq, json_eq, List.map_map, List.map_map]
  refine List.map_congr_left fun f hf => ?_
  simp only [Function.comp_apply]
  by_cases hkey : f.1 = "handles"
  · rw [if_pos hkey, if_pos hkey, List.map_congr_left fun r hr => stamped_eq hname hplain hr]
  · rw [if_neg hkey, if_neg hkey]
    refine congrArg (Prod.mk f.1) (Tagged.rewrite_untag (fun w =>
      called_of_not_minted hname (word_not_minted w)) name f.2 fun s hs => ?_)
    exact called_of_not_minted hname (hplain s (Tagged.mem_usersFields.mpr ⟨f, hf, hs⟩))

end Named

theorem normal_congr {name name' : Ref → String} (h : ∀ r ∈ d.refs, name r = name' r) : d.normal name = d.normal name' := by
  rw [normal, normal, json_eq, json_eq, List.map_map, List.map_map]
  refine List.map_congr_left fun f hf => ?_
  simp only [Function.comp_apply]
  by_cases hkey : f.1 = "handles"
  · have hnoted : d.handles.map (noted name) = d.handles.map (noted name') :=
      List.map_congr_left fun r hr => by rw [noted, noted, h _ (handle_mem_refs hr)]
    rw [if_pos hkey, if_pos hkey, hnoted]
  · rw [if_neg hkey, if_neg hkey, (Tagged.untag_eq name name' f.2).mpr fun r hr => h r (Tagged.mem_refsFields.mpr ⟨f, hf, hr⟩)]

/-- What is in the document is the program's strings and what was minted. -/
theorem texts_normal {name : Ref → String} {s : String} (h : s ∈ textsFields (d.normal name)) :
    s ∈ d.users ∨ (∃ w : Word, s = w.text) ∨ (∃ m : Mint, s = m.text) ∨ ∃ r ∈ d.refs, s = name r := by
  rw [normal, json_eq, List.map_map, mem_textsFields] at h
  obtain ⟨e, he, hs⟩ := h
  obtain ⟨f, hf, rfl⟩ := List.mem_map.mp he
  simp only [Function.comp_apply] at hs
  by_cases hkey : f.1 = "handles"
  · rw [if_pos hkey, texts, mem_textsItems] at hs
    obtain ⟨j, hj, hs⟩ := hs
    obtain ⟨r, hr, rfl⟩ := List.mem_map.mp hj
    rw [noted, texts, mem_textsFields] at hs
    obtain ⟨e, he, hs⟩ := hs
    rcases List.mem_cons.mp he with rfl | he
    · exact .inr (.inr (.inr ⟨_, handle_mem_refs hr, by simpa [texts] using hs⟩))
    · rcases List.mem_append.mp he with he | he
      · exact .inl (users_of_kept hr (mem_textsFields.mpr ⟨e, he, hs⟩))
      · rw [List.mem_singleton.mp he] at hs
        exact .inr (.inr (.inl ⟨r.handle.mint, by simpa [texts] using hs⟩))
  · rw [if_neg hkey] at hs
    rcases Tagged.mem_texts_untag name f.2 s hs with hs | hs | ⟨r, hr, hs⟩
    · exact .inl (Tagged.mem_usersFields.mpr ⟨f, hf, hs⟩)
    · exact .inr (.inl hs)
    · exact .inr (.inr (.inr ⟨r, Tagged.mem_refsFields.mpr ⟨f, hf, hr⟩, hs⟩))

theorem users_in_normal {name : Ref → String} {s : String} (h : s ∈ d.users) : s ∈ textsFields (d.normal name) := by
  obtain ⟨f, hf, hs⟩ := Tagged.mem_usersFields.mp h
  rw [normal, json_eq, List.map_map, mem_textsFields]
  refine ⟨_, List.mem_map_of_mem hf, ?_⟩
  simp only [Function.comp_apply]
  by_cases hkey : f.1 = "handles"
  · have hfield : f.2 = Tagged.arr (d.handles.map fun r => Tagged.obj (handleFields r)) := by
      simp only [projectLowered, List.mem_cons, List.not_mem_nil, or_false] at hf
      rcases hf with rfl | rfl | rfl | rfl | rfl | rfl | rfl
      all_goals first
        | rfl
        | simp at hkey
    rw [if_pos hkey, texts, mem_textsItems]
    rw [hfield] at hs
    obtain ⟨t, ht, hs⟩ := Tagged.mem_usersItems.mp hs
    obtain ⟨r, hr, rfl⟩ := List.mem_map.mp ht
    refine ⟨_, List.mem_map_of_mem hr, ?_⟩
    obtain ⟨g, hg, hs⟩ := Tagged.mem_usersFields.mp hs
    rcases List.mem_cons.mp hg with rfl | hg
    · cases hs
    · obtain ⟨e, he, rfl⟩ := List.mem_map.mp hg
      exact mem_textsFields.mpr ⟨e, List.mem_cons_of_mem _ (List.mem_append_left _ he), hs⟩
  · rw [if_neg hkey]
    exact Tagged.texts_of_users name f.2 s hs

/-! Renamings. -/

theorem Renaming.refl : d.Renaming id := ⟨fun h => ⟨h.counter, rfl⟩, fun n => ⟨n, rfl⟩, fun _ _ _ _ h => h⟩

namespace Renaming

variable {σ : Ref → Ref}

theorem spelled (hσ : d.Renaming σ) (h : Handle) : mintOf ((Ref.text ∘ σ) (.handle h)) = some h.mint := by
  obtain ⟨n, hn⟩ := hσ.handle h
  rw [Function.comp_apply, hn]
  exact mintOf_handle _

theorem loan_spelled (hσ : d.Renaming σ) (n : Nat) : mintOf ((Ref.text ∘ σ) (.loan n)) = none := by
  obtain ⟨m, hm⟩ := hσ.loan n
  rw [Function.comp_apply, hm]
  exact loan_not_minted m

theorem names_nodup (hσ : d.Renaming σ) (hnodup : (d.handles.map HandleRecord.handle).Nodup) :
    (d.handleNames (Ref.text ∘ σ)).Nodup := by
  refine List.Nodup.map_on (fun r hr r' hr' heq => ?_) hnodup.of_map
  have hsame := hσ.inj _ (handle_mem_refs hr) _ (handle_mem_refs hr') (Ref.text_inj heq)
  exact List.inj_on_of_nodup_map hnodup hr hr' (Ref.handle.inj hsame)

/-- A record's handle is called by the same stable id under any counters. -/
theorem called_eq (hσ : d.Renaming σ) (hnodup : (d.handles.map HandleRecord.handle).Nodup) {r : HandleRecord}
    (hr : r ∈ d.handles) :
    d.called (Ref.text ∘ σ) ((Ref.text ∘ σ) (.handle r.handle)) = d.stableName (.handle r.handle) := by
  have hleft := d.called_handles _ (hσ.names_nodup hnodup)
  have hright := d.called_handles _ (Renaming.refl.names_nodup hnodup)
  have hboth := hleft.trans hright.symm
  rw [handleNames, handleNames, List.map_map, List.map_map, List.map_inj_left] at hboth
  exact hboth r hr

theorem stable_mem (hnodup : (d.handles.map HandleRecord.handle).Nodup) {r : HandleRecord} (hr : r ∈ d.handles) :
    d.stableName (.handle r.handle) ∈ d.stableIds := by
  rw [← d.called_handles _ (Renaming.refl.names_nodup hnodup), handleNames, List.map_map]
  exact List.mem_map.mpr ⟨r, hr, rfl⟩

/-- A handle of which there is no record is left over. -/
theorem refused (hσ : d.Renaming σ) (hnodup : (d.handles.map HandleRecord.handle).Nodup) (hrec : ¬ d.Recorded) :
    (normalizeHandles (d.json (Ref.text ∘ σ))).toOption = none := by
  unfold Recorded at hrec
  push Not at hrec
  obtain ⟨h, hin, hno⟩ := hrec
  have hout : (Ref.text ∘ σ) (.handle h) ∉ d.handleNames (Ref.text ∘ σ) := by
    intro hmem
    obtain ⟨r, hr, heq⟩ := List.mem_map.mp hmem
    have hsame := hσ.inj _ (handle_mem_refs hr) _ (functionRefs_sub hin) (Ref.text_inj heq)
    exact hno (List.mem_map.mpr ⟨r, hr, Ref.handle.inj hsame⟩)
  have hleft : (Ref.text ∘ σ) (.handle h) ∈ mintedLeftovers (d.rewritten (Ref.text ∘ σ)) := by
    refine List.mem_filter.mpr ⟨?_, by rw [hσ.spelled h]; rfl⟩
    rw [rewritten, json_eq, List.map_map, mem_textsFields]
    refine ⟨_, List.mem_map_of_mem functions_field, ?_⟩
    simp only [Function.comp_apply, String.reduceEq, if_false]
    rw [texts_rewrite, List.mem_map]
    exact ⟨_, Tagged.texts_of_refs (Ref.text ∘ σ) _ _ hin, called_of_not_mem hout⟩
  rw [d.normalizeHandles_eq _ (hσ.names_nodup hnodup)]
  cases hl : mintedLeftovers (d.rewritten (Ref.text ∘ σ)) with
  | nil => exact absurd (hl ▸ hleft) List.not_mem_nil
  | cons s rest => rfl

/-- Where the handles have records, each is rewritten to its stable id and nothing else is. -/
theorem accepted (hσ : d.Renaming σ) (hnodup : (d.handles.map HandleRecord.handle).Nodup) (hrec : d.Recorded)
    (hplain : ∀ s ∈ d.users, mintOf s = none) :
    normalizeHandles (d.json (Ref.text ∘ σ)) = .ok (d.normal (d.called (Ref.text ∘ σ) ∘ (Ref.text ∘ σ))) := by
  have hname : ∀ r ∈ d.handles, mintOf ((Ref.text ∘ σ) (.handle r.handle)) = some r.handle.mint := fun r _ => hσ.spelled r.handle
  have hnone : mintedLeftovers (d.rewritten (Ref.text ∘ σ)) = [] := by
    rw [rewritten_eq hname hplain, mintedLeftovers, List.filter_eq_nil_iff]
    intro s hs
    rw [Bool.not_eq_true, Option.isSome_eq_false_iff, Option.isNone_iff_eq_none]
    rcases texts_normal hs with hs | ⟨w, rfl⟩ | ⟨m, rfl⟩ | ⟨r, hr, rfl⟩
    · exact hplain s hs
    · exact word_not_minted w
    · exact mint_not_minted m
    · have hhandle : ∀ rec ∈ d.handles, mintOf
          (d.called (Ref.text ∘ σ) ((Ref.text ∘ σ) (.handle rec.handle))) = none := fun rec hin => by
        rw [hσ.called_eq hnodup hin]
        exact stable_not_minted d _ (stable_mem hnodup hin)
      rcases mem_refs hr with hfn | ⟨rec, hin, rfl⟩
      · cases r with
        | handle h =>
          obtain ⟨rec, hin, rfl⟩ := List.mem_map.mp (hrec h hfn)
          exact hhandle rec hin
        | loan n =>
          rw [Function.comp_apply, called_of_not_minted hname (hσ.loan_spelled n)]
          exact hσ.loan_spelled n
      · exact hhandle rec hin
  rw [d.normalizeHandles_eq _ (hσ.names_nodup hnodup), hnone, rewritten_eq hname hplain]

end Renaming

/-! ## What is touched -/

/-- The handles, and the handles only. -/
structure Touches (d : Layer2) : Prop where
  succeeds : d.Recorded → ∃ out, normalizeHandles (d.json Ref.text) = .ok out
  exactly : ∀ out, normalizeHandles (d.json Ref.text) = .ok out → out = d.normal d.stableName
  renamed : ∀ σ, d.Renaming σ → (normalizeHandles (d.json (Ref.text ∘ σ))).toOption = (normalizeHandles
    (d.json Ref.text)).toOption

theorem touches_of_plain (hnodup : (d.handles.map HandleRecord.handle).Nodup) (h : d.Recorded → d.Plain) : d.Touches := by
  by_cases hrec : d.Recorded
  · obtain ⟨hplain, hloans⟩ := h hrec
    have hall : ∀ σ, d.Renaming σ → normalizeHandles (d.json (Ref.text ∘ σ)) = .ok (d.normal d.stableName) := by
      intro σ hσ
      rw [hσ.accepted hnodup hrec hplain]
      refine congrArg Except.ok (normal_congr fun r hr => ?_)
      rcases mem_refs hr with hfn | ⟨rec, hin, rfl⟩
      · cases r with
        | handle h =>
          obtain ⟨rec, hin, rfl⟩ := List.mem_map.mp (hrec h hfn)
          exact hσ.called_eq hnodup hin
        | loan n => exact absurd hfn (hloans n)
      · exact hσ.called_eq hnodup hin
    have hown : normalizeHandles (d.json Ref.text) = .ok (d.normal d.stableName) := hall id Renaming.refl
    refine ⟨fun _ => ⟨_, hown⟩, fun out hok => ?_, fun σ hσ => by rw [hall σ hσ, hown]⟩
    rw [hown] at hok
    exact (Except.ok.inj hok).symm
  · have hown : (normalizeHandles (d.json Ref.text)).toOption = none := Renaming.refl.refused hnodup hrec
    refine ⟨fun h => absurd h hrec, fun out hok => ?_, fun σ hσ => by rw [hσ.refused hnodup hrec, hown]⟩
    rw [hok] at hown
    cases hown

/-- The loans' counters moved up. -/
def shiftLoans : Ref → Ref
  | .handle h => .handle h
  | .loan n => .loan (n + 1)

theorem shiftLoans_renaming : d.Renaming shiftLoans := by
  refine ⟨fun h => ⟨h.counter, rfl⟩, fun n => ⟨n + 1, rfl⟩, fun r _ s _ h => ?_⟩
  cases r with
  | handle a =>
    cases s with
    | handle b => exact h
    | loan m => cases h
  | loan n =>
    cases s with
    | handle b => cases h
    | loan m => rw [Nat.succ.inj (Ref.loan.inj h)]

theorem plain_of_touches (hnodup : (d.handles.map HandleRecord.handle).Nodup) (h : d.Touches) (hrec : d.Recorded) : d.Plain := by
  obtain ⟨out, hok⟩ := h.succeeds hrec
  have hout := h.exactly out hok
  have hplain : ∀ s ∈ d.users, mintOf s = none := by
    intro s hs
    by_contra hmint
    have heq := d.normalizeHandles_eq _ (Renaming.refl.names_nodup hnodup)
    rw [show normalizeHandles (d.json (Ref.text ∘ id)) = .ok out from hok] at heq
    cases hl : mintedLeftovers (d.rewritten (Ref.text ∘ id)) with
    | cons s' rest =>
      rw [hl] at heq
      cases heq
    | nil =>
      rw [hl] at heq
      have hin : s ∈ mintedLeftovers out := by
        refine List.mem_filter.mpr ⟨hout ▸ users_in_normal hs, ?_⟩
        exact Option.isSome_iff_ne_none.mpr hmint
      rw [Except.ok.inj heq, hl] at hin
      cases hin
  refine ⟨hplain, fun n hn => ?_⟩
  have hshift := h.renamed shiftLoans shiftLoans_renaming
  rw [shiftLoans_renaming.accepted hnodup hrec hplain,
    show normalizeHandles (d.json Ref.text) = .ok _ from Renaming.refl.accepted hnodup hrec hplain] at hshift
  have hfields := Option.some.inj hshift
  rw [normal, normal, json_eq, json_eq, List.map_map, List.map_map, List.map_inj_left] at hfields
  have hfunctions := hfields _ functions_field
  simp only [Function.comp_apply, String.reduceEq, if_false, Prod.mk.injEq, true_and] at hfunctions
  have hnames := (Tagged.untag_eq _ _ _).mp hfunctions (.loan n) hn
  have hnone : ∀ σ, d.Renaming σ → d.called (Ref.text ∘ σ) ((Ref.text ∘ σ) (.loan n)) = (Ref.text ∘ σ) (.loan n) := fun σ hσ =>
    called_of_not_minted (fun r _ => hσ.spelled r.handle) (hσ.loan_spelled n)
  have hsame := (hnone _ shiftLoans_renaming).symm.trans (hnames.trans (hnone id Renaming.refl))
  have hcounter := Ref.loan.inj (Ref.text_inj hsame)
  omega

/-- Where the handles referred to have records, just these are rewritten, under any counters,
    exactly where nothing else is spelled as a handle and nothing else is minted. -/
theorem touches_iff (d : Layer2) (hnodup : (d.handles.map HandleRecord.handle).Nodup) : d.Touches ↔ (d.Recorded → d.Plain) :=
  ⟨plain_of_touches hnodup, touches_of_plain hnodup⟩

/-- A local that is rented and given back. -/
theorem touches_rented :
    let d : Layer2 :=
      { module_ := "M", resources := [], externs := [], lifetimes := []
        functions := [⟨"F", none, [], none, [.acquire (.handle ⟨.loc, 0⟩) "Disposable" 3, .release (.handle ⟨.loc, 0⟩) 4]⟩]
        handles := [⟨⟨.loc, 0⟩, [("file", .str "F.cs"), ("line", .int 3), ("event", .str "buffer"), ("component", .str "F")]⟩] }
    d.Touches := by
  intro d
  refine (touches_iff d (by decide)).mpr fun _ => ⟨by decide, fun n hn => ?_⟩
  have hrefs : d.functionRefs = [.handle ⟨.loc, 0⟩, .handle ⟨.loc, 0⟩] := by decide
  rw [hrefs] at hn
  simp at hn

/-- A local called `loc_0` that is the first one: its own name is rewritten. -/
theorem local_named_as_handle : ¬ ∀ d : Layer2, (d.handles.map HandleRecord.handle).Nodup → d.Touches := by
  intro h
  let d : Layer2 :=
    { module_ := "M", resources := [], externs := [], lifetimes := [], functions := []
      handles := [⟨⟨.loc, 0⟩, [("file", .str "F.cs"), ("line", .int 3), ("event", .str "loc_0"), ("component", .str "F")]⟩] }
  have htouches := h d (by decide)
  obtain ⟨out, hok⟩ := htouches.succeeds fun _ hin => absurd hin List.not_mem_nil
  rw [htouches.exactly out hok] at hok
  have htexts := congrArg (fun e => e.toOption.map textsFields) hok
  revert htexts
  decide

end Layer2

end OwnNet.Repro
