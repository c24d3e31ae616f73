/-
  OwnNet.Checks — checks made one after the other: the first that fails says why, and a run
  that says nothing has made them all.

  Proved: one iff for every form a sequence of checks has (`bind_ok`, `ensure_ok`,
  `each_ok`, `mapEach_ok`, `distinct_ok`, `require_ok`, `recast_ok`), so that a validator accepts exactly
  where the conjunction of its checks holds.
-/

import Mathlib.Data.List.Forall2
import Mathlib.Data.List.Nodup

namespace OwnNet.Checks

variable {ε ε' α β : Type}

theorem ok_bind {a : α} {f : α → Except ε β} : ((Except.ok a : Except ε α) >>= f) = f a := rfl

theorem bind_ok {x : Except ε α} {f : α → Except ε β} {r : β} : (x >>= f) = .ok r ↔ ∃ a, x = .ok a ∧ f a = .ok r := by
  cases x with
  | error e => exact ⟨fun h => (by cases h), fun ⟨a, h, _⟩ => by cases h⟩
  | ok a => exact ⟨fun h => ⟨a, rfl, h⟩, fun ⟨a', h, hf⟩ => by cases h; exact hf⟩

theorem seq_ok {x : Except ε Unit} {f : Unit → Except ε β} {r : β} : (x >>= f) = .ok r ↔ x = .ok () ∧ f () = .ok r := by
  rw [bind_ok]
  exact ⟨fun ⟨_, h, hf⟩ => ⟨h, hf⟩, fun ⟨h, hf⟩ => ⟨(), h, hf⟩⟩

/-- One check: what is to hold, and what is said where it does not. -/
def ensure (p : Prop) [Decidable p] (e : ε) : Except ε Unit := if p then .ok () else .error e

theorem ensure_ok {p : Prop} [Decidable p] {e : ε} {u : Unit} : ensure p e = .ok u ↔ p := by
  unfold ensure
  split
  next h => exact ⟨fun _ => h, fun _ => rfl⟩
  next h => exact ⟨fun hno => (by cases hno), fun hp => absurd hp h⟩

theorem ensure_bind_ok {p : Prop} [Decidable p] {e : ε} {f : Unit → Except ε β} {r : β} :
    (ensure p e >>= f) = .ok r ↔ p ∧ f () = .ok r := by
  rw [bind_ok]
  exact ⟨fun ⟨_, h, hf⟩ => ⟨ensure_ok.mp h, hf⟩, fun ⟨h, hf⟩ => ⟨(), ensure_ok.mpr h, hf⟩⟩

/-- Whatever a run that passes ends with. -/
theorem passes_bind {x : Except ε α} {f : α → Except ε β} : (∃ r, (x >>= f) = .ok r) ↔ ∃ a, x = .ok a ∧ ∃ r, f a = .ok r := by
  constructor
  · rintro ⟨r, h⟩
    obtain ⟨a, hx, hf⟩ := bind_ok.mp h
    exact ⟨a, hx, r, hf⟩
  · rintro ⟨a, hx, r, hf⟩
    exact ⟨r, bind_ok.mpr ⟨a, hx, hf⟩⟩

theorem passes_ensure {p : Prop} [Decidable p] {e : ε} {f : Unit → Except ε β} :
    (∃ r, (ensure p e >>= f) = .ok r) ↔ p ∧ ∃ r, f () = .ok r := by
  rw [passes_bind]
  exact ⟨fun ⟨_, h, hf⟩ => ⟨ensure_ok.mp h, hf⟩, fun ⟨h, hf⟩ => ⟨(), ensure_ok.mpr h, hf⟩⟩

/-- A value that is to be there. -/
def require (o : Option α) (e : ε) : Except ε α :=
  match o with
  | some a => .ok a
  | none => .error e

theorem require_ok {o : Option α} {e : ε} {a : α} : require o e = .ok a ↔ o = some a := by
  cases o with
  | none => exact ⟨fun h => (by cases h), fun h => by cases h⟩
  | some b => exact ⟨fun h => (by cases h; rfl), fun h => by cases h; rfl⟩

/-- The same checks, said in another way. -/
def recast (f : ε → ε') (x : Except ε α) : Except ε' α :=
  match x with
  | .ok a => .ok a
  | .error e => .error (f e)

theorem recast_ok {f : ε → ε'} {x : Except ε α} {a : α} : recast f x = .ok a ↔ x = .ok a := by
  cases x with
  | error e => exact ⟨fun h => (by cases h), fun h => by cases h⟩
  | ok b => exact ⟨fun h => (by cases h; rfl), fun h => by cases h; rfl⟩

/-! ## Over a list -/

/-- A check of every item, with its position. -/
def eachFrom (f : Nat → α → Except ε Unit) (i : Nat) : List α → Except ε Unit
  | [] => .ok ()
  | a :: rest => f i a >>= fun _ => eachFrom f (i + 1) rest

def each (f : Nat → α → Except ε Unit) (items : List α) : Except ε Unit := eachFrom f 0 items

theorem eachFrom_ok {f : Nat → α → Except ε Unit} {items : List α} {i : Nat} :
    eachFrom f i items = .ok () ↔ ∀ j, ∀ h : j < items.length, f (i + j) items[j] = .ok () := by
  induction items generalizing i with
  | nil => exact ⟨fun _ j h => absurd h (Nat.not_lt_zero j), fun _ => rfl⟩
  | cons a rest ih =>
    rw [eachFrom, bind_ok]
    constructor
    · rintro ⟨_, ha, hrest⟩ j hj
      cases j with
      | zero => exact ha
      | succ j =>
        have := ih.mp hrest j (Nat.lt_of_succ_lt_succ hj)
        rw [show i + (j + 1) = i + 1 + j by omega]
        exact this
    · intro h
      refine ⟨(), h 0 (Nat.zero_lt_succ _), ih.mpr fun j hj => ?_⟩
      have := h (j + 1) (Nat.succ_lt_succ hj)
      rw [show i + (j + 1) = i + 1 + j by omega] at this
      exact this

/-- A check that passes or not whatever the position. -/
theorem each_ok {f : Nat → α → Except ε Unit} {p : α → Prop} {items : List α} (hf : ∀ i, ∀ a ∈ items, f i a = .ok () ↔ p a) :
    each f items = .ok () ↔ ∀ a ∈ items, p a := by
  unfold each
  rw [eachFrom_ok]
  constructor
  · intro h a ha
    obtain ⟨j, hj, rfl⟩ := List.getElem_of_mem ha
    exact (hf (0 + j) _ ha).mp (h j hj)
  · exact fun h j hj => (hf (0 + j) _ (List.getElem_mem hj)).mpr (h _ (List.getElem_mem hj))

/-- Reading every item, with its position. -/
def mapFrom (f : Nat → α → Except ε β) (i : Nat) : List α → Except ε (List β)
  | [] => .ok []
  | a :: rest => f i a >>= fun b => mapFrom f (i + 1) rest >>= fun bs => .ok (b :: bs)

def mapEach (f : Nat → α → Except ε β) (items : List α) : Except ε (List β) := mapFrom f 0 items

theorem mapFrom_ok {f : Nat → α → Except ε β} {R : α → β → Prop} {items : List α} {bs : List β} {i : Nat}
    (hf : ∀ i, ∀ a ∈ items, ∀ b, f i a = .ok b ↔ R a b) : mapFrom f i items = .ok bs ↔ List.Forall₂ R items bs := by
  induction items generalizing i bs with
  | nil =>
    rw [List.forall₂_nil_left_iff]
    exact ⟨fun h => (by cases h; rfl), fun h => by cases h; rfl⟩
  | cons a rest ih =>
    have hrest := fun {bs} => @ih bs (i + 1) fun j b hb => hf j b (List.mem_cons_of_mem _ hb)
    rw [mapFrom, bind_ok, List.forall₂_cons_left_iff]
    constructor
    · rintro ⟨b, hb, h⟩
      obtain ⟨bs', hbs', hr⟩ := bind_ok.mp h
      cases hr
      exact ⟨b, bs', (hf i a List.mem_cons_self b).mp hb, hrest.mp hbs', rfl⟩
    · rintro ⟨b, bs', hb, hbs', rfl⟩
      exact ⟨b, (hf i a List.mem_cons_self b).mpr hb, bind_ok.mpr ⟨bs', hrest.mpr hbs', rfl⟩⟩

/-- Items that are read the same way at any position. -/
theorem mapEach_ok {f : Nat → α → Except ε β} {R : α → β → Prop} {items : List α} {bs : List β}
    (hf : ∀ i, ∀ a ∈ items, ∀ b, f i a = .ok b ↔ R a b) : mapEach f items = .ok bs ↔ List.Forall₂ R items bs := mapFrom_ok hf

theorem exists_reads {R : α → β → Prop} {items : List α} (h : ∀ a ∈ items, ∃ b, R a b) : ∃ bs, List.Forall₂ R items bs := by
  induction items with
  | nil => exact ⟨[], List.Forall₂.nil⟩
  | cons a rest ih =>
    obtain ⟨b, hb⟩ := h a List.mem_cons_self
    obtain ⟨bs, hbs⟩ := ih fun a ha => h a (List.mem_cons_of_mem _ ha)
    exact ⟨b :: bs, List.Forall₂.cons hb hbs⟩

/-- Readings that only one value fits. -/
theorem reads_iff {R : α → β → Prop} {g : α → β} {items : List α} {bs : List β} (h : ∀ a ∈ items, ∀ b, R a b → b = g a) :
    List.Forall₂ R items bs ↔ (∀ a ∈ items, R a (g a)) ∧ bs = items.map g := by
  induction items generalizing bs with
  | nil =>
    rw [List.forall₂_nil_left_iff]
    exact ⟨fun hb => ⟨fun a ha => absurd ha List.not_mem_nil, hb⟩, fun hb => hb.2⟩
  | cons a rest ih =>
    have ih := fun {bs} => @ih bs fun a ha => h a (List.mem_cons_of_mem _ ha)
    rw [List.forall₂_cons_left_iff]
    constructor
    · rintro ⟨b, bs, hb, hbs, rfl⟩
      obtain ⟨hall, rfl⟩ := ih.mp hbs
      have hba := h a List.mem_cons_self b hb
      subst hba
      exact ⟨List.forall_mem_cons.mpr ⟨hb, hall⟩, rfl⟩
    · rintro ⟨hall, rfl⟩
      obtain ⟨hb, hall⟩ := List.forall_mem_cons.mp hall
      exact ⟨_, _, hb, ih.mpr ⟨hall, rfl⟩, rfl⟩

theorem exists_read {R : α → β → Prop} {items : List α} {bs : List β} (h : List.Forall₂ R items bs) {a : α} (ha : a ∈ items) :
    ∃ b ∈ bs, R a b := by
  induction h with
  | nil => cases ha
  | cons hab _ ih =>
    rcases List.mem_cons.mp ha with rfl | ha
    · exact ⟨_, List.mem_cons_self, hab⟩
    · obtain ⟨b, hb, hr⟩ := ih ha
      exact ⟨b, List.mem_cons_of_mem _ hb, hr⟩

theorem exists_item {R : α → β → Prop} {items : List α} {bs : List β} (h : List.Forall₂ R items bs) {b : β} (hb : b ∈ bs) :
    ∃ a ∈ items, R a b := by
  induction h with
  | nil => cases hb
  | cons hab _ ih =>
    rcases List.mem_cons.mp hb with rfl | hb
    · exact ⟨_, List.mem_cons_self, hab⟩
    · obtain ⟨a, ha, hr⟩ := ih hb
      exact ⟨a, List.mem_cons_of_mem _ ha, hr⟩

/-- Where an item that was read comes from. -/
theorem exists_sourceFrom {f : Nat → α → Except ε β} {items : List α} {bs : List β} {i : Nat}
    (h : mapFrom f i items = .ok bs) {b : β}
    (hb : b ∈ bs) : ∃ a ∈ items, ∃ i, f i a = .ok b := by
  induction items generalizing i bs with
  | nil =>
    cases h
    cases hb
  | cons a rest ih =>
    rw [mapFrom] at h
    simp only [bind_ok, Except.ok.injEq] at h
    obtain ⟨b', hb', bs', hbs', rfl⟩ := h
    rcases List.mem_cons.mp hb with rfl | hb
    · exact ⟨a, List.mem_cons_self, i, hb'⟩
    · obtain ⟨a', ha', hi⟩ := ih hbs' hb
      exact ⟨a', List.mem_cons_of_mem _ ha', hi⟩

theorem exists_source {f : Nat → α → Except ε β} {items : List α} {bs : List β} (h : mapEach f items = .ok bs)
    {b : β} (hb : b ∈ bs) :
    ∃ a ∈ items, ∃ i, f i a = .ok b := exists_sourceFrom h hb

/-- Items written out from what they read back as. -/
theorem mapEach_of_map {f : Nat → α → Except ε β} {g : β → α} {bs : List β} (h : ∀ i, ∀ b ∈ bs, f i (g b) = .ok b) :
    mapEach f (bs.map g) = .ok bs := by
  have hall : ∀ (l : List β) (i : Nat), (∀ i, ∀ b ∈ l, f i (g b) = .ok b) → mapFrom f i (l.map g) = .ok l := by
    intro l
    induction l with
    | nil => exact fun _ _ => rfl
    | cons b rest ih =>
      intro i h
      rw [List.map_cons, mapFrom, bind_ok]
      exact ⟨b, h i b List.mem_cons_self, bind_ok.mpr ⟨rest, ih (i + 1) fun j b hb => h j b (List.mem_cons_of_mem _ hb), rfl⟩⟩
  exact hall bs 0 h

/-- Reading every item, each at its own position. -/
theorem mapEach_of_get {f : Nat → α → Except ε β} {items : List α} {bs : List β} (hl : items.length = bs.length)
    (h : ∀ j, ∀ hj : j < items.length, f j items[j] = .ok (bs.get ⟨j, hl ▸ hj⟩)) : mapEach f items = .ok bs := by
  have hall : ∀ (items : List α) (bs : List β) (i : Nat) (hl : items.length = bs.length),
      (∀ j, ∀ hj : j < items.length, f (i + j) items[j] = .ok (bs.get ⟨j, hl ▸ hj⟩)) → mapFrom f i items = .ok bs := by
    intro items
    induction items with
    | nil =>
      intro bs i hl _
      rw [List.length_eq_zero_iff.mp hl.symm]
      rfl
    | cons a rest ih =>
      intro bs i hl h
      cases bs with
      | nil => cases hl
      | cons b bs =>
        rw [mapFrom, bind_ok]
        refine ⟨b, h 0 (Nat.zero_lt_succ _), bind_ok.mpr ⟨bs, ih bs (i + 1) (Nat.succ.inj hl) fun j hj => ?_, rfl⟩⟩
        rw [show i + 1 + j = i + (j + 1) by omega]
        exact h (j + 1) (Nat.succ_lt_succ hj)
  exact hall items bs 0 hl fun j hj => by rw [Nat.zero_add]; exact h j hj

/-- Reading items none of which fails. -/
theorem mapM_ok {f : α → Except ε β} {g : α → β} {items : List α} (h : ∀ a ∈ items, f a = .ok (g a)) :
    items.mapM f = .ok (items.map g) := by
  induction items with
  | nil => rfl
  | cons a rest ih =>
    rw [List.mapM_cons, h a List.mem_cons_self, ih fun b hb => h b (List.mem_cons_of_mem _ hb)]
    rfl

/-- Steps over items none of which fails. -/
theorem foldlM_ok {f : β → α → Except ε β} {g : β → α → β} {items : List α} (h : ∀ b, ∀ a ∈ items, f b a = .ok (g b a)) (b : β) :
    items.foldlM f b = .ok (items.foldl g b) := by
  induction items generalizing b with
  | nil => rfl
  | cons a rest ih =>
    rw [List.foldlM_cons, h b a List.mem_cons_self]
    exact ih (fun b a ha => h b a (List.mem_cons_of_mem _ ha)) (g b a)

/-! ## Items with a name of their own -/

section Distinct

variable {κ : Type} [DecidableEq κ]

/-- Reading every item by its name, no name twice: `name` first, then `body`. -/
def distinctFrom (name : Nat → α → Except ε κ) (twice : Nat → κ → ε) (body : Nat → α → κ → Except ε β) (i : Nat) (seen : List κ) :
    List α → Except ε (List (κ × β))
  | [] => .ok []
  | a :: rest =>
    name i a >>= fun k =>
    ensure (k ∉ seen) (twice i k) >>= fun _ =>
    body i a k >>= fun b =>
    distinctFrom name twice body (i + 1) (k :: seen) rest >>= fun out => .ok ((k, b) :: out)

def distinct (name : Nat → α → Except ε κ) (twice : Nat → κ → ε) (body : Nat → α → κ → Except ε β) (items : List α) :
    Except ε (List (κ × β)) := distinctFrom name twice body 0 [] items

theorem distinctFrom_ok {name : Nat → α → Except ε κ} {twice : Nat → κ → ε} {body : Nat → α → κ → Except ε β}
    {R : α → κ × β → Prop}
    {items : List α} {out : List (κ × β)} {i : Nat} {seen : List κ}
    (h : ∀ i, ∀ a ∈ items, ∀ k b, name i a = .ok k ∧ body i a k = .ok b ↔ R a (k, b)) :
    distinctFrom name twice body i seen items = .ok out ↔
      List.Forall₂ R items out ∧ (out.map Prod.fst).Nodup ∧ ∀ k ∈ out.map Prod.fst, k ∉ seen := by
  induction items generalizing i seen out with
  | nil =>
    rw [List.forall₂_nil_left_iff]
    constructor
    · rintro ⟨⟩
      exact ⟨rfl, List.nodup_nil, fun k hk => absurd hk List.not_mem_nil⟩
    · rintro ⟨rfl, -, -⟩
      rfl
  | cons a rest ih =>
    have hrest := fun {out seen} => @ih out (i + 1) seen fun j b hb => h j b (List.mem_cons_of_mem _ hb)
    rw [distinctFrom, List.forall₂_cons_left_iff]
    simp only [bind_ok, ensure_ok, Except.ok.injEq]
    constructor
    · rintro ⟨k, hk, _, hseen, b, hb, out, hout, rfl⟩
      obtain ⟨hall, hn, hdisj⟩ := hrest.mp hout
      refine ⟨⟨(k, b), out, (h i a List.mem_cons_self k b).mp ⟨hk, hb⟩, hall, rfl⟩, ?_, ?_⟩
      · exact List.nodup_cons.mpr ⟨fun hmem => hdisj k hmem List.mem_cons_self, hn⟩
      · intro k' hk'
        rcases List.mem_cons.mp hk' with rfl | hk'
        · exact hseen
        · exact fun hs => hdisj k' hk' (List.mem_cons_of_mem _ hs)
    · rintro ⟨⟨⟨k, b⟩, out, hab, hall, rfl⟩, hn, hdisj⟩
      obtain ⟨hk, hb⟩ := (h i a List.mem_cons_self k b).mpr hab
      obtain ⟨hout, hn⟩ := List.nodup_cons.mp hn
      refine ⟨k, hk, (), hdisj k List.mem_cons_self, b, hb, out, hrest.mpr ⟨hall, hn, fun k' hk' hs => ?_⟩, rfl⟩
      rcases List.mem_cons.mp hs with rfl | hs
      · exact hout hk'
      · exact hdisj k' (List.mem_cons_of_mem _ hk') hs

/-- What a run over items has read, whatever the position counts for. -/
theorem distinctFrom_reads {name : Nat → α → Except ε κ} {twice : Nat → κ → ε} {body : Nat → α → κ → Except ε β} {items : List α}
    {out : List (κ × β)} {i : Nat} {seen : List κ} (h : distinctFrom name twice body i seen items = .ok out) :
    List.Forall₂ (fun a kb => ∃ i, name i a = .ok kb.1 ∧ body i a kb.1 = .ok kb.2) items out ∧ (out.map Prod.fst).Nodup ∧
      ∀ k ∈ out.map Prod.fst, k ∉ seen := by
  induction items generalizing i seen out with
  | nil =>
    cases h
    exact ⟨List.Forall₂.nil, List.nodup_nil, fun k hk => absurd hk List.not_mem_nil⟩
  | cons a rest ih =>
    rw [distinctFrom] at h
    simp only [bind_ok, ensure_ok, Except.ok.injEq] at h
    obtain ⟨k, hk, _, hseen, b, hb, out, hout, rfl⟩ := h
    obtain ⟨hall, hn, hdisj⟩ := ih hout
    refine ⟨List.Forall₂.cons ⟨i, hk, hb⟩ hall, List.nodup_cons.mpr ⟨fun hmem => hdisj k hmem List.mem_cons_self, hn⟩, ?_⟩
    intro k' hk'
    rcases List.mem_cons.mp hk' with rfl | hk'
    · exact hseen
    · exact fun hs => hdisj k' hk' (List.mem_cons_of_mem _ hs)

theorem distinct_reads {name : Nat → α → Except ε κ} {twice : Nat → κ → ε} {body : Nat → α → κ → Except ε β} {items : List α}
    {out : List (κ × β)} (h : distinct name twice body items = .ok out) :
    List.Forall₂ (fun a kb => ∃ i, name i a = .ok kb.1 ∧ body i a kb.1 = .ok kb.2) items out ∧ (out.map Prod.fst).Nodup :=
  ⟨(distinctFrom_reads h).1, (distinctFrom_reads h).2.1⟩

/-- Items written out from others. -/
theorem distinct_map {γ : Type} {name : Nat → α → Except ε κ} {twice : Nat → κ → ε} {body : Nat → α → κ → Except ε β} {g : γ → α}
    {items : List γ} :
    distinct name twice body (items.map g) = distinct (fun i c => name i (g c)) twice (fun i c => body i (g c)) items := by
  have hall : ∀ (items : List γ) (i : Nat) (seen : List κ), distinctFrom name twice body i seen (items.map g) =
      distinctFrom (fun i c => name i (g c)) twice (fun i c => body i (g c)) i seen items := by
    intro items
    induction items with
    | nil => exact fun _ _ => rfl
    | cons c rest ih =>
      intro i seen
      rw [List.map_cons, distinctFrom, distinctFrom]
      simp only [ih]
  exact hall items 0 []

theorem distinct_ok {name : Nat → α → Except ε κ} {twice : Nat → κ → ε} {body : Nat → α → κ → Except ε β} {R : α → κ × β → Prop}
    {items : List α} {out : List (κ × β)} (h : ∀ i, ∀ a ∈ items, ∀ k b, name i a = .ok k ∧ body i a k = .ok b ↔ R a (k, b)) :
    distinct name twice body items = .ok out ↔ List.Forall₂ R items out ∧ (out.map Prod.fst).Nodup := by
  unfold distinct
  rw [distinctFrom_ok h]
  exact and_congr_right fun _ => ⟨fun h => h.1, fun h => ⟨h, fun _ _ => List.not_mem_nil⟩⟩

end Distinct

/-! ## Where a run stops -/

section Stops

variable {q : ε → Prop}

/-- A run that ends in an error of this kind. -/
def Stops (q : ε → Prop) (x : Except ε α) : Prop := ∃ e, x = .error e ∧ q e

theorem not_stops_ok {a : α} : ¬Stops q (Except.ok a : Except ε α) := fun ⟨_, h, _⟩ => by cases h

theorem stops_error {e : ε} : Stops q (Except.error e : Except ε α) ↔ q e :=
  ⟨fun ⟨_, h, hq⟩ => by cases h; exact hq, fun h => ⟨e, rfl, h⟩⟩

theorem stops_bind {x : Except ε α} {f : α → Except ε β} : Stops q (x >>= f) ↔ Stops q x ∨ ∃ a, x = .ok a ∧ Stops q (f a) := by
  cases x with
  | error e =>
    show Stops q (Except.error e) ↔ _
    rw [stops_error, stops_error]
    exact ⟨Or.inl, fun h => h.elim id fun ⟨_, h, _⟩ => by cases h⟩
  | ok a =>
    show Stops q (f a) ↔ _
    exact ⟨fun h => .inr ⟨a, rfl, h⟩, fun h => h.elim (fun h => absurd h not_stops_ok) fun ⟨_, h, hf⟩ => by cases h; exact hf⟩

theorem stops_ensure {p : Prop} [Decidable p] {e : ε} : Stops q (ensure p e) ↔ ¬p ∧ q e := by
  unfold ensure
  split
  next h => exact ⟨fun hs => absurd hs not_stops_ok, fun hs => absurd h hs.1⟩
  next h => rw [stops_error]; exact ⟨fun hq => ⟨h, hq⟩, And.right⟩

theorem stops_require {o : Option α} {e : ε} : Stops q (require o e) ↔ o = none ∧ q e := by
  cases o with
  | none => exact stops_error.trans ⟨fun h => ⟨rfl, h⟩, And.right⟩
  | some a => exact ⟨fun h => absurd h not_stops_ok, fun h => (by cases h.1)⟩

/-- One of the items is `c`, and all before it are `p`. -/
def First (p c : α → Prop) : List α → Prop
  | [] => False
  | a :: rest => c a ∨ p a ∧ First p c rest

/-- Of items that are `c` one is the first. -/
theorem first_not {c : α → Prop} {items : List α} : First (fun a => ¬ c a) c items ↔ ∃ a ∈ items, c a := by
  induction items with
  | nil => exact ⟨False.elim, fun ⟨_, h, _⟩ => absurd h List.not_mem_nil⟩
  | cons a rest ih =>
    rw [First, ih, List.exists_mem_cons_iff]
    by_cases ha : c a
    · simp [ha]
    · simp [ha]

theorem stops_eachFrom {f : Nat → α → Except ε Unit} {p c : α → Prop} {items : List α} {i : Nat}
    (hp : ∀ i, ∀ a ∈ items, f i a = .ok () ↔ p a) (hc : ∀ i, ∀ a ∈ items, Stops q (f i a) ↔ c a) :
    Stops q (eachFrom f i items) ↔ First p c items := by
  induction items generalizing i with
  | nil => exact ⟨fun h => absurd h not_stops_ok, False.elim⟩
  | cons a rest ih =>
    have hrest := @ih (i + 1) (fun j b hb => hp j b (List.mem_cons_of_mem _ hb)) fun j b hb => hc j b (List.mem_cons_of_mem _ hb)
    rw [eachFrom, stops_bind, hc i a List.mem_cons_self, First, hrest]
    exact or_congr_right ⟨fun ⟨_, ha, h⟩ => ⟨(hp i a List.mem_cons_self).mp ha, h⟩,
      fun ⟨ha, h⟩ => ⟨(), (hp i a List.mem_cons_self).mpr ha, h⟩⟩

theorem stops_each {f : Nat → α → Except ε Unit} {p c : α → Prop} {items : List α} (hp : ∀ i, ∀ a ∈ items, f i a = .ok () ↔ p a)
    (hc : ∀ i, ∀ a ∈ items, Stops q (f i a) ↔ c a) : Stops q (each f items) ↔ First p c items := stops_eachFrom hp hc

/-- Where no item stops the run, at any position. -/
theorem not_stops_each {f : Nat → α → Except ε Unit} {items : List α} (h : ∀ i, ∀ a ∈ items, ¬Stops q (f i a)) :
    ¬Stops q (each f items) := by
  unfold each
  generalize (0 : Nat) = i
  induction items generalizing i with
  | nil => exact not_stops_ok
  | cons a rest ih =>
    rw [eachFrom, stops_bind, not_or]
    refine ⟨h i a List.mem_cons_self, ?_⟩
    rintro ⟨_, -, hrest⟩
    exact ih (fun j b hb => h j b (List.mem_cons_of_mem _ hb)) (i + 1) hrest

theorem stops_mapFrom {f : Nat → α → Except ε β} {R : α → β → Prop} {c : α → Prop} {items : List α} {i : Nat}
    (hR : ∀ i, ∀ a ∈ items, ∀ b, f i a = .ok b ↔ R a b) (hc : ∀ i, ∀ a ∈ items, Stops q (f i a) ↔ c a) :
    Stops q (mapFrom f i items) ↔ First (fun a => ∃ b, R a b) c items := by
  induction items generalizing i with
  | nil => exact ⟨fun h => absurd h not_stops_ok, False.elim⟩
  | cons a rest ih =>
    have hrest := @ih (i + 1) (fun j b hb => hR j b (List.mem_cons_of_mem _ hb)) fun j b hb => hc j b (List.mem_cons_of_mem _ hb)
    rw [mapFrom, stops_bind, hc i a List.mem_cons_self, First]
    refine or_congr_right ⟨?_, ?_⟩
    · rintro ⟨b, hb, h⟩
      refine ⟨⟨b, (hR i a List.mem_cons_self b).mp hb⟩, hrest.mp ?_⟩
      exact (stops_bind.mp h).elim id fun ⟨_, _, h⟩ => absurd h not_stops_ok
    · rintro ⟨⟨b, hb⟩, h⟩
      exact ⟨b, (hR i a List.mem_cons_self b).mpr hb, stops_bind.mpr (.inl (hrest.mpr h))⟩

theorem stops_mapEach {f : Nat → α → Except ε β} {R : α → β → Prop} {c : α → Prop} {items : List α}
    (hR : ∀ i, ∀ a ∈ items, ∀ b, f i a = .ok b ↔ R a b) (hc : ∀ i, ∀ a ∈ items, Stops q (f i a) ↔ c a) :
    Stops q (mapEach f items) ↔ First (fun a => ∃ b, R a b) c items := stops_mapFrom hR hc

end Stops

end OwnNet.Checks
