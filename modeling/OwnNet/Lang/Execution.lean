/-
  OwnNet.Lang.Execution — a path of a function run on concrete resources, and what an
  accepted function does to them.

  Every acquisition makes a new instance; a move discharges the source's and starts one for
  the destination; an alias holds its source's. Acting on an instance that has been
  discharged, or on none, is a fault. A borrowed parameter is the caller's: nothing here can
  discharge it, and it is not followed.

  `Balanced` ties the states of the analysis along a path to the instances: an owned
  resource is one whose instance is not discharged.

  Proved: `accepted_exact`: a function nothing is reported about discharges every instance
  exactly once and never acts on a discharged one, exactly when no path comes to a `return`
  of what it has already discharged.
-/

import OwnNet.Lang.Exactness
import Mathlib.Data.List.Count

namespace OwnNet.Lang

/-! ## Instances -/

structure World where
  next : Nat := 0
  held : Dict Nat Nat := Dict.empty
  lent : Dict Nat Nat := Dict.empty
  gone : List Nat := []
  fault : Bool := false

namespace World

/-- The instance a symbol stands for. -/
def holding (w : World) (s : Symbol) : Option Nat :=
  match s.kind with
  | .owned => w.held.get? s.id
  | .borrow => w.lent.get? s.id
  | .plain => none

def start (w : World) (s : Symbol) : World := { w with next := w.next + 1, held := w.held.set s.id w.next }

def touch (w : World) (s : Symbol) : World :=
  if s.kind = .plain ∨ (s.kind = .borrow ∧ s.isParamBorrow) then w
  else
    match w.holding s with
    | some i => if i ∈ w.gone then { w with fault := true } else w
    | none => { w with fault := true }

def discharge (w : World) (s : Symbol) : World :=
  match w.holding s with
  | some i => { w with gone := w.gone ++ [i] }
  | none => w

def join (w : World) (handle src : Symbol) : World :=
  match w.holding src with
  | some i => { w with held := w.held.set handle.id i }
  | none => w

def lend (w : World) (binding owner : Symbol) : World :=
  match w.holding owner with
  | some i => { w with lent := w.lent.set binding.id i }
  | none => w

def arg (w : World) (a : Option Symbol × Effect) : World :=
  match a.1 with
  | none => w
  | some s => if s.kind = .owned ∧ a.2 = .consume then (w.touch s).discharge s else w.touch s

end World

def Instr.exec : Instr → World → World
  | .acquire sym _ _, w => w.start sym
  | .acquireBuffer sym _ _, w => w.start sym
  | .moveInto dst src _, w => ((w.touch src).discharge src).start dst
  | .aliasJoin handle src _, w => w.join handle src
  | .release sym _, w => (w.touch sym).discharge sym
  | .use sym _, w => w.touch sym
  | .overspan sym _, w => w.touch sym
  | .invoke _ args _, w => args.foldl World.arg w
  | .borrowStart owner binding _ _, w => (w.touch owner).lend binding owner
  | .borrowEnd _ _ _ _, w => w
  | .return_ none _, w => w
  | .return_ (some sym) _, w => (w.touch sym).discharge sym

/-- The owned parameters are there from the start. -/
def CFG.world (cfg : CFG) : World := (cfg.params.filter (·.kind = .owned)).foldl World.start {}

/-- The instances after one path. -/
def CFG.exec (cfg : CFG) (t : List Instr) : World := t.foldl (fun w a => a.exec w) cfg.world

/-- No path acts on what is gone, and every path leaves each instance discharged once. -/
def CFG.Exact (cfg : CFG) : Prop :=
  (∀ b i t, Path cfg b i t → (cfg.exec t).fault = false) ∧
    ∀ b blk t, cfg.blocks[b]? = some blk → blk.succ = [] → Path cfg b blk.instrs.length t →
      ∀ i < (cfg.exec t).next, (cfg.exec t).gone.count i = 1

/-! ## States and instances -/

/-- The analysis along a path, against the instances. -/
structure Balanced (G : Layout) (K : List Symbol) (var : Dict Nat (Finset VarState)) (loans : Dict Nat Loan) (w : World) :
    Prop where
  fault : w.fault = false
  old : ∀ i ∈ w.gone, i < w.next
  handle : ∀ k ∈ K, k.kind = .owned → w.held.get? k.id = w.held.get? (G.rid k.id)
  holds : ∀ r v, var.get? r = some {v} → ∃ i, w.held.get? r = some i ∧ i < w.next ∧ (v = .owned ↔ i ∉ w.gone)
  one : ∀ r v r' v' i, var.get? r = some {v} → var.get? r' = some {v'} → w.held.get? r = some i →
    w.held.get? r' = some i → r = r'
  account : ∀ i < w.next, (i ∉ w.gone ∧ ∃ r, var.get? r = some {.owned} ∧ w.held.get? r = some i) ∨ w.gone.count i = 1
  known : ∀ r, var.get? r = some {.owned} → ∃ k ∈ K, k.kind = .owned ∧ k.id = r
  lent : ∀ k ∈ K, k.kind = .borrow → ∃ l i, loans.get? k.id = some l ∧ var.get? l.owner = some {.owned} ∧
    w.lent.get? k.id = some i ∧ w.held.get? l.owner = some i
  single : ∀ r S, var.get? r = some S → ∃ v, S = {v}
  root : ∀ r S, var.get? r = some S → G.rid r = r

namespace Balanced

variable {G : Layout} {K : List Symbol} {var : Dict Nat (Finset VarState)} {loans : Dict Nat Loan} {w : World}

/-- The instance of an owned resource. -/
theorem live (h : Balanced G K var loans w) {s : Symbol} (hs : s ∈ K) (hk : s.kind = .owned) {v : VarState}
    (hv : var.get? (G.rid s.id) = some {v}) :
    ∃ i, w.holding s = some i ∧ w.held.get? (G.rid s.id) = some i ∧ i < w.next ∧ (v = .owned ↔ i ∉ w.gone) := by
  obtain ⟨i, hi, hlt, hgone⟩ := h.holds _ v hv
  refine ⟨i, ?_, hi, hlt, hgone⟩
  simp only [World.holding, hk]
  rw [h.handle s hs hk, hi]

theorem touch_owned (h : Balanced G K var loans w) {s : Symbol} (hs : s ∈ K) (hk : s.kind = .owned)
    (hv : var.get? (G.rid s.id) = some {.owned}) : w.touch s = w := by
  obtain ⟨i, hold, -, -, hgone⟩ := h.live hs hk hv
  simp [World.touch, hk, hold, hgone.mp rfl]

theorem touch_lent (h : Balanced G K var loans w) {s : Symbol} (hs : s ∈ K) (hk : s.kind = .borrow) : w.touch s = w := by
  obtain ⟨l, i, -, hv, hl, hi⟩ := h.lent s hs hk
  obtain ⟨j, hj, -, hgone⟩ := h.holds _ _ hv
  rw [hi] at hj
  cases hj
  have hold : w.holding s = some i := by simp [World.holding, hk, hl]
  simp [World.touch, hk, hold, hgone.mp rfl]

/-- An owned resource no loan is on is discharged. -/
theorem discharge (h : Balanced G K var loans w) {s : Symbol} (hs : s ∈ K) (hk : s.kind = .owned)
    (hv : var.get? (G.rid s.id) = some {.owned}) (hl : ∀ n l, loans.get? n = some l → l.owner ≠ G.rid s.id)
    {v : VarState} (hne : v ≠ .owned) :
    Balanced G K (var.set (G.rid s.id) {v}) loans ((w.touch s).discharge s) := by
  obtain ⟨i, hold, hheld, hlt, hgone⟩ := h.live hs hk hv
  have hi : i ∉ w.gone := hgone.mp rfl
  rw [h.touch_owned hs hk hv]
  have hw : w.discharge s = { w with gone := w.gone ++ [i] } := by simp [World.discharge, hold]
  rw [hw]
  have hother : ∀ r u, (var.set (G.rid s.id) {v}).get? r = some {u} →
      (r = G.rid s.id ∧ u = v) ∨ (r ≠ G.rid s.id ∧ var.get? r = some {u}) := by
    intro r u hu
    rw [Dict.get?_set] at hu
    split at hu
    next hr =>
      have : u = v := (Finset.singleton_injective (Option.some.inj hu)).symm
      exact Or.inl ⟨hr, this⟩
    next hr => exact Or.inr ⟨hr, hu⟩
  have hbefore : ∀ r u, (var.set (G.rid s.id) {v}).get? r = some {u} → ∃ u', var.get? r = some {u'} := by
    intro r u hu
    rcases hother r u hu with ⟨rfl, _⟩ | ⟨_, hu⟩
    · exact ⟨_, hv⟩
    · exact ⟨u, hu⟩
  refine ⟨h.fault, ?_, h.handle, ?_, ?_, ?_, ?_, ?_, ?_, ?_⟩
  · intro j hj
    rcases List.mem_append.mp hj with hj | hj
    · exact h.old j hj
    · rw [List.mem_singleton.mp hj]
      exact hlt
  · intro r u hu
    rcases hother r u hu with ⟨rfl, rfl⟩ | ⟨hr, hu⟩
    · exact ⟨i, hheld, hlt, by simp [hne]⟩
    · obtain ⟨j, hj, hjlt, hjgone⟩ := h.holds r u hu
      have hji : j ≠ i := by
        intro heq
        subst heq
        exact hr (h.one r u _ _ j hu hv hj hheld)
      exact ⟨j, hj, hjlt, by simp [hjgone, hji]⟩
  · intro r u r' u' j hu hu' hj hj'
    obtain ⟨u₁, hu₁⟩ := hbefore r u hu
    obtain ⟨u₂, hu₂⟩ := hbefore r' u' hu'
    exact h.one r u₁ r' u₂ j hu₁ hu₂ hj hj'
  · intro j hj
    by_cases hji : j = i
    · subst hji
      exact Or.inr (by simp [List.count_append, List.count_eq_zero_of_not_mem hi])
    · rcases h.account j hj with ⟨hnot, r, hr, hheldr⟩ | hone
      · refine Or.inl ⟨by simp [hnot, hji], r, ?_, hheldr⟩
        have hne' : r ≠ G.rid s.id := by
          intro heq
          rw [heq, hheld] at hheldr
          exact hji (Option.some.inj hheldr).symm
        rw [Dict.get?_set, if_neg hne']
        exact hr
      · right
        rw [List.count_append, hone]
        simp [Ne.symm hji]
  · intro r hr
    rcases hother r _ hr with ⟨_, heq⟩ | ⟨_, hr⟩
    · exact absurd heq.symm hne
    · exact h.known r hr
  · intro k hk' hb
    obtain ⟨l, j, hloan, hown, hlent, hheldl⟩ := h.lent k hk' hb
    refine ⟨l, j, hloan, ?_, hlent, hheldl⟩
    rw [Dict.get?_set, if_neg (hl _ l hloan)]
    exact hown
  · intro r S hS
    rw [Dict.get?_set] at hS
    split at hS
    · exact ⟨v, (Option.some.inj hS).symm⟩
    · exact h.single r S hS
  · intro r S hS
    rw [Dict.get?_set] at hS
    split at hS
    next hr => exact hr ▸ h.root _ _ hv
    next => exact h.root r S hS

/-- A new owner starts an instance of its own. -/
theorem start (h : Balanced G K var loans w) (hc : Closed G K) {s : Symbol} (hnew : ∀ k ∈ K, k.id ≠ s.id)
    (hk : s.kind = .owned) (hr : G.rid s.id = s.id) :
    Balanced G (K ++ [s]) (var.set s.id {.owned}) loans (w.start s) := by
  have hrid : ∀ k ∈ K, k.kind = .owned → G.rid k.id ≠ s.id := by
    intro k hkK hko
    obtain ⟨k', hk', heq, -⟩ := hc k hkK hko
    exact heq ▸ hnew k' hk'
  have hold : ∀ r, var.get? r = some {.owned} → r ≠ s.id := by
    intro r hown
    obtain ⟨k, hkK, -, heq⟩ := h.known r hown
    exact heq ▸ hnew k hkK
  have hother : ∀ r u, (var.set s.id {.owned}).get? r = some {u} →
      (r = s.id ∧ u = .owned) ∨ (r ≠ s.id ∧ var.get? r = some {u}) := by
    intro r u hu
    rw [Dict.get?_set] at hu
    split at hu
    next hr =>
      have : u = .owned := (Finset.singleton_injective (Option.some.inj hu)).symm
      exact Or.inl ⟨hr, this⟩
    next hr => exact Or.inr ⟨hr, hu⟩
  have hhere : (w.start s).held.get? s.id = some w.next := Dict.get?_set_self _ _ _
  have hthere : ∀ r, r ≠ s.id → (w.start s).held.get? r = w.held.get? r := fun r hne => Dict.get?_set_of_ne _ _ hne
  refine ⟨h.fault, fun i hi => Nat.lt_succ_of_lt (h.old i hi), ?_, ?_, ?_, ?_, ?_, ?_, ?_, ?_⟩
  · intro k hkK hko
    rcases List.mem_append.mp hkK with hkK | hkK
    · rw [hthere _ (hnew k hkK), hthere _ (hrid k hkK hko)]
      exact h.handle k hkK hko
    · rw [List.mem_singleton.mp hkK, hr]
  · intro r u hu
    rcases hother r u hu with ⟨rfl, rfl⟩ | ⟨hne, hu⟩
    · refine ⟨w.next, hhere, Nat.lt_succ_self _, ?_⟩
      simpa [World.start] using fun hmem => absurd (h.old _ hmem) (lt_irrefl _)
    · obtain ⟨i, hi, hlt, hgone⟩ := h.holds r u hu
      exact ⟨i, (hthere r hne).trans hi, Nat.lt_succ_of_lt hlt, hgone⟩
  · intro r u r' u' i hu hu' hi hi'
    have hnext : ∀ r u, r ≠ s.id → var.get? r = some {u} → (w.start s).held.get? r ≠ some w.next := by
      intro r u hne hu heq
      obtain ⟨j, hj, hlt, -⟩ := h.holds r u hu
      rw [hthere r hne, hj] at heq
      cases heq
      exact lt_irrefl _ hlt
    rcases hother r u hu with ⟨rfl, _⟩ | ⟨hne, hu⟩
    · rw [hhere] at hi
      cases hi
      rcases hother r' u' hu' with ⟨rfl, _⟩ | ⟨hne', hu'⟩
      · rfl
      · exact absurd hi' (hnext r' u' hne' hu')
    · rcases hother r' u' hu' with ⟨rfl, _⟩ | ⟨hne', hu'⟩
      · rw [hhere] at hi'
        cases hi'
        exact absurd hi (hnext r u hne hu)
      · rw [hthere r hne] at hi
        rw [hthere r' hne'] at hi'
        exact h.one r u r' u' i hu hu' hi hi'
  · intro i hi
    by_cases heq : i = w.next
    · subst heq
      refine Or.inl ⟨fun hmem => absurd (h.old _ hmem) (lt_irrefl _), s.id, Dict.get?_set_self _ _ _, hhere⟩
    · have hlt : i < w.next := by
        have : i < w.next + 1 := hi
        omega
      rcases h.account i hlt with ⟨hnot, r, hown, hheld⟩ | hone
      · refine Or.inl ⟨hnot, r, ?_, ?_⟩
        · rw [Dict.get?_set, if_neg (hold r hown)]
          exact hown
        · rw [hthere r (hold r hown)]
          exact hheld
      · exact Or.inr hone
  · intro r hown
    rcases hother r _ hown with ⟨rfl, _⟩ | ⟨_, hown⟩
    · exact ⟨s, List.mem_append_right _ (List.mem_singleton.mpr rfl), hk, rfl⟩
    · obtain ⟨k, hkK, hko, heq⟩ := h.known r hown
      exact ⟨k, List.mem_append_left _ hkK, hko, heq⟩
  · intro k hkK hb
    rcases List.mem_append.mp hkK with hkK | hkK
    · obtain ⟨l, i, hloan, hown, hlent, hheld⟩ := h.lent k hkK hb
      refine ⟨l, i, hloan, ?_, hlent, ?_⟩
      · rw [Dict.get?_set, if_neg (hold _ hown)]
        exact hown
      · rw [hthere _ (hold _ hown)]
        exact hheld
    · rw [List.mem_singleton.mp hkK, hk] at hb
      cases hb
  · intro r S hS
    rw [Dict.get?_set] at hS
    split at hS
    · exact ⟨.owned, (Option.some.inj hS).symm⟩
    · exact h.single r S hS
  · intro r S hS
    rw [Dict.get?_set] at hS
    split at hS
    next heq => rw [heq, hr]
    next => exact h.root r S hS

/-- An alias holds its source's instance. -/
theorem join (h : Balanced G K var loans w) (hc : Closed G K) {handle src : Symbol} (hnew : ∀ k ∈ K, k.id ≠ handle.id)
    (hk : handle.kind = .owned) (hsrc : src ∈ K) (hko : src.kind = .owned) (hr : G.rid handle.id = G.rid src.id)
    (hheld : ∃ S, var.get? (G.rid src.id) = some S) : Balanced G (K ++ [handle]) var loans (w.join handle src) := by
  have hrid : ∀ k ∈ K, k.kind = .owned → G.rid k.id ≠ handle.id := by
    intro k hkK hk'
    obtain ⟨k', hk', heq, -⟩ := hc k hkK hk'
    exact heq ▸ hnew k' hk'
  obtain ⟨S, hS⟩ := hheld
  obtain ⟨v, rfl⟩ := h.single _ S hS
  obtain ⟨i, hold, hroot, -, -⟩ := h.live hsrc hko hS
  have hw : w.join handle src = { w with held := w.held.set handle.id i } := by simp [World.join, hold]
  rw [hw]
  -- the handle is no resource of its own
  have hkey : ∀ r T, var.get? r = some T → r ≠ handle.id := by
    intro r T hT heq
    subst heq
    have := h.root _ T hT
    rw [hr] at this
    exact hrid src hsrc hko this
  have hthere : ∀ r T, var.get? r = some T → (w.held.set handle.id i).get? r = w.held.get? r :=
    fun r T hT => Dict.get?_set_of_ne _ _ (hkey r T hT)
  refine ⟨h.fault, h.old, ?_, ?_, ?_, ?_, ?_, ?_, h.single, h.root⟩
  · intro k hkK hk'
    rcases List.mem_append.mp hkK with hkK | hkK
    · show (w.held.set handle.id i).get? k.id = (w.held.set handle.id i).get? (G.rid k.id)
      rw [Dict.get?_set_of_ne _ _ (hnew k hkK), Dict.get?_set_of_ne _ _ (hrid k hkK hk')]
      exact h.handle k hkK hk'
    · rw [List.mem_singleton.mp hkK, hr]
      show (w.held.set handle.id i).get? handle.id = (w.held.set handle.id i).get? (G.rid src.id)
      rw [Dict.get?_set_self, Dict.get?_set_of_ne _ _ (hrid src hsrc hko), hroot]
  · intro r u hu
    obtain ⟨j, hj, hrest⟩ := h.holds r u hu
    exact ⟨j, (hthere r _ hu).trans hj, hrest⟩
  · intro r u r' u' j hu hu' hj hj'
    exact h.one r u r' u' j hu hu' ((hthere r _ hu).symm.trans hj) ((hthere r' _ hu').symm.trans hj')
  · intro j hj
    rcases h.account j hj with ⟨hnot, r, hown, hheld⟩ | hone
    · exact Or.inl ⟨hnot, r, hown, (hthere r _ hown).trans hheld⟩
    · exact Or.inr hone
  · intro r hown
    obtain ⟨k, hkK, hk', heq⟩ := h.known r hown
    exact ⟨k, List.mem_append_left _ hkK, hk', heq⟩
  · intro k hkK hb
    rcases List.mem_append.mp hkK with hkK | hkK
    · obtain ⟨l, j, hloan, hown, hlent, hheld⟩ := h.lent k hkK hb
      exact ⟨l, j, hloan, hown, hlent, (hthere _ _ hown).trans hheld⟩
    · rw [List.mem_singleton.mp hkK, hk] at hb
      cases hb

/-- A borrow block's binding stands for its owner's instance. -/
theorem lend (h : Balanced G K var loans w) {binding owner : Symbol} (hnew : ∀ k ∈ K, k.id ≠ binding.id)
    (hb : binding.kind = .borrow) (ho : owner ∈ K) (hk : owner.kind = .owned)
    (hv : var.get? (G.rid owner.id) = some {.owned}) {l : Loan} (hl : l.owner = G.rid owner.id) :
    Balanced G (K ++ [binding]) var (loans.set binding.id l) (w.lend binding owner) := by
  obtain ⟨i, hold, hroot, -, -⟩ := h.live ho hk hv
  have hw : w.lend binding owner = { w with lent := w.lent.set binding.id i } := by simp [World.lend, hold]
  rw [hw]
  refine ⟨h.fault, h.old, ?_, h.holds, h.one, h.account, ?_, ?_, h.single, h.root⟩
  · intro k hkK hko
    rcases List.mem_append.mp hkK with hkK | hkK
    · exact h.handle k hkK hko
    · rw [List.mem_singleton.mp hkK, hb] at hko
      cases hko
  · intro r hown
    obtain ⟨k, hkK, hko, heq⟩ := h.known r hown
    exact ⟨k, List.mem_append_left _ hkK, hko, heq⟩
  · intro k hkK hkb
    rcases List.mem_append.mp hkK with hkK | hkK
    · obtain ⟨m, j, hloan, hown, hlent, hheld⟩ := h.lent k hkK hkb
      refine ⟨m, j, ?_, hown, ?_, hheld⟩
      · rw [Dict.get?_set_of_ne _ _ (hnew k hkK)]
        exact hloan
      · show (w.lent.set binding.id i).get? k.id = some j
        rw [Dict.get?_set_of_ne _ _ (hnew k hkK)]
        exact hlent
    · rw [List.mem_singleton.mp hkK]
      exact ⟨l, i, Dict.get?_set_self _ _ _, by rw [hl]; exact hv, Dict.get?_set_self _ _ _, by rw [hl]; exact hroot⟩

/-- Less is known, of loans too; all that is owned is still known. -/
theorem shrink (h : Balanced G K var loans w) {K' : List Symbol} {loans' : Dict Nat Loan} (hsub : ∀ k ∈ K', k ∈ K)
    (hknown : ∀ r, var.get? r = some {.owned} → ∃ k ∈ K', k.kind = .owned ∧ k.id = r)
    (hloans : ∀ k ∈ K', k.kind = .borrow → loans'.get? k.id = loans.get? k.id) : Balanced G K' var loans' w where
  fault := h.fault
  old := h.old
  handle k hk := h.handle k (hsub k hk)
  holds := h.holds
  one := h.one
  account := h.account
  known := hknown
  lent k hk hb := by
    obtain ⟨l, i, hloan, hrest⟩ := h.lent k (hsub k hk) hb
    exact ⟨l, i, (hloans k hk hb).trans hloan, hrest⟩
  single := h.single
  root := h.root

end Balanced

/-! ## A step nothing is reported about -/

section

variable {G : Layout} {K : List Symbol} {st st' : State} {w : World}

/-- Where the converged states are reported on by nothing, the path has the resource owned. -/
theorem owned_of_quiet (ht : Tracks G K st) (ht' : Tracks G K st') (hc : Covers st st')
    (hone : ∀ r S, st.var.get? r = some S → ∃ v, S = {v}) {s : Symbol} (hs : s ∈ K) (hk : s.kind = .owned) {verb : String}
    {line : Int} (hq : stateProblem st' s verb line = none) : st.var.get? (G.rid s.id) = some {.owned} := by
  have hv : st'.verdict s = none := by
    have h := stateProblem_family st' s verb line
    rw [hq] at h
    cases hv : st'.verdict s with
    | none => rfl
    | some f =>
      rw [hv] at h
      cases h
  have hall : st'.states s = {.owned} := by
    unfold State.verdict at hv
    split at hv
    · cases hv
    · split at hv
      next h => exact h
      next => cases hv
  obtain ⟨S, hS⟩ := ht.held s hs hk
  obtain ⟨v, rfl⟩ := hone _ S hS
  obtain ⟨S', hS', hsub⟩ := hc.2 _ _ hS
  rw [ht'.states hs hk, hall] at hS'
  cases hS'
  rw [hS, Finset.mem_singleton.mp (hsub (Finset.mem_singleton_self v))]

theorem not_borrowed (ht' : Tracks G K st') (hc : Covers st st') {s : Symbol} (hs : s ∈ K) (hk : s.kind = .owned)
    (hb : ¬borrowed st' s) : ∀ n l, st.loans.get? n = some l → l.owner ≠ G.rid s.id := by
  intro n l hl heq
  rw [← hc.1] at hl
  apply hb
  have hmem : (n, l) ∈ st'.loans.entries.filter fun e => e.2.owner = st'.ridOf s := by
    rw [List.mem_filter]
    exact ⟨Dict.mem_entries.mpr hl, by simp [heq, ht'.ridOf hs hk]⟩
  unfold borrowed loansOn
  apply decide_eq_true
  by_cases hkind : l.kind = .shared
  · left
    have hpos : 0 < (st'.loans.entries.filter fun e => e.2.owner = st'.ridOf s).countP fun e => e.2.kind = .shared :=
      List.countP_pos_iff.mpr ⟨(n, l), hmem, by simp [hkind]⟩
    exact Nat.pos_iff_ne_zero.mp hpos
  · have hmut : l.kind = .mut := by
      cases h : l.kind with
      | shared => exact absurd h hkind
      | _ => rfl
    exact Or.inr (List.any_eq_true.mpr ⟨(n, l), hmem, by simp [hmut]⟩)

/-- What a check that finds nothing says: owned, and where it matters not on loan. -/
theorem quiet_check {rest : List Diagnostic} {o : Option Diagnostic} (hq : (match o with
      | some d => [d]
      | none => rest) = []) : o = none ∧ rest = [] := by
  cases o with
  | none => exact ⟨rfl, hq⟩
  | some d => cases hq

theorem quiet_if {p : Prop} [Decidable p] {d : Diagnostic} (hq : (if p then [d] else []) = []) : ¬p := by
  intro hp
  rw [if_pos hp] at hq
  cases hq

theorem quiet_consume (ht : Tracks G K st) (ht' : Tracks G K st') (hc : Covers st st')
    (hone : ∀ r S, st.var.get? r = some S → ∃ v, S = {v}) {s : Symbol} (hs : s ∈ K) (hk : s.kind = .owned) {verb : String}
    {line : Int} (hq : consumeLike st' s verb line = []) :
    st.var.get? (G.rid s.id) = some {.owned} ∧ ∀ n l, st.loans.get? n = some l → l.owner ≠ G.rid s.id := by
  obtain ⟨hstate, hloan⟩ := quiet_check hq
  exact ⟨owned_of_quiet ht ht' hc hone hs hk hstate, not_borrowed ht' hc hs hk (quiet_if hloan)⟩

theorem quiet_release (ht : Tracks G K st) (ht' : Tracks G K st') (hc : Covers st st')
    (hone : ∀ r S, st.var.get? r = some S → ∃ v, S = {v}) {s : Symbol} (hs : s ∈ K) (hk : s.kind = .owned) {line : Int}
    (hq : releaseProblem st' s line = []) :
    st.var.get? (G.rid s.id) = some {.owned} ∧ ∀ n l, st.loans.get? n = some l → l.owner ≠ G.rid s.id := by
  unfold releaseProblem at hq
  simp only at hq
  split at hq
  · cases hq
  · split at hq
    · cases hq
    · obtain ⟨hstate, hloan⟩ := quiet_check hq
      exact ⟨owned_of_quiet ht ht' hc hone hs hk hstate, not_borrowed ht' hc hs hk (quiet_if hloan)⟩

theorem quiet_mutBorrow {s : Symbol} {line : Int} (hq : checkMutBorrowable st' s line = []) :
    stateProblem st' s "mutably borrow" line = none := (quiet_check hq).1

theorem quiet_sharedBorrow {s : Symbol} {line : Int} (hq : checkSharedBorrowable st' s line = []) :
    stateProblem st' s "borrow" line = none := (quiet_check hq).1

theorem Covers.mark (h : Covers st st') (r : Nat) (v : VarState) : Covers (st.mark r v) (st'.mark r v) := by
  refine ⟨h.1, ?_⟩
  intro r' S hS
  rw [mark_var, Dict.get?_set] at hS ⊢
  split at hS
  next heq =>
    rw [if_pos heq]
    exact ⟨S, hS, fun _ hx => hx⟩
  next heq =>
    rw [if_neg heq]
    exact h.2 r' S hS

/-- The arguments of a call, one after another. -/
theorem Balanced.args (callee : String) (line : Int) (args : List (Option Symbol × Effect))
    (hown : ∀ s, some s ∈ args.map Prod.fst → s.kind = .owned → s ∈ K)
    (hlent : ∀ s, some s ∈ args.map Prod.fst → s.kind = .borrow → s.isParamBorrow = false → s ∈ K)
    (ht : Tracks G K st) (ht' : Tracks G K st') (hc : Covers st st') (hq : (applyArgs callee line args st').2 = [])
    (h : Balanced G K st.var st.loans w) :
    Balanced G K (applyArgs callee line args st).1.var (applyArgs callee line args st).1.loans (args.foldl World.arg w) := by
  induction args generalizing st st' w with
  | nil => exact h
  | cons a rest ih =>
    obtain ⟨sym, eff⟩ := a
    have hown' : ∀ s, some s ∈ rest.map Prod.fst → s.kind = .owned → s ∈ K :=
      fun s hs => hown s (List.mem_cons_of_mem _ hs)
    have hlent' : ∀ s, some s ∈ rest.map Prod.fst → s.kind = .borrow → s.isParamBorrow = false → s ∈ K :=
      fun s hs => hlent s (List.mem_cons_of_mem _ hs)
    cases sym with
    | none => exact ih hown' hlent' ht ht' hc hq h
    | some s =>
      obtain ⟨hq₁, hq₂⟩ := List.append_eq_nil_iff.mp hq
      simp only [applyArgs, List.foldl_cons] at hq₂ ⊢
      rw [applyEffect_marks] at hq₂ ⊢
      have harg : w.arg (some s, eff) =
        if s.kind = .owned ∧ eff = .consume then (w.touch s).discharge s else w.touch s := rfl
      rw [harg]
      by_cases hcons : s.kind = .owned ∧ eff = .consume
      · have hs := hown s List.mem_cons_self hcons.1
        simp only [if_pos hcons] at hq₂ ⊢
        unfold applyEffect at hq₁
        rw [hcons.1, hcons.2] at hq₁
        obtain ⟨hv, hl⟩ := quiet_consume ht ht' hc h.single hs hcons.1 (List.append_eq_nil_iff.mp hq₁).1
        rw [ht.ridOf hs hcons.1]
        rw [ht'.ridOf hs hcons.1] at hq₂
        exact ih hown' hlent' (ht.marked _ _) (ht'.marked _ _) (hc.mark _ _) hq₂ (h.discharge hs hcons.1 hv hl (by decide))
      · simp only [if_neg hcons] at hq₂ ⊢
        have htouch : w.touch s = w := by
          cases hk : s.kind with
          | owned =>
            have hs := hown s List.mem_cons_self hk
            unfold applyEffect at hq₁
            rw [hk] at hq₁
            cases eff with
            | consume => exact absurd ⟨hk, rfl⟩ hcons
            | borrowMut => exact h.touch_owned hs hk (owned_of_quiet ht ht' hc h.single hs hk (quiet_mutBorrow hq₁))
            | borrow => exact h.touch_owned hs hk (owned_of_quiet ht ht' hc h.single hs hk (quiet_sharedBorrow hq₁))
            | plain => cases hq₁
          | borrow =>
            cases hp : s.isParamBorrow with
            | true => simp [World.touch, hk, hp]
            | false => exact h.touch_lent (hlent s List.mem_cons_self hk hp) hk
          | plain => simp [World.touch, hk]
        rw [htouch]
        exact ih hown' hlent' ht ht' hc hq₂ h

theorem Closed.known (hK : Knows G K) (hc : Closed G K) {a : Instr} (hs : Sits G K a) : Closed G (a.known K) := by
  have hkeep : ∀ k ∈ K, k.kind = .owned → k ∈ a.known K := by
    intro k hk ho
    refine Instr.mem_known.mpr (Or.inl ⟨hk, ?_⟩)
    intro hend
    obtain ⟨k', hk', heq, hb⟩ := hs.fits.ended _ hend
    rw [hK.inj k' hk' k hk heq, ho] at hb
    cases hb
  intro s hmem hk
  rcases Instr.mem_known.mp hmem with ⟨hmem, _⟩ | hstart
  · obtain ⟨k, hkK, heq, ho⟩ := hc s hmem hk
    exact ⟨k, hkeep k hkK ho, heq, ho⟩
  · have hrid := hs.fits.rids
    cases a with
    | acquire sym _ _ =>
      rw [List.mem_singleton.mp hstart] at hk ⊢
      exact ⟨sym, Instr.mem_known.mpr (Or.inr List.mem_cons_self), hrid.symm, hk⟩
    | acquireBuffer sym _ _ =>
      rw [List.mem_singleton.mp hstart] at hk ⊢
      exact ⟨sym, Instr.mem_known.mpr (Or.inr List.mem_cons_self), hrid.symm, hk⟩
    | moveInto dst src _ =>
      rw [List.mem_singleton.mp hstart] at hk ⊢
      exact ⟨dst, Instr.mem_known.mpr (Or.inr List.mem_cons_self), hrid.symm, hk⟩
    | aliasJoin handle src _ =>
      rw [List.mem_singleton.mp hstart]
      obtain ⟨k, hkK, heq, ho⟩ := hc src (hs.mem_of_owned List.mem_cons_self hs.kinds.2) hs.kinds.2
      have hr : G.rid handle.id = G.rid src.id := hrid
      exact ⟨k, hkeep k hkK ho, by rw [hr, heq], ho⟩
    | borrowStart owner binding _ _ =>
      rw [List.mem_singleton.mp hstart, hs.kinds.2.1] at hk
      cases hk
    | _ => cases hstart

theorem Balanced.step (syms : Nat → Option Symbol) {a : Instr} (hK : Knows G K) (hcl : Closed G K) (hs : Sits G K a)
    (ht : Tracks G K st) (ht' : Tracks G K st') (hc : Covers st st') (hq : (Lang.step syms a st').2 = [])
    (hgo : a.isReturn = false) (h : Balanced G K st.var st.loans w) :
    Balanced G (a.known K) (Lang.step syms a st).1.var (Lang.step syms a st).1.loans (a.exec w) := by
  have he := step_effect syms hs ht
  rw [he.var, he.loans]
  have hrid := hs.fits.rids
  cases a with
  | acquire sym resource line =>
    rw [known_start rfl rfl]
    exact h.start hcl (hs.fits.fresh sym List.mem_cons_self) hs.kinds hrid
  | acquireBuffer sym info line =>
    rw [known_start rfl rfl]
    exact h.start hcl (hs.fits.fresh sym List.mem_cons_self) hs.kinds hrid
  | moveInto dst src line =>
    have hsrc := hs.mem_of_owned (s := src) List.mem_cons_self hs.kinds.2
    obtain ⟨hv, hl⟩ := quiet_consume ht ht' hc h.single hsrc hs.kinds.2 hq
    rw [known_start rfl rfl]
    exact (h.discharge hsrc hs.kinds.2 hv hl (show VarState.moved ≠ .owned by decide)).start hcl
      (hs.fits.fresh dst List.mem_cons_self) hs.kinds.1 hrid
  | aliasJoin handle src line =>
    have hsrc := hs.mem_of_owned (s := src) List.mem_cons_self hs.kinds.2
    rw [known_start rfl rfl]
    exact h.join hcl (hs.fits.fresh handle List.mem_cons_self) hs.kinds.1 hsrc hs.kinds.2 hrid (ht.held src hsrc hs.kinds.2)
  | release sym line =>
    have hsym := hs.mem_of_owned (s := sym) List.mem_cons_self hs.kinds
    obtain ⟨hv, hl⟩ := quiet_release ht ht' hc h.single hsym hs.kinds hq
    rw [known_same rfl rfl]
    exact h.discharge hsym hs.kinds hv hl (show VarState.released ≠ .owned by decide)
  | use sym line =>
    rw [known_same rfl rfl]
    have htouch : w.touch sym = w := by
      cases hk : sym.kind with
      | owned =>
        have hsym := hs.mem_of_owned (s := sym) List.mem_cons_self hk
        have hq' : useProblem st' sym line = [] := hq
        unfold useProblem at hq'
        rw [hk] at hq'
        exact h.touch_owned hsym hk (owned_of_quiet ht ht' hc h.single hsym hk (quiet_check hq').1)
      | borrow =>
        cases hp : sym.isParamBorrow with
        | true => simp [World.touch, hk, hp]
        | false => exact h.touch_lent (hs.mem_of_lent (s := sym) List.mem_cons_self hk hp) hk
      | plain => simp [World.touch, hk]
    show Balanced G K st.var st.loans (w.touch sym)
    rw [htouch]
    exact h
  | overspan sym line => cases hq
  | invoke callee args line =>
    rw [known_same rfl rfl]
    have hargs := h.args callee line args ?_ ?_ ht ht' hc hq
    · have hv := he.var
      have hl := he.loans
      simp only [Lang.step] at hv hl
      rw [hv, hl] at hargs
      exact hargs
    · intro s hmem hk
      obtain ⟨x, hx, heq⟩ := List.mem_map.mp hmem
      exact hs.mem_of_owned (List.mem_filterMap.mpr ⟨x, hx, heq⟩) hk
    · intro s hmem hk hp
      obtain ⟨x, hx, heq⟩ := List.mem_map.mp hmem
      exact hs.mem_of_lent (List.mem_filterMap.mpr ⟨x, hx, heq⟩) hk hp
  | borrowStart owner binding isMut line =>
    have hown := hs.mem_of_owned (s := owner) List.mem_cons_self hs.kinds.1
    have hv : st.var.get? (G.rid owner.id) = some {.owned} := by
      cases isMut with
      | true => exact owned_of_quiet ht ht' hc h.single hown hs.kinds.1 (quiet_mutBorrow hq)
      | false => exact owned_of_quiet ht ht' hc h.single hown hs.kinds.1 (quiet_sharedBorrow hq)
    rw [known_start rfl rfl]
    show Balanced G (K ++ [binding]) st.var (st.loans.set binding.id _) ((w.touch owner).lend binding owner)
    rw [h.touch_owned hown hs.kinds.1 hv]
    exact h.lend (hs.fits.fresh binding List.mem_cons_self) hs.kinds.2.1 hown hs.kinds.1 hv rfl
  | borrowEnd owner binding isMut line =>
    refine h.shrink ?_ ?_ ?_
    · intro k hk
      rcases Instr.mem_known.mp hk with ⟨hk, _⟩ | hk
      · exact hk
      · cases hk
    · intro r hown
      obtain ⟨k, hk, ho, heq⟩ := h.known r hown
      refine ⟨k, Instr.mem_known.mpr (Or.inl ⟨hk, ?_⟩), ho, heq⟩
      intro hend
      obtain ⟨k', hk', heq', hb⟩ := hs.fits.ended _ hend
      rw [hK.inj k' hk' k hk heq', ho] at hb
      cases hb
    · intro k hk _
      rcases Instr.mem_known.mp hk with ⟨_, hne⟩ | hk
      · show (st.loans.erase binding.id).get? k.id = st.loans.get? k.id
        rw [Dict.get?_erase, if_neg fun heq => hne (List.mem_singleton.mpr heq)]
      · cases hk
  | return_ sym line => cases hgo

end

/-! ## An accepted function -/

section

variable {G : Layout} {cfg : CFG} {n : Nat} {ins : Dict Nat State}

theorem Closed.after {K : List Symbol} {l : List Instr} (hK : Knows G K) (hc : Closed G K) (hs : Sitting G K l) :
    Closed G (knownAfter K l) := by
  induction l generalizing K with
  | nil => exact hc
  | cons a rest ih => exact ih (hK.known hs.1) (hc.known hK hs.1) hs.2

/-- Every mark is on the resource of a symbol acted on or started. -/
theorem marks_of {rid : Nat → Nat} {a : Instr} (hk : a.Kinds) (hr : a.Rids rid) {m : Nat × VarState}
    (hm : m ∈ a.marks rid) : ∃ s, (s ∈ a.touches ∨ s ∈ a.starts) ∧ s.kind = .owned ∧ m.1 = rid s.id := by
  cases a with
  | acquire sym _ _ =>
    rw [List.mem_singleton.mp hm]
    exact ⟨sym, Or.inr List.mem_cons_self, hk, hr.symm⟩
  | acquireBuffer sym _ _ =>
    rw [List.mem_singleton.mp hm]
    exact ⟨sym, Or.inr List.mem_cons_self, hk, hr.symm⟩
  | moveInto dst src _ =>
    rcases List.mem_cons.mp hm with rfl | hm
    · exact ⟨src, Or.inl List.mem_cons_self, hk.2, rfl⟩
    · rw [List.mem_singleton.mp hm]
      exact ⟨dst, Or.inr List.mem_cons_self, hk.1, hr.symm⟩
  | release sym _ =>
    rw [List.mem_singleton.mp hm]
    exact ⟨sym, Or.inl List.mem_cons_self, hk, rfl⟩
  | invoke callee args line =>
    obtain ⟨s, hs, rfl⟩ := List.mem_map.mp hm
    obtain ⟨hmem, hko⟩ := mem_consumed hs
    exact ⟨s, Or.inl (List.mem_filterMap.mpr ⟨_, hmem, rfl⟩), hko, rfl⟩
  | return_ sym _ =>
    cases sym with
    | none => cases hm
    | some s =>
      rw [List.mem_singleton.mp hm]
      exact ⟨s, Or.inl List.mem_cons_self, hk s rfl, rfl⟩
  | _ => cases hm

/-- A resource still owned where the function is left is reported. -/
theorem not_owned_at_end (hL : LaidOut G cfg) (hfix : cfg.fixpoint n = .ok ins) (hq : cfg.findings ins = [])
    {b : Nat} {blk : Block} {t : List Instr} (hb : cfg.blocks[b]? = some blk) (hsucc : blk.succ = [])
    (ht : Path cfg b blk.instrs.length t) (r : Nat) : (cfg.after t).var.get? r ≠ some {.owned} := by
  intro hown
  have hmem := ((leak_exact hL hfix _).mpr ⟨b, blk, r, hb, hsucc, rfl, t, ht, hown⟩).1
  rw [hq] at hmem
  cases hmem

/-- What is owned where a block is entered is in scope there: otherwise it would be owned to the end. -/
theorem owned_in_scope (hL : LaidOut G cfg) (hfix : cfg.fixpoint n = .ok ins) (hq : cfg.findings ins = []) {c : Nat}
    {t : List Instr} {blk : Block} (hb : cfg.blocks[c]? = some blk) (ht : Path cfg c 0 t) {K : List Symbol}
    (hK : Knows G K) (hsub : ∀ k ∈ G.starting c, k ∈ K) (hbound : ∀ k ∈ K, k.id < G.bound c) {r : Nat}
    (hown : (cfg.after t).var.get? r = some {.owned}) (hknown : ∃ k ∈ K, k.kind = .owned ∧ k.id = r) :
    ∃ k ∈ G.starting c, k.kind = .owned ∧ k.id = r := by
  obtain ⟨k, hk, hko, rfl⟩ := hknown
  by_contra hno
  -- nothing on the way out is about it
  have haway : ∀ a, Within G (G.scope c) (G.bound c) a → ∀ s, s ∈ a.touches ∨ s ∈ a.starts → s.kind = .owned →
      G.rid s.id ≠ k.id := by
    intro a ha s hs hso heq
    rcases ha s hs hso with ⟨k', hk', heq'⟩ | hge
    · have hborn : G.born k'.id := by rw [heq', heq]; exact hK.born k hk
      have hstart : k' ∈ G.starting c := mem_starting.mpr ⟨hk', hborn⟩
      have hsame : k' = k := hK.inj k' (hsub k' hstart) k hk (heq'.trans heq)
      exact hno ⟨k', hstart, hsame ▸ hko, hsame ▸ rfl⟩
    · have := hbound k hk
      omega
  obtain ⟨d, j, dblk, hleads, hd, hexit, hlast⟩ := hL.exit c (List.getElem?_eq_some_iff.mp hb).1
  obtain ⟨t', hpath, hall⟩ := ht.leads hleads
  have hkeep : ∀ l, (∀ a ∈ l, Within G (G.scope c) (G.bound c) a ∧ ∃ (b : Nat) (blk : Block),
    cfg.blocks[b]? = some blk ∧ a ∈ blk.instrs) →
      ∀ m ∈ marksOf G.rid l, m.1 ≠ k.id := by
    intro l hl m hm
    obtain ⟨a, ha, hma⟩ := List.mem_flatMap.mp hm
    obtain ⟨hw, b, blk, hb, hmem⟩ := hl a ha
    have hlaid := hL.block b blk hb
    obtain ⟨i, hi⟩ := List.mem_iff_getElem?.mp hmem
    obtain ⟨s, hs, hso, heq⟩ := marks_of (hlaid.kinds a hmem) (hlaid.fits.at hi).rids hma
    rw [heq]
    exact haway a hw s hs hso
  have hstill : ∀ l d j, Path cfg d j (t ++ l) →
      (∀ a ∈ l, Within G (G.scope c) (G.bound c) a ∧ ∃ (b : Nat) (blk : Block), cfg.blocks[b]? = some blk ∧ a ∈ blk.instrs) →
      (cfg.after (t ++ l)).var.get? k.id = some {.owned} := by
    intro l d j hp hl
    obtain ⟨_, hon⟩ := hp.onPath hL
    obtain ⟨_, hon₀⟩ := ht.onPath hL
    rw [hon.var, marksOf_append, ← List.append_assoc, setAll_append, get?_setAll_of_ne (hkeep l hl), ← hon₀.var]
    exact hown
  rcases hexit with ⟨a, ha, hret⟩ | ⟨hj, hsucc, -⟩
  · obtain ⟨hjlast, hsucc⟩ := (hL.block d dblk hd).returns j a ha hret
    have hend := Path.instr hd ha hpath
    rw [List.append_assoc, hjlast] at hend
    refine not_owned_at_end hL hfix hq hd hsucc hend k.id (hstill _ _ _ hend ?_)
    intro x hx
    rcases List.mem_append.mp hx with hx | hx
    · exact hall x hx
    · rw [List.mem_singleton.mp hx]
      exact ⟨hlast a ha, d, dblk, hd, List.mem_of_getElem? ha⟩
  · subst hj
    exact not_owned_at_end hL hfix hq hd hsucc hpath k.id (hstill _ _ _ hpath hall)

theorem quiet_at (hL : LaidOut G cfg) (hq : cfg.findings ins = []) {b i : Nat} {blk : Block} {a : Instr}
    (hb : cfg.blocks[b]? = some blk) (hi : blk.instrs[i]? = some a) :
    (step cfg.symById a (cfg.stateAt ins b i)).2 = [] := by
  rw [List.eq_nil_iff_forall_not_mem]
  intro d hd
  have := hL.forward.mem_findings.mpr (Or.inl ⟨b, blk, i, a, hb, hi, hd⟩)
  rw [hq] at this
  cases this

theorem Balanced.params {ps : List Symbol} {K : List Symbol} {var : Dict Nat (Finset VarState)} {w : World}
    (h : Balanced G K var Dict.empty w) (hc : Closed G K) (hps : ∀ p ∈ ps, p.kind = .owned ∧ G.rid p.id = p.id)
    (hnodup : (ps.map Symbol.id).Nodup) (hnew : ∀ p ∈ ps, ∀ k ∈ K, k.id ≠ p.id) :
    Balanced G (K ++ ps) (setAll (ps.map fun p => (p.id, .owned)) var) Dict.empty (ps.foldl World.start w) := by
  induction ps generalizing K var w with
  | nil =>
    rw [List.append_nil]
    exact h
  | cons p rest ih =>
    obtain ⟨hk, hr⟩ := hps p List.mem_cons_self
    rw [List.map_cons, List.nodup_cons] at hnodup
    have hp := h.start hc (hnew p List.mem_cons_self) hk hr
    have hc' : Closed G (K ++ [p]) := by
      intro s hs hso
      rcases List.mem_append.mp hs with hs | hs
      · obtain ⟨k, hkK, heq, hko⟩ := hc s hs hso
        exact ⟨k, List.mem_append_left _ hkK, heq, hko⟩
      · rw [List.mem_singleton.mp hs]
        exact ⟨p, List.mem_append_right _ List.mem_cons_self, hr.symm, hk⟩
    have h' := ih hp hc' (fun q hq => hps q (List.mem_cons_of_mem _ hq)) hnodup.2 ?_
    · rw [List.append_assoc, List.singleton_append] at h'
      exact h'
    · intro q hq k hkK heq
      rcases List.mem_append.mp hkK with hkK | hkK
      · exact hnew q (List.mem_cons_of_mem _ hq) k hkK heq
      · rw [List.mem_singleton.mp hkK] at heq
        exact hnodup.1 (List.mem_map.mpr ⟨q, hq, heq.symm⟩)

theorem balanced_nothing : Balanced G [] Dict.empty Dict.empty {} where
  fault := rfl
  old i hi := absurd hi List.not_mem_nil
  handle k hk := absurd hk List.not_mem_nil
  holds r v hr := by cases hr
  one r v r' v' i hr := by cases hr
  account i hi := absurd hi (Nat.not_lt_zero i)
  known r hr := by cases hr
  lent k hk := absurd hk List.not_mem_nil
  single r S hS := by cases hS
  root r S hS := by cases hS

theorem LaidOut.balanced_initial (hL : LaidOut G cfg) :
    Balanced G (G.starting 0) cfg.initialState.var cfg.initialState.loans cfg.world := by
  have hps : ∀ p ∈ cfg.params.filter (·.kind = .owned), p.kind = .owned ∧ G.rid p.id = p.id := by
    intro p hp
    obtain ⟨hmem, hk⟩ := List.mem_filter.mp hp
    exact ⟨of_decide_eq_true hk, hL.rids p hmem⟩
  have hnodup : ((cfg.params.filter (·.kind = .owned)).map Symbol.id).Nodup :=
    hL.nodup.sublist (List.filter_sublist.map _)
  have h := balanced_nothing (G := G).params (fun s hs => absurd hs List.not_mem_nil) hps hnodup
    fun p _ k hk => absurd hk List.not_mem_nil
  have hmem : ∀ k, k ∈ [] ++ cfg.params.filter (·.kind = .owned) ↔ k ∈ G.starting 0 := by
    intro k
    rw [List.nil_append, List.mem_filter, hL.start k, decide_eq_true_eq]
  rw [initialState_var, initialState_loans]
  refine h.shrink (fun k hk => (hmem k).mpr hk) ?_ fun k _ _ => rfl
  intro r hr
  obtain ⟨k, hk, hko, heq⟩ := h.known r hr
  exact ⟨k, (hmem k).mp hk, hko, heq⟩

/-- Along a path that has not returned, states and instances agree. -/
theorem Path.balanced (hL : LaidOut G cfg) (hfix : cfg.fixpoint n = .ok ins) (hq : cfg.findings ins = []) {b i : Nat}
    {t : List Instr} (h : Path cfg b i t) (hgo : ∀ a ∈ t, a.isReturn = false) {blk : Block}
    (hb : cfg.blocks[b]? = some blk) :
    Balanced G (knownAfter (G.starting b) (blk.instrs.take i)) (cfg.after t).var (cfg.after t).loans (cfg.exec t) := by
  induction h generalizing blk with
  | entry =>
    rw [hL.entry]
    exact hL.balanced_initial
  | @instr b i t blk₀ a hb₀ hi hpath ih =>
    have heq : blk₀ = blk := Option.some.inj (hb₀.symm.trans hb)
    subst heq
    have hbal := ih (fun x hx => hgo x (List.mem_append_left _ hx)) hb
    have hlaid := hL.block b blk₀ hb
    obtain ⟨blk', hon⟩ := hpath.onPath hL
    have heq : blk' = blk₀ := Option.some.inj (hon.here.symm.trans hb)
    subst heq
    have hsit := hlaid.sitting.take i
    have hK := (hL.knows hb).after hsit
    have hstep := hbal.step cfg.symById hK (hlaid.closed.after (hL.knows hb) hsit) (hlaid.sitting.at hi) hon.tracks
      (hL.stateAt_effect hfix hb i).2 (hpath.covers hL hfix) (quiet_at hL hq hb hi)
      (hgo a (List.mem_append_right _ List.mem_cons_self))
    rw [take_succ_of_get hi, knownAfter_append, cfg.after_append t [a], CFG.exec, List.foldl_append]
    exact hstep
  | @edge b c t blk₀ hb₀ hc hpath ih =>
    have hbal := ih hgo hb₀
    have hlaid := hL.block b blk₀ hb₀
    obtain ⟨-, -, hsub, hbound⟩ := hlaid.edges c hc
    rw [List.take_length] at hbal
    refine hbal.shrink hsub ?_ fun k _ _ => rfl
    intro r hr
    exact owned_in_scope hL hfix hq hb (.edge hb₀ hc hpath) ((hL.knows hb₀).after hlaid.sitting) hsub hbound hr
      (hbal.known r hr)

/-! ## Returns of what is discharged -/

/-- The symbols whose resource an instruction discharges. -/
def Instr.discharges : Instr → List Symbol
  | moveInto _ src _ => [src]
  | release sym _ => [sym]
  | invoke _ args _ => consumed args
  | _ => []

/-- The symbols an instruction acquires a resource for. -/
def Instr.begins : Instr → List Symbol
  | acquire sym _ _ | acquireBuffer sym _ _ => [sym]
  | moveInto dst _ _ => [dst]
  | _ => []

/-- One instruction back from handle `n`: an alias goes on as its source, an acquired handle is the resource. -/
def Instr.traced (a : Instr) (further : Nat → Nat) (n : Nat) : Nat :=
  match a with
  | aliasJoin handle src _ => if n = handle.id then further src.id else further n
  | _ => if n ∈ a.begins.map Symbol.id then n else further n

/-- Back along what has run to where the resource of handle `n` was acquired. -/
def traceBack : List Instr → Nat → Nat
  | [], n => n
  | a :: rest, n => a.traced (traceBack rest) n

/-- The resource a handle denotes once `t` has run. -/
def denotes (t : List Instr) (s : Symbol) : Nat := traceBack t.reverse s.id

/-- On no path to a `return` is the returned resource discharged after its last acquisition. -/
def CFG.ReturnsKept (cfg : CFG) : Prop :=
  ∀ b blk i x line t, cfg.blocks[b]? = some blk → blk.instrs[i]? = some (.return_ (some x) line) → Path cfg b i t →
    ∀ t₁ a t₂, t = t₁ ++ a :: t₂ → ∀ y ∈ a.discharges, denotes t₁ y = denotes t x →
      ∃ a' ∈ a :: t₂, ∃ s ∈ a'.begins, s.id = denotes t x

theorem marks_discharge (rid : Nat → Nat) {a : Instr} {y : Symbol} (h : y ∈ a.discharges) :
    ∃ v, (rid y.id, v) ∈ a.marks rid := by
  cases a with
  | moveInto dst src _ =>
    rw [List.mem_singleton.mp h]
    exact ⟨.moved, List.mem_cons_self⟩
  | release sym _ =>
    rw [List.mem_singleton.mp h]
    exact ⟨.released, List.mem_cons_self⟩
  | invoke _ args _ => exact ⟨.escaped, List.mem_map.mpr ⟨y, h, rfl⟩⟩
  | _ => cases h

theorem Sits.discharged {K : List Symbol} {a : Instr} (h : Sits G K a) {y : Symbol} (hy : y ∈ a.discharges) :
    y ∈ K ∧ y.kind = .owned := by
  have hmem : y ∈ a.touches ∧ y.kind = .owned := by
    cases a with
    | moveInto dst src _ => exact ⟨hy, List.mem_singleton.mp hy ▸ h.kinds.2⟩
    | release sym _ => exact ⟨hy, List.mem_singleton.mp hy ▸ h.kinds⟩
    | invoke _ args _ =>
      obtain ⟨hmem, hko⟩ := mem_consumed hy
      exact ⟨List.mem_filterMap.mpr ⟨_, hmem, rfl⟩, hko⟩
    | _ => cases hy
  exact ⟨h.mem_of_owned hmem.1 hmem.2, hmem.2⟩

/-- Owned is what an acquisition leaves, and only that. -/
theorem marks_owned {rid : Nat → Nat} {a : Instr} {r : Nat} (h : (r, VarState.owned) ∈ a.marks rid) :
    ∃ s ∈ a.begins, s.id = r := by
  cases a with
  | acquire sym _ _ =>
    cases List.mem_singleton.mp h
    exact ⟨sym, List.mem_cons_self, rfl⟩
  | acquireBuffer sym _ _ =>
    cases List.mem_singleton.mp h
    exact ⟨sym, List.mem_cons_self, rfl⟩
  | moveInto dst src _ =>
    rcases List.mem_cons.mp h with h | h
    · cases h
    · cases List.mem_singleton.mp h
      exact ⟨dst, List.mem_cons_self, rfl⟩
  | release sym _ => cases List.mem_singleton.mp h
  | invoke _ args _ =>
    obtain ⟨y, _, heq⟩ := List.mem_map.mp h
    cases heq
  | return_ sym _ =>
    cases sym with
    | none => cases h
    | some s => cases List.mem_singleton.mp h
  | _ => cases h

/-- An instruction that leaves a resource gone discharges it and acquires nothing in its place. -/
theorem lastMark_discharge {rid : Nat → Nat} {a : Instr} (hgo : a.isReturn = false) {r : Nat} {v : VarState}
    (h : lastMark r (a.marks rid) = some v) (hne : v ≠ .owned) :
    (∃ y ∈ a.discharges, rid y.id = r) ∧ ∀ s ∈ a.begins, s.id ≠ r := by
  have hmem := mem_of_lastMark h
  cases a with
  | acquire sym _ _ =>
    cases List.mem_singleton.mp hmem
    exact absurd rfl hne
  | acquireBuffer sym _ _ =>
    cases List.mem_singleton.mp hmem
    exact absurd rfl hne
  | moveInto dst src _ =>
    have hdst : dst.id ≠ r := by
      intro heq
      simp only [Instr.marks, lastMark, heq, if_true, Option.some.injEq] at h
      exact hne h.symm
    rcases List.mem_cons.mp hmem with hmem | hmem
    · cases hmem
      exact ⟨⟨src, List.mem_cons_self, rfl⟩, fun s hs => List.mem_singleton.mp hs ▸ hdst⟩
    · cases List.mem_singleton.mp hmem
      exact absurd rfl hne
  | release sym _ =>
    cases List.mem_singleton.mp hmem
    exact ⟨⟨sym, List.mem_cons_self, rfl⟩, fun s hs => absurd hs List.not_mem_nil⟩
  | invoke _ args _ =>
    obtain ⟨y, hy, heq⟩ := List.mem_map.mp hmem
    cases heq
    exact ⟨⟨y, hy, rfl⟩, fun s hs => absurd hs List.not_mem_nil⟩
  | return_ sym _ => cases hgo
  | _ => cases hmem

theorem gone_split {rid : Nat → Nat} {t : List Instr} (hgo : ∀ a ∈ t, a.isReturn = false) {r : Nat} {v : VarState}
    (h : lastMark r (marksOf rid t) = some v) (hne : v ≠ .owned) :
    ∃ t₁ a t₂ y, t = t₁ ++ a :: t₂ ∧ y ∈ a.discharges ∧ rid y.id = r ∧
      ∀ a' ∈ a :: t₂, ∀ s ∈ a'.begins, s.id ≠ r := by
  induction t using List.reverseRecOn with
  | nil => cases h
  | append_singleton t a ih =>
    have hsplit : marksOf rid (t ++ [a]) = marksOf rid t ++ a.marks rid := by simp [marksOf]
    rw [hsplit, lastMark_append] at h
    cases ha : lastMark r (a.marks rid) with
    | some w =>
      rw [ha] at h
      cases h
      obtain ⟨⟨y, hy, heq⟩, hno⟩ := lastMark_discharge (hgo a (by simp)) ha hne
      refine ⟨t, a, [], y, rfl, hy, heq, ?_⟩
      intro a' ha'
      rw [List.mem_singleton.mp ha']
      exact hno
    | none =>
      rw [ha] at h
      obtain ⟨t₁, c, t₂, y, rfl, hy, heq, hno⟩ := ih (fun x hx => hgo x (List.mem_append_left _ hx)) h
      refine ⟨t₁, c, t₂ ++ [a], y, by simp, hy, heq, ?_⟩
      intro a' ha' s hs
      rw [← List.cons_append, List.mem_append, List.mem_singleton] at ha'
      rcases ha' with ha' | rfl
      · exact hno a' ha' s hs
      · intro hsr
        have hmark : ∃ w, (r, w) ∈ a'.marks rid := by
          cases a' with
          | acquire sym _ _ =>
            rw [List.mem_singleton.mp hs] at hsr
            exact ⟨.owned, by rw [← hsr]; exact List.mem_cons_self⟩
          | acquireBuffer sym _ _ =>
            rw [List.mem_singleton.mp hs] at hsr
            exact ⟨.owned, by rw [← hsr]; exact List.mem_cons_self⟩
          | moveInto dst src _ =>
            rw [List.mem_singleton.mp hs] at hsr
            exact ⟨.owned, by rw [← hsr]; exact List.mem_cons_of_mem _ List.mem_cons_self⟩
          | _ => cases hs
        obtain ⟨w, hw⟩ := hmark
        obtain ⟨w', hw'⟩ := lastMark_of_mem hw
        rw [ha] at hw'
        cases hw'

theorem Path.split {b i : Nat} {t₁ t₂ : List Instr} {a : Instr} {t : List Instr} (h : Path cfg b i t)
    (ht : t = t₁ ++ a :: t₂) :
    ∃ (c j : Nat) (blk : Block), Path cfg c j t₁ ∧ cfg.blocks[c]? = some blk ∧ blk.instrs[j]? = some a := by
  induction h generalizing t₂ with
  | entry => exact absurd ht.symm (by simp)
  | @instr b i t blk x hb hi hpath ih =>
    rcases List.eq_nil_or_concat t₂ with rfl | ⟨u, y, rfl⟩
    · obtain ⟨rfl, hx⟩ := List.append_inj' ht rfl
      cases hx
      exact ⟨b, i, blk, hpath, hb, hi⟩
    · have heq : t ++ [x] = (t₁ ++ a :: u) ++ [y] := by simpa using ht
      exact ih (List.append_inj' heq rfl).1
  | edge _ _ _ ih => exact ih ht

theorem traced_same {a : Instr} {further : Nat → Nat} {n : Nat} (h : ∀ s ∈ a.starts, n ≠ s.id) :
    a.traced further n = further n := by
  cases a with
  | acquire sym _ _ => exact if_neg fun hn => h sym List.mem_cons_self (List.mem_singleton.mp hn)
  | acquireBuffer sym _ _ => exact if_neg fun hn => h sym List.mem_cons_self (List.mem_singleton.mp hn)
  | moveInto dst _ _ => exact if_neg fun hn => h dst List.mem_cons_self (List.mem_singleton.mp hn)
  | aliasJoin handle _ _ => exact if_neg (h handle List.mem_cons_self)
  | _ => simp [Instr.traced, Instr.begins]

/-- A handle's resource, traced back along the path, is the layout's. -/
theorem Path.denotes (hL : LaidOut G cfg) {b i : Nat} {t : List Instr} (h : Path cfg b i t) {blk : Block}
    (hb : cfg.blocks[b]? = some blk) :
    ∀ k ∈ knownAfter (G.starting b) (blk.instrs.take i), k.kind = .owned → Lang.denotes t k = G.rid k.id := by
  induction h generalizing blk with
  | entry =>
    intro k hk _
    rw [hL.entry] at hk
    exact (hL.rids k ((hL.start k).mp hk).1).symm
  | @instr b i t blk₀ a hb₀ hi hpath ih =>
    have heq : blk₀ = blk := Option.some.inj (hb₀.symm.trans hb)
    subst heq
    intro k hk ho
    have hs := (hL.block b blk₀ hb).sitting.at hi
    rw [take_succ_of_get hi, knownAfter_append] at hk
    have hrev : (t ++ [a]).reverse = a :: t.reverse := by simp
    rw [Lang.denotes, hrev]
    have hrid := hs.fits.rids
    rw [traceBack]
    rcases Instr.mem_known.mp hk with ⟨hkK, _⟩ | hstart
    · rw [traced_same fun s hmem => hs.fits.fresh s hmem k hkK]
      exact ih hb k hkK ho
    · cases a with
      | acquire sym _ _ =>
        rw [List.mem_singleton.mp hstart]
        exact (if_pos List.mem_cons_self).trans hrid.symm
      | acquireBuffer sym _ _ =>
        rw [List.mem_singleton.mp hstart]
        exact (if_pos List.mem_cons_self).trans hrid.symm
      | moveInto dst _ _ =>
        rw [List.mem_singleton.mp hstart]
        exact (if_pos List.mem_cons_self).trans hrid.symm
      | aliasJoin handle src _ =>
        rw [List.mem_singleton.mp hstart]
        have hsrc := ih hb src (hs.mem_of_owned List.mem_cons_self hs.kinds.2) hs.kinds.2
        exact (if_pos rfl).trans (hsrc.trans hrid.symm)
      | borrowStart _ binding _ _ =>
        rw [List.mem_singleton.mp hstart, hs.kinds.2.1] at ho
        cases ho
      | _ => cases hstart
  | @edge b c t blk₀ hb₀ hc hpath ih =>
    intro k hk ho
    obtain ⟨-, -, hsub, -⟩ := (hL.block b blk₀ hb₀).edges c hc
    exact ih hb₀ k (by rw [List.take_length]; exact hsub k hk) ho

/-- A path has not returned, or has just. -/
theorem Path.returned (hL : LaidOut G cfg) {b i : Nat} {t : List Instr} (h : Path cfg b i t) :
    (∀ a ∈ t, a.isReturn = false) ∨
      ∃ (t₀ : List Instr) (j : Nat) (blk : Block) (r : Option Symbol) (line : Int), t = t₀ ++ [.return_ r line] ∧
        cfg.blocks[b]? = some blk ∧ blk.instrs[j]? = some (.return_ r line) ∧ i = j + 1 ∧ Path cfg b j t₀ ∧
        ∀ a ∈ t₀, a.isReturn = false := by
  induction h with
  | entry => exact Or.inl fun a ha => absurd ha List.not_mem_nil
  | @instr b i t blk a hb hi hpath ih =>
    rcases ih with hgo | ⟨t₀, j, blk', r, line, rfl, hb', hj, rfl, _, _⟩
    · cases ha : a.isReturn with
      | false =>
        left
        intro x hx
        rcases List.mem_append.mp hx with hx | hx
        · exact hgo x hx
        · rw [List.mem_singleton.mp hx]
          exact ha
      | true =>
        right
        cases a with
        | return_ r line => exact ⟨t, i, blk, r, line, rfl, hb, hi, rfl, hpath, hgo⟩
        | _ => cases ha
    · -- nothing follows a return in its block
      have heq : blk' = blk := Option.some.inj (hb'.symm.trans hb)
      subst heq
      have hlast := ((hL.block b blk' hb).returns j _ hj rfl).1
      have := (List.getElem?_eq_some_iff.mp hi).1
      omega
  | @edge b c t blk hb hc hpath ih =>
    rcases ih with hgo | ⟨t₀, j, blk', r, line, rfl, hb', hj, _, _, _⟩
    · exact Or.inl hgo
    · have heq : blk' = blk := Option.some.inj (hb'.symm.trans hb)
      subst heq
      rw [((hL.block b blk' hb).returns j _ hj rfl).2] at hc
      cases hc

/-- Where nothing is owned any more, every instance has been discharged once. -/
theorem Balanced.settled {K : List Symbol} {var : Dict Nat (Finset VarState)} {loans : Dict Nat Loan} {w : World}
    (h : Balanced G K var loans w) (hno : ∀ r, var.get? r ≠ some {.owned}) : ∀ i < w.next, w.gone.count i = 1 := by
  intro i hi
  rcases h.account i hi with ⟨_, r, hr, _⟩ | hone
  · exact absurd hr (hno r)
  · exact hone

theorem CFG.exec_append (t : List Instr) (a : Instr) : cfg.exec (t ++ [a]) = a.exec (cfg.exec t) := by
  rw [CFG.exec, List.foldl_append]
  rfl

/-- What a `return` finds: its resource on the path, and no loan on it. -/
theorem quiet_return {K : List Symbol} {st st' : State} {s : Symbol} {line : Int} (ht' : Tracks G K st') (hc : Covers st st')
    (hs : s ∈ K) (hk : s.kind = .owned) (hq : returnProblem st' s line = []) :
    ∀ n l, st.loans.get? n = some l → l.owner ≠ G.rid s.id := by
  unfold returnProblem at hq
  simp only at hq
  split at hq
  · split at hq <;> cases hq
  · split at hq
    · cases hq
    next hb => exact not_borrowed ht' hc hs hk hb

theorem exact_iff (hL : LaidOut G cfg) (hfix : cfg.fixpoint n = .ok ins) (hq : cfg.findings ins = []) :
    cfg.Exact ↔ cfg.ReturnsKept := by
  -- at a return: the path's state of what is returned, what it makes of the instances, and how it came to be
  have hreturn : ∀ b blk i x line t, cfg.blocks[b]? = some blk → blk.instrs[i]? = some (.return_ (some x) line) →
      Path cfg b i t → ∃ v, (cfg.after t).var.get? (G.rid x.id) = some {v} ∧
        ((cfg.exec (t ++ [.return_ (some x) line])).fault = true ↔ v ≠ .owned) ∧
        (v = .owned → (∀ r, (cfg.after (t ++ [.return_ (some x) line])).var.get? r ≠ some {.owned}) →
          ∀ j < (cfg.exec (t ++ [.return_ (some x) line])).next,
            (cfg.exec (t ++ [.return_ (some x) line])).gone.count j = 1) ∧
        (v ≠ .owned ↔ ∃ t₁ a t₂ y, t = t₁ ++ a :: t₂ ∧ y ∈ a.discharges ∧ denotes t₁ y = denotes t x ∧
          ∀ a' ∈ a :: t₂, ∀ s ∈ a'.begins, s.id ≠ denotes t x) := by
    intro b blk i x line t hb hi hpath
    have hgo : ∀ a ∈ t, a.isReturn = false := by
      rcases hpath.returned hL with hgo | ⟨t₀, j, blk', r, line', _, hb', hj, rfl, _, _⟩
      · exact hgo
      · have heq : blk' = blk := Option.some.inj (hb'.symm.trans hb)
        subst heq
        have hlast := ((hL.block b blk' hb).returns j _ hj rfl).1
        have := (List.getElem?_eq_some_iff.mp hi).1
        omega
    obtain ⟨blk', hon⟩ := hpath.onPath hL
    have heq : blk' = blk := Option.some.inj (hon.here.symm.trans hb)
    subst heq
    have hs := (hL.block b blk' hb).sitting.at hi
    have hk : x.kind = .owned := hs.kinds x rfl
    have hx := hs.mem_of_owned (s := x) List.mem_cons_self hk
    have hbal := hpath.balanced hL hfix hq hgo hb
    obtain ⟨S, hS⟩ := hon.tracks.held x hx hk
    obtain ⟨v, rfl⟩ := hon.single hS
    have hden := hpath.denotes hL hb x hx hk
    have hquiet := (List.append_eq_nil_iff.mp (quiet_at hL hq hb hi)).2
    have hloan := quiet_return (hL.stateAt_effect hfix hb i).2 (hpath.covers hL hfix) hx hk hquiet
    refine ⟨v, hS, ?_, ?_, ?_⟩
    · rw [CFG.exec_append]
      show ((cfg.exec t).touch x |>.discharge x).fault = true ↔ v ≠ .owned
      obtain ⟨j, hold, -, -, hgone⟩ := hbal.live hx hk hS
      have htouch : (cfg.exec t).touch x = if j ∈ (cfg.exec t).gone then { cfg.exec t with fault := true } else cfg.exec t := by
        simp [World.touch, hk, hold]
      rw [htouch]
      by_cases hv : v = .owned
      · rw [if_neg (hgone.mp hv)]
        simp [World.discharge, hold, hbal.fault, hv]
      · have hmem : j ∈ (cfg.exec t).gone := not_not.mp fun h => hv (hgone.mpr h)
        rw [if_pos hmem]
        have hold' : ({ cfg.exec t with fault := true } : World).holding x = some j := hold
        simp [World.discharge, hold', hv]
    · intro hv hno
      subst hv
      have hafter : (cfg.after (t ++ [.return_ (some x) line])).var = (cfg.after t).var.set (G.rid x.id) {.escaped} := by
        rw [cfg.after_append]
        exact (step_effect cfg.symById hs hon.tracks).var
      rw [hafter] at hno
      rw [CFG.exec_append]
      exact (hbal.discharge hx hk hS hloan (v := .escaped) (by decide)).settled hno
    · rw [hden]
      constructor
      · intro hne
        rw [hon.var, get?_setAll, lastMark_append] at hS
        cases hlast : lastMark (G.rid x.id) (marksOf G.rid t) with
        | none =>
          rw [hlast] at hS
          cases hp : lastMark (G.rid x.id) cfg.paramMarks with
          | none =>
            rw [hp] at hS
            cases hS
          | some u =>
            rw [hp] at hS
            obtain ⟨p, _, hpu⟩ := List.mem_map.mp (mem_of_lastMark hp)
            have huv : u = v := Finset.singleton_injective (Option.some.inj hS)
            have hu : VarState.owned = u := congrArg Prod.snd hpu
            exact absurd (huv ▸ hu.symm) hne
        | some u =>
          rw [hlast] at hS
          have huv : u = v := Finset.singleton_injective (Option.some.inj hS)
          obtain ⟨t₁, a, t₂, y, rfl, hy, hyr, hno⟩ := gone_split hgo hlast (huv ▸ hne)
          obtain ⟨c, j, cblk, hpath₁, hc, hj⟩ := hpath.split rfl
          have hsy := (hL.block c cblk hc).sitting.at hj
          obtain ⟨hyK, hyo⟩ := hsy.discharged hy
          refine ⟨t₁, a, t₂, y, rfl, hy, ?_, hno⟩
          rw [hpath₁.denotes hL hc y hyK hyo, hyr]
      · intro h heq
        subst heq
        obtain ⟨t₁, a, t₂, y, rfl, hy, hyr, hno⟩ := h
        obtain ⟨c, j, cblk, hpath₁, hc, hj⟩ := hpath.split rfl
        have hsy := (hL.block c cblk hc).sitting.at hj
        obtain ⟨hyK, hyo⟩ := hsy.discharged hy
        rw [hpath₁.denotes hL hc y hyK hyo] at hyr
        obtain ⟨u, hu⟩ := marks_discharge G.rid hy
        rw [hyr] at hu
        have hin : (G.rid x.id, u) ∈ marksOf G.rid (a :: t₂) :=
          List.mem_flatMap.mpr ⟨a, List.mem_cons_self, hu⟩
        obtain ⟨w, hw⟩ := lastMark_of_mem hin
        rw [hon.var, get?_setAll, marksOf_append, lastMark_append, lastMark_append, hw] at hS
        have hown : w = .owned := Finset.singleton_injective (Option.some.inj hS)
        subst hown
        obtain ⟨a', ha', hmark⟩ := List.mem_flatMap.mp (mem_of_lastMark hw)
        obtain ⟨s, hsb, hsr⟩ := marks_owned hmark
        exact hno a' ha' s hsb hsr
  constructor
  · intro hex b blk i x line t hb hi hpath t₁ a t₂ ht y hy hyr
    by_contra hnot
    obtain ⟨v, -, hfault, -, hgone⟩ := hreturn b blk i x line t hb hi hpath
    have hne : v ≠ .owned := hgone.mpr ⟨t₁, a, t₂, y, ht, hy, hyr, fun a' ha' s hs heq => hnot ⟨a', ha', s, hs, heq⟩⟩
    have := hex.1 _ _ _ (Path.instr hb hi hpath)
    rw [hfault.mpr hne] at this
    cases this
  · intro hkept
    have hlive : ∀ b blk i x line t, cfg.blocks[b]? = some blk → blk.instrs[i]? = some (.return_ (some x) line) →
        Path cfg b i t → (cfg.exec (t ++ [.return_ (some x) line])).fault = false ∧
        ((∀ r, (cfg.after (t ++ [.return_ (some x) line])).var.get? r ≠ some {.owned}) →
          ∀ j < (cfg.exec (t ++ [.return_ (some x) line])).next,
            (cfg.exec (t ++ [.return_ (some x) line])).gone.count j = 1) := by
      intro b blk i x line t hb hi hpath
      obtain ⟨v, -, hfault, hcount, hgone⟩ := hreturn b blk i x line t hb hi hpath
      have hv : v = .owned := by
        by_contra hne
        obtain ⟨t₁, a, t₂, y, ht, hy, hyr, hno⟩ := hgone.mp hne
        obtain ⟨a', ha', s, hs, heq⟩ := hkept b blk i x line t hb hi hpath t₁ a t₂ ht y hy hyr
        exact hno a' ha' s hs heq
      refine ⟨?_, hcount hv⟩
      rw [← Bool.not_eq_true]
      exact fun h => hfault.mp h hv
    refine ⟨?_, ?_⟩
    · intro b i t hpath
      obtain ⟨blk, hon⟩ := hpath.onPath hL
      rcases hpath.returned hL with hgo | ⟨t₀, j, blk', r, line, rfl, hb, hj, rfl, hpath₀, hgo₀⟩
      · exact (hpath.balanced hL hfix hq hgo hon.here).fault
      · cases r with
        | none =>
          rw [CFG.exec_append]
          exact (hpath₀.balanced hL hfix hq hgo₀ hb).fault
        | some x => exact (hlive _ _ _ _ _ _ hb hj hpath₀).1
    · intro b blk t hb hsucc hpath
      have hno := not_owned_at_end hL hfix hq hb hsucc hpath
      rcases hpath.returned hL with hgo | ⟨t₀, j, blk', r, line, rfl, hb', hj, hlen, hpath₀, hgo₀⟩
      · exact (hpath.balanced hL hfix hq hgo hb).settled hno
      · cases r with
        | none =>
          rw [CFG.exec_append]
          rw [cfg.after_append] at hno
          exact (hpath₀.balanced hL hfix hq hgo₀ hb').settled hno
        | some x => exact (hlive _ _ _ _ _ _ hb' hj hpath₀).2 hno

end

/-- A function nothing is reported about handles every instance exactly once, on every path, exactly when no path
    returns what it has already discharged. -/
theorem accepted_exact (env : Env) (fn : FnDecl) (hok : (buildCfg env fn).2 = []) {n : Nat}
    (hacc : (buildCfg env fn).1.analyze n = .ok []) :
    (buildCfg env fn).1.Exact ↔ (buildCfg env fn).1.ReturnsKept := by
  obtain ⟨G, hL⟩ := buildCfg_laidOut env fn hok
  unfold CFG.analyze at hacc
  cases hfix : (buildCfg env fn).1.fixpoint n with
  | error e =>
    rw [hfix] at hacc
    cases hacc
  | ok ins =>
    rw [hfix] at hacc
    exact exact_iff hL hfix (Except.ok.inj hacc)

/-! ## Returned after a release -/

namespace Example

/-- `let x = acquire R(); release x;` -/
def once : FnDecl :=
  { name := "once", params := [], ret := none, line := 1
    body := [.let_ "x" (.acquire "R" [] 2) 2, .release "x" 3] }

/-- `let x = acquire R(); if (c) { release x; } return x;` -/
def late : FnDecl :=
  { name := "late", params := [], ret := some ⟨"R", false, false, 1⟩, line := 1
    body := [.let_ "x" (.acquire "R" [] 2) 2, .if_ "c" [.release "x" 3] [] 3, .return_ (some "x") 4] }

set_option maxRecDepth 4000 in
theorem once_accepted : (buildCfg env once).2 = [] ∧ (buildCfg env once).1.analyze 20 = .ok [] := by decide

set_option maxRecDepth 4000 in
theorem late_accepted : (buildCfg env late).2 = [] ∧ (buildCfg env late).1.analyze 20 = .ok [] := by decide

theorem once_blocks : (buildCfg env once).1.blocks = [⟨[.acquire x "R" 2, .release x 3], [], "entry"⟩] := by
  decide

theorem late_blocks : (buildCfg env late).1.blocks =
    [⟨[.acquire x "R" 2], [1, 2], "entry"⟩, ⟨[.release x 3], [3], "then"⟩, ⟨[], [3], "else"⟩,
      ⟨[.return_ (some x) 4], [], "merge"⟩] := by
  decide

/-- The path that takes the branch: acquired, released, returned. -/
theorem late_path : Path (buildCfg env late).1 3 1 [.acquire x "R" 2, .release x 3, .return_ (some x) 4] := by
  have hb := late_blocks
  have h₀ : Path (buildCfg env late).1 0 0 [] := .entry
  have h₁ : Path (buildCfg env late).1 0 1 [.acquire x "R" 2] := .instr (by rw [hb]; rfl) rfl h₀
  have h₂ : Path (buildCfg env late).1 1 0 [.acquire x "R" 2] :=
    .edge (show _ = some ⟨[.acquire x "R" 2], [1, 2], "entry"⟩ by rw [hb]; rfl) List.mem_cons_self h₁
  have h₃ : Path (buildCfg env late).1 1 1 [.acquire x "R" 2, .release x 3] := .instr (by rw [hb]; rfl) rfl h₂
  have h₄ : Path (buildCfg env late).1 3 0 [.acquire x "R" 2, .release x 3] :=
    .edge (show _ = some ⟨[.release x 3], [3], "then"⟩ by rw [hb]; rfl) List.mem_cons_self h₃
  exact .instr (by rw [hb]; rfl) rfl h₄

end Example

open Example in
theorem accepted_exact_once : (buildCfg env once).1.Exact := by
  refine (accepted_exact env once once_accepted.1 once_accepted.2).mpr ?_
  intro b blk i y line t hb hi
  rw [once_blocks] at hb
  cases b with
  | zero =>
    cases hb
    match i, hi with
    | 0, hi => cases hi
    | 1, hi => cases hi
  | succ b => cases hb

open Example in
/-- The branch of `late` returns the instance it has released. -/
theorem accepted_not_sound :
    ¬∀ (env : Env) (fn : FnDecl) (n : Nat), (buildCfg env fn).2 = [] → (buildCfg env fn).1.analyze n = .ok [] →
      (buildCfg env fn).1.Exact := by
  intro h
  have hfault := (h env late 20 late_accepted.1 late_accepted.2).1 _ _ _ late_path
  exact absurd hfault (by decide)

end OwnNet.Lang
