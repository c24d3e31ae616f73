/-
  OwnNet.Obligations.Paths — the paths of a method, and what is true of an obligation on one of
  them.

  Any branch may be taken, a loop be gone round any number of times, and an opaque write to a
  tracked flag may discharge the obligation or not. On one path the obligation is open or it is
  not: a path carries the lines that opened it since it was last closed.

  Proved: `image_if`, `image_while`, `image_cons`: where the paths of a part lead, from where those
  of its parts do; `sites_nodup`: no place in a method is listed twice.
-/

import OwnNet.Obligations.Events
import Mathlib.Data.List.Nodup

namespace OwnNet.Obligations

open Dataflow

/-! ## Places -/

/-- How to get to an event: into the parts of one, to the first of a list, or past it. -/
inductive Pos where
  | here
  | then_ (pos : Pos)
  | orelse (pos : Pos)
  | body (pos : Pos)
  | head (pos : Pos)
  | next (pos : Pos)
  deriving DecidableEq, Repr

/-- What a violation may be reported at. -/
inductive Point where
  | act (a : Act)
  | return_ (line : Int)
  | throw_ (line : Int)
  deriving DecidableEq, Repr

/-- The same points one place further in. -/
def shift (f : Pos → Pos) (l : List (Pos × Point)) : List (Pos × Point) := l.map fun x => (f x.1, x.2)

mutual

/-- The points of an event, as they are written. -/
def Event.sites : Event → List (Pos × Point)
  | .act a => [(.here, .act a)]
  | .return_ line => [(.here, .return_ line)]
  | .throw_ line => [(.here, .throw_ line)]
  | .if_ _ then_ orelse => shift .then_ (sites then_) ++ shift .orelse (sites orelse)
  | .while_ _ body => shift .body (sites body)

def sites : List Event → List (Pos × Point)
  | [] => []
  | ev :: rest => shift .head ev.sites ++ shift .next (sites rest)

end

mutual

/-- The lines of the acts, each of which may open the obligation. -/
def Event.lines : Event → List Int
  | .act a => [a.line]
  | .return_ _ => []
  | .throw_ _ => []
  | .if_ _ then_ orelse => actLines then_ ++ actLines orelse
  | .while_ _ body => actLines body

def actLines : List Event → List Int
  | [] => []
  | ev :: rest => ev.lines ++ actLines rest

end

/-! ## Paths -/

/-- The lines that opened the obligation since it was last closed; none where it is closed. -/
abbrev Openings := List Int

def Does (p : Protocol) (a : Act) (s t : Openings) : Prop :=
  if p.opens.matches a then t = a.line :: s
  else if p.closes.matches a then t = []
  else t = s ∨ p.mayDischarge a = true ∧ t = []

mutual

/-- One path through an event. -/
inductive Step (p : Protocol) : Event → Openings → Openings → Prop where
  | act {a : Act} {s t : Openings} : Does p a s t → Step p (.act a) s t
  | then_ {line : Int} {then_ orelse : List Event} {s t : Openings} : Passes p then_ s t → Step p (.if_ line then_ orelse) s t
  | orelse {line : Int} {then_ orelse : List Event} {s t : Openings} : Passes p orelse s t → Step p (.if_ line then_ orelse) s t
  | leave {line : Int} {body : List Event} {s : Openings} : Step p (.while_ line body) s s
  | again {line : Int} {body : List Event} {s u t : Openings} :
      Passes p body s u → Step p (.while_ line body) u t → Step p (.while_ line body) s t

/-- One path through a list of events, to its end. -/
inductive Passes (p : Protocol) : List Event → Openings → Openings → Prop where
  | nil {s : Openings} : Passes p [] s s
  | cons {ev : Event} {rest : List Event} {s u t : Openings} : Step p ev s u → Passes p rest u t → Passes p (ev :: rest) s t

end

mutual

/-- One path into an event, to one of its places. -/
inductive Reaches (p : Protocol) : Event → Pos → Openings → Openings → Prop where
  | here {ev : Event} {s : Openings} : Reaches p ev .here s s
  | then_ {line : Int} {then_ orelse : List Event} {pos : Pos} {s t : Openings} :
      Arrives p then_ pos s t → Reaches p (.if_ line then_ orelse) (.then_ pos) s t
  | orelse {line : Int} {then_ orelse : List Event} {pos : Pos} {s t : Openings} :
      Arrives p orelse pos s t → Reaches p (.if_ line then_ orelse) (.orelse pos) s t
  | body {line : Int} {body : List Event} {pos : Pos} {s u t : Openings} :
      Step p (.while_ line body) s u → Arrives p body pos u t → Reaches p (.while_ line body) (.body pos) s t

/-- One path into a list of events, to one of its places. -/
inductive Arrives (p : Protocol) : List Event → Pos → Openings → Openings → Prop where
  | head {ev : Event} {rest : List Event} {pos : Pos} {s t : Openings} :
      Reaches p ev pos s t → Arrives p (ev :: rest) (.head pos) s t
  | next {ev : Event} {rest : List Event} {pos : Pos} {s u t : Openings} :
      Step p ev s u → Arrives p rest pos u t → Arrives p (ev :: rest) (.next pos) s t

end

/-! ## Where the paths lead -/

section Images

variable {p : Protocol} {S : Set Openings}

theorem image_act (a : Act) : image (Step p (.act a)) S = image (Does p a) S := by
  ext t
  constructor
  · rintro ⟨s, hs, hstep⟩
    cases hstep with
    | act h => exact ⟨s, hs, h⟩
  · rintro ⟨s, hs, h⟩
    exact ⟨s, hs, .act h⟩

theorem image_return (line : Int) : image (Step p (.return_ line)) S = ∅ :=
  Set.eq_empty_of_forall_notMem fun _ ⟨_, _, h⟩ => by cases h

theorem image_throw (line : Int) : image (Step p (.throw_ line)) S = ∅ :=
  Set.eq_empty_of_forall_notMem fun _ ⟨_, _, h⟩ => by cases h

theorem image_if (line : Int) (then_ orelse : List Event) :
    image (Step p (.if_ line then_ orelse)) S = image (Passes p then_) S ∪ image (Passes p orelse) S := by
  ext t
  constructor
  · rintro ⟨s, hs, hstep⟩
    cases hstep with
    | then_ h => exact .inl ⟨s, hs, h⟩
    | orelse h => exact .inr ⟨s, hs, h⟩
  · rintro (⟨s, hs, h⟩ | ⟨s, hs, h⟩)
    · exact ⟨s, hs, .then_ h⟩
    · exact ⟨s, hs, .orelse h⟩

theorem Step.rounds {ev : Event} {s t : Openings} : Step p ev s t → ∀ line body, ev = .while_ line body →
    Relation.ReflTransGen (Passes p body) s t
  | .act _, _, _, h => by cases h
  | .then_ _, _, _, h => by cases h
  | .orelse _, _, _, h => by cases h
  | .leave, _, _, _ => .refl
  | .again hbody hstep, line, body, h => by
    have hrest := hstep.rounds line body h
    cases h
    exact hrest.head hbody

theorem step_while {line : Int} {body : List Event} {s t : Openings} :
    Step p (.while_ line body) s t ↔ Relation.ReflTransGen (Passes p body) s t := by
  refine ⟨fun h => h.rounds line body rfl, fun h => ?_⟩
  induction h using Relation.ReflTransGen.head_induction_on with
  | refl => exact .leave
  | head hbody _ ih => exact .again hbody ih

theorem image_while (line : Int) (body : List Event) : image (Step p (.while_ line body)) S = closure (Passes p body) S := by
  ext t
  exact exists_congr fun s => and_congr_right fun _ => step_while

theorem image_nil : image (Passes p []) S = S := by
  ext t
  constructor
  · rintro ⟨s, hs, h⟩
    cases h
    exact hs
  · exact fun ht => ⟨t, ht, .nil⟩

theorem image_cons (ev : Event) (rest : List Event) :
    image (Passes p (ev :: rest)) S = image (Passes p rest) (image (Step p ev) S) := by
  ext t
  constructor
  · rintro ⟨s, hs, h⟩
    cases h with
    | cons hstep hrest => exact ⟨_, ⟨s, hs, hstep⟩, hrest⟩
  · rintro ⟨u, ⟨s, hs, hstep⟩, hrest⟩
    exact ⟨s, hs, .cons hstep hrest⟩

end Images

/-! ## Every place once -/

theorem shift_places (f : Pos → Pos) (l : List (Pos × Point)) : (shift f l).map Prod.fst = (l.map Prod.fst).map f := by
  unfold shift
  rw [List.map_map, List.map_map]
  rfl

theorem shift_nodup {f : Pos → Pos} (hf : Function.Injective f) {l : List (Pos × Point)} (h : (l.map Prod.fst).Nodup) :
    ((shift f l).map Prod.fst).Nodup := by
  rw [shift_places]
  exact h.map hf

theorem shift_append_nodup {f g : Pos → Pos} (hf : Function.Injective f) (hg : Function.Injective g) (hfg : ∀ a b, f a ≠ g b)
    {l l' : List (Pos × Point)} (h : (l.map Prod.fst).Nodup) (h' : (l'.map Prod.fst).Nodup) :
    ((shift f l ++ shift g l').map Prod.fst).Nodup := by
  rw [List.map_append]
  refine List.nodup_append.mpr ⟨shift_nodup hf h, shift_nodup hg h', fun x hx y hy hxy => ?_⟩
  rw [shift_places] at hx hy
  obtain ⟨a, -, rfl⟩ := List.mem_map.mp hx
  obtain ⟨b, -, rfl⟩ := List.mem_map.mp hy
  exact hfg a b hxy

mutual

theorem Event.sites_nodup : ∀ ev : Event, (ev.sites.map Prod.fst).Nodup
  | .act _ => List.nodup_singleton _
  | .return_ _ => List.nodup_singleton _
  | .throw_ _ => List.nodup_singleton _
  | .if_ _ then_ orelse => by
    rw [Event.sites]
    exact shift_append_nodup (fun _ _ => Pos.then_.inj) (fun _ _ => Pos.orelse.inj) (fun _ _ h => by cases h) (sites_nodup then_)
      (sites_nodup orelse)
  | .while_ _ body => by
    rw [Event.sites]
    exact shift_nodup (fun _ _ => Pos.body.inj) (sites_nodup body)

/-- No place is listed twice. -/
theorem sites_nodup : ∀ events : List Event, ((sites events).map Prod.fst).Nodup
  | [] => List.nodup_nil
  | ev :: rest => by
    rw [sites]
    exact shift_append_nodup (fun _ _ => Pos.head.inj) (fun _ _ => Pos.next.inj) (fun _ _ h => by cases h) ev.sites_nodup
      (sites_nodup rest)

end

end OwnNet.Obligations
