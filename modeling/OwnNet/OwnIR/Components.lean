/-
  OwnNet.OwnIR.Components — the components of a facts document, from the document to the core's
  findings and back: each subscription is lowered under a handle of its own, and the handle a
  finding is about leads back to the subscription.

  Proved: `components_exact`: what is found of the components of a document that is lowered is
  one leak for each resource that is not released and one escape for each capture by a source
  that outlives the subscriber, each attributed to its own subscription, and nothing else.
-/

import OwnNet.Lang.Straight
import OwnNet.OwnIR.Minting

namespace OwnNet.OwnIR

open Lang

/-! ## The check of a lowered module -/

/-- A function with its lifetime and those of its parameters. -/
def Decl.item (d : Decl) : FnItem :=
  { name := d.fn.name, params := d.fn.params.map fun p => { toParam := p, lifetime := entry d.paramLifetimes p.name }
    ret := d.fn.ret, body := d.fn.body, line := d.fn.line, lifetime := d.lifetime }

/-- What the region check reads. -/
def Module.regions (m : Module) : Lang.Module :=
  { name := m.name, functions := m.functions.map Decl.item, lifetimes := m.lifetimes.map fun l => ⟨l.1, l.2, 0⟩ }

/-- `check_module`, of a lowered module: it has no policies. -/
def Module.check (n : Nat) (m : Module) : Except Stuck (List Diagnostic) :=
  (m.functions.mapM fun d => checkFunction n m.env d.fn).map fun ds =>
    (checkLifetimes m.regions ++ ds.flatten).insertionSort reportedBefore

/-- What the handle a finding is about stands for. -/
def Lowered.factOf (L : Lowered) (d : Diagnostic) : Option Handle := (handleOf d.subject).bind (entry L.handles)

/-! ## What is to be found -/

/-- The regions that strictly outlive a region. -/
def outlivedBy : String → List String
  | "transient" => ["scoped", "Process"]
  | "scoped" => ["Process"]
  | "Subscriber" => ["Process"]
  | _ => []

/-- The subscriptions of a component that come to something. -/
def charged (diLife : Dict String String) (subs : List Json) : List (Fields × Shape) :=
  subs.filterMap fun sub =>
    match sub with
    | .obj fields =>
      match shapeOf diLife fields with
      | .error _ | .ok .skip => none
      | .ok shape => some (fields, shape)
    | _ => none

/-- What is to be found of a subscription of a component of region `region`. -/
def fate (region : String) (cname file : Json) (c : Fields × Shape) : Option (Code × Handle) :=
  match c.2 with
  | .skip => none
  | .capture source life => if source ∈ outlivedBy region then some (.own014, .subscription c.1 cname file life) else none
  | .owned _ => if falsy (Json.get c.1 "released") then some (.own001, .subscription c.1 cname file none) else none

/-- What is to be found of components, the first of them numbered `gid` if it has no name. -/
def fates (diLife : Dict String String) : List Json → Nat → List (Code × Handle)
  | [], _ => []
  | .obj comp :: rest, gid =>
    let cname := getD comp "name" (.str ("Component" ++ toString gid))
    let subs := charged diLife (((getD comp "subscriptions" (.arr [])).asArr).getD [])
    let region := ((subscriberRegion cname diLife).toOption).getD "Subscriber"
    subs.filterMap (fate region cname (getD comp "file" (.str "?"))) ++ fates diLife rest (gid + subs.length)
  | _ :: rest, gid => fates diLife rest gid

/-- What is to be found of the components of a document. -/
def fatesOf (facts : Fields) : List (Code × Handle) :=
  fates (((diLifeMap (((Json.get facts "services").asArr).getD []) Dict.empty).toOption).getD Dict.empty)
    (((getD facts "components" (.arr [])).asArr).getD []) 0

/-! ## Handles -/

def handleName (shape : Shape) (k : Nat) : String :=
  match shape with
  | .capture _ _ => "cap_" ++ toString k
  | _ => "sub_" ++ toString k

theorem handleName_inj {s t : Shape} {j k : Nat} (h : handleName s j = handleName t k) : j = k := by
  have hl := congrArg String.toList h
  cases s <;> cases t <;> simp [handleName, String.toList_append] at hl
  all_goals exact Parsing.digits_inj hl

theorem handleName_plain (s : Shape) (k : Nat) : '#' ∉ (handleName s k).toList := by
  intro h
  have hdigit : '#' ∈ (toString k).toList := by
    cases s with
    | capture _ _ =>
      change '#' ∈ ("cap_" ++ toString k).toList at h
      rw [String.toList_append] at h
      rcases List.mem_append.mp h with h | h
      · simp at h
      · exact h
    | skip | owned _ =>
      change '#' ∈ ("sub_" ++ toString k).toList at h
      rw [String.toList_append] at h
      rcases List.mem_append.mp h with h | h
      · simp at h
      · exact h
  rw [Nat.toString_eq_repr, Nat.toList_repr] at hdigit
  have := Nat.isDigit_of_mem_toDigits (by omega) (by omega) hdigit
  simp [Char.isDigit] at this

/-- A subscription that comes to something, with its number. -/
abbrev Mark := (Fields × Shape) × Nat

namespace Mark

def handle (m : Mark) : String := handleName m.1.2 m.2

def life (m : Mark) : Option String :=
  match m.1.2 with
  | .capture _ life => life
  | _ => none

def fact (cname file : Json) (m : Mark) : Handle := .subscription m.1.1 cname file m.life

def line (m : Mark) : Int := asLine (Json.get m.1.1 "line")

def deed (m : Mark) : Deed :=
  match m.1.2 with
  | .owned resource => .hold m.handle resource m.line (!falsy (Json.get m.1.1 "released"))
  | _ => .watch m.handle m.line

/-- The region of a source that captures. -/
def source (m : Mark) : Option (String × String) :=
  match m.1.2 with
  | .capture region _ => some (m.handle, region)
  | _ => none

/-- Held to the end. -/
def leaks (m : Mark) : Option String :=
  match m.1.2 with
  | .owned _ => if falsy (Json.get m.1.1 "released") then some m.handle else none
  | _ => none

/-- Captured by a source that outlives `region`. -/
def escapes (region : String) (m : Mark) : Option String :=
  match m.1.2 with
  | .capture source _ => if source ∈ outlivedBy region then some m.handle else none
  | _ => none

end Mark

def marked (diLife : Dict String String) (subs : List Json) (gid : Nat) : List Mark := (charged diLife subs).zipIdx gid

/-! ## The lowering of a component -/

section

variable {diLife : Dict String String} {cname file : Json}

theorem charged_cons {fields : Fields} {shape : Shape} (h : shapeOf diLife fields = .ok shape) (hskip : shape ≠ .skip)
    (rest : List Json) :
    charged diLife (.obj fields :: rest) = (fields, shape) :: charged diLife rest := by
  rw [charged, List.filterMap_cons]
  simp only [h]
  cases shape with
  | skip => exact absurd rfl hskip
  | capture _ _ => rfl
  | owned _ => rfl

theorem charged_skip {fields : Fields} (h : shapeOf diLife fields = .ok .skip) (rest : List Json) :
    charged diLife (.obj fields :: rest) = charged diLife rest := by
  rw [charged, List.filterMap_cons]
  simp only [h]
  rfl

/-- The marks from one that is charged on. -/
theorem marked_cons {fields : Fields} {shape : Shape} (h : shapeOf diLife fields = .ok shape)
    (hskip : shape ≠ .skip) (rest : List Json)
    (gid : Nat) :
    marked diLife (.obj fields :: rest) gid = ((fields, shape), gid) :: marked diLife rest (gid + 1) := by
  rw [marked, charged_cons h hskip, List.zipIdx_cons]
  rfl

/-- A subscription that is charged puts its own before what the rest comes to. -/
theorem lowerSubs_charged {fields : Fields} {shape : Shape} (hshape : shapeOf diLife fields = .ok shape) (hskip : shape ≠ .skip)
    {rest : List Json} {gid : Nat} {s : Subs} (h : lowerSubs diLife cname file (.obj fields :: rest) gid = .ok s) :
    ∃ more, lowerSubs diLife cname file rest (gid + 1) = .ok more ∧
      s.handles = (Mark.handle ((fields, shape), gid), Mark.fact cname file ((fields, shape), gid)) :: more.handles ∧
      s.captures = (Mark.source ((fields, shape), gid)).toList ++ more.captures ∧
      s.body = (Mark.deed ((fields, shape), gid)).stmts ++ more.body ∧ s.gid = more.gid := by
  rw [lowerSubs, hshape] at h
  cases shape with
  | skip => exact absurd rfl hskip
  | capture region life =>
    cases hrest : lowerSubs diLife cname file rest (gid + 1) with
    | error e =>
      rw [hrest] at h
      cases h
    | ok more =>
      rw [hrest] at h
      cases h
      exact ⟨more, rfl, rfl, rfl, rfl, rfl⟩
  | owned resource =>
    cases hrest : lowerSubs diLife cname file rest (gid + 1) with
    | error e =>
      rw [hrest] at h
      cases h
    | ok more =>
      rw [hrest] at h
      cases h
      refine ⟨more, rfl, rfl, rfl, ?_, rfl⟩
      show _ :: (if _ then _ else _) ++ _ = (_ :: if _ then _ else _) ++ _
      cases falsy (Json.get fields "released") with
      | true => rfl
      | false => rfl

/-- A component is lowered to what its subscriptions come to, one after the other. -/
theorem lowerSubs_marked {subs : List Json} : ∀ {gid : Nat} {s : Subs}, lowerSubs diLife cname file subs gid = .ok s →
    s.handles = (marked diLife subs gid).map (fun m => (m.handle, m.fact cname file)) ∧
      s.captures = (marked diLife subs gid).filterMap Mark.source ∧
      s.body = ((marked diLife subs gid).map Mark.deed).flatMap Deed.stmts ∧ s.gid = gid + (charged diLife subs).length ∧
      ∀ m ∈ marked diLife subs gid, m.1.2 ≠ .skip ∧ shapeOf diLife m.1.1 = .ok m.1.2 := by
  induction subs with
  | nil =>
    intro gid s h
    cases h
    exact ⟨rfl, rfl, rfl, rfl, fun m hm => absurd hm List.not_mem_nil⟩
  | cons sub rest ih =>
    intro gid s h
    cases sub with
    | null | bool _ | int _ | float _ | str _ | arr _ => cases h
    | obj fields =>
      cases hshape : shapeOf diLife fields with
      | error e =>
        rw [lowerSubs, hshape] at h
        cases h
      | ok shape =>
        by_cases hskip : shape = .skip
        · subst hskip
          rw [lowerSubs, hshape] at h
          rw [marked, charged_skip hshape]
          exact ih h
        · obtain ⟨more, hrest, hhandles, hcaptures, hbody, hgid⟩ := lowerSubs_charged hshape hskip h
          obtain ⟨h₁, h₂, h₃, h₄, h₅⟩ := ih hrest
          rw [marked_cons hshape hskip, charged_cons hshape hskip]
          refine ⟨by rw [hhandles, h₁, List.map_cons], ?_, by rw [hbody, h₃, List.map_cons, List.flatMap_cons], ?_, ?_⟩
          · rw [hcaptures, h₂]
            cases hsource : Mark.source ((fields, shape), gid) with
            | none => rw [List.filterMap_cons_none hsource, Option.toList_none, List.nil_append]
            | some c => rw [List.filterMap_cons_some hsource, Option.toList_some, List.singleton_append]
          · rw [hgid, h₄, List.length_cons]
            omega
          · intro m hm
            rcases List.mem_cons.mp hm with rfl | hm
            · exact ⟨hskip, hshape⟩
            · exact h₅ m hm

theorem marked_handles_nodup (subs : List Json) (gid : Nat) : ((marked diLife subs gid).map Mark.handle).Nodup := by
  have hidx : ((marked diLife subs gid).map Prod.snd).Nodup := by
    rw [marked, List.zipIdx_map_snd]
    exact List.nodup_range'
  exact (List.Nodup.of_map _ hidx).map_on fun m hm m' hm' heq => List.inj_on_of_nodup_map hidx hm hm' (handleName_inj heq)

/-! ## What is read off a component's marks -/

def Mark.captures (m : Mark) : Bool := m.source.isSome

/-- The names of what captures and of what is held are those of the handles, told apart. -/
theorem names_split {l : List Mark} (hskip : ∀ m ∈ l, m.1.2 ≠ .skip) :
    (l.filterMap Mark.source).map Prod.fst = (l.filter Mark.captures).map Mark.handle ∧
      (l.map Mark.deed).filterMap Deed.name? = (l.filter fun m => !m.captures).map Mark.handle := by
  induction l with
  | nil => exact ⟨rfl, rfl⟩
  | cons m rest ih =>
    obtain ⟨h₁, h₂⟩ := ih fun x hx => hskip x (List.mem_cons_of_mem _ hx)
    obtain ⟨⟨fields, shape⟩, k⟩ := m
    cases shape with
    | skip => exact absurd rfl (hskip _ List.mem_cons_self)
    | capture region life =>
      refine ⟨?_, h₂⟩
      show _ :: (rest.filterMap Mark.source).map Prod.fst = _ :: (rest.filter Mark.captures).map Mark.handle
      rw [h₁]
    | owned resource =>
      refine ⟨h₁, ?_⟩
      show _ :: (rest.map Mark.deed).filterMap Deed.name? = _ :: (rest.filter fun m => !m.captures).map Mark.handle
      rw [h₂]

theorem names_nodup {l : List Mark} (hskip : ∀ m ∈ l, m.1.2 ≠ .skip) (hnodup : (l.map Mark.handle).Nodup) :
    ((l.filterMap Mark.source).map Prod.fst ++ (l.map Mark.deed).filterMap Deed.name?).Nodup := by
  obtain ⟨h₁, h₂⟩ := names_split hskip
  rw [h₁, h₂, ← List.map_append]
  exact ((List.filter_append_perm Mark.captures l).map Mark.handle).nodup_iff.mpr hnodup

/-- What is held to the end is what is not released. -/
theorem owing_marks {env : Env} {l : List Mark} (hskip : ∀ m ∈ l, m.1.2 ≠ .skip) (line : Int) : ∀ k : Nat,
    (((owing env k (l.map Mark.deed)).map (leftOpen line)).map fun d => (d.code, handleOf d.subject)) =
      l.filterMap fun m => m.leaks.map fun h => (Code.own001, some h) := by
  induction l with
  | nil => exact fun _ => rfl
  | cons m rest ih =>
    intro k
    have hrest := ih fun x hx => hskip x (List.mem_cons_of_mem _ hx)
    obtain ⟨⟨fields, shape⟩, j⟩ := m
    cases shape with
    | skip => exact absurd rfl (hskip _ List.mem_cons_self)
    | capture region life => exact hrest k
    | owned resource =>
      have hhandle : handleOf (some (handleName (.owned resource) j ++ "#" ++ toString (asLine (Json.get fields "line")))) =
          some (handleName (.owned resource) j) := handleOf_text (handleName_plain _ _) _
      cases hreleased : falsy (Json.get fields "released") with
      | false =>
        have howing : owing env k ((((fields, Shape.owned resource), j) :: rest).map Mark.deed) =
            owing env (k + 1) (rest.map Mark.deed) := by
          simp [owing, Mark.deed, hreleased]
        rw [howing, hrest, List.filterMap_cons_none]
        simp [Mark.leaks, hreleased]
      | true =>
        have howing : owing env k ((((fields, Shape.owned resource), j) :: rest).map Mark.deed) =
            held env (handleName (.owned resource) j) resource (asLine (Json.get fields "line")) k ::
              owing env (k + 1) (rest.map Mark.deed) := by
          simp [owing, Mark.deed, hreleased, Mark.handle, Mark.line]
        rw [howing, List.map_cons, List.map_cons, hrest,
          List.filterMap_cons_some (b := (Code.own001, some (handleName (.owned resource) j)))]
        · rw [← hhandle]
          rfl
        · simp [Mark.leaks, hreleased, Mark.handle]

theorem iterSubscribes_append (a b : List Stmt) : iterSubscribes (a ++ b) = iterSubscribes a ++ iterSubscribes b := by
  induction a with
  | nil => rfl
  | cons st rest ih => rw [List.cons_append, iterSubscribes, ih, iterSubscribes, List.append_assoc]

theorem iterSubscribes_marks {l : List Mark} (hskip : ∀ m ∈ l, m.1.2 ≠ .skip) :
    iterSubscribes ((l.map Mark.deed).flatMap Deed.stmts) = (l.filter Mark.captures).map fun m => (m.handle, m.line) := by
  induction l with
  | nil => rfl
  | cons m rest ih =>
    have hrest := ih fun x hx => hskip x (List.mem_cons_of_mem _ hx)
    obtain ⟨⟨fields, shape⟩, j⟩ := m
    rw [List.map_cons, List.flatMap_cons, iterSubscribes_append, hrest]
    cases shape with
    | skip => exact absurd rfl (hskip _ List.mem_cons_self)
    | capture region life => rfl
    | owned resource =>
      show iterSubscribes (_ :: if _ then _ else _) ++ _ = (rest.filter Mark.captures).map _
      cases falsy (Json.get fields "released") with
      | true => rfl
      | false => rfl

/-! ## Shapes -/

/-- Only known resources are acquired. -/
theorem shapeOf_owned {fields : Fields} {resource : String} (h : shapeOf diLife fields = .ok (.owned resource)) :
    resource ∈ preludeResources.map Prod.fst := by
  have hroute : ∀ {rkind : Json}, (routeResource rkind).map (fun r => Shape.owned r.1) = .ok (.owned resource) →
      resource ∈ preludeResources.map Prod.fst := by
    intro rkind hr
    unfold routeResource at hr
    cases hh : hashable rkind with
    | error e =>
      rw [hh] at hr
      cases hr
    | ok u =>
      rw [hh] at hr
      dsimp only at hr
      split at hr
      next r hfind =>
        cases hr
        obtain ⟨kind, -, hkind⟩ := Option.bind_eq_some_iff.mp hfind
        have hall : ∀ r ∈ resourceKinds, r.2.1 ∈ preludeResources.map Prod.fst := by decide
        exact hall r (List.mem_of_find?_eq_some hkind)
      next => cases hr
  unfold shapeOf at h
  dsimp only at h
  split at h
  · cases h
  · split at h
    · cases h
    · split at h
      · split at h
        · cases h
        · cases h
      · split at h
        · cases h
        · split at h
          · cases h
          · exact hroute h

/-- What a registered lifetime is known as. -/
def Registered (diLife : Dict String String) : Prop := ∀ name life, diLife.get? name = some life → life ∈ diRegions.map Prod.fst

theorem diLifeMap_registered {services : List Json} : ∀ {d : Dict String String}, Registered d →
    ∀ {r : Dict String String}, diLifeMap services d = .ok r → Registered r := by
  induction services with
  | nil =>
    intro d hd r h
    cases h
    exact hd
  | cons s rest ih =>
    intro d hd r h
    cases s with
    | null | bool _ | int _ | float _ | str _ | arr _ => exact ih hd h
    | obj fields =>
      rw [diLifeMap] at h
      split at h
      next name hname =>
        split at h
        next => cases h
        next =>
          split at h
          next life hlife =>
            refine ih (fun n l hl => ?_) h
            rw [Dict.get?_set] at hl
            split at hl
            next =>
              cases hl
              have := (Option.filter_eq_some_iff.mp hlife).2
              exact of_decide_eq_true this
            next => exact hd n l hl
          next => exact ih hd h
      next => exact ih hd h

/-- The regions of sources. -/
def sourceRegions : List String := ["Process", "scoped", "transient"]

theorem shapeOf_capture (hlife : Registered diLife) {fields : Fields} {region : String} {life : Option String}
    (h : shapeOf diLife fields = .ok (.capture region life)) : region ∈ sourceRegions := by
  unfold shapeOf at h
  dsimp only at h
  split at h
  · cases h
  · split at h
    · cases h
    · split at h
      · split at h
        next r hr =>
          cases h
          split at hr
          · cases hr
          · obtain ⟨source, -, hsource⟩ := Option.bind_eq_some_iff.mp hr
            have hall : ∀ e ∈ captureSourceRegions, e.2 ∈ sourceRegions := by decide
            obtain ⟨e, he, rfl⟩ := Option.map_eq_some_iff.mp hsource
            exact hall e (List.mem_of_find?_eq_some he)
        next => cases h
      · split at h
        · cases h
        · split at h
          next l hl =>
            cases h
            split at hl
            · obtain ⟨t, -, ht⟩ := Option.bind_eq_some_iff.mp hl
              have hall : ∀ l ∈ diRegions.map Prod.fst, (diRegion l).getD l ∈ sourceRegions := by decide
              exact hall l (hlife t l ht)
            · cases hl
          next =>
            cases hr : routeResource (getD fields "resource" (.str "subscription")) with
            | error e =>
              rw [hr] at h
              cases h
            | ok r =>
              rw [hr] at h
              cases h

theorem subscriberRegion_declared (hlife : Registered diLife) {region : String} (h : subscriberRegion cname diLife = .ok region) :
    region ∈ "Subscriber" :: sourceRegions := by
  unfold subscriberRegion at h
  cases hh : hashable cname with
  | error e =>
    rw [hh] at h
    cases h
  | ok u =>
    rw [hh] at h
    cases h
    cases hl : cname.asStr.bind diLife.get? with
    | none => exact List.mem_cons_self
    | some life =>
      obtain ⟨t, -, ht⟩ := Option.bind_eq_some_iff.mp hl
      have hall : ∀ l ∈ diRegions.map Prod.fst, (diRegion l).getD "Subscriber" ∈ "Subscriber" :: sourceRegions := by decide
      exact hall life (hlife t life ht)

/-! ## A component -/

/-- What is to be found of a mark. -/
def Mark.code (region : String) (m : Mark) : Option Code :=
  match m.1.2 with
  | .skip => none
  | .capture source _ => if source ∈ outlivedBy region then some .own014 else none
  | .owned _ => if falsy (Json.get m.1.1 "released") then some .own001 else none

theorem fate_eq (region : String) (m : Mark) :
    fate region cname file m.1 = (m.code region).map fun c => (c, m.fact cname file) := by
  obtain ⟨⟨fields, shape⟩, k⟩ := m
  cases shape with
  | skip => rfl
  | capture source life =>
    by_cases h : source ∈ outlivedBy region
    · simp [fate, Mark.code, h, Mark.fact, Mark.life]
    · simp [fate, Mark.code, h]
  | owned resource =>
    by_cases h : falsy (Json.get fields "released")
    · simp [fate, Mark.code, h, Mark.fact, Mark.life]
    · simp [fate, Mark.code, h]

/-- A leak or an escape of a mark, whichever there is. -/
theorem found_perm (region : String) (l : List Mark) :
    (l.filterMap (fun m => (m.escapes region).map fun h => (Code.own014, some h)) ++
        l.filterMap (fun m => m.leaks.map fun h => (Code.own001, some h))).Perm
      (l.filterMap fun m => (m.code region).map fun c => (c, some m.handle)) := by
  induction l with
  | nil => exact List.Perm.nil
  | cons m rest ih =>
    obtain ⟨⟨fields, shape⟩, k⟩ := m
    cases shape with
    | skip => exact ih
    | capture source life =>
      by_cases h : source ∈ outlivedBy region
      · simpa [Mark.escapes, Mark.leaks, Mark.code, h] using ih
      · simpa [Mark.escapes, Mark.leaks, Mark.code, h] using ih
    | owned resource =>
      by_cases h : falsy (Json.get fields "released")
      · simpa [Mark.escapes, Mark.leaks, Mark.code, h] using List.perm_middle.trans (ih.cons _)
      · simpa [Mark.escapes, Mark.leaks, Mark.code, h] using ih

/-- What a finding is known by: its code, and the handle it is about. -/
def sign (d : Diagnostic) : Code × Option String := (d.code, handleOf d.subject)

theorem Mark.handle_plain (m : Mark) : '#' ∉ m.handle.toList := handleName_plain _ _

theorem sign_escape {n : String} (hn : '#' ∉ n.toList) (fn : FnItem) (selfLt srcLt : String) (line : Int) :
    sign (escape fn selfLt srcLt n line) = (.own014, some n) := by
  unfold sign escape
  exact congrArg (Prod.mk _) (handleOf_text hn (toString line))

theorem component_leaks {subs : List Json} {gid : Nat} {s : Subs}
    (h : lowerSubs diLife cname file subs gid = .ok s) (region : String)
    {env : Env} (henv : env.resourceNames = preludeResources.map Prod.fst) (n : Nat) :
    ∃ ds, checkFunction (n + 1) env (componentDecl cname region s).fn = .ok ds ∧
      ds.map sign = (marked diLife subs gid).filterMap fun m => m.leaks.map fun h => (Code.own001, some h) := by
  obtain ⟨-, hcaptures, hbody, -, hmarks⟩ := lowerSubs_marked h
  have hskip := fun m hm => (hmarks m hm).1
  have hfn : (componentDecl cname region s).fn =
      ⟨str cname, s.captures.map fun c => ⟨c.1, ⟨"EventSource", false, false, 0⟩, 0⟩, none,
        ((marked diLife subs gid).map Mark.deed).flatMap Deed.stmts, 0⟩ := by
    rw [← hbody]
    rfl
  have hplain : ∀ p ∈ s.captures.map (fun c => (⟨c.1, ⟨"EventSource", false, false, 0⟩, 0⟩ : Param)), p.Plain env := by
    intro p hp
    obtain ⟨c, -, rfl⟩ := List.mem_map.mp hp
    refine ⟨rfl, ?_⟩
    rw [henv]
    show "EventSource" ∉ preludeResources.map Prod.fst
    decide
  have hknown : ∀ d ∈ (marked diLife subs gid).map Mark.deed, d.Known env := by
    intro d hd
    obtain ⟨m, hm, rfl⟩ := List.mem_map.mp hd
    have hshape := (hmarks m hm).2
    obtain ⟨⟨fields, shape⟩, k⟩ := m
    cases shape with
    | skip | capture _ _ => exact trivial
    | owned resource =>
      show resource ∈ env.resourceNames
      rw [henv]
      exact shapeOf_owned hshape
  have hnodup : ((s.captures.map fun c => (⟨c.1, ⟨"EventSource", false, false, 0⟩, 0⟩ : Param)).map Param.name ++
      ((marked diLife subs gid).map Mark.deed).filterMap Deed.name?).Nodup := by
    rw [List.map_map, hcaptures]
    exact names_nodup hskip (marked_handles_nodup subs gid)
  rw [hfn, checkFunction_straight hplain hknown hnodup n]
  exact ⟨_, rfl, owing_marks hskip _ _⟩

/-! ## Regions -/

def captureDecls : List LifetimeDecl := captureLifetimes.map fun l => ⟨l.1, l.2, 0⟩

theorem mem_strictlyLonger_captures {region source : String} (hr : region ∈ "Subscriber" :: sourceRegions)
    (hs : source ∈ sourceRegions) :
    source ∈ strictlyLonger captureDecls region ↔ source ∈ outlivedBy region := by
  have hall : ∀ r ∈ "Subscriber" :: sourceRegions, ∀ t ∈ sourceRegions,
      (t ∈ strictlyLonger captureDecls r ↔ t ∈ outlivedBy r) := by decide
  exact hall region hr source hs

/-- A function without lifetimes has no escapes. -/
theorem checkFn_plain (names : List String) (longer : String → List String) {d : Decl} (h : d.lifetime = none)
    (hp : d.paramLifetimes = []) :
    checkFn names longer d.item = [] := by
  have hlife : d.item.lifetime = none := h
  have hparams : ∀ p ∈ d.item.params, p.lifetime = none := by
    intro p hp'
    obtain ⟨q, -, rfl⟩ := List.mem_map.mp hp'
    show entry d.paramLifetimes q.name = none
    rw [hp]
    rfl
  have hofParams : (d.item.params.flatMap fun p => (p.lifetime.filter (· ∉ names)).toList.map fun l =>
    undefinedLifetime l p.line) =
      [] :=
    List.flatMap_eq_nil_iff.mpr fun p hp' => by rw [hparams p hp']; rfl
  unfold checkFn
  dsimp only
  rw [hofParams, hlife]
  simp

theorem entry_of_mem {α : Type} {l : List (String × α)} (hl : (l.map Prod.fst).Nodup) {k : String} {v : α} (h : (k, v) ∈ l) :
    entry l k = some v := by
  induction l with
  | nil => cases h
  | cons e rest ih =>
    obtain ⟨hnot, hrest⟩ := List.nodup_cons.mp hl
    rw [entry_cons]
    rcases List.mem_cons.mp h with rfl | h
    · exact if_pos rfl
    · have hne : e.1 ≠ k := by
        intro heq
        rw [heq] at hnot
        exact hnot (List.mem_map.mpr ⟨_, h, rfl⟩)
      rw [if_neg hne]
      exact ih hrest h

/-- A function all of whose lifetimes are declared is only reported for what escapes it. -/
theorem checkFn_known {names : List String} {longer : String → List String} {fn : FnItem} {selfLt : String}
    (hself : fn.lifetime = some selfLt) (hin : selfLt ∈ names)
    (hparams : ∀ p ∈ fn.params, ∀ l, p.lifetime = some l → l ∈ names) :
    checkFn names longer fn = (iterSubscribes fn.body).filterMap fun sub =>
      ((paramLifetimes names fn.params).get? sub.1).bind fun srcLt =>
        if srcLt ∈ longer selfLt then some (escape fn selfLt srcLt sub.1 sub.2) else none := by
  have hofParams : (fn.params.flatMap fun p => (p.lifetime.filter (· ∉ names)).toList.map fun l =>
      undefinedLifetime l p.line) = [] := by
    refine List.flatMap_eq_nil_iff.mpr fun p hp => ?_
    cases hl : p.lifetime with
    | none => rfl
    | some l => simp [hparams p hp l hl]
  unfold checkFn
  dsimp only
  rw [hofParams, hself]
  simp only [Option.filter_some, hin, not_true_eq_false, decide_false, Bool.false_eq_true, if_false, decide_true, if_true,
    Option.toList_none, List.map_nil, List.nil_append]
  refine List.filterMap_congr fun sub _ => ?_
  cases (paramLifetimes names fn.params).get? sub.1 with
  | none => rfl
  | some srcLt => rfl

/-- Mark by mark: a capture is found where its source outlives the subscriber. -/
theorem escapes_marks {fn : FnItem} {region : String} {lifetimeOf : String → Option String} {longer : List String} {l : List Mark}
    (hl : ∀ m ∈ l, ∀ c, m.source = some c → lifetimeOf c.1 = some c.2 ∧ (c.2 ∈ longer ↔ c.2 ∈ outlivedBy region)) :
    (((l.filter Mark.captures).map fun m => (m.handle, m.line)).filterMap fun sub =>
      (lifetimeOf sub.1).bind fun srcLt => if srcLt ∈ longer then some (escape fn region srcLt sub.1 sub.2) else none).map sign =
      l.filterMap fun m => (m.escapes region).map fun h => (Code.own014, some h) := by
  induction l with
  | nil => rfl
  | cons m rest ih =>
    have hrest := ih fun x hx => hl x (List.mem_cons_of_mem _ hx)
    have hm := hl m List.mem_cons_self
    obtain ⟨⟨fields, shape⟩, k⟩ := m
    cases shape with
    | skip | owned _ => exact hrest
    | capture src life =>
      obtain ⟨hlt, hiff⟩ := hm _ rfl
      rw [List.filter_cons_of_pos rfl, List.map_cons, List.filterMap_cons]
      dsimp only
      rw [show lifetimeOf (Mark.handle ((fields, .capture src life), k)) = some src from hlt, Option.bind_some]
      by_cases hout : src ∈ outlivedBy region
      · rw [if_pos (hiff.mpr hout)]
        dsimp only
        rw [List.map_cons, hrest, sign_escape (Mark.handle_plain _), List.filterMap_cons_some]
        simp [Mark.escapes, hout]
      · rw [if_neg fun h => hout (hiff.mp h), List.filterMap_cons_none]
        · exact hrest
        · simp [Mark.escapes, hout]

/-- A component's parameters are its captures, each with the lifetime of its source. -/
theorem componentDecl_params {region : String} {s : Subs} (hkeys : (s.captures.map Prod.fst).Nodup) :
    (componentDecl cname region s).item.params =
      s.captures.map fun c => { name := c.1, type := ⟨"EventSource", false, false, 0⟩, line := 0, lifetime := some c.2 } := by
  show (s.captures.map fun c => (⟨c.1, ⟨"EventSource", false, false, 0⟩, 0⟩ : Param)).map _ = _
  rw [List.map_map]
  refine List.map_congr_left fun c hc => ?_
  show (⟨⟨c.1, _, 0⟩, entry s.captures c.1⟩ : ParamDecl) = _
  rw [entry_of_mem hkeys hc]

theorem componentDecl_lifetimes {names : List String} {region : String} {s : Subs} (hkeys : (s.captures.map Prod.fst).Nodup)
    (hnames : ∀ c ∈ s.captures, c.2 ∈ names) {c : String × String} (hc : c ∈ s.captures) :
    (paramLifetimes names (componentDecl cname region s).item.params).get? c.1 = some c.2 := by
  rw [paramLifetimes_get?, componentDecl_params hkeys]
  obtain ⟨before, after, hsplit⟩ := List.append_of_mem hc
  have hin := hnames c hc
  rw [hsplit, List.map_append, List.map_cons] at hkeys ⊢
  refine ⟨_, _, _, rfl, rfl, rfl, hin, fun q hq heq => ?_⟩
  obtain ⟨e, he, rfl⟩ := List.mem_map.mp hq
  have hnot := (List.nodup_cons.mp hkeys.of_append_right).1
  exact absurd (heq ▸ List.mem_map_of_mem he) hnot

theorem component_escapes (hlife : Registered diLife) {subs : List Json} {gid : Nat} {s : Subs}
    (h : lowerSubs diLife cname file subs gid = .ok s) {region : String} (hregion : region ∈ "Subscriber" :: sourceRegions) :
    (checkFn (captureDecls.map LifetimeDecl.name) (strictlyLonger captureDecls) (componentDecl cname region s).item).map sign =
      (marked diLife subs gid).filterMap fun m => (m.escapes region).map fun h => (Code.own014, some h) := by
  obtain ⟨-, hcaptures, hbody, -, hmarks⟩ := lowerSubs_marked h
  have hskip := fun m hm => (hmarks m hm).1
  cases hempty : s.captures with
  | nil =>
    rw [checkFn_plain _ _ (by show (if s.captures.isEmpty then none else some region) = none; rw [hempty]; rfl) hempty]
    refine (List.filterMap_eq_nil_iff.mpr fun m hm => ?_).symm
    rw [hempty] at hcaptures
    have hnone := List.filterMap_eq_nil_iff.mp hcaptures.symm m hm
    obtain ⟨⟨fields, shape⟩, k⟩ := m
    cases shape with
    | capture source life => cases hnone
    | skip | owned _ => rfl
  | cons c₀ rest₀ =>
    have hself : (componentDecl cname region s).item.lifetime = some region := by
      show (if s.captures.isEmpty then none else some region) = some region
      rw [hempty]
      rfl
    have hkeys : (s.captures.map Prod.fst).Nodup := by
      rw [hcaptures]
      exact (names_nodup hskip (marked_handles_nodup subs gid)).of_append_left
    have hsource : ∀ m ∈ marked diLife subs gid, ∀ c, m.source = some c → c.2 ∈ sourceRegions := by
      intro m hm c hc
      have hshape := (hmarks m hm).2
      obtain ⟨⟨fields, shape⟩, k⟩ := m
      cases shape with
      | capture src life =>
        cases hc
        exact shapeOf_capture hlife hshape
      | skip | owned _ => cases hc
    have hdeclared : ∀ src ∈ "Subscriber" :: sourceRegions, src ∈ captureDecls.map LifetimeDecl.name := by decide
    have hnames : ∀ c ∈ s.captures, c.2 ∈ captureDecls.map LifetimeDecl.name := by
      intro c hc
      rw [hcaptures] at hc
      obtain ⟨m, hm, hmc⟩ := List.mem_filterMap.mp hc
      exact hdeclared _ (List.mem_cons_of_mem _ (hsource m hm c hmc))
    have hbodyItem : (componentDecl cname region s).item.body = ((marked diLife subs gid).map Mark.deed).flatMap
      Deed.stmts := hbody
    rw [checkFn_known hself (hdeclared region hregion), hbodyItem, iterSubscribes_marks hskip]
    · refine escapes_marks fun m hm c hc => ⟨componentDecl_lifetimes hkeys hnames ?_, ?_⟩
      · rw [hcaptures]
        exact List.mem_filterMap.mpr ⟨m, hm, hc⟩
      · exact mem_strictlyLonger_captures hregion (hsource m hm c hc)
    · intro p hp l hl
      rw [componentDecl_params hkeys] at hp
      obtain ⟨c, hc, rfl⟩ := List.mem_map.mp hp
      cases hl
      exact hnames c hc

/-! ## A document -/

/-- A handle, what it stands for, and what is to be found of it. -/
abbrev Item := String × Handle × Option Code

/-- Components lowered to functions, with the items they come to, numbered from `lo` up to `hi`. -/
structure Tallied (lo hi : Nat) (decls : List Decl) (items : List Item) : Prop where
  le : lo ≤ hi
  numbered : ∀ i ∈ items, ∃ shape k, i.1 = handleName shape k ∧ lo ≤ k ∧ k < hi
  nodup : (items.map Prod.fst).Nodup
  plain : (∀ d ∈ decls, d.paramLifetimes = []) → ∀ d ∈ decls, d.lifetime = none
  found : ∀ env : Env, env.resourceNames = preludeResources.map Prod.fst → ∀ n, ∃ dss,
    decls.mapM (fun d => checkFunction (n + 1) env d.fn) = .ok dss ∧
      ((decls.flatMap (fun d => checkFn (captureDecls.map LifetimeDecl.name) (strictlyLonger captureDecls) d.item) ++
        dss.flatten).map sign).Perm (items.filterMap fun i => i.2.2.map fun c => (c, some i.1))

def Mark.item (region : String) (cname file : Json) (m : Mark) : Item := (m.handle, m.fact cname file, m.code region)

theorem component_tallied (hlife : Registered diLife) {subs : List Json} {gid : Nat} {s : Subs}
    (h : lowerSubs diLife cname file subs gid = .ok s) {region : String} (hregion : region ∈ "Subscriber" :: sourceRegions) :
    Tallied gid s.gid [componentDecl cname region s] ((marked diLife subs gid).map (Mark.item region cname file)) := by
  obtain ⟨-, -, -, hgid, -⟩ := lowerSubs_marked h
  refine ⟨by omega, fun i hi => ?_, ?_, fun hp d hd => ?_, fun env henv n => ?_⟩
  · obtain ⟨m, hm, rfl⟩ := List.mem_map.mp hi
    have hidx := List.mem_zipIdx hm
    exact ⟨m.1.2, m.2, rfl, by omega, by omega⟩
  · rw [List.map_map]
    exact marked_handles_nodup subs gid
  · have hnil : s.captures = [] := hp _ List.mem_cons_self
    rw [List.mem_singleton.mp hd]
    show (if s.captures.isEmpty then none else some region) = none
    rw [hnil]
    rfl
  · obtain ⟨ds, hds, hsigns⟩ := component_leaks h region henv n
    refine ⟨[ds], ?_, ?_⟩
    · rw [List.mapM_cons, hds]
      rfl
    · rw [List.flatMap_singleton, List.flatten_singleton, List.map_append, hsigns,
        component_escapes hlife h hregion, List.filterMap_map]
      exact found_perm region _

theorem Tallied.append {lo mid hi : Nat} {ds es : List Decl} {is js : List Item} (h : Tallied lo mid ds is)
    (h' : Tallied mid hi es js) :
    Tallied lo hi (ds ++ es) (is ++ js) := by
  have hle := h.le
  have hle' := h'.le
  refine ⟨by omega, fun i hi => ?_, ?_, fun hp d hd => ?_, fun env henv n => ?_⟩
  · rcases List.mem_append.mp hi with hi | hi
    · obtain ⟨shape, k, hk, hlo, hhi⟩ := h.numbered i hi
      exact ⟨shape, k, hk, hlo, by omega⟩
    · obtain ⟨shape, k, hk, hlo, hhi⟩ := h'.numbered i hi
      exact ⟨shape, k, hk, by omega, hhi⟩
  · rw [List.map_append, List.nodup_append]
    refine ⟨h.nodup, h'.nodup, fun a ha b hb heq => ?_⟩
    obtain ⟨i, hi, rfl⟩ := List.mem_map.mp ha
    obtain ⟨j, hj, rfl⟩ := List.mem_map.mp hb
    obtain ⟨s, k, hk, -, hlt⟩ := h.numbered i hi
    obtain ⟨t, l, hl, hge, -⟩ := h'.numbered j hj
    rw [hk, hl] at heq
    have := handleName_inj heq
    omega
  · rcases List.mem_append.mp hd with hd' | hd'
    · exact h.plain (fun x hx => hp x (List.mem_append_left _ hx)) d hd'
    · exact h'.plain (fun x hx => hp x (List.mem_append_right _ hx)) d hd'
  · obtain ⟨dss, hdss, hperm⟩ := h.found env henv n
    obtain ⟨ess, hess, hperm'⟩ := h'.found env henv n
    refine ⟨dss ++ ess, ?_, ?_⟩
    · rw [List.mapM_append, hdss, hess]
      rfl
    · rw [List.flatMap_append, List.flatten_append, List.filterMap_append]
      -- the escapes of both come before the leaks of both
      have happ := hperm.append hperm'
      rw [← List.map_append] at happ
      refine (List.Perm.map sign ?_).trans happ
      rw [List.append_assoc, List.append_assoc]
      exact (List.perm_append_comm_assoc _ _ _).append_left _

theorem lowerComponents_tallied (hlife : Registered diLife) {comps : List Json} : ∀ {gid : Nat} {decls : List Decl}
    {handles : List (String × Handle)}, lowerComponents diLife comps gid = .ok (decls, handles) →
    ∃ hi items, Tallied gid hi decls items ∧
      handles = items.map (fun i => (i.1, i.2.1)) ∧ fates diLife comps gid = items.filterMap fun i =>
          i.2.2.map fun c => (c, i.2.1) := by
  induction comps with
  | nil =>
    intro gid decls handles h
    cases h
    exact ⟨gid, [], ⟨le_rfl, fun i hi => absurd hi List.not_mem_nil, List.nodup_nil, fun _ d hd => absurd hd List.not_mem_nil,
      fun env henv n => ⟨[], rfl, List.Perm.nil⟩⟩, rfl, rfl⟩
  | cons comp rest ih =>
    intro gid decls handles h
    cases comp with
    | null | bool _ | int _ | float _ | str _ | arr _ => cases h
    | obj fields =>
      rw [lowerComponents] at h
      generalize hname : getD fields "name" (.str ("Component" ++ toString gid)) = cname at h
      generalize hfile : getD fields "file" (.str "?") = file at h
      split at h
      next => cases h
      next region hregion =>
        split at h
        next subs hsubs =>
          split at h
          next => cases h
          next s hs =>
            cases hmore : lowerComponents diLife rest s.gid with
            | error e =>
              rw [hmore] at h
              cases h
            | ok more =>
              rw [hmore] at h
              cases h
              obtain ⟨hi, items, htally, hhandles, hfates⟩ := ih hmore
              obtain ⟨h₁, -, -, hgid, -⟩ := lowerSubs_marked hs
              have hone := component_tallied hlife hs (subscriberRegion_declared hlife hregion)
              refine ⟨hi, _, hone.append htally, ?_, ?_⟩
              · rw [List.map_append, ← hhandles, h₁, List.map_map]
                rfl
              · rw [fates]
                rw [hname, hfile, hsubs, hregion, List.filterMap_append, ← hfates, hgid]
                congr 1
                show (charged diLife subs).filterMap (fate region cname file) = _
                rw [List.filterMap_map, ← List.zipIdx_map_fst gid (charged diLife subs), List.filterMap_map]
                exact List.filterMap_congr fun m _ => fate_eq region m
        next => cases h

theorem lowerFns_plain {g : Shared} {fns : List Fn} : ∀ {handles : List (String × FlowLocal)} {loc : Nat}
    {r : List Decl × List Advisory × List (String × FlowLocal)}, lowerFns g fns handles loc = .ok r →
    r.1.length = fns.length ∧ ∀ d ∈ r.1, d.lifetime = none ∧ d.paramLifetimes = [] := by
  induction fns with
  | nil =>
    intro handles loc r h
    cases h
    exact ⟨rfl, fun d hd => absurd hd List.not_mem_nil⟩
  | cons fn rest ih =>
    intro handles loc r h
    rw [lowerFns] at h
    cases hfn : lowerFn g fn handles loc with
    | error e =>
      rw [hfn] at h
      cases h
    | ok one =>
      rw [hfn] at h
      cases hrest : lowerFns g rest one.flow.handles one.flow.loc with
      | error e =>
        simp only [hrest] at h
        cases h
      | ok more =>
        simp only [hrest] at h
        cases h
        obtain ⟨hlen, hall⟩ := ih hrest
        refine ⟨by rw [List.length_cons, List.length_cons, hlen], fun d hd => ?_⟩
        rcases List.mem_cons.mp hd with rfl | hd
        · unfold lowerFn at hfn
          split at hfn
          next => cases hfn
          next =>
            split at hfn
            next => cases hfn
            next =>
              cases hfn
              exact ⟨rfl, rfl⟩
        · exact hall d hd

/-- Only components have lifetimes. -/
theorem checkLifetimes_components {m : Module} {comps flows : List Decl} (hm : m.functions = comps ++ flows)
    (hl : m.lifetimes = if comps.all (fun d => d.paramLifetimes.isEmpty) then [] else captureLifetimes)
    (hcomps : (∀ d ∈ comps, d.paramLifetimes = []) → ∀ d ∈ comps, d.lifetime = none)
    (hflows : ∀ d ∈ flows, d.lifetime = none ∧ d.paramLifetimes = []) :
    checkLifetimes m.regions =
      comps.flatMap fun d => checkFn (captureDecls.map LifetimeDecl.name) (strictlyLonger captureDecls) d.item := by
  have hnone : ∀ names longer, flows.flatMap (fun d => checkFn names longer d.item) = [] := fun names longer =>
    List.flatMap_eq_nil_iff.mpr fun d hd => checkFn_plain names longer (hflows d hd).1 (hflows d hd).2
  have hfunctions : ∀ names longer,
      m.regions.functions.flatMap (checkFn names longer) = comps.flatMap fun d => checkFn names longer d.item := by
    intro names longer
    show (m.functions.map Decl.item).flatMap _ = _
    rw [hm, List.map_append, List.flatMap_append, List.flatMap_map, List.flatMap_map, hnone, List.append_nil]
  cases hall : comps.all fun d => d.paramLifetimes.isEmpty with
  | true =>
    have hempty : ∀ d ∈ comps, d.paramLifetimes = [] := fun d hd => List.isEmpty_iff.mp (List.all_eq_true.mp hall d hd)
    have hplain : ∀ names longer, comps.flatMap (fun d => checkFn names longer d.item) = [] := fun names longer =>
      List.flatMap_eq_nil_iff.mpr fun d hd => checkFn_plain names longer (hcomps hempty d hd) (hempty d hd)
    rw [hall, if_pos rfl] at hl
    have hdecls : m.regions.lifetimes = [] := by
      show m.lifetimes.map _ = []
      rw [hl]
      rfl
    rw [checkLifetimes, hdecls, hfunctions, hplain, hplain]
    rfl
  | false =>
    rw [hall, if_neg Bool.false_ne_true] at hl
    have hdecls : m.regions.lifetimes = captureDecls := by
      show m.lifetimes.map _ = _
      rw [hl]
      rfl
    have hredefined : redefinedLifetimes [] captureDecls = [] := by decide
    have hundefined : (captureDecls.flatMap fun d =>
        (d.longer.filter (· ∉ captureDecls.map LifetimeDecl.name)).toList.map fun l =>
        undefinedLifetime l d.line) = [] := by decide
    have hcycles : (captureDecls.filterMap fun d =>
        if d.name ∈ strictlyLonger captureDecls d.name then some (cyclic d) else none) = [] := by decide
    rw [checkLifetimes, hdecls, hredefined, hundefined, hcycles, hfunctions]
    rfl

theorem entry_append {α : Type} {l m : List (String × α)} {k : String} {v : α} (h : entry l k = some v) :
    entry (l ++ m) k = some v := by
  obtain ⟨e, he, rfl⟩ := Option.map_eq_some_iff.mp h
  rw [entry, List.find?_append, he]
  rfl

end

/-- What a document that is lowered comes to: its components first, then its functions. -/
theorem lowerFacts_ok {facts : Fields} {L : Lowered} (h : lowerFacts facts = .ok L) :
    ∃ comps flows items more hi, L.module.functions = comps ++ flows ∧ L.module.resources = preludeResources ∧
      L.module.lifetimes = (if comps.all (fun d => d.paramLifetimes.isEmpty) then [] else captureLifetimes) ∧
      L.handles = items.map (fun i : Item => (i.1, i.2.1)) ++ more ∧ flows.length = (functionsOf facts).length ∧
      (∀ d ∈ flows, d.lifetime = none ∧ d.paramLifetimes = []) ∧ Tallied 0 hi comps items ∧
      fatesOf facts = items.filterMap fun i => i.2.2.map fun c => (c, i.2.1) := by
  unfold lowerFacts at h
  cases hcomps : componentsOf facts with
  | error e =>
    rw [hcomps] at h
    cases h
  | ok c =>
    rw [hcomps] at h
    dsimp only at h
    cases hfns : lowerFns (sharedOf (functionsOf facts) (mosOf (functionsOf facts)).1) (functionsOf facts) [] 0 with
    | error e =>
      rw [hfns] at h
      cases h
    | ok r =>
      rw [hfns] at h
      cases h
      obtain ⟨hlen, hflows⟩ := lowerFns_plain hfns
      unfold componentsOf at hcomps
      cases hdi : diLifeMap (((Json.get facts "services").asArr).getD []) Dict.empty with
      | error e =>
        rw [hdi] at hcomps
        cases hcomps
      | ok diLife =>
        rw [hdi] at hcomps
        dsimp only at hcomps
        split at hcomps
        next comps hcs =>
          have hlife : Registered diLife := diLifeMap_registered (fun name life hl => by cases hl) hdi
          obtain ⟨hi, items, htally, hhandles, hfates⟩ := lowerComponents_tallied hlife hcomps
          refine ⟨c.1, r.1, items, _, hi, rfl, rfl, rfl, congrArg (· ++ _) hhandles, hlen, hflows, htally, ?_⟩
          rw [fatesOf, hdi, hcs]
          exact hfates
        next => cases hcomps

/-- What is found of the components of a document that is lowered, whatever else it has: one leak for each resource that is not
    released and one escape for each capture by a source that outlives the subscriber, each led back to its own subscription. -/
theorem components_exact {facts : Fields} {L : Lowered} (h : lowerFacts facts = .ok L) (n : Nat) :
    ∃ comps flows own, L.module.functions = comps ++ flows ∧ flows.length = (functionsOf facts).length ∧
      (own.map fun d => (d.code, L.factOf d)).Perm ((fatesOf facts).map fun f => (f.1, some f.2)) ∧
      ∀ dss, flows.mapM (fun d => checkFunction (n + 1) L.module.env d.fn) = .ok dss →
        ∃ ds, L.module.check (n + 1) = .ok ds ∧ ds.Perm (own ++ dss.flatten) := by
  obtain ⟨comps, flows, items, more, hi, hfunctions, hresources, hlifetimes, hhandles, hlen,
    hflows, htally, hfates⟩ := lowerFacts_ok h
  obtain ⟨dss₀, hdss₀, hperm⟩ := htally.found L.module.env (congrArg _ hresources) n
  let escapes := comps.flatMap fun d => checkFn (captureDecls.map LifetimeDecl.name) (strictlyLonger captureDecls) d.item
  refine ⟨comps, flows, escapes ++ dss₀.flatten, hfunctions, hlen, ?_, fun dss hdss => ?_⟩
  · have hsign : ∀ own : List Diagnostic, (own.map fun d => (d.code, L.factOf d)) =
        (own.map sign).map fun x => (x.1, x.2.bind (entry L.handles)) := fun own => by
      rw [List.map_map]
      rfl
    rw [hsign, hfates, List.map_filterMap]
    refine (hperm.map _).trans (List.Perm.of_eq ?_)
    rw [List.map_filterMap]
    refine List.filterMap_congr fun i hi => ?_
    -- the first record of a handle is the one made for it
    have hentry : entry L.handles i.1 = some i.2.1 := by
      rw [hhandles]
      refine entry_append (entry_of_mem ?_ (List.mem_map.mpr ⟨i, hi, rfl⟩))
      rw [List.map_map]
      exact htally.nodup
    cases i.2.2 with
    | none => rfl
    | some c => exact congrArg (fun f => some (c, f)) hentry
  · refine ⟨(checkLifetimes L.module.regions ++ (dss₀ ++ dss).flatten).insertionSort reportedBefore, ?_, ?_⟩
    · rw [Module.check, hfunctions, List.mapM_append, hdss₀, hdss]
      rfl
    · rw [checkLifetimes_components hfunctions hlifetimes htally.plain hflows, List.append_assoc, ← List.flatten_append]
      exact List.perm_insertionSort _ _

namespace Example

/-- A component with a subscription left, one taken back, and a static event it is captured by. -/
def view : Fields :=
  [("components", .arr [.obj [("name", .str "View"), ("subscriptions", .arr [
    .obj [("event", .str "Tick"), ("line", .int 3)],
    .obj [("event", .str "Close"), ("released", .bool true), ("line", .int 4)],
    .obj [("resource", .str "capture"), ("source", .str "static"), ("event", .str "Exit"), ("line", .int 5)]])]])]

end Example

open Example in
theorem components_exact_view : (fatesOf view).map Prod.fst = [.own001, .own014] ∧ ∃ L, lowerFacts view = .ok L ∧
    ∃ comps flows own, L.module.functions = comps ++ flows ∧ flows.length = (functionsOf view).length ∧
      (own.map fun d => (d.code, L.factOf d)).Perm ((fatesOf view).map fun f => (f.1, some f.2)) ∧
      ∀ dss, flows.mapM (fun d => checkFunction 1 L.module.env d.fn) = .ok dss →
        ∃ ds, L.module.check 1 = .ok ds ∧ ds.Perm (own ++ dss.flatten) := by
  refine ⟨by decide, ?_⟩
  have hok : (lowerFacts view).isOk = true := by decide
  cases h : lowerFacts view with
  | error e =>
    rw [h] at hok
    cases hok
  | ok L => exact ⟨L, rfl, components_exact h 0⟩

end OwnNet.OwnIR
