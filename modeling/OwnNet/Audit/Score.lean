/-
  OwnNet.Audit.Score — the audit's scoring: findings of one file key that are within a few lines
  of one another are a cluster; a cluster has the category of its gravest member, a severity and
  a confidence; clusters roll up by directory.

  Weights are whole numbers, so the sums of them are exact. `lower` is `str.lower`.
-/

import Mathlib.Algebra.Order.Ring.Int
import Mathlib.Data.List.Dedup
import Mathlib.Data.List.Sort
import Mathlib.Data.Prod.Lex
import Mathlib.Data.String.Basic
import OwnNet.Dict.Grouped

namespace OwnNet.Audit

/-! ## Findings -/

structure AuditFinding where
  tool : String
  path : String
  line : Int
  rule : String := ""
  message : String := ""
  category : Int := 0
  categoryName : String := "uncategorized"
  suppressed : Bool := false
  note : Bool := false
  deriving DecidableEq, Repr

/-- `path.rsplit("/", 1)[-1]` -/
def baseName (path : String) : String := String.ofList (path.toList.reverse.takeWhile (· ≠ '/')).reverse

/-- `path.rsplit("/", 1)[0]` -/
def dirName (path : String) : String := String.ofList ((path.toList.reverse.dropWhile (· ≠ '/')).drop 1).reverse

def AuditFinding.fkey (lower : String → String) (f : AuditFinding) : String := baseName (lower f.path)

def AuditFinding.module_ (f : AuditFinding) : String := if '/' ∈ f.path.toList then dirName f.path else "(root)"

def AuditFinding.scored (f : AuditFinding) : Bool := !f.suppressed && !f.note

structure Taxonomy where
  categorySeverity : List (Int × String)

def Taxonomy.severityFor (tax : Taxonomy) (category : Int) : String := (tax.categorySeverity.lookup category).getD "P3"

/-- `SEV_WEIGHT.get(severity, 1.0)` -/
def sevWeight (severity : String) : Nat := ([("P0", 8), ("P1", 4), ("P2", 2), ("P3", 1)].lookup severity).getD 1

/-- `CONF_WEIGHT.get(confidence, 1.0)` -/
def confWeight (confidence : String) : Nat := ([("high", 2), ("candidate", 1)].lookup confidence).getD 1

/-! ## Clusters of one file -/

/-- The findings of a cluster, of which there is always a first. -/
structure Members where
  first : AuditFinding
  rest : List AuditFinding
  deriving DecidableEq, Repr

def Members.all (c : Members) : List AuditFinding := c.first :: c.rest

def Members.push (c : Members) (f : AuditFinding) : Members := ⟨c.first, c.rest ++ [f]⟩

def within (tol : Int) (f g : AuditFinding) : Bool := |f.line - g.line| ≤ tol

/-- A finding goes into the first cluster that has one near it, or makes one of its own. -/
def place (tol : Int) : List Members → AuditFinding → List Members
  | [], f => [⟨f, []⟩]
  | c :: rest, f => if c.all.any fun g => within tol f g then c.push f :: rest else c :: place tol rest f

def byLine (group : List AuditFinding) : List AuditFinding := group.insertionSort fun f g => f.line ≤ g.line

/-- `_cluster_one_file` -/
def clusterOneFile (tol : Int) (group : List AuditFinding) : List Members := (byLine group).foldl (place tol) []

/-! ## The category of a cluster -/

section Taxonomy

variable (tax : Taxonomy)

def gravity (f : AuditFinding) : Nat ×ₗ Int := toLex (sevWeight (tax.severityFor f.category), -f.category)

/-- `max(members, key=key)`: the first of the gravest. -/
def gravest (c : Members) : AuditFinding :=
  c.rest.foldl (fun best f => if gravity tax best < gravity tax f then f else best) c.first

structure Cluster where
  findings : Members
  category : Int
  categoryName : String
  severity : String
  confidence : String
  deriving DecidableEq, Repr

namespace Cluster

def module_ (c : Cluster) : String := c.findings.first.module_

def path (c : Cluster) : String := c.findings.first.path

def line (c : Cluster) : Int := c.findings.first.line

def tools (c : Cluster) : List String := ((c.findings.all.map AuditFinding.tool).dedup).insertionSort (· ≤ ·)

def pain (c : Cluster) : Nat := sevWeight c.severity * confWeight c.confidence

/-- The key clusters are sorted by. -/
def rank (c : Cluster) : Int ×ₗ String ×ₗ String ×ₗ Int := toLex (-(c.pain : Int), toLex (c.module_, toLex (c.path, c.line)))

end Cluster

def confidenceOf (c : Members) : String := if 2 ≤ ((c.all.map AuditFinding.tool).dedup).length then "high" else "candidate"

/-- A cluster with its category, severity and confidence. -/
def assess (c : Members) : Cluster where
  findings := c
  category := (gravest tax c).category
  categoryName := (gravest tax c).categoryName
  severity := tax.severityFor (gravest tax c).category
  confidence := confidenceOf c

/-! ## The roll-up -/

structure Heat where
  pain : Nat
  findings : Nat
  high : Nat
  categories : List (String × Nat)
  deriving DecidableEq, Repr

def Heat.add (h : Option Heat) (c : Cluster) : Heat :=
  let h := h.getD ⟨0, 0, 0, []⟩
  { pain := h.pain + c.pain, findings := h.findings + 1, high := h.high + if c.confidence = "high" then 1 else 0
    categories := Dict.upsert c.categoryName (fun o => o.getD 0 + 1) h.categories }

def heat (clusters : List Cluster) : List (String × Heat) :=
  clusters.foldl (fun d c => Dict.upsert c.module_ (fun o => Heat.add o c) d) []

/-- `most_common(1)[0][0]`: the first of the commonest. -/
def topCategory : List (String × Nat) → String
  | [] => ""
  | e :: rest => (rest.foldl (fun best e => if best.2 < e.2 then e else best) e).1

structure Row where
  module_ : String
  pain : Nat
  findings : Nat
  highConfidence : Nat
  topCategory : String
  deriving DecidableEq, Repr

def rowOf (e : String × Heat) : Row := ⟨e.1, e.2.pain, e.2.findings, e.2.high, topCategory e.2.categories⟩

def heatmapOf (clusters : List Cluster) : List Row :=
  ((heat clusters).map rowOf).insertionSort fun r s => toLex (-(r.pain : Int), r.module_) ≤ toLex (-(s.pain : Int), s.module_)

structure Totals where
  clusters : Nat
  highConfidence : Nat
  candidates : Nat
  deriving DecidableEq, Repr

structure Scored where
  clusters : List Cluster
  heatmap : List Row
  totals : Totals
  byCategory : List (String × Nat)
  bySeverity : List (String × Nat)
  deriving DecidableEq, Repr

section Score

variable (lower : String → String) (tol : Int)

/-- The clusters of every file, in the order the files come in. -/
def memberships (findings : List AuditFinding) : List Members :=
  (Dict.groups (AuditFinding.fkey lower) (findings.filter AuditFinding.scored)).flatMap fun g => clusterOneFile tol g.2

def rankedClusters (findings : List AuditFinding) : List Cluster :=
  ((memberships lower tol findings).map (assess tax)).insertionSort fun c d => c.rank ≤ d.rank

/-- `score` -/
def score (findings : List AuditFinding) : Scored :=
  let clusters := rankedClusters tax lower tol findings
  { clusters := clusters
    heatmap := heatmapOf clusters
    totals := ⟨clusters.length, clusters.countP fun c => c.confidence = "high",
      clusters.countP fun c => c.confidence = "candidate"⟩
    byCategory := Dict.counter (clusters.map Cluster.categoryName)
    bySeverity := Dict.counter (clusters.map Cluster.severity) }

end Score

end Taxonomy

end OwnNet.Audit
