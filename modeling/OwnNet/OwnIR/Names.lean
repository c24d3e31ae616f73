/-
  OwnNet.OwnIR.Names — what a callee's spelling stands for: its name without `global::`, the
  key of one overload, the summary a call resolves to, and whether its result is fresh.
-/

import OwnNet.OwnIR.Nodes
import OwnNet.Ownership.Solve

namespace OwnNet.OwnIR

open Ownership

def globalQualifier : String := "global::"

/-- A name without its `global::`. -/
def canonicalCalleeName (name : String) : String :=
  if globalQualifier.toList.isPrefixOf name.toList then
    String.ofList (name.toList.drop globalQualifier.toList.length)
  else name

/-- The key of one overload's summary; the bare name is that of the merged one. -/
def sigKey (name sig : String) : String := name ++ "(" ++ sig ++ ")"

/-- `mos`: the solved summaries, by key. -/
abbrev Mos := List MethodSummary

def Mos.get? (mos : Mos) (key : String) : Option MethodSummary := mos.find? fun m => m.key = key

/-- The summary of a call: that of the overload its signature names, else the merged one. -/
def mosLookup (mos : Mos) (callee : String) (sig : Option String) : Option MethodSummary :=
  if callee = "" then none
  else
    let identity := canonicalCalleeName callee
    (sig.bind fun sig => (mos.get? (sigKey callee sig)).or (mos.get? (sigKey identity sig))).or
      ((mos.get? callee).or (mos.get? identity))

/-- The factories of the base class library whose result the caller owns, by namespace. -/
def bclFreshByNs : List (String × List String) :=
  [("System.IO",
      ["File.OpenRead", "File.OpenText", "File.OpenWrite", "File.Open", "File.Create", "File.CreateText",
        "File.AppendText", "File.OpenHandle"]),
    ("System.Security.Cryptography",
      ["SHA1.Create", "SHA256.Create", "SHA384.Create", "SHA512.Create", "MD5.Create", "Aes.Create", "RSA.Create",
        "ECDsa.Create"]),
    ("System.Xml", ["XmlReader.Create", "XmlWriter.Create"]),
    ("System.Text.Json", ["JsonDocument.Parse"])]

def bclFreshFactories : List String := bclFreshByNs.flatMap fun e => e.2

def bclFreshFqns : List String := bclFreshByNs.flatMap fun e => e.2.map fun m => e.1 ++ "." ++ m

def isBclFreshFactory (callee : String) : Bool :=
  let name := canonicalCalleeName callee
  callee ≠ "" ∧ (name ∈ bclFreshFactories ∨ name ∈ bclFreshFqns)

/-- A method with a summary is what its summary says; one of ours without any is no factory. -/
def calleeReturnsFresh (mos : Mos) (firstParty : List String) (callee : String) (sig : Option String) : Bool :=
  if callee = "" then false
  else
    match mosLookup mos callee sig with
    | some m => m.returns = .fresh
    | none => canonicalCalleeName callee ∉ firstParty ∧ isBclFreshFactory callee

end OwnNet.OwnIR
