/-
  OwnNet.Lang.Module — what a source file is read into: the declarations of a module, with
  the lifetimes functions and parameters are annotated with.
-/

import OwnNet.Lang.Buffers

namespace OwnNet.Lang

inductive Role where
  | acquire | release
  deriving DecidableEq, Repr

structure ResourceMember where
  role : Role
  name : String
  line : Int
  deriving DecidableEq, Repr

structure ResourceDecl where
  name : String
  members : List ResourceMember
  line : Int
  emitType : Option String := none
  emitAcquire : Option String := none
  emitRelease : Option String := none
  emitBorrow : Option String := none
  kind : Option String := none
  deriving DecidableEq, Repr

structure EffectParam where
  effect : Effect
  typeName : String
  line : Int
  deriving DecidableEq, Repr

structure ExternDecl where
  name : String
  params : List EffectParam
  ret : Option TypeRef
  line : Int
  deriving DecidableEq, Repr

/-- A parameter, and the lifetime of the service it is. -/
structure ParamDecl extends Param where
  lifetime : Option String := none
  deriving DecidableEq, Repr

/-- A function as written: a `FnDecl`, and the lifetime of the object it sets up. -/
structure FnItem where
  name : String
  params : List ParamDecl
  ret : Option TypeRef
  body : List Stmt
  line : Int
  lifetime : Option String := none

def FnItem.decl (fn : FnItem) : FnDecl := ⟨fn.name, fn.params.map ParamDecl.toParam, fn.ret, fn.body, fn.line⟩

/-- A region, and the one it is strictly shorter than. -/
structure LifetimeDecl where
  name : String
  longer : Option String
  line : Int
  deriving DecidableEq, Repr

structure Module where
  name : String
  resources : List ResourceDecl := []
  externs : List ExternDecl := []
  functions : List FnItem := []
  policies : List Policy := []
  lifetimes : List LifetimeDecl := []

end OwnNet.Lang
