/-
  OwnNet.Lang.Ast — OwnLang: what a function is written in, and the findings reported
  about it. Conditions are opaque text: control flow is modelled, values are not.
-/

import Mathlib.Data.List.Basic

namespace OwnNet.Lang

inductive BorrowKind where
  | shared | mut
  deriving DecidableEq, Repr

/-- What a call does with an argument: a temporary loan, a transfer, or nothing. -/
inductive Effect where
  | borrow | borrowMut | consume | plain
  deriving DecidableEq, Repr

structure TypeRef where
  name : String
  borrowed : Bool
  mutable : Bool
  line : Int := 0
  deriving DecidableEq, Repr

inductive Expr where
  | intLit (value : Int) (line : Int)
  | varRef (name : String) (line : Int)
  | acquire (resource : String) (args : List Expr) (line : Int)
  | move (var : String) (line : Int)
  /-- `ns.mode(size, option = value, ...)`; `dups` are the options given twice. -/
  | buffer (mode : String) (size : Option Expr) (options : List (String × Expr)) (line : Int) (ns : String) (col : Int)
      (dups : List String)

inductive Stmt where
  | let_ (name : String) (rhs : Expr) (line : Int)
  | release (var : String) (line : Int)
  | use (var : String) (line : Int)
  | overspan (var : String) (line : Int)
  | call (callee : String) (args : List Expr) (line : Int)
  | aliasJoin (name src : String) (line : Int)
  | borrowBlock (owner binding : String) (kind : BorrowKind) (body : List Stmt) (line : Int)
  | if_ (condText : String) (thenBody elseBody : List Stmt) (line : Int)
  | while_ (condText : String) (body : List Stmt) (line : Int)
  | return_ (var : Option String) (line : Int)
  | subscribe (source : String) (line : Int)

structure Param where
  name : String
  type : TypeRef
  line : Int
  deriving DecidableEq, Repr

structure FnDecl where
  name : String
  params : List Param
  ret : Option TypeRef
  body : List Stmt
  line : Int

/-! ## Findings -/

inductive Code where
  | own001 | own002 | own003 | own004 | own005 | own006 | own007 | own008 | own009 | own010 | own011 | own012 | own013
  | own014 | own015 | own016 | own017 | own018 | own019 | own021 | own023 | own024 | own025
  | own030 | own031 | own032 | own033 | own034 | own035 | own036 | own040 | own041
  deriving DecidableEq, Repr

structure Evidence where
  line : Int
  label : String
  role : String
  deriving DecidableEq, Repr

structure Diagnostic where
  code : Code
  message : String
  line : Int
  subject : Option String := none
  resourceKind : Option String := none
  evidence : List Evidence := []
  deriving DecidableEq, Repr

end OwnNet.Lang
