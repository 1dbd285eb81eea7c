/-!
# Bindings and types

A binding is the resolved meaning of a name.  Types of exceptions form a single-inheritance
hierarchy; a type is given with the whole line of its supertypes, so a line never runs in a circle.

A type has no identity beyond its name, its mark and its line: two types that agree in these are one
type.  Types come from a table that declares a name once, so this is so for all types of one table,
but types with the same line from two tables are not told apart.
-/

namespace Extraction

inductive ClassType where
  | root (name : String) (unchecked : Bool)
  | sub (name : String) (unchecked : Bool) (parent : ClassType)
deriving DecidableEq, Repr

namespace ClassType

def name : ClassType → String
  | root name _ => name
  | sub name _ _ => name

def parent? : ClassType → Option ClassType
  | root _ _ => none
  | sub _ _ parent => some parent

/-- Whether the type must be declared when it escapes: neither it nor a supertype is unchecked. -/
def checked : ClassType → Bool
  | root _ unchecked => !unchecked
  | sub _ unchecked parent => !unchecked && parent.checked

/-- Whether the type is `other` or one of its subtypes. -/
def assignableTo (t other : ClassType) : Bool :=
  t == other ||
    match t with
    | root _ _ => false
    | sub _ _ parent => parent.assignableTo other

end ClassType

structure ClassDecl where
  name : String
  super : Option String := none
  unchecked : Bool := false
deriving DecidableEq, Repr

namespace ClassType

/-- Follows the supertypes of `name` through the table for at most `fuel` steps. -/
def resolve (table : List ClassDecl) : Nat → String → Option ClassType
  | 0, _ => none
  | fuel + 1, name =>
    (table.find? fun d => d.name == name).map fun d =>
      match d.super.bind (resolve table fuel) with
      | none => root d.name d.unchecked
      | some parent => sub d.name d.unchecked parent

/-- The type of the given name.  A line of supertypes is no longer than the table. -/
def ofTable? (table : List ClassDecl) (name : String) : Option ClassType :=
  resolve table table.length name

end ClassType

/-- The type of a variable: of the hierarchy, or the text of a type of the source language, fully
qualified and relative to the package that uses it. -/
inductive VarType where
  | named (type : ClassType)
  | written (qualified relative : String)
deriving DecidableEq, Repr

namespace VarType

def name : VarType → String
  | named type => type.name
  | written qualified _ => qualified

end VarType

inductive BindingKind where
  | localVar
  | parameter
  | field
  | global
  | recordComponent
  | unknown (code : Int)
deriving DecidableEq, Repr

namespace BindingKind

def ofCode : Int → BindingKind
  | 0 => localVar
  | 1 => parameter
  | 2 => field
  | 3 => global
  | 4 => recordComponent
  | code => unknown code

def describe : BindingKind → String
  | localVar => "local"
  | parameter => "parameter"
  | field => "field"
  | global => "global"
  | recordComponent => "record component"
  | unknown _ => "unknown"

/-- Locals and parameters are subject to data flow. -/
def isVariable : BindingKind → Bool
  | localVar | parameter => true
  | _ => false

end BindingKind

/-- A variable.  The key tells apart variables that agree in all else. -/
structure Binding where
  key : Nat
  name : String
  kind : BindingKind := .localVar
  type : Option VarType := none
  /-- The offset of the declaration, or -1. -/
  pos : Int := -1
deriving DecidableEq, Repr

namespace Binding

def isVariable (b : Binding) : Bool :=
  b.kind.isVariable

end Binding

end Extraction
