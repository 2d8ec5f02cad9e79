import Niladic.Registry

/-!
Scopes: a registry of blocks for each function. Creating a block opens the function's scope first,
and the scope stays open even when nothing comes to be registered in it.
-/

namespace Niladic

structure Scopes (H : Type) where
  registries : Std.TreeMap String (Registry H) := ∅

namespace Scopes

variable {σ H : Type}

def scope? (s : Scopes H) (function : String) : Option (Registry H) := s.registries[function]?

def scope (s : Scopes H) (function : String) : Registry H :=
  (s.scope? function).getD ⟨.block, ∅⟩

def put (s : Scopes H) (function : String) (registry : Registry H) : Scopes H :=
  ⟨s.registries.insert function registry⟩

def openScope (s : Scopes H) (function : String) : Scopes H := s.put function (s.scope function)

theorem scope_put_self (s : Scopes H) (function : String) (registry : Registry H) :
    (s.put function registry).scope function = registry := by
  simp [scope, scope?, put]

theorem scope_put_of_ne {s : Scopes H} {function other : String} {registry : Registry H}
    (h : function ≠ other) : (s.put function registry).scope other = s.scope other := by
  simp [scope, scope?, put, Std.TreeMap.getElem?_insert, h]

theorem scope_openScope (s : Scopes H) (function other : String) :
    (s.openScope function).scope other = s.scope other := by
  by_cases h : function = other
  · subst h
    exact scope_put_self ..
  · exact scope_put_of_ne h

def get? (s : Scopes H) (function name : String) : Option H := (s.scope function).get? name

def contains (s : Scopes H) (function name : String) : Bool := (s.scope function).contains name

def size (s : Scopes H) : Nat :=
  s.registries.toList.foldl (fun n entry => n + entry.2.size) 0

def isEmpty (s : Scopes H) : Bool := s.size == 0

def part (p : Part σ (Scopes H)) (function : String) : Part σ (Registry H) where
  get s := (p.get s).scope function
  put registry s := p.put ((p.get s).put function registry) s

def opening (p : Part σ (Scopes H)) (function : String) : Action (Logged σ) Unit :=
  modify fun s => { s with state := p.put ((p.get s.state).openScope function) s.state }

def create (p : Part σ (Scopes H)) (function name : String) (make : Action (Logged σ) H) :
    Action (Logged σ) H := do
  opening p function
  Registry.create (part p function) name make

def find (p : Part σ (Scopes H)) (function name : String) : Action (Logged σ) H := do
  match (p.get (← get).state).scope? function with
  | some _ => Registry.find (part p function) name
  | none =>
      let path := function ++ "::" ++ name
      Logged.reject (.notFound .block path) (.notFound .block path)

def findOrCreate (p : Part σ (Scopes H)) (function name : String) (make : Action (Logged σ) H) :
    Action (Logged σ) H := do
  opening p function
  Registry.findOrCreate (part p function) name make

end Scopes

end Niladic
