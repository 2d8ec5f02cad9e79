import Std.Data.TreeMap
import Niladic.Action

namespace Niladic

structure Registry (H : Type) where
  kind : SymbolKind
  entries : Std.TreeMap String H := ∅

namespace Registry

variable {σ H : Type}

def get? (r : Registry H) (name : String) : Option H := r.entries[name]?

def contains (r : Registry H) (name : String) : Bool := r.entries.contains name

def insert (r : Registry H) (name : String) (handle : H) : Registry H :=
  { r with entries := r.entries.insert name handle }

theorem get?_insert_self (r : Registry H) (name : String) (handle : H) :
    (r.insert name handle).get? name = some handle := by
  simp [get?, insert]

theorem get?_insert_of_ne {r : Registry H} {name other : String} {handle : H}
    (h : name ≠ other) : (r.insert name handle).get? other = r.get? other := by
  simp [get?, insert, Std.TreeMap.getElem?_insert, h]

theorem contains_eq_isSome (r : Registry H) (name : String) :
    r.contains name = (r.get? name).isSome := by
  simp [contains, get?]

def size (r : Registry H) : Nat := r.entries.size

def isEmpty (r : Registry H) : Bool := r.entries.isEmpty

def names (r : Registry H) : List String := r.entries.keys.mergeSort (· ≤ ·)

def create (p : Part σ (Registry H)) (name : String) (make : Action (Logged σ) H) :
    Action (Logged σ) H := do
  let registry := p.get (← get).state
  if registry.contains name then
    Logged.reject (.duplicate registry.kind name) (.duplicate registry.kind name)
  else
    let handle ← make
    modify fun s => { s with state := p.put ((p.get s.state).insert name handle) s.state }
    Logged.emit (.registered registry.kind name)
    return handle

def find (p : Part σ (Registry H)) (name : String) : Action (Logged σ) H := do
  let registry := p.get (← get).state
  match registry.get? name with
  | some handle => return handle
  | none => Logged.reject (.notFound registry.kind name) (.notFound registry.kind name)

def findOrCreate (p : Part σ (Registry H)) (name : String) (make : Action (Logged σ) H) :
    Action (Logged σ) H := do
  match (p.get (← get).state).get? name with
  | some handle => return handle
  | none => create p name make

end Registry

end Niladic
