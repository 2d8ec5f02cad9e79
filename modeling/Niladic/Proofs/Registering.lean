import Niladic.Proofs.Actions
import Niladic.Registry.Scopes

namespace Niladic

open Niladic.Action

variable {σ H : Type}

namespace Registry

theorem get?_insert (r : Registry H) (name other : String) (handle : H) :
    (r.insert name handle).get? other = if other = name then some handle else r.get? other := by
  split
  next h =>
    subst h
    exact get?_insert_self ..
  next h => exact get?_insert_of_ne (Ne.symm h)

def Lists {α : Type} (r : Registry H) (look : H → Option α) (nameOf : α → String) : Prop :=
  ∀ n handle, r.get? n = some handle ↔ ∃ a, look handle = some a ∧ nameOf a = n

section Lists

variable {α : Type} {r : Registry H} {look look' : H → Option α} {nameOf : α → String}

theorem Lists.name_inj (h : r.Lists look nameOf) {x y : H} {a b : α} (hx : look x = some a)
    (hy : look y = some b) (hname : nameOf a = nameOf b) : x = y := by
  have hget := (h _ x).mpr ⟨a, hx, hname⟩
  rw [(h _ y).mpr ⟨b, hy, rfl⟩] at hget
  exact (Option.some.inj hget).symm

theorem Lists.findIdx?_eq {table : Array α} {index : H → Nat} {mk : Nat → H}
    (h : r.Lists (fun handle => table[index handle]?) nameOf) (hindex : ∀ i, index (mk i) = i)
    (n : String) : (table.findIdx? (nameOf · == n)).map mk = r.get? n := by
  cases hi : table.findIdx? (nameOf · == n) with
  | none =>
      cases hget : r.get? n with
      | none => rfl
      | some handle =>
          obtain ⟨a, ha, hname⟩ := (h n handle).mp hget
          have hne := Array.findIdx?_eq_none_iff.mp hi a (Array.mem_of_getElem? ha)
          simp [hname] at hne
  | some i =>
      obtain ⟨hlt, hname, -⟩ := Array.findIdx?_eq_some_iff_getElem.mp hi
      refine ((h n (mk i)).mpr ⟨table[i], ?_, by simpa using hname⟩).symm
      simpa only [hindex] using Array.getElem?_eq_getElem hlt

theorem Lists.insert (h : r.Lists look nameOf) {new : H} {a : α} (hfresh : look new = none)
    (hnew : look' new = some a) (hold : ∀ x, x ≠ new → look' x = look x)
    (hfree : r.get? (nameOf a) = none) : (r.insert (nameOf a) new).Lists look' nameOf := by
  intro n x
  rw [get?_insert]
  constructor
  · intro hget
    split at hget
    next heq =>
      cases hget
      exact ⟨a, hnew, heq.symm⟩
    next =>
      obtain ⟨a', ha', hname⟩ := (h n x).mp hget
      refine ⟨a', (hold x ?_).trans ha', hname⟩
      rintro rfl
      rw [hfresh] at ha'
      cases ha'
  · rintro ⟨a', ha', rfl⟩
    by_cases hx : x = new
    · subst hx
      rw [hnew] at ha'
      cases ha'
      rw [if_pos rfl]
    · rw [hold x hx] at ha'
      have hget := (h _ x).mpr ⟨a', ha', rfl⟩
      rw [if_neg, hget]
      intro heq
      rw [heq, hfree] at hget
      cases hget

end Lists

theorem mem_insert {r : Registry H} {names : List String}
    (h : ∀ n, n ∈ names ↔ ∃ handle, r.get? n = some handle) (name : String) (handle : H) :
    ∀ n, n ∈ name :: names ↔ ∃ handle', (r.insert name handle).get? n = some handle' := by
  intro n
  rw [get?_insert, List.mem_cons, h]
  by_cases hn : n = name <;> simp [hn]

theorem mem_names (r : Registry H) (n : String) :
    n ∈ r.names ↔ ∃ handle, r.get? n = some handle := by
  rw [names, List.mem_mergeSort, Std.TreeMap.mem_keys, Std.TreeMap.mem_iff_isSome_getElem?,
    Option.isSome_iff_exists]
  rfl

theorem nodup_names (r : Registry H) : r.names.Nodup :=
  (List.mergeSort_perm r.entries.keys _).nodup_iff.mpr Std.TreeMap.nodup_keys

variable {p : Part σ (Registry H)} {name : String} {make : Action (Logged σ) H} {s : Logged σ}

theorem create_taken {handle : H} (h : (p.get s.state).get? name = some handle) :
    create p name make s = .error (.error (.duplicate (p.get s.state).kind name))
      { s with log := s.log.push (.duplicate (p.get s.state).kind name) } := by
  have hcontains : (p.get s.state).contains name = true := by rw [contains_eq_isSome, h]; rfl
  unfold create
  rw [bind_of_ok (get_apply s), if_pos hcontains]
  exact Logged.reject_apply ..

theorem not_contains {r : Registry H} (h : r.get? name = none) : ¬ r.contains name = true := by
  rw [contains_eq_isSome, h]
  simp

theorem create_free_ok {s' : Logged σ} {handle : H} (h : (p.get s.state).get? name = none)
    (hmake : make s = .ok handle s') : create p name make s = .ok handle
      ⟨s'.log.push (.registered (p.get s.state).kind name),
        p.put ((p.get s'.state).insert name handle) s'.state⟩ := by
  unfold create
  rw [bind_of_ok (get_apply s), if_neg (not_contains h), bind_of_ok hmake]
  rfl

theorem create_free_error {s' : Logged σ} {stop : Stop} (h : (p.get s.state).get? name = none)
    (hmake : make s = .error stop s') : create p name make s = .error stop s' := by
  unfold create
  rw [bind_of_ok (get_apply s), if_neg (not_contains h), bind_of_error hmake]

theorem findOrCreate_taken {handle : H} (h : (p.get s.state).get? name = some handle) :
    findOrCreate p name make s = .ok handle s := by
  unfold findOrCreate
  rw [bind_of_ok (get_apply s), h]
  rfl

theorem findOrCreate_free (h : (p.get s.state).get? name = none) :
    findOrCreate p name make s = create p name make s := by
  unfold findOrCreate
  rw [bind_of_ok (get_apply s), h]

theorem find_of_some {handle : H} (h : (p.get s.state).get? name = some handle) :
    find p name s = .ok handle s := by
  unfold find
  rw [bind_of_ok (get_apply s), h]
  rfl

theorem find_of_none (h : (p.get s.state).get? name = none) : find p name s =
    .error (.error (.notFound (p.get s.state).kind name))
      { s with log := s.log.push (.notFound (p.get s.state).kind name) } := by
  unfold find
  rw [bind_of_ok (get_apply s), h]
  exact Logged.reject_apply ..

theorem find_outcome_iff {handle : H} :
    (find p name).outcome s = .ok handle ↔ (p.get s.state).get? name = some handle := by
  cases hget : (p.get s.state).get? name with
  | none => simp [outcome_of_error (find_of_none hget)]
  | some handle' => simp [outcome_of_ok (find_of_some hget)]

section Relates

variable {R : Logged σ → Logged σ → Prop}

theorem create_relates (hrefl : ∀ s, R s s) (htrans : ∀ {a b c}, R a b → R b c → R a c)
    (hemit : ∀ (s : Logged σ) (event : Event), R s { s with log := s.log.push event })
    (hput : ∀ (s : Logged σ) (handle : H),
      R s { s with state := p.put ((p.get s.state).insert name handle) s.state })
    (hmake : Relates R make) : Relates R (create p name make) := by
  unfold create
  refine Relates.bind htrans (Relates.get hrefl) fun s => ?_
  dsimp only
  split
  · exact fun s => hemit s _
  · exact Relates.bind htrans hmake fun handle =>
      Relates.bind htrans (fun s => hput s handle) fun _ =>
        Relates.bind htrans (fun s => hemit s _) fun _ => Relates.pure hrefl handle

theorem findOrCreate_relates (hrefl : ∀ s, R s s) (htrans : ∀ {a b c}, R a b → R b c → R a c)
    (hcreate : Relates R (create p name make)) : Relates R (findOrCreate p name make) := by
  unfold findOrCreate
  refine Relates.bind htrans (Relates.get hrefl) fun s => ?_
  split
  · exact Relates.pure hrefl _
  · exact hcreate

end Relates

end Registry

namespace Scopes

theorem get?_openScope (scopes : Scopes H) (function function' name : String) :
    (scopes.openScope function).get? function' name = scopes.get? function' name := by
  unfold get?
  rw [scope_openScope]

theorem get?_put (scopes : Scopes H) (function function' name : String) (registry : Registry H) :
    (scopes.put function registry).get? function' name =
      if function' = function then registry.get? name else scopes.get? function' name := by
  unfold get?
  split
  next h => rw [h, scope_put_self]
  next h => rw [scope_put_of_ne (Ne.symm h)]

def enroll (scopes : Scopes H) (function name : String) (handle : H) : Scopes H :=
  (scopes.openScope function).put function
    (((scopes.openScope function).scope function).insert name handle)

theorem get?_enroll (scopes : Scopes H) (function name : String) (handle : H)
    (function' name' : String) : (scopes.enroll function name handle).get? function' name' =
      if function' = function ∧ name' = name then some handle else scopes.get? function' name' := by
  unfold enroll
  rw [get?_put, get?_openScope]
  by_cases hfunction : function' = function
  · subst hfunction
    rw [if_pos rfl, Registry.get?_insert, scope_openScope]
    by_cases hname : name' = name
    · rw [if_pos hname, if_pos ⟨rfl, hname⟩]
    · rw [if_neg hname, if_neg (fun h => hname h.2)]
      rfl
  · rw [if_neg hfunction, if_neg (fun h => hfunction h.1)]

theorem get?_empty (function name : String) : ({} : Scopes H).get? function name = none := by
  simp [get?, scope, scope?, Registry.get?]

variable {p : Part σ (Scopes H)} {function name : String} {s : Logged σ}

theorem find_open {registry : Registry H} (h : (p.get s.state).scope? function = some registry) :
    find p function name s = Registry.find (part p function) name s := by
  unfold find
  rw [bind_of_ok (get_apply s), h]

theorem find_closed (h : (p.get s.state).scope? function = none) : find p function name s =
    .error (.error (.notFound .block (function ++ "::" ++ name)))
      { s with log := s.log.push (.notFound .block (function ++ "::" ++ name)) } := by
  unfold find
  rw [bind_of_ok (get_apply s), h]
  exact Logged.reject_apply ..

end Scopes

end Niladic
