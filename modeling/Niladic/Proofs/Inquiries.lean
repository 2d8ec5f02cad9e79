import Niladic.Proofs.Registering

namespace Niladic

open Niladic.Action

inductive Inquiry (K H : Type) where
  | create (key : K) (make : Except Error H)
  | find (key : K)
  | findOrCreate (key : K) (make : Except Error H)
  | contains (key : K)
  | size
  | isEmpty

inductive Reply (H : Type) where
  | handle (result : Except Error H) (ran : Bool)
  | truth (holds : Bool)
  | count (n : Nat)

namespace Inquiry

variable {K H : Type}

def reply (look : K → Option H) (count : Nat) (duplicate missing : K → Error) :
    Inquiry K H → Reply H
  | .create key make =>
      match look key with
      | some _ => .handle (.error (duplicate key)) false
      | none => .handle make true
  | .find key =>
      match look key with
      | some handle => .handle (.ok handle) false
      | none => .handle (.error (missing key)) false
  | .findOrCreate key make =>
      match look key with
      | some handle => .handle (.ok handle) false
      | none => .handle make true
  | .contains key => .truth (look key).isSome
  | .size => .count count
  | .isEmpty => .truth (count == 0)

end Inquiry

structure Directory (S K H : Type) where
  create : K → Action (Logged (S × Bool)) H → Action (Logged (S × Bool)) H
  find : K → Action (Logged (S × Bool)) H
  findOrCreate : K → Action (Logged (S × Bool)) H → Action (Logged (S × Bool)) H
  contains : S → K → Bool
  size : S → Nat
  isEmpty : S → Bool

namespace Directory

variable {S K H : Type}

def beside {τ : Type} (p : Part S τ) : Part (S × Bool) τ where
  get s := p.get s.1
  put part s := (p.put part s.1, s.2)

def noting (ran : Bool) : Action (Logged (S × Bool)) Unit :=
  modify fun s => { s with state := (s.state.1, ran) }

def making (make : Except Error H) : Action (Logged (S × Bool)) H := do
  noting true
  ofExcept make

def tried (x : Action (Logged (S × Bool)) H) : Action (Logged (S × Bool)) (Reply H) := do
  noting false
  let result ← attempt x
  return .handle result (← get).state.2

def ask (d : Directory S K H) : Inquiry K H → Action (Logged (S × Bool)) (Reply H)
  | .create key make => tried (d.create key (making make))
  | .find key => tried (d.find key)
  | .findOrCreate key make => tried (d.findOrCreate key (making make))
  | .contains key => do return .truth (d.contains (← get).state.1 key)
  | .size => do return .count (d.size (← get).state.1)
  | .isEmpty => do return .truth (d.isEmpty (← get).state.1)

def askAll (d : Directory S K H) : List (Inquiry K H) → Action (Logged (S × Bool)) (List (Reply H))
  | [] => return []
  | inquiry :: rest => do
      let reply ← d.ask inquiry
      return reply :: (← d.askAll rest)

def Says (d : Directory S K H) (inquiry : Inquiry K H) (s : S) (reply : Reply H) (s' : S) : Prop :=
  ∀ log ran, ∃ log' ran', d.ask inquiry ⟨log, (s, ran)⟩ = .ok reply ⟨log', (s', ran')⟩

theorem tried_of_ok {x : Action (Logged (S × Bool)) H} {s s' : Logged (S × Bool)} {handle : H}
    (h : x { s with state := (s.state.1, false) } = .ok handle s') :
    tried x s = .ok (.handle (.ok handle) s'.state.2) s' := by
  unfold tried noting
  rw [bind_of_ok (modify_apply ..), bind_of_ok (attempt_of_ok h), bind_of_ok (get_apply ..)]
  rfl

theorem tried_of_error {x : Action (Logged (S × Bool)) H} {s s' : Logged (S × Bool)} {e : Error}
    (h : x { s with state := (s.state.1, false) } = .error (.error e) s') :
    tried x s = .ok (.handle (.error e) s'.state.2) s' := by
  unfold tried noting
  rw [bind_of_ok (modify_apply ..), bind_of_ok (attempt_of_error h), bind_of_ok (get_apply ..)]
  rfl

theorem tried_congr {x y : Action (Logged (S × Bool)) H} {s t : Logged (S × Bool)}
    (h : x { s with state := (s.state.1, false) } = y { t with state := (t.state.1, false) }) :
    tried x s = tried y t := by
  have hattempt : attempt x { s with state := (s.state.1, false) } =
      attempt y { t with state := (t.state.1, false) } := by
    unfold attempt
    rw [h]
  unfold tried noting
  rw [bind_of_ok (modify_apply ..), bind_of_ok (modify_apply ..), bind_apply, bind_apply, hattempt]

theorem making_ok (handle : H) (s : Logged (S × Bool)) :
    making (.ok handle) s = .ok handle { s with state := (s.state.1, true) } := rfl

theorem making_error (e : Error) (s : Logged (S × Bool)) :
    (making (.error e) : Action (Logged (S × Bool)) H) s =
      .error (.error e) { s with state := (s.state.1, true) } := rfl

theorem askAll_cons {d : Directory S K H} {inquiry : Inquiry K H} {rest : List (Inquiry K H)}
    {reply : Reply H} {replies : List (Reply H)} {s t u : Logged (S × Bool)}
    (h : d.ask inquiry s = .ok reply t) (hrest : d.askAll rest t = .ok replies u) :
    d.askAll (inquiry :: rest) s = .ok (reply :: replies) u := by
  rw [askAll, bind_of_ok h, bind_of_ok hrest]
  rfl

variable {p : Part S (Registry H)} {name : String} {make : Except Error H} {s : S}

def registering (p : Part S (Registry H)) (name : String) (make : Except Error H) (s : S) : S :=
  match make with
  | .ok handle =>
      if ((p.get s).get? name).isSome then s else p.put ((p.get s).insert name handle) s
  | .error _ => s

theorem registering_of_some {handle : H} (h : (p.get s).get? name = some handle) :
    registering p name make s = s := by
  cases make with
  | ok => exact if_pos (by rw [h]; rfl)
  | error => rfl

theorem registering_of_none (h : (p.get s).get? name = none) (handle : H) :
    registering p name (.ok handle) s = p.put ((p.get s).insert name handle) s :=
  if_neg (by rw [h]; simp)

theorem tried_create_of_none (h : (p.get s).get? name = none) (make : Except Error H) (log : Log)
    (ran : Bool) :
    ∃ log', tried (Registry.create (beside p) name (making make)) ⟨log, (s, ran)⟩ =
      .ok (.handle make true) ⟨log', (registering p name make s, true)⟩ := by
  cases make with
  | ok handle =>
      rw [registering_of_none h]
      exact ⟨_, tried_of_ok (Registry.create_free_ok h (making_ok handle _))⟩
  | error e => exact ⟨_, tried_of_error (Registry.create_free_error h (making_error e _))⟩

theorem tried_create (p : Part S (Registry H)) (name : String) (make : Except Error H) (s : S)
    (count : Nat) (missing : String → Error) (log : Log) (ran : Bool) :
    ∃ log' ran', tried (Registry.create (beside p) name (making make)) ⟨log, (s, ran)⟩ =
      .ok ((Inquiry.create name make).reply (p.get s).get? count (.duplicate (p.get s).kind) missing)
        ⟨log', (registering p name make s, ran')⟩ := by
  rw [Inquiry.reply]
  cases h : (p.get s).get? name with
  | some handle =>
      rw [registering_of_some h]
      exact ⟨_, _, tried_of_error (Registry.create_taken h)⟩
  | none =>
      obtain ⟨log', h'⟩ := tried_create_of_none h make log ran
      exact ⟨log', true, h'⟩

theorem tried_findOrCreate (p : Part S (Registry H)) (name : String) (make : Except Error H) (s : S)
    (count : Nat) (duplicate missing : String → Error) (log : Log) (ran : Bool) :
    ∃ log' ran', tried (Registry.findOrCreate (beside p) name (making make)) ⟨log, (s, ran)⟩ =
      .ok ((Inquiry.findOrCreate name make).reply (p.get s).get? count duplicate missing)
        ⟨log', (registering p name make s, ran')⟩ := by
  rw [Inquiry.reply]
  cases h : (p.get s).get? name with
  | some handle =>
      rw [registering_of_some h]
      exact ⟨_, _, tried_of_ok (Registry.findOrCreate_taken h)⟩
  | none =>
      obtain ⟨log', h'⟩ := tried_create_of_none h make log ran
      exact ⟨log', true, (tried_congr (Registry.findOrCreate_free h)).trans h'⟩

theorem tried_find (p : Part S (Registry H)) (name : String) (s : S) (count : Nat)
    (duplicate : String → Error) (log : Log) (ran : Bool) :
    ∃ log' ran', tried (Registry.find (beside p) name) ⟨log, (s, ran)⟩ =
      .ok ((Inquiry.find name).reply (p.get s).get? count duplicate (.notFound (p.get s).kind))
        ⟨log', (s, ran')⟩ := by
  rw [Inquiry.reply]
  cases h : (p.get s).get? name with
  | some handle => exact ⟨_, _, tried_of_ok (Registry.find_of_some h)⟩
  | none => exact ⟨_, _, tried_of_error (Registry.find_of_none h)⟩

end Directory

open Directory

variable {H : Type}

namespace Registry

def directory : Directory (Registry H) String H where
  create := Registry.create (beside .whole)
  find := Registry.find (beside .whole)
  findOrCreate := Registry.findOrCreate (beside .whole)
  contains := Registry.contains
  size := Registry.size
  isEmpty := Registry.isEmpty

def after (r : Registry H) : Inquiry String H → Registry H
  | .create name make | .findOrCreate name make => registering .whole name make r
  | _ => r

theorem isEmpty_eq (r : Registry H) : r.isEmpty = (r.size == 0) :=
  Std.TreeMap.isEmpty_eq_size_eq_zero

theorem directory_answers (r : Registry H) (inquiry : Inquiry String H) :
    directory.Says inquiry r
      (inquiry.reply r.get? r.size (.duplicate r.kind) (.notFound r.kind)) (r.after inquiry) := by
  intro log ran
  cases inquiry with
  | create name make => exact tried_create .whole name make r r.size (.notFound r.kind) log ran
  | find name => exact tried_find .whole name r r.size (.duplicate r.kind) log ran
  | findOrCreate name make => exact tried_findOrCreate .whole name make r r.size _ _ log ran
  | contains name =>
      rw [Inquiry.reply, ← contains_eq_isSome]
      exact ⟨log, ran, rfl⟩
  | size => exact ⟨log, ran, rfl⟩
  | isEmpty =>
      rw [Inquiry.reply, ← isEmpty_eq]
      exact ⟨log, ran, rfl⟩

end Registry

namespace Scopes

def directory : Directory (Scopes H) (String × String) H where
  create key := Scopes.create (beside .whole) key.1 key.2
  find key := Scopes.find (beside .whole) key.1 key.2
  findOrCreate key := Scopes.findOrCreate (beside .whole) key.1 key.2
  contains s key := s.contains key.1 key.2
  size := Scopes.size
  isEmpty := Scopes.isEmpty

def scopePart (function : String) : Part (Scopes H) (Registry H) where
  get s := s.scope function
  put registry s := s.put function registry

def after (s : Scopes H) : Inquiry (String × String) H → Scopes H
  | .create key make | .findOrCreate key make =>
      registering (scopePart key.1) key.2 make (s.openScope key.1)
  | _ => s

def missing (s : Scopes H) (key : String × String) : Error :=
  match s.scope? key.1 with
  | some registry => .notFound registry.kind key.2
  | none => .notFound .block (key.1 ++ "::" ++ key.2)

def look (s : Scopes H) (key : String × String) : Option H := s.get? key.1 key.2

def duplicate (s : Scopes H) (key : String × String) : Error :=
  .duplicate (s.scope key.1).kind key.2

theorem tried_opening {function : String} {x : Action (Logged (Scopes H × Bool)) H} {s : Scopes H}
    {log : Log} {ran : Bool} :
    tried (do opening (beside .whole) function; x) ⟨log, (s, ran)⟩ =
      tried x ⟨log, (s.openScope function, ran)⟩ :=
  tried_congr (bind_of_ok rfl)

theorem directory_answers (s : Scopes H) (inquiry : Inquiry (String × String) H) :
    directory.Says inquiry s (inquiry.reply s.look s.size s.duplicate s.missing)
      (s.after inquiry) := by
  intro log ran
  cases inquiry with
  | create key make =>
      have hcreate := tried_create (scopePart key.1) key.2 make (s.openScope key.1) s.size
        (fun _ => s.missing key) log ran
      simp only [scopePart, scope_openScope] at hcreate
      obtain ⟨log', ran', h⟩ := hcreate
      exact ⟨log', ran', tried_opening.trans h⟩
  | find key =>
      cases hscope : s.scope? key.1 with
      | some registry =>
          obtain ⟨log', ran', h⟩ := tried_find (scopePart key.1) key.2 s s.size
            (fun _ => s.duplicate key) log ran
          have hmissing : s.missing key = .notFound (s.scope key.1).kind key.2 := by
            rw [missing, scope, hscope]
            rfl
          rw [Inquiry.reply, hmissing]
          exact ⟨log', ran', (tried_congr (find_open hscope)).trans h⟩
      | none =>
          have hlook : s.look key = none := by simp [look, get?, scope, hscope, Registry.get?]
          rw [Inquiry.reply, hlook, missing, hscope]
          exact ⟨_, _, tried_of_error (find_closed hscope)⟩
  | findOrCreate key make =>
      have hcreate := tried_findOrCreate (scopePart key.1) key.2 make (s.openScope key.1) s.size
        (fun _ => s.duplicate key) (fun _ => s.missing key) log ran
      simp only [scopePart, scope_openScope] at hcreate
      obtain ⟨log', ran', h⟩ := hcreate
      exact ⟨log', ran', tried_opening.trans h⟩
  | contains key =>
      have hcontains : s.contains key.1 key.2 = (s.look key).isSome := Registry.contains_eq_isSome ..
      rw [Inquiry.reply, ← hcontains]
      exact ⟨log, ran, rfl⟩
  | size => exact ⟨log, ran, rfl⟩
  | isEmpty => exact ⟨log, ran, rfl⟩

end Scopes

end Niladic
