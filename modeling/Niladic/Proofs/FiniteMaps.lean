import Mathlib.Data.Finmap
import Niladic.Proofs.Inquiries

namespace Niladic

open Niladic.Action Directory

abbrev FlatMap (K H : Type) := Finmap fun _ : K => H

variable {S K H : Type} [DecidableEq K]

namespace FlatMap

def offered (m : FlatMap K H) (key : K) : Except Error H → FlatMap K H
  | .ok handle => if key ∈ m then m else m.insert key handle
  | .error _ => m

theorem lookup_insert (m : FlatMap K H) (key key' : K) (handle : H) :
    (m.insert key handle).lookup key' = if key' = key then some handle else m.lookup key' := by
  split
  next h => rw [h, Finmap.lookup_insert]
  next h => rw [Finmap.lookup_insert_of_ne _ h]

theorem card_keys_insert {m : FlatMap K H} {key : K} (h : key ∉ m) (handle : H) :
    (m.insert key handle).keys.card = m.keys.card + 1 := by
  have hkeys : (m.insert key handle).keys = insert key m.keys := by
    ext key'
    rw [Finmap.mem_keys, Finmap.mem_insert, Finset.mem_insert, Finmap.mem_keys]
  rw [hkeys, Finset.card_insert_of_notMem (mt Finmap.mem_keys.mp h)]

theorem offered_of_none {m : FlatMap K H} {key : K} (h : m.lookup key = none) (handle : H) :
    m.offered key (.ok handle) = m.insert key handle :=
  if_neg (Finmap.lookup_eq_none.mp h)

theorem offered_of_some {m : FlatMap K H} {key : K} {handle : H} (h : m.lookup key = some handle)
    (make : Except Error H) : m.offered key make = m := by
  cases make with
  | ok => exact if_pos (Finmap.mem_iff.mpr ⟨handle, h⟩)
  | error => rfl

theorem lookup_offered {m : FlatMap K H} {key : K} {handle : H} (h : m.lookup key = some handle)
    (key' : K) (make : Except Error H) : (m.offered key' make).lookup key = some handle := by
  cases make with
  | error => exact h
  | ok handle' =>
      cases h' : m.lookup key' with
      | some => rwa [offered_of_some h']
      | none =>
          rw [offered_of_none h', lookup_insert, if_neg, h]
          rintro rfl
          rw [h] at h'
          cases h'

end FlatMap

namespace Inquiry

def enter (m : FlatMap K H) : Inquiry K H → FlatMap K H
  | .create key make | .findOrCreate key make => m.offered key make
  | _ => m

theorem lookup_enter {m : FlatMap K H} {key : K} {handle : H} (h : m.lookup key = some handle)
    (inquiry : Inquiry K H) : (inquiry.enter m).lookup key = some handle := by
  cases inquiry with
  | create key' make | findOrCreate key' make => exact FlatMap.lookup_offered h key' make
  | find | contains | size | isEmpty => exact h

/-- A map gives these replies in turn. Each time it may choose what to say of keys that are missing,
within `Missing`. -/
inductive Replies (duplicate : K → Error) (Missing : K → Error → Prop) :
    FlatMap K H → List (Inquiry K H) → List (Reply H) → Prop
  | nil (m : FlatMap K H) : Replies duplicate Missing m [] []
  | cons {m : FlatMap K H} {inquiry : Inquiry K H} {rest : List (Inquiry K H)}
      {replies : List (Reply H)} {missing : K → Error} (hmissing : ∀ key, Missing key (missing key))
      (hrest : Replies duplicate Missing (inquiry.enter m) rest replies) :
      Replies duplicate Missing m (inquiry :: rest)
        (inquiry.reply (m.lookup ·) m.keys.card duplicate missing :: replies)

end Inquiry

namespace Directory

variable {d : Directory S K H} {look : S → K → Option H} {start : S} {duplicate : K → Error}
  {Missing : K → Error → Prop} {R : S → FlatMap K H → Prop}

def Refines (d : Directory S K H) (look : S → K → Option H) (start : S) (duplicate : K → Error)
    (Missing : K → Error → Prop) : Prop :=
  ∀ (log : Log) (ran : Bool) (inquiries : List (Inquiry K H)), ∃ replies s,
    d.askAll inquiries ⟨log, (start, ran)⟩ = .ok replies s ∧
    Inquiry.Replies duplicate Missing ∅ inquiries replies ∧
    (∀ key, look s.state.1 key = (inquiries.foldl Inquiry.enter ∅).lookup key) ∧
    ∀ later, ∃ replies' s', d.askAll later s = .ok replies' s' ∧
      ∀ key handle, look s.state.1 key = some handle → look s'.state.1 key = some handle

theorem askAll_replies (hstep : ∀ s m inquiry, R s m → ∃ missing s',
      (∀ key, Missing key (missing key)) ∧
      d.Says inquiry s (inquiry.reply (m.lookup ·) m.keys.card duplicate missing) s' ∧
      R s' (inquiry.enter m)) (inquiries : List (Inquiry K H)) :
    ∀ {log : Log} {s : S} {ran : Bool} {m : FlatMap K H}, R s m → ∃ replies t,
      d.askAll inquiries ⟨log, (s, ran)⟩ = .ok replies t ∧
      Inquiry.Replies duplicate Missing m inquiries replies ∧
      R t.state.1 (inquiries.foldl Inquiry.enter m) := by
  induction inquiries with
  | nil => exact fun hR => ⟨[], _, rfl, .nil _, hR⟩
  | cons inquiry rest ih =>
      intro log s ran m hR
      obtain ⟨missing, s', hmissing, hsays, hR'⟩ := hstep s m inquiry hR
      obtain ⟨log', ran', hask⟩ := hsays log ran
      obtain ⟨replies, t, hrest, hreplies, ht⟩ := ih hR'
      exact ⟨_, t, askAll_cons hask hrest, .cons hmissing hreplies, ht⟩

theorem lookup_foldl_enter {key : K} {handle : H} (inquiries : List (Inquiry K H)) :
    ∀ {m : FlatMap K H}, m.lookup key = some handle →
      (inquiries.foldl Inquiry.enter m).lookup key = some handle := by
  induction inquiries with
  | nil => exact fun h => h
  | cons inquiry rest ih => exact fun h => ih (inquiry.lookup_enter h)

theorem refines_of_steps (hstart : R start ∅)
    (hlook : ∀ {s m}, R s m → ∀ key, look s key = m.lookup key)
    (hstep : ∀ s m inquiry, R s m → ∃ missing s', (∀ key, Missing key (missing key)) ∧
      d.Says inquiry s (inquiry.reply (m.lookup ·) m.keys.card duplicate missing) s' ∧
      R s' (inquiry.enter m)) : d.Refines look start duplicate Missing := by
  intro log ran inquiries
  obtain ⟨replies, s, hask, hreplies, hs⟩ := askAll_replies hstep inquiries hstart
  refine ⟨replies, s, hask, hreplies, hlook hs, fun later => ?_⟩
  obtain ⟨replies', s', hask', -, hs'⟩ := askAll_replies hstep later hs
  refine ⟨replies', s', hask', fun key handle h => ?_⟩
  rw [hlook hs] at h
  rw [hlook hs', lookup_foldl_enter later h]

end Directory

namespace Registry

theorem size_insert {r : Registry H} {name : String} (h : r.get? name = none) (handle : H) :
    (r.insert name handle).size = r.size + 1 := by
  unfold size insert
  rw [Std.TreeMap.size_insert, if_neg]
  exact not_contains h

structure Agrees (r : Registry H) (kind : SymbolKind) (m : FlatMap String H) : Prop where
  kind_eq : r.kind = kind
  look : ∀ name, r.get? name = m.lookup name
  size_eq : r.size = m.keys.card

theorem Agrees.insert {r : Registry H} {kind : SymbolKind} {m : FlatMap String H} {name : String}
    (h : r.Agrees kind m) (hfree : r.get? name = none) (handle : H) :
    (r.insert name handle).Agrees kind (m.insert name handle) where
  kind_eq := h.kind_eq
  look other := by rw [get?_insert, FlatMap.lookup_insert, h.look]
  size_eq := by
    have hnew : name ∉ m := Finmap.lookup_eq_none.mp ((h.look name).symm.trans hfree)
    rw [size_insert hfree, FlatMap.card_keys_insert hnew, h.size_eq]

end Registry

theorem registering_offered (p : Part S (Registry H)) {s : S} {m : FlatMap K H} {name : String}
    {key : K} (h : (p.get s).get? name = m.lookup key) (make : Except Error H) :
    (registering p name make s = s ∧ m.offered key make = m) ∨
      ∃ handle, (p.get s).get? name = none ∧
        registering p name make s = p.put ((p.get s).insert name handle) s ∧
        m.offered key make = m.insert key handle := by
  cases hname : (p.get s).get? name with
  | some old => exact .inl ⟨registering_of_some hname, FlatMap.offered_of_some (h ▸ hname) make⟩
  | none =>
      cases make with
      | error => exact .inl ⟨rfl, rfl⟩
      | ok handle =>
          exact .inr ⟨handle, rfl, registering_of_none hname handle,
            FlatMap.offered_of_none (h ▸ hname) handle⟩

theorem Registry.Agrees.after {r : Registry H} {kind : SymbolKind} {m : FlatMap String H}
    (h : r.Agrees kind m) (inquiry : Inquiry String H) :
    (r.after inquiry).Agrees kind (inquiry.enter m) := by
  cases inquiry with
  | create name make | findOrCreate name make =>
      rw [Registry.after, Inquiry.enter]
      rcases registering_offered .whole (h.look name) make with ⟨hr, hm⟩ | ⟨handle, hfree, hr, hm⟩
      · rw [hr, hm]
        exact h
      · rw [hr, hm]
        exact h.insert hfree handle
  | find | contains | size | isEmpty => exact h

namespace Scopes

def total : List (String × Registry H) → Nat
  | [] => 0
  | entry :: rest => entry.2.size + total rest

theorem size_eq_total (s : Scopes H) : s.size = total s.registries.toList := by
  have hfold (entries : List (String × Registry H)) :
      ∀ n, entries.foldl (fun n entry => n + entry.2.size) n = n + total entries := by
    induction entries with
    | nil => exact fun n => rfl
    | cons entry rest ih =>
        intro n
        rw [List.foldl_cons, ih, total, Nat.add_assoc]
  rw [size, hfold, Nat.zero_add]

theorem total_perm {entries entries' : List (String × Registry H)} (h : entries.Perm entries') :
    total entries = total entries' := by
  induction h with
  | nil => rfl
  | cons entry _ ih => rw [total, total, ih]
  | swap entry entry' rest =>
      simp only [total]
      omega
  | trans _ _ ih ih' => exact ih.trans ih'

def others (function : String) (entries : List (String × Registry H)) : List (String × Registry H) :=
  entries.filter fun entry => decide ¬(function == entry.1) = true

theorem others_eq_self {function : String} {entries : List (String × Registry H)}
    (h : ∀ entry ∈ entries, entry.1 ≠ function) : others function entries = entries := by
  refine List.filter_eq_self.mpr fun entry hentry => ?_
  simpa using Ne.symm (h entry hentry)

theorem total_eq_of_mem {function : String} {registry : Registry H}
    {entries : List (String × Registry H)} (hdistinct : entries.Pairwise fun a b => a.1 ≠ b.1)
    (hmem : (function, registry) ∈ entries) :
    total entries = registry.size + total (others function entries) := by
  induction entries with
  | nil => cases hmem
  | cons entry rest ih =>
      obtain ⟨happart, hdistinct⟩ := List.pairwise_cons.mp hdistinct
      rcases List.mem_cons.mp hmem with rfl | hmem
      · have hothers : others function ((function, registry) :: rest) = rest :=
          (List.filter_cons_of_neg (by simp)).trans
            (others_eq_self fun entry hentry => (happart entry hentry).symm)
        rw [hothers, total]
      · have hne : ¬ function = entry.1 := (happart _ hmem).symm
        have hothers : others function (entry :: rest) = entry :: others function rest :=
          List.filter_cons_of_pos (by simpa using hne)
        rw [hothers, total, total, ih hdistinct hmem]
        omega

theorem size_eq_add_others (s : Scopes H) (function : String) :
    s.size = (s.scope function).size + total (others function s.registries.toList) := by
  rw [size_eq_total]
  cases hscope : s.scope? function with
  | some registry =>
      have hmem := Std.TreeMap.mem_toList_iff_getElem?_eq_some.mpr hscope
      have hdistinct := (Std.TreeMap.distinct_keys_toList (t := s.registries)).imp
        fun {a b} hne (heq : a.1 = b.1) => hne (heq ▸ Std.ReflCmp.compare_self)
      rw [total_eq_of_mem hdistinct hmem, scope, hscope]
      rfl
  | none =>
      rw [others_eq_self, scope, hscope]
      · exact (Nat.zero_add _).symm
      · rintro ⟨other, registry⟩ hentry rfl
        have hmem := Std.TreeMap.mem_toList_iff_getElem?_eq_some.mp hentry
        cases hscope.symm.trans hmem

theorem size_put (s : Scopes H) (function : String) (registry : Registry H) :
    (s.put function registry).size + (s.scope function).size = s.size + registry.size := by
  have hput : (s.put function registry).size =
      registry.size + total (others function s.registries.toList) := by
    rw [size_eq_total, put, total_perm Std.TreeMap.toList_insert_perm, total]
    rfl
  rw [hput, s.size_eq_add_others function]
  omega

theorem size_openScope (s : Scopes H) (function : String) : (s.openScope function).size = s.size :=
  Nat.add_right_cancel (size_put s function (s.scope function))

structure Agrees (s : Scopes H) (m : FlatMap (String × String) H) : Prop where
  kind_eq : ∀ function, (s.scope function).kind = .block
  look : ∀ key, s.look key = m.lookup key
  size_eq : s.size = m.keys.card

theorem Agrees.openScope {s : Scopes H} {m : FlatMap (String × String) H} (h : s.Agrees m)
    (function : String) : (s.openScope function).Agrees m where
  kind_eq other := by rw [scope_openScope, h.kind_eq]
  look key := (get?_openScope ..).trans (h.look key)
  size_eq := (size_openScope ..).trans h.size_eq

theorem Agrees.enroll {s : Scopes H} {m : FlatMap (String × String) H} (h : s.Agrees m)
    {key : String × String} (hfree : s.look key = none) (handle : H) :
    (s.enroll key.1 key.2 handle).Agrees (m.insert key handle) where
  kind_eq function := by
    unfold Scopes.enroll
    by_cases hf : key.1 = function
    · rw [← hf, scope_put_self]
      exact (h.openScope key.1).kind_eq key.1
    · rw [scope_put_of_ne hf, scope_openScope, h.kind_eq]
  look key' := by
    rw [Scopes.look, get?_enroll, FlatMap.lookup_insert, ← h.look]
    simp only [Prod.ext_iff]
    rfl
  size_eq := by
    have hnew : key ∉ m := Finmap.lookup_eq_none.mp ((h.look key).symm.trans hfree)
    have hput := size_put (s.openScope key.1) key.1 ((s.scope key.1).insert key.2 handle)
    rw [scope_openScope, Registry.size_insert hfree, size_openScope] at hput
    rw [FlatMap.card_keys_insert hnew, ← h.size_eq, Scopes.enroll, scope_openScope]
    omega

theorem Agrees.after {s : Scopes H} {m : FlatMap (String × String) H} (h : s.Agrees m)
    (inquiry : Inquiry (String × String) H) : (s.after inquiry).Agrees (inquiry.enter m) := by
  cases inquiry with
  | create key make | findOrCreate key make =>
      have hopen := h.openScope key.1
      rw [Scopes.after, Inquiry.enter]
      rcases registering_offered (scopePart key.1) (hopen.look key) make with
        ⟨hs, hm⟩ | ⟨handle, hfree, hs, hm⟩
      · rw [hs, hm]
        exact hopen
      · rw [hs, hm]
        exact h.enroll ((get?_openScope ..).symm.trans hfree) handle
  | find | contains | size | isEmpty => exact h

theorem Agrees.missing {s : Scopes H} {m : FlatMap (String × String) H} (h : s.Agrees m)
    (key : String × String) : s.missing key = .notFound .block key.2 ∨
      s.missing key = .notFound .block (key.1 ++ "::" ++ key.2) := by
  unfold Scopes.missing
  cases hscope : s.scope? key.1 with
  | none => exact .inr rfl
  | some registry =>
      have hkind := h.kind_eq key.1
      rw [scope, hscope] at hkind
      exact .inl (congrArg (Error.notFound · key.2) hkind)

theorem agrees_empty : ({} : Scopes H).Agrees ∅ where
  kind_eq function := by simp [scope, scope?]
  look key := get?_empty ..
  size_eq := rfl

theorem directory_refines : (directory (H := H)).Refines look {}
    (fun key => .duplicate .block key.2)
    fun key e => e = .notFound .block key.2 ∨ e = .notFound .block (key.1 ++ "::" ++ key.2) := by
  refine refines_of_steps agrees_empty (fun h => Agrees.look h) fun s m inquiry h => ?_
  have hduplicate : s.duplicate = fun key => .duplicate .block key.2 :=
    funext fun key => congrArg (Error.duplicate · key.2) (h.kind_eq key.1)
  have hsays := s.directory_answers inquiry
  rw [funext h.look, h.size_eq, hduplicate] at hsays
  exact ⟨_, _, h.missing, hsays, h.after inquiry⟩

end Scopes

namespace Registry

theorem directory_refines (kind : SymbolKind) : (directory (H := H)).Refines get? ⟨kind, ∅⟩
    (.duplicate kind) fun name e => e = .notFound kind name := by
  have hstart : (⟨kind, ∅⟩ : Registry H).Agrees kind ∅ :=
    ⟨rfl, fun name => by simp [get?], rfl⟩
  refine refines_of_steps (R := fun r m => r.Agrees kind m) hstart (fun h => h.look)
    fun r m inquiry h => ?_
  have hsays := r.directory_answers inquiry
  rw [funext h.look, h.size_eq, h.kind_eq] at hsays
  exact ⟨_, _, fun _ => rfl, hsays, h.after inquiry⟩

theorem names_ascending (r : Registry H) : r.names.Pairwise (· < ·) := by
  have hsorted : r.names.Pairwise fun a b => decide (a ≤ b) = true := by
    apply List.pairwise_mergeSort
    · intro a b c hab hbc
      exact decide_eq_true (String.le_trans (of_decide_eq_true hab) (of_decide_eq_true hbc))
    · intro a b
      simpa using String.le_total a b
  refine hsorted.imp₂ (fun a b hle hne => String.not_le.mp fun hge => hne ?_) r.nodup_names
  exact String.le_antisymm (of_decide_eq_true hle) hge

end Registry

/-- Registries and scopes answer all that is asked of them, in any order and with constructors that
may fail, as one flat map does: a constructor is run exactly when its key is absent, its error is passed
on and adds no key, and what is stored stays. The names of a registry are its keys in ascending
order. -/
theorem registries_refine_finite_maps (H : Type) :
    (∀ kind, (Registry.directory (H := H)).Refines Registry.get? ⟨kind, ∅⟩ (.duplicate kind)
      fun name e => e = .notFound kind name) ∧
    (Scopes.directory (H := H)).Refines Scopes.look {} (fun key => .duplicate .block key.2)
      (fun key e => e = .notFound .block key.2 ∨ e = .notFound .block (key.1 ++ "::" ++ key.2)) ∧
    ∀ r : Registry H, r.names.Pairwise (· < ·) ∧
      ∀ name, name ∈ r.names ↔ ∃ handle, r.get? name = some handle :=
  ⟨Registry.directory_refines, Scopes.directory_refines,
    fun r => ⟨r.names_ascending, r.mem_names⟩⟩

end Niladic
