import Niladic.Proofs.FiniteMaps

namespace Niladic

open Niladic.Action Directory

variable {H : Type}

namespace Inquiry

def opens (function : String) : Inquiry (String × String) H → Bool
  | .create key _ | .findOrCreate key _ => decide (key.1 = function)
  | _ => false

def bared (function : String) : Inquiry (String × String) H → Reply H → Reply H
  | .find key, reply =>
      if key.1 = function then .handle (.error (.notFound .block key.2)) false else reply
  | _, reply => reply

/-- The replies to these inquiries if the scope of this function had been opened before them, from the
replies otherwise. They differ only up to the first inquiry that opens the scope. -/
def retold (function : String) : Bool → List (Inquiry (String × String) H) → List (Reply H) →
    List (Reply H)
  | opened, inquiry :: inquiries, reply :: replies =>
      (if opened then reply else inquiry.bared function reply) ::
        retold function (opened || inquiry.opens function) inquiries replies
  | _, _, _ => []

end Inquiry

namespace Scopes

def reply (s : Scopes H) (inquiry : Inquiry (String × String) H) : Reply H :=
  inquiry.reply s.look s.size s.duplicate s.missing

def replies (s : Scopes H) : List (Inquiry (String × String) H) → List (Reply H)
  | [] => []
  | inquiry :: rest => s.reply inquiry :: (s.after inquiry).replies rest

theorem askAll_replies (inquiries : List (Inquiry (String × String) H)) :
    ∀ (log : Log) (s : Scopes H) (ran : Bool), ∃ log' ran',
      directory.askAll inquiries ⟨log, (s, ran)⟩ =
        .ok (s.replies inquiries) ⟨log', (inquiries.foldl after s, ran')⟩ := by
  induction inquiries with
  | nil => exact fun log s ran => ⟨log, ran, rfl⟩
  | cons inquiry rest ih =>
      intro log s ran
      obtain ⟨log', ran', hask⟩ := s.directory_answers inquiry log ran
      obtain ⟨log'', ran'', hrest⟩ := ih log' (s.after inquiry) ran'
      exact ⟨log'', ran'', askAll_cons hask hrest⟩

theorem getElem?_replies (inquiries : List (Inquiry (String × String) H)) :
    ∀ (s : Scopes H) (i : Nat), (s.replies inquiries)[i]? =
      inquiries[i]?.map ((inquiries.take i).foldl after s).reply := by
  induction inquiries with
  | nil => exact fun s i => rfl
  | cons inquiry rest ih =>
      intro s i
      cases i with
      | zero => rfl
      | succ i => exact ih (s.after inquiry) i

theorem scope?_put (s : Scopes H) (function other : String) (registry : Registry H) :
    (s.put function registry).scope? other =
      if other = function then some registry else s.scope? other := by
  unfold scope? put
  by_cases h : function = other
  · simp [h]
  · simp [Std.TreeMap.getElem?_insert, h, Ne.symm h]

def isOpen (s : Scopes H) (function : String) : Bool := (s.scope? function).isSome

theorem isOpen_put (s : Scopes H) (function other : String) (registry : Registry H) :
    (s.put function registry).isOpen other = (s.isOpen other || decide (function = other)) := by
  unfold isOpen
  rw [scope?_put]
  by_cases h : other = function
  · simp [h]
  · simp [h, Ne.symm h]

theorem isOpen_openScope (s : Scopes H) (function other : String) :
    (s.openScope function).isOpen other = (s.isOpen other || decide (function = other)) :=
  isOpen_put ..

theorem isOpen_after (s : Scopes H) (inquiry : Inquiry (String × String) H) (function : String) :
    (s.after inquiry).isOpen function = (s.isOpen function || inquiry.opens function) := by
  cases inquiry with
  | create key make | findOrCreate key make =>
      have hopen := s.isOpen_openScope key.1 function
      cases make with
      | error => exact hopen
      | ok handle =>
          rw [after, registering]
          split
          · exact hopen
          · refine (isOpen_put ..).trans ?_
            rw [hopen, Inquiry.opens, Bool.or_assoc, Bool.or_self]
  | find | contains | size | isEmpty => exact (Bool.or_false _).symm

theorem isOpen_foldl_after (inquiries : List (Inquiry (String × String) H)) (function : String) :
    ∀ s : Scopes H, (inquiries.foldl after s).isOpen function =
      (s.isOpen function || inquiries.any (·.opens function)) := by
  induction inquiries with
  | nil => exact fun s => (Bool.or_false _).symm
  | cons inquiry rest ih =>
      intro s
      rw [List.foldl_cons, ih, isOpen_after, List.any_cons, Bool.or_assoc]

section Closed

variable {s : Scopes H} {function : String}

theorem scope?_of_closed (h : s.isOpen function = false) : s.scope? function = none :=
  Option.not_isSome_iff_eq_none.mp (Bool.eq_false_iff.mp h)

theorem scope_of_closed (h : s.isOpen function = false) : s.scope function = ⟨.block, ∅⟩ := by
  rw [scope, scope?_of_closed h]
  rfl

theorem look_of_closed (h : s.isOpen function = false) (name : String) :
    s.look (function, name) = none := by
  rw [Scopes.look, get?, scope_of_closed h]
  simp [Registry.get?]

theorem reply_find_of_closed (h : s.isOpen function = false) (name : String) :
    s.reply (.find (function, name)) =
      .handle (.error (.notFound .block (function ++ "::" ++ name))) false := by
  rw [reply, Inquiry.reply, look_of_closed h, missing, scope?_of_closed h]

end Closed

structure Reopened (function : String) (s s' : Scopes H) : Prop where
  scope?_eq : ∀ other, s'.scope? other =
    if other = function then some (s.scope function) else s.scope? other
  size_eq : s'.size = s.size

theorem reopened_openScope (s : Scopes H) (function : String) :
    Reopened function s (s.openScope function) where
  scope?_eq _ := scope?_put ..
  size_eq := size_openScope ..

namespace Reopened

variable {function : String} {s s' : Scopes H}

theorem scope_eq (h : Reopened function s s') (other : String) : s'.scope other = s.scope other := by
  rw [scope, h.scope?_eq]
  split
  next heq => rw [heq]; rfl
  next => rfl

theorem put (h : Reopened function s s') (other : String) (registry : Registry H) :
    Reopened function (s.put other registry) (s'.put other registry) where
  scope?_eq third := by
    rw [scope?_put, scope?_put, h.scope?_eq]
    by_cases heq : third = other
    · subst heq
      by_cases hf : third = function
      · subst hf
        simp [scope_put_self]
      · simp [hf]
    · by_cases hf : third = function
      · subst hf
        simp [heq, scope_put_of_ne (Ne.symm heq)]
      · simp [heq, hf]
  size_eq := by
    have hput := s.size_put other registry
    have hput' := s'.size_put other registry
    rw [h.scope_eq, h.size_eq] at hput'
    omega

theorem openScope (h : Reopened function s s') (other : String) :
    Reopened function (s.openScope other) (s'.openScope other) := by
  have hput := h.put other (s.scope other)
  rw [Scopes.openScope, Scopes.openScope, h.scope_eq]
  exact hput

theorem after (h : Reopened function s s') (inquiry : Inquiry (String × String) H) :
    Reopened function (s.after inquiry) (s'.after inquiry) := by
  cases inquiry with
  | create key make | findOrCreate key make =>
      have hopen := h.openScope key.1
      cases make with
      | error => exact hopen
      | ok handle =>
          have hget : (scopePart key.1).get (s'.openScope key.1) =
            (scopePart key.1).get (s.openScope key.1) := hopen.scope_eq key.1
          rw [Scopes.after, Scopes.after]
          cases hname : ((scopePart key.1).get (s.openScope key.1)).get? key.2 with
          | some old =>
              rw [registering_of_some hname, registering_of_some (hget ▸ hname)]
              exact hopen
          | none =>
              rw [registering_of_none hname, registering_of_none (hget ▸ hname), hget]
              exact hopen.put key.1 _
  | find | contains | size | isEmpty => exact h

theorem look_eq (h : Reopened function s s') : s'.look = s.look := by
  funext key
  unfold Scopes.look get?
  rw [h.scope_eq]

theorem duplicate_eq (h : Reopened function s s') : s'.duplicate = s.duplicate := by
  funext key
  unfold Scopes.duplicate
  rw [h.scope_eq]

theorem missing_eq (h : Reopened function s s') (key : String × String) : s'.missing key =
    if key.1 = function then .notFound (s.scope function).kind key.2 else s.missing key := by
  rw [Scopes.missing, h.scope?_eq]
  by_cases heq : key.1 = function
  · rw [if_pos heq, if_pos heq]
  · rw [if_neg heq, if_neg heq]
    rfl

theorem missing_eq_of_isOpen (h : Reopened function s s') (hopen : s.isOpen function = true) :
    s'.missing = s.missing := by
  funext key
  rw [h.missing_eq]
  split
  next heq =>
    obtain ⟨registry, hscope⟩ := Option.isSome_iff_exists.mp hopen
    rw [Scopes.missing, heq, scope, hscope]
    rfl
  next => rfl

theorem reply_eq_bared (h : Reopened function s s') (hclosed : s.isOpen function = false)
    (inquiry : Inquiry (String × String) H) :
    s'.reply inquiry = inquiry.bared function (s.reply inquiry) := by
  unfold Scopes.reply
  rw [h.look_eq, h.size_eq, h.duplicate_eq]
  cases inquiry with
  | find key =>
      rw [Inquiry.bared, Inquiry.reply, h.missing_eq]
      by_cases heq : key.1 = function
      · subst heq
        rw [look_of_closed hclosed, if_pos rfl, if_pos rfl, scope_of_closed hclosed]
      · rw [if_neg heq, if_neg heq]
        rfl
  | create | findOrCreate | contains | size | isEmpty => rfl

theorem replies_eq (inquiries : List (Inquiry (String × String) H)) :
    ∀ {s s' : Scopes H}, Reopened function s s' → s'.replies inquiries =
      Inquiry.retold function (s.isOpen function) inquiries (s.replies inquiries) := by
  induction inquiries with
  | nil => exact fun _ => rfl
  | cons inquiry rest ih =>
      intro s s' h
      rw [replies, replies, Inquiry.retold, ih (h.after inquiry), isOpen_after]
      congr 1
      cases hopen : s.isOpen function with
      | true =>
          unfold Scopes.reply
          rw [h.look_eq, h.size_eq, h.duplicate_eq, h.missing_eq_of_isOpen hopen]
          rfl
      | false => exact h.reply_eq_bared hopen inquiry

end Reopened

theorem after_eq_openScope {s : Scopes H} {call : Inquiry (String × String) H} {function : String}
    {e : Error} {ran : Bool} (hcall : call.opens function = true)
    (hfail : s.reply call = .handle (.error e) ran) : s.after call = s.openScope function := by
  cases call with
  | create key make | findOrCreate key make =>
      obtain rfl := of_decide_eq_true hcall
      have hlook : ((scopePart key.1).get (s.openScope key.1)).get? key.2 = s.look key :=
        get?_openScope ..
      rw [after]
      cases hname : s.look key with
      | some old => exact registering_of_some (hlook.trans hname)
      | none =>
          rw [reply, Inquiry.reply, hname] at hfail
          cases hfail
          rfl
  | find | contains | size | isEmpty => cases hcall

/-- After a creation that failed, all that is asked is answered as if it had not been tried, but for
blocks that are missing in the function's scope while nothing else opens it: these are reported by
their bare names, and would have been reported with the name of the function. -/
theorem failed_creation_leaves_scope_open {log : Log} {ran ran' : Bool} {e : Error}
    {earlier : List (Inquiry (String × String) H)} {call : Inquiry (String × String) H}
    {function : String} {replies : List (Reply H)} {s s' : Logged (Scopes H × Bool)}
    (hearlier : directory.askAll earlier ⟨log, ({}, ran)⟩ = .ok replies s)
    (hcall : call.opens function = true)
    (hfail : directory.ask call s = .ok (.handle (.error e) ran') s')
    (later : List (Inquiry (String × String) H)) :
    ∃ replies t t', directory.askAll later s = .ok replies t ∧
      directory.askAll later s' = .ok
        (Inquiry.retold function (earlier.any (·.opens function)) later replies) t' ∧
      ∀ i name, later[i]? = some (.find (function, name)) →
        (earlier ++ later.take i).any (·.opens function) = false →
        replies[i]? =
          some (.handle (.error (.notFound .block (function ++ "::" ++ name))) false) := by
  obtain ⟨log₁, ran₁, hreached⟩ := askAll_replies earlier log {} ran
  cases hearlier.symm.trans hreached
  obtain ⟨log₂, ran₂, hsaid⟩ := (earlier.foldl after {}).directory_answers call log₁ ran₁
  injection hfail.symm.trans hsaid with hreply hs'
  rw [after_eq_openScope hcall hreply.symm] at hs'
  subst hs'
  obtain ⟨_, _, hlater⟩ := askAll_replies later log₁ (earlier.foldl after {}) ran₁
  obtain ⟨_, _, hlater'⟩ :=
    askAll_replies later log₂ ((earlier.foldl after {}).openScope function) ran₂
  have hopen (inquiries : List (Inquiry (String × String) H)) :
      (inquiries.foldl after ({} : Scopes H)).isOpen function =
        inquiries.any (·.opens function) := by
    rw [isOpen_foldl_after, isOpen, scope?]
    simp
  rw [(reopened_openScope _ function).replies_eq later, hopen] at hlater'
  refine ⟨_, _, _, hlater, hlater', fun i name hfind hclosed => ?_⟩
  rw [← hopen, List.foldl_append] at hclosed
  rw [getElem?_replies, hfind, Option.map_some, reply_find_of_closed hclosed]

def standing : Logged (Scopes Nat × Bool) :=
  (directory.askAll [.create ("main", "entry") (.ok 1)]).final ⟨#[], ({}, false)⟩

def refused : Inquiry (String × String) Nat :=
  .findOrCreate ("p", "entry") (.error (.backend (.other "full")))

def probes : List (Inquiry (String × String) Nat) :=
  [.find ("p", "exit"), .create ("p", "entry") (.ok 2), .find ("p", "exit"), .size]

-- Only the first miss is retold: the second one comes after the scope was opened anyway.
theorem failed_creation_retells_miss : ∃ s' replies t t',
    directory.askAll [.create ("main", "entry") (.ok 1)] ⟨#[], ({}, false)⟩ =
      .ok [.handle (.ok 1) true] standing ∧
    directory.ask refused standing = .ok (.handle (.error (.backend (.other "full"))) true) s' ∧
    directory.askAll probes standing = .ok replies t ∧
    directory.askAll probes s' = .ok (Inquiry.retold "p" false probes replies) t' ∧
    replies[0]? = some (.handle (.error (.notFound .block "p::exit")) false) := by
  have hearlier : directory.askAll [.create ("main", "entry") (.ok 1)] ⟨#[], ({}, false)⟩ =
    .ok [.handle (.ok 1) true] standing := rfl
  have hfail : directory.ask refused standing =
    .ok (.handle (.error (.backend (.other "full"))) true) ((directory.ask refused).final standing) :=
    rfl
  have hcall : refused.opens "p" = true := rfl
  obtain ⟨replies, t, t', hlater, hlater', hmiss⟩ :=
    failed_creation_leaves_scope_open hearlier hcall hfail probes
  exact ⟨_, replies, t, t', hearlier, hfail, hlater, hlater', hmiss 0 "exit" rfl rfl⟩

theorem failed_creation_shows_in_find :
    (directory.askAll [.find ("f", "a")]).outcome ⟨#[], (({} : Scopes Nat), false)⟩ =
      .ok [.handle (.error (.notFound .block "f::a")) false] ∧
    (directory.askAll [.create ("f", "a") (.error (.backend (.other "boom"))),
        .find ("f", "a")]).outcome ⟨#[], (({} : Scopes Nat), false)⟩ =
      .ok [.handle (.error (.backend (.other "boom"))) true,
        .handle (.error (.notFound .block "a")) false] :=
  ⟨rfl, rfl⟩

end Scopes

end Niladic
