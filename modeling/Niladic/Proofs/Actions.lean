import Niladic.Action

namespace Niladic

theorem bind_ok_iff {ε α β : Type} {x : Except ε α} {g : α → Except ε β} {b : β} :
    (x >>= g) = .ok b ↔ ∃ a, x = .ok a ∧ g a = .ok b := by
  cases x with
  | error e => simp [bind, Except.bind]
  | ok a => simp [bind, Except.bind]

theorem bind_error_iff {ε α β : Type} {x : Except ε α} {g : α → Except ε β} {e : ε} :
    (x >>= g) = .error e ↔ x = .error e ∨ ∃ a, x = .ok a ∧ g a = .error e := by
  cases x with
  | error e' => simp [bind, Except.bind]
  | ok a => simp [bind, Except.bind]

theorem seq_ok_iff {ε β : Type} {x : Except ε Unit} {g : Unit → Except ε β} {b : β} :
    (x >>= g) = .ok b ↔ x = .ok () ∧ g () = .ok b := by
  rw [bind_ok_iff]
  exact ⟨fun ⟨_, hx, hg⟩ => ⟨hx, hg⟩, fun ⟨hx, hg⟩ => ⟨(), hx, hg⟩⟩

theorem seq_error_iff {ε β : Type} {x : Except ε Unit} {g : Unit → Except ε β} {e : ε} :
    (x >>= g) = .error e ↔ x = .error e ∨ (x = .ok () ∧ g () = .error e) := by
  rw [bind_error_iff]
  exact or_congr_right ⟨fun ⟨_, hx, hg⟩ => ⟨hx, hg⟩, fun ⟨hx, hg⟩ => ⟨(), hx, hg⟩⟩

namespace Action

variable {σ τ α β : Type}

theorem bind_apply (x : Action σ α) (f : α → Action σ β) (s : σ) :
    (x >>= f) s = match x s with
      | .ok a s' => f a s'
      | .error stop s' => .error stop s' := by
  change EStateM.bind x f s = _
  unfold EStateM.bind
  cases x s <;> rfl

@[simp] theorem pure_apply (a : α) (s : σ) : (pure a : Action σ α) s = .ok a s := rfl

@[simp] theorem get_apply (s : σ) : (get : Action σ σ) s = .ok s s := rfl

@[simp] theorem modify_apply (f : σ → σ) (s : σ) :
    (modify f : Action σ Unit) s = .ok () (f s) := rfl

@[simp] theorem resolve_some (a : α) : (resolve (some a) : Action σ α) = pure a := rfl

theorem bind_of_ok {x : Action σ α} {f : α → Action σ β} {s s' : σ} {a : α}
    (h : x s = .ok a s') : (x >>= f) s = f a s' := by
  rw [bind_apply, h]

theorem bind_of_error {x : Action σ α} {f : α → Action σ β} {s s' : σ} {stop : Stop}
    (h : x s = .error stop s') : (x >>= f) s = .error stop s' := by
  rw [bind_apply, h]

theorem bind_eq_ok {x : Action σ α} {f : α → Action σ β} {s t : σ} {b : β}
    (h : (x >>= f) s = .ok b t) : ∃ a s', x s = .ok a s' ∧ f a s' = .ok b t := by
  rw [bind_apply] at h
  cases hx : x s with
  | ok a s' =>
      rw [hx] at h
      exact ⟨a, s', rfl, h⟩
  | error stop s' =>
      rw [hx] at h
      cases h

theorem bind_eq_error {x : Action σ α} {f : α → Action σ β} {s t : σ} {stop : Stop}
    (h : (x >>= f) s = .error stop t) :
    x s = .error stop t ∨ ∃ a s', x s = .ok a s' ∧ f a s' = .error stop t := by
  rw [bind_apply] at h
  cases hx : x s with
  | ok a s' =>
      rw [hx] at h
      exact .inr ⟨a, s', rfl, h⟩
  | error stop' s' =>
      rw [hx] at h
      cases h
      exact .inl rfl

theorem discard_of_ok {x : Action σ α} {s s' : σ} {a : α} (h : x s = .ok a s') :
    (discard x) s = .ok () s' := by
  change EStateM.map _ x s = _
  unfold EStateM.map
  rw [h]

theorem discard_of_error {x : Action σ α} {s s' : σ} {stop : Stop}
    (h : x s = .error stop s') : (discard x) s = .error stop s' := by
  change EStateM.map _ x s = _
  unfold EStateM.map
  rw [h]

theorem discard_eq_ok {x : Action σ α} {s s' : σ} {u : Unit}
    (h : Functor.discard x s = .ok u s') : ∃ a, x s = .ok a s' := by
  cases hx : x s with
  | ok a t =>
      cases (discard_of_ok hx).symm.trans h
      exact ⟨a, rfl⟩
  | error stop t => cases (discard_of_error hx).symm.trans h

theorem attempt_of_ok {x : Action σ α} {s s' : σ} {a : α} (h : x s = .ok a s') :
    attempt x s = .ok (.ok a) s' := by
  unfold attempt
  rw [h]

theorem attempt_of_error {x : Action σ α} {s s' : σ} {e : Error}
    (h : x s = .error (.error e) s') : attempt x s = .ok (.error e) s' := by
  unfold attempt
  rw [h]

theorem attempt_of_badHandle {x : Action σ α} {s s' : σ} (h : x s = .error .badHandle s') :
    attempt x s = .error .badHandle s' := by
  unfold attempt
  rw [h]

theorem of_attempt_ok {x : Action σ α} {s s' : σ} {a : α} (h : attempt x s = .ok (.ok a) s') :
    x s = .ok a s' := by
  unfold attempt at h
  cases hx : x s with
  | ok a' t =>
      rw [hx] at h
      cases h
      rfl
  | error stop t =>
      rw [hx] at h
      cases stop <;> cases h

theorem of_attempt_error {x : Action σ α} {s s' : σ} {e : Error}
    (h : attempt x s = .ok (.error e) s') : x s = .error (.error e) s' := by
  unfold attempt at h
  cases hx : x s with
  | ok a t =>
      rw [hx] at h
      cases h
  | error stop t =>
      rw [hx] at h
      cases stop with
      | error e' =>
          cases h
          rfl
      | badHandle => cases h

def outcome (x : Action σ α) (s : σ) : Except Stop α :=
  match x s with
  | .ok a _ => .ok a
  | .error stop _ => .error stop

theorem outcome_of_ok {x : Action σ α} {s s' : σ} {a : α} (h : x s = .ok a s') :
    x.outcome s = .ok a := by
  unfold outcome
  rw [h]

theorem outcome_of_error {x : Action σ α} {s s' : σ} {stop : Stop} (h : x s = .error stop s') :
    x.outcome s = .error stop := by
  unfold outcome
  rw [h]

theorem outcome_bind_of_ok {x : Action σ α} {s s' : σ} {a : α} (h : x s = .ok a s')
    (f : α → Action σ β) : (x >>= f).outcome s = (f a).outcome s' := by
  unfold outcome
  rw [bind_of_ok h]

theorem of_outcome_ok {x : Action σ α} {s : σ} {a : α} (h : x.outcome s = .ok a) :
    ∃ s', x s = .ok a s' := by
  unfold outcome at h
  cases hx : x s with
  | ok b s' =>
      rw [hx] at h
      cases h
      exact ⟨s', rfl⟩
  | error stop s' =>
      rw [hx] at h
      cases h

theorem of_outcome_error {x : Action σ α} {s : σ} {stop : Stop} (h : x.outcome s = .error stop) :
    ∃ s', x s = .error stop s' := by
  unfold outcome at h
  cases hx : x s with
  | ok b s' =>
      rw [hx] at h
      cases h
  | error stop' s' =>
      rw [hx] at h
      cases h
      exact ⟨s', rfl⟩

def final (x : Action σ α) (s : σ) : σ :=
  match x s with
  | .ok _ s' => s'
  | .error _ s' => s'

theorem final_of_ok {x : Action σ α} {s s' : σ} {a : α} (h : x s = .ok a s') : x.final s = s' := by
  unfold final
  rw [h]

theorem final_of_error {x : Action σ α} {s s' : σ} {stop : Stop} (h : x s = .error stop s') :
    x.final s = s' := by
  unfold final
  rw [h]

def Ends (R : σ → σ → Prop) (s : σ) : EStateM.Result Stop σ α → Prop
  | .ok _ s' => R s s'
  | .error (.error _) s' => R s s'
  | .error .badHandle _ => True

theorem Ends.mono {R S : σ → σ → Prop} {s t : σ} {r : EStateM.Result Stop σ α} (h : Ends R s r)
    (hRS : ∀ {s'}, R s s' → S t s') : Ends S t r := by
  cases r with
  | ok a s' => exact hRS h
  | error stop s' =>
      cases stop with
      | error e => exact hRS h
      | badHandle => trivial

theorem Ends.of_imp {P : σ → Prop} {R : σ → σ → Prop} {s : σ} {r : EStateM.Result Stop σ α}
    (h : P s → Ends (fun s s' => P s → R s s') s r) : Ends (fun s s' => P s → R s s') s r := by
  cases r with
  | ok a s' => exact fun hs => h hs hs
  | error stop s' =>
      cases stop with
      | error e => exact fun hs => h hs hs
      | badHandle => trivial

theorem Ends.discard {R : σ → σ → Prop} {s : σ} {x : Action σ α} (h : Ends R s (x s)) :
    Ends R s ((Functor.discard x) s) := by
  cases hx : x s with
  | ok a s' =>
      rw [hx] at h
      rw [discard_of_ok hx]
      exact h
  | error stop s' =>
      rw [hx] at h
      rw [discard_of_error hx]
      cases stop with
      | error e => exact h
      | badHandle => trivial

theorem Ends.bind {R : σ → σ → Prop} {s : σ} {x : Action σ α} {f : α → Action σ β}
    (hx : Ends R s (x s)) (htrans : ∀ {a b c}, R a b → R b c → R a c)
    (hf : ∀ a s', x s = .ok a s' → Ends R s' (f a s')) : Ends R s ((x >>= f) s) := by
  cases hs : x s with
  | ok a s' =>
      rw [hs] at hx
      rw [bind_of_ok hs]
      exact (hf a s' hs).mono fun h => htrans hx h
  | error stop s' =>
      rw [hs] at hx
      rw [bind_of_error hs]
      cases stop with
      | error e => exact hx
      | badHandle => trivial

def Atomic (P : α → σ → Prop) (s : σ) : EStateM.Result Stop σ α → Prop
  | .ok a s' => P a s'
  | .error (.error _) s' => s' = s
  | .error .badHandle _ => False

namespace Atomic

variable {P : α → σ → Prop} {Q : β → σ → Prop} {x : Action σ α} {s : σ}

theorem cases (h : Atomic P s (x s)) :
    (∃ a s', x s = .ok a s' ∧ P a s') ∨ ∃ e, x s = .error (.error e) s := by
  cases hx : x s with
  | ok a s' =>
      rw [hx] at h
      exact .inl ⟨a, s', rfl, h⟩
  | error stop s' =>
      rw [hx] at h
      cases stop with
      | error e =>
          cases h
          exact .inr ⟨e, rfl⟩
      | badHandle => exact h.elim

theorem of_error {e : Error} (hx : x s = .error (.error e) s) : Atomic P s (x s) := by
  rw [hx]
  exact rfl

theorem bind {f : α → Action σ β} (hx : Atomic (fun _ s' => s' = s) s (x s))
    (hf : ∀ a, Atomic Q s (f a s)) : Atomic Q s ((x >>= f) s) := by
  rcases hx.cases with ⟨a, s', hok, rfl⟩ | ⟨e, herror⟩
  · rw [bind_of_ok hok]
    exact hf a
  · exact of_error (bind_of_error herror)

theorem map {g : α → β} (hx : Atomic P s (x s)) (hPQ : ∀ a s', P a s' → Q (g a) s') :
    Atomic Q s ((x >>= fun a => pure (g a)) s) := by
  rcases hx.cases with ⟨a, s', hok, hP⟩ | ⟨e, herror⟩
  · rw [bind_of_ok hok]
    exact hPQ a s' hP
  · exact of_error (bind_of_error herror)

theorem discard {Q : Unit → σ → Prop} (hx : Atomic P s (x s)) (hPQ : ∀ a s', P a s' → Q () s') :
    Atomic Q s ((Functor.discard x) s) := by
  rcases hx.cases with ⟨a, s', hok, hP⟩ | ⟨e, herror⟩
  · rw [discard_of_ok hok]
    exact hPQ a s' hP
  · exact of_error (discard_of_error herror)

end Atomic

def Relates (R : σ → σ → Prop) (x : Action σ α) : Prop := ∀ s, Ends R s (x s)

namespace Relates

variable {R : σ → σ → Prop} {x : Action σ α} {f : α → Action σ β}

theorem of_ok (h : Relates R x) {s s' : σ} {a : α} (hx : x s = .ok a s') : R s s' := by
  have hs := h s
  rwa [hx] at hs

theorem of_error (h : Relates R x) {s s' : σ} {e : Error} (hx : x s = .error (.error e) s') :
    R s s' := by
  have hs := h s
  rwa [hx] at hs

theorem intro (hok : ∀ s a s', x s = .ok a s' → R s s')
    (herror : ∀ s e s', x s = .error (.error e) s' → R s s') : Relates R x := by
  intro s
  cases hx : x s with
  | ok a s' => exact hok s a s' hx
  | error stop s' =>
      cases stop with
      | error e => exact herror s e s' hx
      | badHandle => trivial

theorem mono {S : σ → σ → Prop} (h : Relates R x) (hRS : ∀ {s s'}, R s s' → S s s') :
    Relates S x :=
  fun s => (h s).mono hRS

theorem any (x : Action σ α) : Relates (fun _ _ => True) x :=
  intro (fun _ _ _ _ => trivial) fun _ _ _ _ => trivial

theorem and {S : σ → σ → Prop} (h : Relates R x) (h' : Relates S x) :
    Relates (fun s s' => R s s' ∧ S s s') x :=
  intro (fun _ _ _ hx => ⟨h.of_ok hx, h'.of_ok hx⟩) fun _ _ _ hx => ⟨h.of_error hx, h'.of_error hx⟩

theorem bind (htrans : ∀ {a b c}, R a b → R b c → R a c) (hx : Relates R x)
    (hf : ∀ a, Relates R (f a)) : Relates R (x >>= f) :=
  fun s => (hx s).bind htrans fun a s' _ => hf a s'

theorem pure (hrefl : ∀ s, R s s) (a : α) : Relates R (Pure.pure a : Action σ α) :=
  fun s => hrefl s

theorem fail (hrefl : ∀ s, R s s) (e : Error) : Relates R (Action.fail e : Action σ α) :=
  fun s => hrefl s

theorem badHandle : Relates R (throw .badHandle : Action σ α) := fun _ => trivial

theorem get (hrefl : ∀ s, R s s) : Relates R (MonadState.get : Action σ σ) :=
  fun s => hrefl s

theorem ofExcept (hrefl : ∀ s, R s s) (r : Except Error α) :
    Relates R (Action.ofExcept r : Action σ α) := by
  cases r with
  | ok a => exact pure hrefl a
  | error e => exact fail hrefl e

theorem attempt (h : Relates R x) : Relates R (Action.attempt x) := by
  intro s
  unfold Action.attempt
  cases hx : x s with
  | ok a s' => exact h.of_ok hx
  | error stop s' =>
      cases stop with
      | error e => exact h.of_error hx
      | badHandle => trivial

theorem discard (h : Relates R x) : Relates R (Functor.discard x) := fun s => (h s).discard

end Relates

end Action

end Niladic
