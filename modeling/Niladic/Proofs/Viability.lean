import Niladic.Proofs.Parsing

namespace Niladic

namespace Grammar

def Derivable (w : List Token) : Prop := ∃ items, tokensAll items = w

def Viable (w : List Token) : Prop := ∃ rest, Derivable (w ++ rest)

theorem Viable.of_append {w v : List Token} (h : Viable (w ++ v)) : Viable w := by
  obtain ⟨rest, hrest⟩ := h
  exact ⟨v ++ rest, by rwa [← List.append_assoc]⟩

/-- The tokens before `placed` start a program, and those up to `placed` do not. A stop starts
nothing, and is out of place where the program before it is not complete. -/
structure Offends (before : List Placed) (placed : Placed) : Prop where
  running : ∀ p ∈ before, p.token ≠ .stop
  viable : Viable (before.map Placed.token)
  incomplete : placed.token = .stop → ¬ Derivable (before.map Placed.token)
  barred : placed.token ≠ .stop → ¬ Viable (before.map Placed.token ++ [placed.token])

theorem Offends.not_later {before between : List Placed} {placed placed' : Placed}
    (h : Offends before placed) (h' : Offends (before ++ placed :: between) placed') : False := by
  have hrunning := h'.running placed (by simp)
  apply h.barred hrunning
  have hviable := h'.viable
  rw [List.map_append, List.map_cons, List.append_cons] at hviable
  exact hviable.of_append

theorem Offends.unique {before before' after after' : List Placed} {placed placed' : Placed}
    (h : Offends before placed) (h' : Offends before' placed')
    (heq : before ++ placed :: after = before' ++ placed' :: after') : placed = placed' := by
  rcases List.append_eq_append_iff.mp heq with ⟨between, rfl, hrest⟩ | ⟨between, rfl, hrest⟩
  · cases between with
    | nil =>
        cases hrest
        rfl
    | cons first between =>
        cases hrest
        exact (h.not_later h').elim
  · cases between with
    | nil =>
        cases hrest
        rfl
    | cons first between =>
        cases hrest
        exact (h'.not_later h).elim

end Grammar

namespace Reading

open Grammar

theorem exists_run_start_iff {w : List Token} : (∃ t, run start w = .ok t) ↔ Derivable w := by
  constructor
  · rintro ⟨t, h⟩
    obtain ⟨items, htokens, -⟩ := run_start_eq_ok_iff.mp h
    exact ⟨items, htokens⟩
  · rintro ⟨items, rfl⟩
    exact ⟨_, run_start_eq_ok_iff.mpr ⟨_, tokens_settleAll items, settledAll_settleAll items, rfl⟩⟩

theorem exists_completion_item (enclosing : List Enclosing) :
    ∀ items : List Tree, ∃ w t, Closes w ∧ run ⟨.item, items, enclosing⟩ w = .ok t := by
  induction enclosing with
  | nil => exact fun items => ⟨[], .program items.reverse, closes_nil, rfl⟩
  | cons procedure enclosing ih =>
      intro items
      obtain ⟨name, before⟩ := procedure
      obtain ⟨w, t, -, hrun⟩ := ih (.procedure name (.body items.reverse) :: before)
      exact ⟨.keyword .finish :: w, t, closes_finish w, hrun⟩

theorem exists_completion_variableName (value : Tree) (items : List Tree)
    (enclosing : List Enclosing) :
    ∃ w t, run ⟨.variableName value, items, enclosing⟩ w = .ok t := by
  obtain ⟨w, t, -, hrun⟩ := exists_completion_item enclosing (.assign "x" value :: items)
  exact ⟨.name "x" :: w, t, hrun⟩

theorem exists_completion_operator (p : Purpose) (items : List Tree) (enclosing : List Enclosing)
    (outer : List Nest) : ∀ (sum : Option Pending) (term : Tree),
    ∃ w t, run ⟨.operator p sum term outer, items, enclosing⟩ w = .ok t := by
  induction outer with
  | nil =>
      intro sum term
      cases p with
      | item =>
          obtain ⟨w, t, hcloses, hrun⟩ :=
            exists_completion_item enclosing (Pending.complete sum term :: items)
          exact ⟨w, t, (run_push hcloses.noOperator).trans hrun⟩
      | save =>
          obtain ⟨w, t, hrun⟩ :=
            exists_completion_variableName (Pending.complete sum term) items enclosing
          exact ⟨.keyword .into :: w, t, hrun⟩
  | cons nest outer ih =>
      intro sum term
      obtain ⟨w, t, hrun⟩ := ih nest.sum (nest.term (Pending.complete sum term))
      exact ⟨.closing :: w, t, (run_closing w).trans hrun⟩

theorem exists_completion (r : Reading) : ∃ w t, r.run w = .ok t := by
  obtain ⟨phase, items, enclosing⟩ := r
  cases phase with
  | item =>
      obtain ⟨w, t, -, hrun⟩ := exists_completion_item enclosing items
      exact ⟨w, t, hrun⟩
  | procedureName =>
      obtain ⟨w, t, -, hrun⟩ := exists_completion_item (⟨"x", items⟩ :: enclosing) []
      exact ⟨.name "x" :: w, t, hrun⟩
  | operand p nest outer =>
      obtain ⟨w, t, hrun⟩ :=
        exists_completion_operator p items enclosing outer nest.sum (nest.term (.number 0))
      exact ⟨.number 0 :: w, t, hrun⟩
  | operator p sum term outer => exact exists_completion_operator p items enclosing outer sum term
  | variableName value => exact exists_completion_variableName value items enclosing

def Leads (r : Reading) (w : List Token) (r' : Reading) : Prop := ∀ v, r.run (w ++ v) = r'.run v

theorem Leads.step {r r₁ r' : Reading} {token : Token} {w : List Token} (h : r.step token = .ok r₁)
    (hrest : r₁.Leads w r') : r.Leads (token :: w) r' := by
  intro v
  rw [List.cons_append, run, h]
  exact hrest v

theorem Leads.viable {w : List Token} {r : Reading} (h : start.Leads w r) : Viable w := by
  obtain ⟨v, t, hrun⟩ := r.exists_completion
  exact ⟨v, exists_run_start_iff.mp ⟨t, (h v).trans hrun⟩⟩

theorem Leads.not_viable {w : List Token} {r : Reading} (h : start.Leads w r) {token : Token}
    {fault : SourceFault} (hstep : r.step token = .error fault) : ¬ Viable (w ++ [token]) := by
  rintro ⟨v, hderivable⟩
  obtain ⟨t, hrun⟩ := exists_run_start_iff.mpr hderivable
  rw [List.append_assoc, h, List.singleton_append, run, hstep] at hrun
  cases hrun

theorem Leads.not_derivable {w : List Token} {r : Reading} (h : start.Leads w r)
    {fault : SourceFault} (hfinish : r.finish = .error fault) : ¬ Derivable w := by
  intro hderivable
  obtain ⟨t, hrun⟩ := exists_run_start_iff.mpr hderivable
  have hend := h []
  rw [List.append_nil, hrun, run, hfinish] at hend
  cases hend

theorem mapError_error {ε ε' α : Type} {f : ε → ε'} {x : Except ε α} {e : ε'}
    (h : x.mapError f = .error e) : ∃ e', x = .error e' ∧ e = f e' := by
  cases x with
  | ok a => cases h
  | error e' =>
      cases h
      exact ⟨e', rfl, rfl⟩

theorem readAll_error {last : Position} {r : Reading} {tokens : List Placed} {e : SourceError}
    (hstop : ∃ p ∈ tokens, p.token = .stop) (h : r.readAll last tokens = .error e) :
    ∃ before placed after r', tokens = before ++ placed :: after ∧ e.position = placed.position ∧
      (∀ p ∈ before, p.token ≠ .stop) ∧ r.Leads (before.map Placed.token) r' ∧
      (placed.token = .stop → ∃ fault, r'.finish = .error fault) ∧
      (placed.token ≠ .stop → ∃ fault, r'.step placed.token = .error fault) := by
  fun_induction readAll last r tokens with
  | case1 r =>
      obtain ⟨p, hp, -⟩ := hstop
      cases hp
  | case2 r position rest =>
      obtain ⟨fault, hfinish, rfl⟩ := mapError_error h
      exact ⟨[], ⟨.stop, position⟩, rest, r, rfl, rfl, List.forall_mem_nil _, fun _ => rfl,
        fun _ => ⟨fault, hfinish⟩, fun hne => (hne rfl).elim⟩
  | case3 r token position rest hne r₁ hstep ih =>
      have hrest : ∃ p ∈ rest, p.token = .stop := by
        obtain ⟨p, hp, hpstop⟩ := hstop
        rcases List.mem_cons.mp hp with rfl | hp
        · exact (hne hpstop).elim
        · exact ⟨p, hp, hpstop⟩
      obtain ⟨before, placed, after, r', rfl, hposition, hrunning, hleads, hfinish, hfault⟩ :=
        ih hrest h
      exact ⟨⟨token, position⟩ :: before, placed, after, r', rfl, hposition,
        List.forall_mem_cons.mpr ⟨hne, hrunning⟩, hleads.step hstep, hfinish, hfault⟩
  | case4 r token position rest hne fault hstep =>
      cases h
      exact ⟨[], ⟨token, position⟩, rest, r, rfl, rfl, List.forall_mem_nil _, fun _ => rfl,
        fun hstop => (hne hstop).elim, fun _ => ⟨fault, hstep⟩⟩

theorem readAll_append_stop (last : Position) (r : Reading) (tokens : List Placed) :
    r.readAll last (tokens ++ [⟨.stop, last⟩]) = r.readAll last tokens := by
  fun_induction readAll last r tokens with
  | case1 r => rfl
  | case2 r position rest => rfl
  | case3 r token position rest hne r₁ hstep ih =>
      rw [List.cons_append, readAll, hstep]
      · exact ih
      · exact hne
  | case4 r token position rest hne fault hstep =>
      rw [List.cons_append, readAll, hstep]
      exact hne

end Reading

/-- The tokens as they are read: the last one is a stop, and one that is missing stands where the
last token stands. -/
def stream (tokens : List Placed) : List Placed :=
  match tokens.getLast? with
  | none => [⟨.stop, Position.start⟩]
  | some last => if last.token = .stop then tokens else tokens ++ [⟨.stop, last.position⟩]

theorem exists_stop_mem_stream (tokens : List Placed) : ∃ p ∈ stream tokens, p.token = .stop := by
  unfold stream
  cases hlast : tokens.getLast? with
  | none => exact ⟨_, List.mem_singleton_self _, rfl⟩
  | some last =>
      dsimp only
      split
      next hstop => exact ⟨last, List.mem_of_getLast? hlast, hstop⟩
      next => exact ⟨_, List.mem_append_right tokens (List.mem_singleton_self _), rfl⟩

theorem ofTokens_eq_readAll_stream (tokens : List Placed) :
    ∃ last, Tree.ofTokens tokens = Reading.start.readAll last (stream tokens) := by
  unfold Tree.ofTokens stream
  cases hlast : tokens.getLast? with
  | none =>
      rw [List.getLast?_eq_none_iff.mp hlast]
      exact ⟨Position.start, (Reading.readAll_append_stop Position.start _ []).symm⟩
  | some last =>
      refine ⟨last.position, ?_⟩
      dsimp only
      split
      next => rfl
      next => exact (Reading.readAll_append_stop last.position _ tokens).symm

theorem word_append {before : List Placed} (h : ∀ p ∈ before, p.token ≠ .stop)
    (rest : List Placed) : word (before ++ rest) = before.map Placed.token ++ word rest := by
  unfold word
  rw [List.map_append, List.takeWhile_append_of_pos]
  intro token htoken
  obtain ⟨p, hp, rfl⟩ := List.mem_map.mp htoken
  simpa using h p hp

namespace Grammar

theorem Offends.not_derivable_word {before : List Placed} {placed : Placed}
    (h : Offends before placed) (after : List Placed) :
    ¬ Derivable (word (before ++ placed :: after)) := by
  rw [word_append h.running]
  by_cases hstop : placed.token = .stop
  · have hword : word (placed :: after) = [] := by simp [word, hstop]
    rw [hword, List.append_nil]
    exact h.incomplete hstop
  · have hword : word (placed :: after) = placed.token :: word after := by simp [word, hstop]
    intro hderivable
    rw [hword, List.append_cons] at hderivable
    exact h.barred hstop ⟨word after, hderivable⟩

end Grammar

open Grammar

theorem Tree.ofTokens_fails_at_iff_offends (tokens : List Placed) (position : Position) :
    (∃ fault, ofTokens tokens = .error ⟨position, fault⟩) ↔
      ∃ before placed after, stream tokens = before ++ placed :: after ∧
        placed.position = position ∧ Offends before placed := by
  obtain ⟨last, hread⟩ := ofTokens_eq_readAll_stream tokens
  have hoffends : ∀ e, ofTokens tokens = .error e → ∃ before placed after,
      stream tokens = before ++ placed :: after ∧ placed.position = e.position ∧
        Offends before placed := by
    intro e he
    obtain ⟨before, placed, after, r, hstream, hposition, hrunning, hleads, hfinish, hstep⟩ :=
      Reading.readAll_error (exists_stop_mem_stream tokens) (hread.symm.trans he)
    refine ⟨before, placed, after, hstream, hposition.symm, hrunning, hleads.viable, ?_, ?_⟩
    · intro hstop
      obtain ⟨fault, hfault⟩ := hfinish hstop
      exact hleads.not_derivable hfault
    · intro hstop
      obtain ⟨fault, hfault⟩ := hstep hstop
      exact hleads.not_viable hfault
  constructor
  · rintro ⟨fault, he⟩
    exact hoffends _ he
  · rintro ⟨before, placed, after, hstream, rfl, h⟩
    cases htree : ofTokens tokens with
    | ok t =>
        have hrun := Reading.readAll_eq_ok_iff.mp (hread.symm.trans htree)
        rw [hstream] at hrun
        exact (h.not_derivable_word after (Reading.exists_run_start_iff.mp ⟨t, hrun⟩)).elim
    | error e =>
        obtain ⟨before', placed', after', hstream', hposition, h'⟩ := hoffends e htree
        rw [h.unique h' (hstream.symm.trans hstream'), hposition]
        exact ⟨e.fault, rfl⟩

end Niladic
