import Niladic.Proofs.Viability

/-!
Reading a program by recursive descent, with a cursor that moves along the tokens and keeps track of
where it looked and what it took. Calls and loops have a depth to use up, and a routine that uses it
up has no result. The descent is compared with reading one token at a time: where a routine gives a
tree, a reading goes on as another one.
-/

namespace Niladic

structure Cursor where
  place : Nat := 0
  looked : List Nat := []
  taken : List Token := []

def Cursor.see (c : Cursor) : Cursor := { c with looked := c.place :: c.looked }

def Cursor.take (c : Cursor) (place : Nat) (token : Token) : Cursor :=
  { c with place, taken := token :: c.taken }

abbrev Descent := ExceptT SourceError (StateT Cursor Option)

namespace Descent

variable {α β : Type}

def result (x : Descent α) (c : Cursor) : Option (Except SourceError α × Cursor) := x c

variable (tokens : List Placed)

def look : Descent Placed := do
  let c ← get
  set c.see
  return (tokens[min c.place (tokens.length - 1)]?).getD ⟨.stop, Position.start⟩

def peek : Descent Token := do return (← look tokens).token

def advance : Descent Unit := do
  let placed ← look tokens
  modify fun c =>
    c.take (if c.place < tokens.length - 1 then c.place + 1 else c.place) placed.token

def fail (fault : SourceFault) : Descent α := do throw ⟨(← look tokens).position, fault⟩

def expect (expected : Expected) (wanted : Token) : Descent Unit := do
  let token ← peek tokens
  if token = wanted then advance tokens
  else fail tokens (.unexpected expected token)

def expectName (expected : Expected) : Descent String := do
  match ← peek tokens with
  | .name text =>
      advance tokens
      return text
  | token => fail tokens (.unexpected expected token)

def takeOperator (among : Operator → Bool) : Descent (Option Operator) := do
  match ← peek tokens with
  | .operator op =>
      if among op then
        advance tokens
        return some op
      else return none
  | _ => return none

def stuck : Descent α := fun _ => none

mutual

def factor : Nat → Descent Tree
  | 0 => stuck
  | depth + 1 => do
      match ← peek tokens with
      | .number value =>
          advance tokens
          return .number value
      | .operator .sub =>
          advance tokens
          return (← factor depth).negate
      | .opening =>
          advance tokens
          let inner ← expr depth
          expect tokens .closing .closing
          return inner
      | token => fail tokens (.unexpected .expression token)

def termFrom : Nat → Tree → Descent Tree
  | 0, _ => stuck
  | depth + 1, left => do
      match ← takeOperator tokens (·.isProduct) with
      | some op => termFrom depth (.binary op left (← factor depth))
      | none => return left

def term : Nat → Descent Tree
  | 0 => stuck
  | depth + 1 => do termFrom depth (← factor depth)

def exprFrom : Nat → Tree → Descent Tree
  | 0, _ => stuck
  | depth + 1, left => do
      match ← takeOperator tokens (!·.isProduct) with
      | some op => exprFrom depth (.binary op left (← term depth))
      | none => return left

def expr : Nat → Descent Tree
  | 0 => stuck
  | depth + 1 => do exprFrom depth (← term depth)

end

def assignment (depth : Nat) : Descent Tree := do
  advance tokens
  let value ← expr tokens depth
  expect tokens .into (.keyword .into)
  return .assign (← expectName tokens .variableName) value

mutual

def item : Nat → Descent Tree
  | 0 => stuck
  | depth + 1 => do
      match ← peek tokens with
      | .keyword .create =>
          advance tokens
          let name ← expectName tokens .procedureName
          return .procedure name (.body (← bodyFrom name depth []))
      | .keyword .save => assignment tokens depth
      | .name text =>
          advance tokens
          return .call text
      | _ => expr tokens depth

def bodyFrom (name : String) : Nat → List Tree → Descent (List Tree)
  | 0, _ => stuck
  | depth + 1, items => do
      match ← peek tokens with
      | .keyword .finish =>
          advance tokens
          return items
      | .stop => fail tokens (.missingEnd name)
      | _ => bodyFrom name depth (items ++ [← item depth])

end

def itemsFrom : Nat → List Tree → Descent (List Tree)
  | 0, _ => stuck
  | depth + 1, items => do
      match ← peek tokens with
      | .stop => return items
      | _ => itemsFrom depth (items ++ [← item tokens depth])

def program (depth : Nat) : Descent Tree := do return .program (← itemsFrom tokens depth [])

end Descent

def firstStop (tokens : List Placed) : Nat := tokens.findIdx (·.token = .stop)

/-- From one cursor to a later one, up to the first stop: one place for each token taken, none of
which is a stop, and no look past the first stop. -/
structure Cursor.Walks (tokens : List Placed) (c c' : Cursor) : Prop where
  within : c'.place ≤ firstStop tokens
  looked : ∀ i ∈ c'.looked, i ∈ c.looked ∨ i ≤ firstStop tokens
  taken : ∃ new, c'.taken = new ++ c.taken ∧ c'.place = c.place + new.length ∧ .stop ∉ new

variable {tokens : List Placed}

theorem firstStop_cons_stop {position : Position} {rest : List Placed} :
    firstStop (⟨.stop, position⟩ :: rest) = 0 := by
  simp [firstStop, List.findIdx_cons]

theorem firstStop_cons_of_ne {token : Token} {position : Position} {rest : List Placed}
    (h : token ≠ .stop) : firstStop (⟨token, position⟩ :: rest) = firstStop rest + 1 := by
  simp [firstStop, List.findIdx_cons, h]

theorem firstStop_lt_length (h : ∃ p ∈ tokens, p.token = .stop) :
    firstStop tokens < tokens.length := by
  obtain ⟨p, hp, hstop⟩ := h
  exact List.findIdx_lt_length_of_exists ⟨p, hp, by simpa using hstop⟩

theorem exists_token {n : Nat} (h : ∃ p ∈ tokens, p.token = .stop) (hn : n ≤ firstStop tokens) :
    ∃ token position, tokens[n]? = some ⟨token, position⟩ :=
  ⟨_, _, List.getElem?_eq_getElem (Nat.lt_of_le_of_lt hn (firstStop_lt_length h))⟩

theorem next_le_firstStop {n : Nat} {token : Token} {position : Position}
    (h : ∃ p ∈ tokens, p.token = .stop) (hn : n ≤ firstStop tokens)
    (htoken : tokens[n]? = some ⟨token, position⟩) (hne : token ≠ .stop) :
    n + 1 ≤ firstStop tokens := by
  apply Nat.lt_of_le_of_ne hn
  rintro rfl
  have hlt := firstStop_lt_length h
  have hstop : tokens[firstStop tokens].token = .stop :=
    of_decide_eq_true (List.findIdx_getElem (w := hlt))
  rw [(List.getElem?_eq_some_iff.mp htoken).2] at hstop
  exact hne hstop

namespace Cursor.Walks

theorem refl {c : Cursor} (h : c.place ≤ firstStop tokens) : c.Walks tokens c :=
  ⟨h, fun _ hi => .inl hi, [], rfl, rfl, List.not_mem_nil⟩

theorem trans {c₁ c₂ c₃ : Cursor} (h : c₁.Walks tokens c₂) (h' : c₂.Walks tokens c₃) :
    c₁.Walks tokens c₃ := by
  obtain ⟨new, htaken, hplace, hstop⟩ := h.taken
  obtain ⟨new', htaken', hplace', hstop'⟩ := h'.taken
  refine ⟨h'.within, ?_, new' ++ new, ?_, ?_, ?_⟩
  · intro i hi
    rcases h'.looked i hi with hi | hi
    · exact h.looked i hi
    · exact .inr hi
  · rw [htaken', htaken, List.append_assoc]
  · rw [hplace', hplace, List.length_append]
    omega
  · simp [hstop, hstop']

theorem see {c : Cursor} (h : c.place ≤ firstStop tokens) : c.Walks tokens c.see := by
  refine ⟨h, ?_, [], rfl, rfl, List.not_mem_nil⟩
  intro i hi
  rcases List.mem_cons.mp hi with rfl | hi
  · exact .inr h
  · exact .inl hi

theorem take {c : Cursor} {token : Token} (h : c.place + 1 ≤ firstStop tokens)
    (hne : token ≠ .stop) : c.Walks tokens (c.take (c.place + 1) token) :=
  ⟨h, fun _ hi => .inl hi, [token], rfl, rfl, by simpa using hne.symm⟩

theorem le {c c' : Cursor} (h : c.Walks tokens c') : c.place ≤ c'.place := by
  obtain ⟨new, -, hplace, -⟩ := h.taken
  omega

end Cursor.Walks

theorem Nest.term_negate (nest : Nest) (t : Tree) :
    nest.term t.negate = { nest with minuses := nest.minuses + 1 }.term t := by
  rw [Nest.term, negateTimes_negate]
  rfl

def Reading.ahead (last : Position) (tokens : List Placed) (r : Reading) (n : Nat) :
    Except SourceError Tree :=
  r.readAll last (tokens.drop n)

namespace Reading

variable {last : Position} {n : Nat} {token : Token} {position : Position} {r r' : Reading}

theorem drop_eq_cons (h : tokens[n]? = some ⟨token, position⟩) :
    tokens.drop n = ⟨token, position⟩ :: tokens.drop (n + 1) := by
  obtain ⟨hn, hget⟩ := List.getElem?_eq_some_iff.mp h
  rw [List.drop_eq_getElem_cons hn, hget]

theorem ahead_stop (h : tokens[n]? = some ⟨.stop, position⟩) :
    r.ahead last tokens n = r.finish.mapError (⟨position, ·⟩) := by
  rw [ahead, drop_eq_cons h, readAll]

theorem ahead_step (h : tokens[n]? = some ⟨token, position⟩) (hne : token ≠ .stop)
    (hstep : r.step token = .ok r') : r.ahead last tokens n = r'.ahead last tokens (n + 1) := by
  rw [ahead, drop_eq_cons h, readAll, hstep]
  · rfl
  · exact hne

theorem ahead_fault {fault : SourceFault} (h : tokens[n]? = some ⟨token, position⟩)
    (hne : token ≠ .stop) (hstep : r.step token = .error fault) :
    r.ahead last tokens n = .error ⟨position, fault⟩ := by
  rw [ahead, drop_eq_cons h, readAll, hstep]
  exact hne

theorem ahead_congr (h : tokens[n]? = some ⟨token, position⟩) (hne : token ≠ .stop)
    (hstep : r.step token = r'.step token) : r.ahead last tokens n = r'.ahead last tokens n := by
  cases hr : r.step token with
  | ok r₁ => rw [ahead_step h hne hr, ahead_step h hne (hstep ▸ hr)]
  | error fault => rw [ahead_fault h hne hr, ahead_fault h hne (hstep ▸ hr)]

theorem readAll_push {sum : Option Pending} {term : Tree} {items : List Tree}
    {enclosing : List Enclosing} : ∀ {rest : List Placed},
      (∀ op position, rest.head? ≠ some ⟨.operator op, position⟩) →
      readAll last ⟨.operator .item sum term [], items, enclosing⟩ rest =
        readAll last ⟨.item, Pending.complete sum term :: items, enclosing⟩ rest
  | ⟨.operator op, position⟩ :: _, h => (h op position rfl).elim
  | [], _ | ⟨.stop, _⟩ :: _, _ | ⟨.number _, _⟩ :: _, _ | ⟨.name _, _⟩ :: _, _ => rfl
  | ⟨.keyword _, _⟩ :: _, _ | ⟨.opening, _⟩ :: _, _ | ⟨.closing, _⟩ :: _, _ => rfl

end Reading

namespace Descent

variable {α β : Type} {last : Position}

/-- From this place the routine ends, and it does what the reading does. It fails as the reading
fails, or the reading goes on as another one that `After` relates to what the routine gives and to
the place it gets to. -/
def Mirrors (last : Position) (tokens : List Placed) (x : Descent α) (n : Nat) (r : Reading)
    (After : α → Nat → Reading → Prop) : Prop :=
  ∀ c : Cursor, c.place = n → n ≤ firstStop tokens → ∃ c', c.Walks tokens c' ∧
    ((∃ a r', x.result c = some (.ok a, c') ∧ After a c'.place r' ∧
      r.ahead last tokens n = r'.ahead last tokens c'.place) ∨
    ∃ e, x.result c = some (.error e, c') ∧ r.ahead last tokens n = .error e)

theorem result_bind (x : Descent α) (f : α → Descent β) (c : Cursor) :
    (x >>= f).result c = (x.result c).bind fun p => ExceptT.bindCont f p.1 p.2 :=
  rfl

theorem result_look {c : Cursor} {placed : Placed} (h : tokens[c.place]? = some placed) :
    (look tokens).result c = some (.ok placed, c.see) := by
  obtain ⟨hlt, -⟩ := List.getElem?_eq_some_iff.mp h
  have hmin : min c.place (tokens.length - 1) = c.place := by omega
  show some (Except.ok ((tokens[min c.place (tokens.length - 1)]?).getD _), _) = _
  rw [hmin, h]
  rfl

theorem result_advance {c : Cursor} {placed : Placed} (h : tokens[c.place]? = some placed)
    (hlt : c.place + 1 < tokens.length) :
    (advance tokens).result c = some (.ok (), c.see.take (c.place + 1) placed.token) := by
  have hplace : c.place < tokens.length - 1 := by omega
  rw [advance, result_bind, result_look h]
  show some (Except.ok (), c.see.take (if c.place < tokens.length - 1 then c.place + 1 else c.place)
    placed.token) = _
  rw [if_pos hplace]

theorem result_fail {c : Cursor} {placed : Placed} (h : tokens[c.place]? = some placed)
    (fault : SourceFault) :
    (fail tokens fault : Descent α).result c = some (.error ⟨placed.position, fault⟩, c.see) := by
  rw [fail, result_bind, result_look h]
  rfl

namespace Mirrors

variable {n : Nat} {r r' : Reading} {token : Token} {position : Position} {x : Descent α}
  {f : α → Descent β} {After : α → Nat → Reading → Prop} {After' : β → Nat → Reading → Prop}

theorem past (h : firstStop tokens < n) : Mirrors last tokens x n r After :=
  fun _ _ hn => (Nat.not_lt_of_le hn h).elim

theorem pure {a : α} (h : After a n r) : Mirrors last tokens (pure a : Descent α) n r After := by
  rintro c rfl hn
  exact ⟨c, .refl hn, .inl ⟨a, r, rfl, h, rfl⟩⟩

theorem bind (hx : Mirrors last tokens x n r After)
    (hf : ∀ a n' r', n ≤ n' → After a n' r' → Mirrors last tokens (f a) n' r' After') :
    Mirrors last tokens (x >>= f) n r After' := by
  rintro c rfl hn
  obtain ⟨c', hwalks, ⟨a, r', hresult, hafter, hahead⟩ | ⟨e, hresult, hahead⟩⟩ := hx c rfl hn
  · obtain ⟨c'', hwalks', hrest⟩ := hf a c'.place r' hwalks.le hafter c' rfl hwalks.within
    refine ⟨c'', hwalks.trans hwalks', ?_⟩
    rw [result_bind, hresult, hahead]
    exact hrest
  · refine ⟨c', hwalks, .inr ⟨e, ?_, hahead⟩⟩
    rw [result_bind, hresult]
    rfl

theorem of_ahead (hx : Mirrors last tokens x n r' After)
    (h : r.ahead last tokens n = r'.ahead last tokens n) : Mirrors last tokens x n r After := by
  unfold Mirrors
  rw [h]
  exact hx

theorem imp_le {After' : α → Nat → Reading → Prop} (hx : Mirrors last tokens x n r After)
    (h : ∀ a n' r', n ≤ n' → After a n' r' →
      ∃ r'', After' a n' r'' ∧ r'.ahead last tokens n' = r''.ahead last tokens n') :
    Mirrors last tokens x n r After' := by
  rintro c rfl hn
  obtain ⟨c', hwalks, ⟨a, r', hresult, hafter, hahead⟩ | herror⟩ := hx c rfl hn
  · obtain ⟨r'', hafter', hahead'⟩ := h a c'.place r' hwalks.le hafter
    exact ⟨c', hwalks, .inl ⟨a, r'', hresult, hafter', hahead.trans hahead'⟩⟩
  · exact ⟨c', hwalks, .inr herror⟩

theorem peek {f : Token → Descent β} (hstop : ∃ p ∈ tokens, p.token = .stop)
    (h : ∀ token position, tokens[n]? = some ⟨token, position⟩ →
      Mirrors last tokens (f token) n r After') :
    Mirrors last tokens (Descent.peek tokens >>= f) n r After' := by
  rintro c rfl hn
  obtain ⟨token, position, htoken⟩ := exists_token hstop hn
  obtain ⟨c', hwalks, hrest⟩ := h token position htoken c.see rfl hn
  refine ⟨c', (Cursor.Walks.see hn).trans hwalks, ?_⟩
  rw [result_bind, Descent.peek, result_bind, result_look htoken]
  exact hrest

theorem advance {After : Unit → Nat → Reading → Prop} (hstop : ∃ p ∈ tokens, p.token = .stop)
    (h : tokens[n]? = some ⟨token, position⟩) (hne : token ≠ .stop) (hstep : r.step token = .ok r')
    (hafter : After () (n + 1) r') : Mirrors last tokens (Descent.advance tokens) n r After := by
  rintro c rfl hn
  have hn' : c.place + 1 ≤ firstStop tokens := next_le_firstStop hstop hn h hne
  have hlt : c.place + 1 < tokens.length := Nat.lt_of_le_of_lt hn' (firstStop_lt_length hstop)
  exact ⟨c.see.take (c.place + 1) token, (Cursor.Walks.see hn).trans (.take hn' hne),
    .inl ⟨(), r', result_advance h hlt, hafter, Reading.ahead_step h hne hstep⟩⟩

theorem advance_bind {f : Unit → Descent β} (hstop : ∃ p ∈ tokens, p.token = .stop)
    (h : tokens[n]? = some ⟨token, position⟩) (hne : token ≠ .stop) (hstep : r.step token = .ok r')
    (hrest : Mirrors last tokens (f ()) (n + 1) r' After') :
    Mirrors last tokens (Descent.advance tokens >>= f) n r After' := by
  have hadvance : Mirrors last tokens (Descent.advance tokens) n r
      fun _ n' r'' => n' = n + 1 ∧ r'' = r' := .advance hstop h hne hstep ⟨rfl, rfl⟩
  refine hadvance.bind ?_
  rintro _ _ _ - ⟨rfl, rfl⟩
  exact hrest

theorem fail {fault : SourceFault} (h : tokens[n]? = some ⟨token, position⟩)
    (hfinish : token = .stop → r.finish = .error fault)
    (hstep : token ≠ .stop → r.step token = .error fault) :
    Mirrors last tokens (Descent.fail tokens fault) n r After := by
  rintro c rfl hn
  refine ⟨c.see, .see hn, .inr ⟨_, result_fail h fault, ?_⟩⟩
  by_cases htoken : token = .stop
  · subst htoken
    rw [Reading.ahead_stop h, hfinish rfl]
    rfl
  · exact Reading.ahead_fault h htoken (hstep htoken)

end Mirrors

end Descent

end Niladic
