import Niladic.Proofs.Descent

namespace Niladic

variable {tokens : List Placed}

namespace Descent

variable {last : Position}

/-- From every place up to the first stop the routine ends, if it has a depth of three for each token
on the way there and some to spare, and a tree costs it a token. -/
def Advances (tokens : List Placed) (spare : Nat) (x : Nat → Descent Tree) : Prop :=
  ∀ (depth : Nat) (c : Cursor), c.place ≤ firstStop tokens →
    3 * firstStop tokens + spare ≤ depth + 3 * c.place →
    ∃ outcome c', (x depth).result c = some (outcome, c') ∧ c.Walks tokens c' ∧
      ∀ t, outcome = .ok t → c.place < c'.place

theorem advances_of_mirrors (last : Position) {spare : Nat} {x : Nat → Descent Tree}
    (h : ∀ depth n, 3 * firstStop tokens + spare ≤ depth + 3 * n →
      ∃ r After, Mirrors last tokens (x depth) n r After ∧ ∀ t n' r', After t n' r' → n < n') :
    Advances tokens spare x := by
  intro depth c hc hdepth
  obtain ⟨r, After, hmirrors, hlt⟩ := h depth c.place hdepth
  obtain ⟨c', hwalks, ⟨t, r', hresult, hafter, -⟩ | ⟨e, hresult, -⟩⟩ := hmirrors c rfl hc
  · exact ⟨.ok t, c', hresult, hwalks, fun _ _ => hlt t c'.place r' hafter⟩
  · exact ⟨.error e, c', hresult, hwalks, fun _ h => by cases h⟩

def Lacks (among : Operator → Bool) (tokens : List Placed) (n : Nat) : Prop :=
  ∀ op position, tokens[n]? = some ⟨.operator op, position⟩ → among op = false

theorem Lacks.of_token {n : Nat} {token : Token} {position : Position} {among : Operator → Bool}
    (h : tokens[n]? = some ⟨token, position⟩)
    (hlacks : ∀ op, token = .operator op → among op = false) : Lacks among tokens n := by
  intro op position' hop
  cases h.symm.trans hop
  exact hlacks op rfl

theorem Lacks.any {n : Nat} (hproduct : Lacks (·.isProduct) tokens n)
    (hsum : Lacks (!·.isProduct) tokens n) : Lacks (fun _ => true) tokens n := by
  intro op position hop
  have hyes : (!op.isProduct) = false := hsum op position hop
  have hno : op.isProduct = false := hproduct op position hop
  rw [hno] at hyes
  exact hyes

theorem ahead_push {n : Nat} {sum : Option Pending} {term : Tree} {items : List Tree}
    {enclosing : List Enclosing} (h : Lacks (fun _ => true) tokens n) :
    Reading.ahead last tokens ⟨.operator .item sum term [], items, enclosing⟩ n =
      Reading.ahead last tokens ⟨.item, Pending.complete sum term :: items, enclosing⟩ n := by
  apply Reading.readAll_push
  intro op position hop
  rw [List.head?_drop] at hop
  cases h op position hop

def ItemFollows (tokens : List Placed) (enclosing : List Enclosing) (n : Nat) : Prop :=
  ∀ token position, tokens[n]? = some ⟨token, position⟩ →
    token ≠ .stop ∧ (token = .keyword .finish → enclosing = [])

theorem ItemFollows.of_token {n : Nat} {enclosing : List Enclosing} {token : Token}
    {position : Position} (h : tokens[n]? = some ⟨token, position⟩) (hstop : token ≠ .stop)
    (hfinish : token = .keyword .finish → enclosing = []) : ItemFollows tokens enclosing n := by
  intro token' position' h'
  cases h.symm.trans h'
  exact ⟨hstop, hfinish⟩

/-- A factor ends the term that is being read. Each token up to the first stop takes at most three
calls, one inside the other. -/
def FactorMirrors (last : Position) (tokens : List Placed) (depth : Nat) : Prop :=
  ∀ n p nest outer items enclosing, 3 * firstStop tokens + 3 ≤ depth + 3 * n →
    Mirrors last tokens (factor tokens depth) n ⟨.operand p nest outer, items, enclosing⟩
      fun t n' r' => n < n' ∧ r' = ⟨.operator p nest.sum (nest.term t) outer, items, enclosing⟩

def ItemMirrors (last : Position) (tokens : List Placed) (depth : Nat) : Prop :=
  ∀ n items enclosing, 3 * firstStop tokens + 6 ≤ depth + 3 * n → ItemFollows tokens enclosing n →
    Mirrors last tokens (item tokens depth) n ⟨.item, items, enclosing⟩
      fun t n' r' => n < n' ∧ r' = ⟨.item, t :: items, enclosing⟩

section

variable (hstop : ∃ p ∈ tokens, p.token = .stop) {n : Nat} {r : Reading} {p : Purpose}
  {sum : Option Pending} {outer : List Nest} {items : List Tree} {enclosing : List Enclosing}
include hstop

theorem expect_mirrors {expected : Expected} {wanted : Token} {next : Reading}
    (hwanted : wanted ≠ .stop) (hnext : r.step wanted = .ok next)
    (hfinish : r.finish = .error (.unexpected expected .stop))
    (hstep : ∀ token position, tokens[n]? = some ⟨token, position⟩ → token ≠ wanted →
      r.step token = .error (.unexpected expected token)) :
    Mirrors last tokens (expect tokens expected wanted) n r fun _ n' r' => n < n' ∧ r' = next := by
  rw [expect]
  refine .peek hstop fun token position htoken => ?_
  split
  next heq =>
    rw [heq] at htoken
    exact .advance hstop htoken hwanted hnext ⟨Nat.lt_succ_self n, rfl⟩
  next hne =>
    refine .fail htoken (fun h => ?_) (fun _ => hstep token position htoken hne)
    rw [h]
    exact hfinish

theorem expectName_mirrors {expected : Expected} (next : String → Reading)
    (hnext : ∀ text, r.step (.name text) = .ok (next text))
    (hfinish : r.finish = .error (.unexpected expected .stop))
    (hstep : ∀ token, (∀ text, token ≠ .name text) →
      r.step token = .error (.unexpected expected token)) :
    Mirrors last tokens (expectName tokens expected) n r
      fun text n' r' => n < n' ∧ r' = next text := by
  rw [expectName]
  refine .peek hstop fun token position htoken => ?_
  cases token with
  | name text =>
      exact .advance_bind hstop htoken (by simp) (hnext text) (.pure ⟨Nat.lt_succ_self n, rfl⟩)
  | stop => exact .fail htoken (fun _ => hfinish) (fun h => (h rfl).elim)
  | _ => exact .fail htoken (fun h => by cases h) (fun _ => hstep _ (by simp))

theorem takeOperator_mirrors {among : Operator → Bool} (next : Operator → Reading)
    (hnext : ∀ op, among op = true → r.step (.operator op) = .ok (next op)) :
    Mirrors last tokens (takeOperator tokens among) n r fun op n' r' =>
      (op = none ∧ n' = n ∧ Lacks among tokens n ∧ r' = r) ∨
        ∃ found, op = some found ∧ n < n' ∧ r' = next found := by
  rw [takeOperator]
  refine .peek hstop fun token position htoken => ?_
  cases token with
  | operator op =>
      dsimp only
      split
      next hop =>
        exact .advance_bind hstop htoken (by simp) (hnext op hop)
          (.pure (.inr ⟨op, rfl, Nat.lt_succ_self n, rfl⟩))
      next hop => exact .pure (.inl ⟨rfl, rfl, .of_token htoken (by simpa using hop), rfl⟩)
  | _ => exact .pure (.inl ⟨rfl, rfl, .of_token htoken (by simp), rfl⟩)

theorem termFrom_mirrors {depth : Nat} (hfactor : ∀ d < depth, FactorMirrors last tokens d)
    {n : Nat} (hdepth : 3 * firstStop tokens + 3 ≤ depth + 3 * n) (left : Tree) :
    Mirrors last tokens (termFrom tokens depth left) n
      ⟨.operator p sum left outer, items, enclosing⟩
      fun t n' r' =>
        Lacks (·.isProduct) tokens n' ∧ r' = ⟨.operator p sum t outer, items, enclosing⟩ := by
  induction depth generalizing n left with
  | zero => exact .past (by omega)
  | succ depth ih =>
      rw [termFrom]
      refine .bind (takeOperator_mirrors hstop
        (fun op => ⟨.operand p ⟨sum, some ⟨left, op⟩, 0⟩ outer, items, enclosing⟩)
        fun op hop => Reading.step_product hop) ?_
      rintro _ m _ - (⟨rfl, rfl, hlacks, rfl⟩ | ⟨op, rfl, hm, rfl⟩)
      · exact .pure ⟨hlacks, rfl⟩
      · refine .bind (hfactor depth (by omega) m _ _ _ _ _ (by omega)) ?_
        rintro right n' r' - ⟨hlt, rfl⟩
        exact ih (fun d hd => hfactor d (by omega)) (by omega) (.binary op left right)

theorem term_mirrors {depth : Nat} (hfactor : ∀ d < depth, FactorMirrors last tokens d)
    (hdepth : 3 * firstStop tokens + 4 ≤ depth + 3 * n) :
    Mirrors last tokens (term tokens depth) n
      ⟨.operand p ⟨sum, none, 0⟩ outer, items, enclosing⟩
      fun t n' r' => n < n' ∧ Lacks (·.isProduct) tokens n' ∧
        r' = ⟨.operator p sum t outer, items, enclosing⟩ := by
  cases depth with
  | zero => exact .past (by omega)
  | succ depth =>
      rw [term]
      refine .bind (hfactor depth (by omega) n _ _ _ _ _ (by omega)) ?_
      rintro left m r - ⟨hm, rfl⟩
      refine .imp_le
        (termFrom_mirrors hstop (fun d hd => hfactor d (by omega)) (by omega) left) ?_
      rintro t n' r' hle ⟨hlacks, rfl⟩
      exact ⟨_, ⟨by omega, hlacks, rfl⟩, rfl⟩

theorem exprFrom_mirrors {depth : Nat} (hfactor : ∀ d < depth, FactorMirrors last tokens d)
    {n : Nat} (hdepth : 3 * firstStop tokens + 3 ≤ depth + 3 * n)
    (hlacks : Lacks (·.isProduct) tokens n) (sum : Option Pending) (term : Tree) :
    Mirrors last tokens (exprFrom tokens depth (Pending.complete sum term)) n
      ⟨.operator p sum term outer, items, enclosing⟩
      fun t n' r' => Lacks (fun _ => true) tokens n' ∧ ∃ sum term,
        t = Pending.complete sum term ∧ r' = ⟨.operator p sum term outer, items, enclosing⟩ := by
  induction depth generalizing n sum term with
  | zero => exact .past (by omega)
  | succ depth ih =>
      rw [exprFrom]
      refine .bind (takeOperator_mirrors hstop
        (fun op =>
          ⟨.operand p ⟨some ⟨Pending.complete sum term, op⟩, none, 0⟩ outer, items, enclosing⟩)
        fun op hop => Reading.step_sum (by simpa using hop)) ?_
      rintro _ m _ - (⟨rfl, rfl, hsum, rfl⟩ | ⟨op, rfl, hm, rfl⟩)
      · exact .pure ⟨hlacks.any hsum, sum, term, rfl, rfl⟩
      · refine .bind (term_mirrors hstop (fun d hd => hfactor d (by omega)) (by omega)) ?_
        rintro right n' r' - ⟨hlt, hlacks', rfl⟩
        exact ih (fun d hd => hfactor d (by omega)) (by omega) hlacks'
          (some ⟨Pending.complete sum term, op⟩) right

theorem expr_mirrors_of_factor {depth : Nat} (hfactor : ∀ d < depth, FactorMirrors last tokens d)
    (hdepth : 3 * firstStop tokens + 5 ≤ depth + 3 * n) :
    Mirrors last tokens (expr tokens depth) n ⟨.operand p {} outer, items, enclosing⟩
      fun t n' r' => n < n' ∧ Lacks (fun _ => true) tokens n' ∧ ∃ sum term,
        t = Pending.complete sum term ∧ r' = ⟨.operator p sum term outer, items, enclosing⟩ := by
  cases depth with
  | zero => exact .past (by omega)
  | succ depth =>
      rw [expr]
      refine .bind (term_mirrors hstop (fun d hd => hfactor d (by omega)) (by omega)) ?_
      rintro left m r - ⟨hm, hlacks, rfl⟩
      refine .imp_le
        (exprFrom_mirrors hstop (fun d hd => hfactor d (by omega)) (by omega) hlacks none left) ?_
      rintro t n' r' hle ⟨hlacks', hafter⟩
      exact ⟨r', ⟨by omega, hlacks', hafter⟩, rfl⟩

theorem factorMirrors (depth : Nat) : FactorMirrors last tokens depth := by
  induction depth using Nat.strongRecOn with
  | ind depth ih =>
      intro n p nest outer items enclosing hdepth
      cases depth with
      | zero => exact .past (by omega)
      | succ depth =>
          rw [factor]
          refine .peek hstop fun token position htoken => ?_
          match token, htoken with
          | .number value, htoken =>
              exact .advance_bind hstop htoken (by simp) rfl (.pure ⟨Nat.lt_succ_self n, rfl⟩)
          | .operator .sub, htoken =>
              refine .advance_bind hstop htoken (by simp) rfl ?_
              refine .bind (ih depth (by omega) (n + 1) _ _ _ _ _ (by omega)) ?_
              rintro t n' r' - ⟨hlt, rfl⟩
              exact .pure ⟨by omega, by rw [Nest.term_negate]⟩
          | .opening, htoken =>
              refine .advance_bind hstop htoken (by simp) rfl ?_
              refine .bind
                (expr_mirrors_of_factor hstop (fun d hd => ih d (by omega)) (by omega)) ?_
              rintro t m r - ⟨hm, hlacks, sum, term, rfl, rfl⟩
              refine .bind (expect_mirrors hstop (by simp) rfl rfl ?_) ?_
              · intro token position htoken hne
                cases token with
                | operator op => cases hlacks op position htoken
                | closing => exact (hne rfl).elim
                | _ => rfl
              · rintro _ n' r' - ⟨hlt, rfl⟩
                exact .pure ⟨by omega, rfl⟩
          | .stop, htoken => exact .fail htoken (fun _ => rfl) (fun h => (h rfl).elim)
          | .operator .add, htoken | .operator .mul, htoken | .operator .div, htoken
          | .name _, htoken | .keyword _, htoken | .closing, htoken =>
              exact .fail htoken (fun h => by cases h) (fun _ => rfl)

theorem expr_mirrors {depth : Nat} (hdepth : 3 * firstStop tokens + 5 ≤ depth + 3 * n) :
    Mirrors last tokens (expr tokens depth) n ⟨.operand p {} [], items, enclosing⟩
      fun t n' r' => n < n' ∧ Lacks (fun _ => true) tokens n' ∧ ∃ sum term,
        t = Pending.complete sum term ∧ r' = ⟨.operator p sum term [], items, enclosing⟩ :=
  expr_mirrors_of_factor hstop (fun d _ => factorMirrors hstop d) hdepth

theorem expr_mirrors_item {depth : Nat} (hdepth : 3 * firstStop tokens + 5 ≤ depth + 3 * n) :
    Mirrors last tokens (expr tokens depth) n ⟨.operand .item {} [], items, enclosing⟩
      fun t n' r' => n < n' ∧ r' = ⟨.item, t :: items, enclosing⟩ := by
  refine .imp_le (expr_mirrors hstop hdepth) ?_
  rintro t n' r' - ⟨hlt, hlacks, sum, term, rfl, rfl⟩
  exact ⟨_, ⟨hlt, rfl⟩, ahead_push hlacks⟩

theorem assignment_mirrors {depth : Nat} (hdepth : 3 * firstStop tokens + 5 ≤ depth + 3 * n)
    {position : Position} (htoken : tokens[n]? = some ⟨.keyword .save, position⟩) :
    Mirrors last tokens (assignment tokens depth) n ⟨.item, items, enclosing⟩
      fun t n' r' => n < n' ∧ r' = ⟨.item, t :: items, enclosing⟩ := by
  rw [assignment]
  refine .advance_bind hstop htoken (by simp) rfl (.bind (expr_mirrors hstop (by omega)) ?_)
  rintro value m r - ⟨hm, hlacks, sum, term, rfl, rfl⟩
  refine .bind (expect_mirrors hstop (by simp) rfl rfl ?_) ?_
  · intro token position htoken hne
    match token with
    | .operator op => cases hlacks op position htoken
    | .keyword .into => exact (hne rfl).elim
    | .keyword .create | .keyword .finish | .keyword .save => rfl
    | .number _ | .name _ | .opening | .closing | .stop => rfl
  · rintro _ m' r' - ⟨hm', rfl⟩
    refine .bind (expectName_mirrors hstop
      (fun name => ⟨.item, .assign name (Pending.complete sum term) :: items, enclosing⟩)
      (fun _ => rfl) rfl ?_) ?_
    · intro token hne
      cases token with
      | name text => exact (hne text rfl).elim
      | _ => rfl
    · rintro name n' r' - ⟨hlt, rfl⟩
      exact .pure ⟨by omega, rfl⟩

theorem bodyFrom_mirrors {depth : Nat} {name : String} {before : List Tree}
    (hitem : ∀ d < depth, ItemMirrors last tokens d) {n : Nat}
    (hdepth : 3 * firstStop tokens + 7 ≤ depth + 3 * n) (items : List Tree) :
    Mirrors last tokens (bodyFrom tokens name depth items.reverse) n
      ⟨.item, items, ⟨name, before⟩ :: enclosing⟩
      fun body n' r' =>
        n < n' ∧ r' = ⟨.item, .procedure name (.body body) :: before, enclosing⟩ := by
  induction depth generalizing n items with
  | zero => exact .past (by omega)
  | succ depth ih =>
      have hloop (hfollows : ItemFollows tokens (⟨name, before⟩ :: enclosing) n) :
          Mirrors last tokens
            (item tokens depth >>= fun t => bodyFrom tokens name depth (items.reverse ++ [t])) n
            ⟨.item, items, ⟨name, before⟩ :: enclosing⟩
            fun body n' r' =>
              n < n' ∧ r' = ⟨.item, .procedure name (.body body) :: before, enclosing⟩ := by
        refine .bind (hitem depth (by omega) n items _ (by omega) hfollows) ?_
        rintro t m r - ⟨hm, rfl⟩
        rw [← List.reverse_cons]
        refine .imp_le (ih (fun d hd => hitem d (by omega)) (by omega) (t :: items)) ?_
        rintro body n' r' - ⟨hlt, rfl⟩
        exact ⟨_, ⟨by omega, rfl⟩, rfl⟩
      rw [bodyFrom]
      refine .peek hstop fun token position htoken => ?_
      match token, htoken with
      | .keyword .finish, htoken =>
          exact .advance_bind hstop htoken (by simp) rfl (.pure ⟨Nat.lt_succ_self n, rfl⟩)
      | .stop, htoken => exact .fail htoken (fun _ => rfl) (fun h => (h rfl).elim)
      | .keyword .create, htoken | .keyword .save, htoken | .keyword .into, htoken
      | .number _, htoken | .name _, htoken | .operator _, htoken | .opening, htoken
      | .closing, htoken => exact hloop (.of_token htoken (by simp) (by simp))

theorem itemMirrors (depth : Nat) : ItemMirrors last tokens depth := by
  induction depth using Nat.strongRecOn with
  | ind depth ih =>
      intro n items enclosing hdepth hfollows
      cases depth with
      | zero => exact .past (by omega)
      | succ depth =>
          rw [item]
          refine .peek hstop fun token position htoken => ?_
          match token, htoken with
          | .keyword .create, htoken =>
              refine .advance_bind hstop htoken (by simp) rfl (.bind (expectName_mirrors hstop
                (fun name => ⟨.item, [], ⟨name, items⟩ :: enclosing⟩) (fun _ => rfl) rfl ?_) ?_)
              · intro token hne
                cases token with
                | name text => exact (hne text rfl).elim
                | _ => rfl
              · rintro name m r - ⟨hm, rfl⟩
                refine .bind
                  (bodyFrom_mirrors hstop (fun d hd => ih d (by omega)) (by omega) []) ?_
                rintro body n' r' - ⟨hlt, rfl⟩
                exact .pure ⟨by omega, rfl⟩
          | .keyword .save, htoken => exact assignment_mirrors hstop (by omega) htoken
          | .name text, htoken =>
              exact .advance_bind hstop htoken (by simp) rfl (.pure ⟨Nat.lt_succ_self n, rfl⟩)
          | .stop, htoken => exact ((hfollows _ _ htoken).1 rfl).elim
          | .keyword .finish, htoken =>
              cases (hfollows _ _ htoken).2 rfl
              exact .of_ahead (expr_mirrors_item hstop (by omega))
                (Reading.ahead_congr htoken (by simp) rfl)
          | .keyword .into, htoken | .number _, htoken | .operator _, htoken | .opening, htoken
          | .closing, htoken =>
              exact .of_ahead (expr_mirrors_item hstop (by omega))
                (Reading.ahead_congr htoken (by simp) rfl)

theorem itemsFrom_mirrors {depth n : Nat} (hdepth : 3 * firstStop tokens + 7 ≤ depth + 3 * n)
    (items : List Tree) :
    Mirrors last tokens (itemsFrom tokens depth items.reverse) n ⟨.item, items, []⟩
      fun all n' r' => (∃ position, tokens[n']? = some ⟨.stop, position⟩) ∧
        r' = ⟨.item, all.reverse, []⟩ := by
  induction depth generalizing n items with
  | zero => exact .past (by omega)
  | succ depth ih =>
      rw [itemsFrom]
      refine .peek hstop fun token position htoken => ?_
      cases token with
      | stop => exact .pure ⟨⟨position, htoken⟩, by rw [List.reverse_reverse]⟩
      | _ =>
          refine .bind (itemMirrors hstop depth n items [] (by omega)
            (.of_token htoken (by simp) fun _ => rfl)) ?_
          rintro t m r - ⟨hm, rfl⟩
          rw [← List.reverse_cons]
          exact ih (by omega) (t :: items)

theorem program_result {depth : Nat} (hdepth : 3 * firstStop tokens + 7 ≤ depth)
    (last : Position) : ∃ c, ({} : Cursor).Walks tokens c ∧
      (program tokens depth).result {} = some (Reading.start.readAll last tokens, c) := by
  have hprogram : Mirrors last tokens (program tokens depth) 0 Reading.start fun t n' r' =>
      (∃ position, tokens[n']? = some ⟨.stop, position⟩) ∧ r'.finish = .ok t := by
    rw [program]
    refine .bind (itemsFrom_mirrors hstop hdepth []) ?_
    rintro all n' r' - ⟨hends, rfl⟩
    exact .pure ⟨hends, by rw [Reading.finish, Reading.program, List.reverse_reverse]⟩
  obtain ⟨c, hwalks, ⟨t, r', hresult, ⟨⟨position, htoken⟩, hfinish⟩, hahead⟩ |
    ⟨e, hresult, hahead⟩⟩ := hprogram {} rfl (Nat.zero_le _)
  · rw [Reading.ahead_stop htoken, hfinish] at hahead
    exact ⟨c, hwalks, hresult.trans (congrArg (fun outcome => some (outcome, c)) hahead.symm)⟩
  · exact ⟨c, hwalks, hresult.trans (congrArg (fun outcome => some (outcome, c)) hahead.symm)⟩

theorem factor_advances : Advances tokens 3 (factor tokens) :=
  advances_of_mirrors Position.start fun depth n hdepth =>
    ⟨_, _, factorMirrors hstop depth n .item {} [] [] [] hdepth, fun _ _ _ h => h.1⟩

theorem term_advances : Advances tokens 4 (term tokens) :=
  advances_of_mirrors Position.start fun _ _ hdepth =>
    ⟨⟨.operand .item {} [], [], []⟩, _,
      term_mirrors hstop (fun d _ => factorMirrors hstop d) hdepth, fun _ _ _ h => h.1⟩

theorem expr_advances : Advances tokens 5 (expr tokens) :=
  advances_of_mirrors Position.start fun _ _ hdepth =>
    ⟨⟨.operand .item {} [], [], []⟩, _, expr_mirrors_item hstop hdepth, fun _ _ _ h => h.1⟩

theorem item_mirrors_stop {depth : Nat} (hdepth : 3 * firstStop tokens + 6 ≤ depth + 3 * n)
    {position : Position} (htoken : tokens[n]? = some ⟨.stop, position⟩) :
    Mirrors last tokens (item tokens depth) n ⟨.operand .item {} [], items, enclosing⟩
      fun t n' r' => n < n' ∧ r' = ⟨.item, t :: items, enclosing⟩ := by
  cases depth with
  | zero => exact .past (by omega)
  | succ depth =>
      rw [item]
      refine .peek hstop fun token position' htoken' => ?_
      cases htoken.symm.trans htoken'
      exact expr_mirrors_item hstop (by omega)

theorem item_advances : Advances tokens 6 (item tokens) := by
  refine advances_of_mirrors Position.start fun depth n hdepth => ?_
  by_cases hends : ∃ position, tokens[n]? = some ⟨.stop, position⟩
  · obtain ⟨position, htoken⟩ := hends
    exact ⟨⟨.operand .item {} [], [], []⟩, _, item_mirrors_stop hstop hdepth htoken,
      fun _ _ _ h => h.1⟩
  · refine ⟨_, _, itemMirrors hstop depth n [] [] hdepth fun token position htoken => ?_,
      fun _ _ _ h => h.1⟩
    exact ⟨fun h => hends ⟨position, h ▸ htoken⟩, fun _ => rfl⟩

end

end Descent

theorem Reading.readAll_up_to_stop {last : Position} (last' : Position) {r : Reading}
    (h : ∃ p ∈ tokens, p.token = .stop) (others : List Placed) :
    r.readAll last' (tokens.take (firstStop tokens + 1) ++ others) = r.readAll last tokens := by
  fun_induction readAll last r tokens with
  | case1 r =>
      obtain ⟨p, hp, -⟩ := h
      cases hp
  | case2 r position rest =>
      rw [firstStop_cons_stop]
      rfl
  | case3 r token position rest hne r₁ hstep ih =>
      have hrest : ∃ p ∈ rest, p.token = .stop := by
        simp only [List.mem_cons, exists_eq_or_imp] at h
        exact h.resolve_left hne
      rw [firstStop_cons_of_ne hne, List.take_succ_cons, List.cons_append, readAll, hstep]
      · exact ih hrest
      · exact hne
  | case4 r token position rest hne fault hstep =>
      rw [firstStop_cons_of_ne hne, List.take_succ_cons, List.cons_append, readAll, hstep]
      exact hne

/-- Every routine of the descent ends at or before the first stop and a tree costs it a token. The
descent finds what reading finds, and what follows the first stop is never read. -/
theorem descent_ends_within_first_stop (tokens : List Placed) {depth : Nat}
    (hdepth : 3 * firstStop (stream tokens) + 7 ≤ depth) :
    firstStop (stream tokens) < (stream tokens).length ∧
      Descent.Advances (stream tokens) 3 (Descent.factor (stream tokens)) ∧
      Descent.Advances (stream tokens) 4 (Descent.term (stream tokens)) ∧
      Descent.Advances (stream tokens) 5 (Descent.expr (stream tokens)) ∧
      Descent.Advances (stream tokens) 6 (Descent.item (stream tokens)) ∧
      (∃ c, ({} : Cursor).Walks (stream tokens) c ∧
        (Descent.program (stream tokens) depth).result {} = some (Tree.ofTokens tokens, c)) ∧
      ∀ others, Tree.ofTokens ((stream tokens).take (firstStop (stream tokens) + 1) ++ others) =
        Tree.ofTokens tokens := by
  have hstop := exists_stop_mem_stream tokens
  obtain ⟨last, hread⟩ := ofTokens_eq_readAll_stream tokens
  refine ⟨firstStop_lt_length hstop, Descent.factor_advances hstop, Descent.term_advances hstop,
    Descent.expr_advances hstop, Descent.item_advances hstop, ?_, fun others => ?_⟩
  · rw [hread]
    exact Descent.program_result hstop hdepth last
  · rw [hread]
    exact Reading.readAll_up_to_stop _ hstop others

def stopped : List Placed :=
  [⟨.name "p", ⟨1, 1⟩⟩, ⟨.stop, ⟨1, 2⟩⟩, ⟨.closing, ⟨1, 3⟩⟩]

theorem stopped_read_by_descent : 3 * firstStop (stream stopped) + 7 ≤ 10 ∧
    ∃ c, ({} : Cursor).Walks (stream stopped) c ∧
      (Descent.program (stream stopped) 10).result {} =
        some (.ok (.program [.call "p"]), c) := by
  have hdepth : 3 * firstStop (stream stopped) + 7 ≤ 10 := by decide
  obtain ⟨-, -, -, -, -, hprogram, -⟩ := descent_ends_within_first_stop stopped hdepth
  exact ⟨hdepth, hprogram⟩

end Niladic
