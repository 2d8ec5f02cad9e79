import Niladic.Tree.Reading
import Niladic.Proofs.Grammar

namespace Niladic

def word (tokens : List Placed) : List Token :=
  (tokens.map Placed.token).takeWhile (· ≠ .stop)

theorem negateTimes_negate (n : Nat) (t : Tree) :
    negateTimes n t.negate = negateTimes (n + 1) t := by
  induction n with
  | zero => rfl
  | succ n ih => exact congrArg Tree.negate ih

namespace Reading

open Grammar

def run (r : Reading) : List Token → Except SourceFault Tree
  | [] => r.finish
  | token :: w =>
      match r.step token with
      | .ok r => r.run w
      | .error fault => .error fault

theorem mapError_ok_iff {ε ε' α : Type} {f : ε → ε'} {x : Except ε α} {a : α} :
    x.mapError f = .ok a ↔ x = .ok a := by
  cases x with
  | ok b => constructor <;> (intro h; cases h; rfl)
  | error e => exact ⟨nofun, nofun⟩

theorem readAll_eq_ok_iff {last : Position} {r : Reading} {tokens : List Placed} {t : Tree} :
    r.readAll last tokens = .ok t ↔ r.run (word tokens) = .ok t := by
  fun_induction readAll last r tokens with
  | case1 r => exact mapError_ok_iff
  | case2 r position rest => exact mapError_ok_iff
  | case3 r token position rest hstop r' hstep ih =>
      rw [ih, word, word, List.map_cons, List.takeWhile_cons_of_pos (by simpa using hstop), run,
        hstep]
  | case4 r token position rest hstop fault hstep =>
      rw [word, List.map_cons, List.takeWhile_cons_of_pos (by simpa using hstop), run, hstep]
      simp

variable {p : Purpose} {nest : Nest} {sum : Option Pending} {term t : Tree} {outer : List Nest}
  {items : List Tree} {enclosing : List Enclosing}

theorem step_product {op : Operator} (h : op.isProduct = true) :
    step ⟨.operator p sum term outer, items, enclosing⟩ (.operator op) =
      .ok ⟨.operand p ⟨sum, some ⟨term, op⟩, 0⟩ outer, items, enclosing⟩ := by
  cases op with
  | add | sub => cases h
  | mul | div => rfl

theorem step_sum {op : Operator} (h : op.isProduct = false) :
    step ⟨.operator p sum term outer, items, enclosing⟩ (.operator op) =
      .ok ⟨.operand p ⟨some ⟨Pending.complete sum term, op⟩, none, 0⟩ outer, items, enclosing⟩ := by
  cases op with
  | add | sub => rfl
  | mul | div => cases h

theorem run_product {op : Operator} (h : op.isProduct = true) (w : List Token) :
    run ⟨.operator p sum term outer, items, enclosing⟩ (.operator op :: w) =
      run ⟨.operand p ⟨sum, some ⟨term, op⟩, 0⟩ outer, items, enclosing⟩ w := by
  simp only [run, step_product h]

theorem run_sum {op : Operator} (h : op.isProduct = false) (w : List Token) :
    run ⟨.operator p sum term outer, items, enclosing⟩ (.operator op :: w) =
      run ⟨.operand p ⟨some ⟨Pending.complete sum term, op⟩, none, 0⟩ outer, items, enclosing⟩
        w := by
  simp only [run, step_sum h]

theorem run_closing (w : List Token) :
    run ⟨.operator p sum term (nest :: outer), items, enclosing⟩ (.closing :: w) =
      run ⟨.operator p nest.sum (nest.term (Pending.complete sum term)) outer, items, enclosing⟩
        w :=
  rfl

mutual

theorem run_factor : ∀ (f : Factor) {p : Purpose} {nest : Nest} {outer : List Nest}
    {items : List Tree} {enclosing : List Enclosing} (w : List Token),
    run ⟨.operand p nest outer, items, enclosing⟩ (f.tokens ++ w) =
      run ⟨.operator p nest.sum (nest.term f.tree) outer, items, enclosing⟩ w
  | .number _, _, _, _, _, _, _ => rfl
  | .minus inner, p, nest, outer, items, enclosing, w => by
      -- The minus signs are counted from the outside, and the tree negates from the inside.
      have hinner :
          run ⟨.operand p { nest with minuses := nest.minuses + 1 } outer, items, enclosing⟩
            (inner.tokens ++ w) = _ := run_factor inner w
      rw [Nest.term, ← negateTimes_negate, ← Factor.tree_minus] at hinner
      exact hinner
  | .parens inner, p, nest, outer, items, enclosing, w => by
      obtain ⟨sum, term, htree, hinner⟩ := run_expr inner
      rw [Factor.tokens_parens_append, Factor.tree, ← htree]
      exact (hinner (.closing :: w)).trans (run_closing w)

theorem run_factors : ∀ (fs : Factors) {p : Purpose} {sum : Option Pending} {term : Tree}
    {outer : List Nest} {items : List Tree} {enclosing : List Enclosing} (w : List Token),
    run ⟨.operator p sum term outer, items, enclosing⟩ (fs.tokens ++ w) =
      run ⟨.operator p sum (fs.treeFrom term) outer, items, enclosing⟩ w
  | .nil, _, _, _, _, _, _, _ => rfl
  | .cons op product next rest, _, _, _, _, _, _, w => by
      rw [Factors.tokens_cons_append, run_product product, run_factor next, run_factors rest,
        Factors.treeFrom]
      rfl

theorem run_term : ∀ (term : Term) {p : Purpose} {sum : Option Pending} {outer : List Nest}
    {items : List Tree} {enclosing : List Enclosing} (w : List Token),
    run ⟨.operand p ⟨sum, none, 0⟩ outer, items, enclosing⟩ (term.tokens ++ w) =
      run ⟨.operator p sum term.tree outer, items, enclosing⟩ w
  | .mk first rest, _, _, _, _, _, w => by
      rw [Term.tokens, List.append_assoc, run_factor first, run_factors rest, Term.tree]
      rfl

theorem run_terms : ∀ (ts : Terms) (sum : Option Pending) (term : Tree),
    ∃ sum' term', Pending.complete sum' term' = ts.treeFrom (Pending.complete sum term) ∧
      ∀ {p : Purpose} {outer : List Nest} {items : List Tree} {enclosing : List Enclosing}
        (w : List Token), run ⟨.operator p sum term outer, items, enclosing⟩ (ts.tokens ++ w) =
          run ⟨.operator p sum' term' outer, items, enclosing⟩ w
  | .nil, sum, term => ⟨sum, term, rfl, fun _ => rfl⟩
  | .cons op hsum next rest, sum, term => by
      obtain ⟨sum', term', htree, hrest⟩ :=
        run_terms rest (some ⟨Pending.complete sum term, op⟩) next.tree
      refine ⟨sum', term', htree, fun w => ?_⟩
      rw [Terms.tokens_cons_append, run_sum hsum, run_term next, hrest]

theorem run_expr : ∀ (e : Expr), ∃ sum term, Pending.complete sum term = e.tree ∧
    ∀ {p : Purpose} {outer : List Nest} {items : List Tree} {enclosing : List Enclosing}
      (w : List Token), run ⟨.operand p {} outer, items, enclosing⟩ (e.tokens ++ w) =
        run ⟨.operator p sum term outer, items, enclosing⟩ w
  | .mk first rest => by
      obtain ⟨sum, term, htree, hrest⟩ := run_terms rest none first.tree
      refine ⟨sum, term, htree, fun w => ?_⟩
      rw [Expr.tokens, List.append_assoc, run_term first, hrest]

end

def Factored (w : List Token) : Prop :=
  ∀ ⦃p nest outer items enclosing t⦄,
    run ⟨.operand p nest outer, items, enclosing⟩ w = .ok t → ∃ f w', w = Factor.tokens f ++ w'

theorem exists_factors {n : Nat} (hfactor : ∀ w : List Token, w.length < n → Factored w)
    {p : Purpose} {sum : Option Pending} {term t : Tree} {outer : List Nest} {items : List Tree}
    {enclosing : List Enclosing} (w : List Token) (hn : w.length ≤ n)
    (h : run ⟨.operator p sum term outer, items, enclosing⟩ w = .ok t) :
    ∃ fs w', w = Factors.tokens fs ++ w' ∧ NoProduct w' := by
  rcases noProduct_or w with hw | ⟨op, rest, rfl, hproduct⟩
  · exact ⟨.nil, w, rfl, hw⟩
  · rw [run_product hproduct] at h
    rw [List.length_cons] at hn
    obtain ⟨f, w₁, rfl⟩ := hfactor rest hn h
    rw [run_factor] at h
    rw [List.length_append] at hn
    obtain ⟨fs, w', rfl, hend⟩ := exists_factors hfactor w₁ (by omega) h
    exact ⟨.cons op hproduct f fs, w', (Factors.tokens_cons_append ..).symm, hend⟩
termination_by w.length

theorem exists_terms {n : Nat} (hfactor : ∀ w : List Token, w.length < n → Factored w)
    {p : Purpose} {sum : Option Pending} {term t : Tree} {outer : List Nest} {items : List Tree}
    {enclosing : List Enclosing} (w : List Token) (hn : w.length ≤ n) (hw : NoProduct w)
    (h : run ⟨.operator p sum term outer, items, enclosing⟩ w = .ok t) :
    ∃ ts w', w = Terms.tokens ts ++ w' ∧ NoOperator w' := by
  rcases noOperator_or w with hend | ⟨op, rest, rfl⟩
  · exact ⟨.nil, w, rfl, hend⟩
  · have hsum := hw op rfl
    rw [run_sum hsum] at h
    rw [List.length_cons] at hn
    obtain ⟨f, w₁, rfl⟩ := hfactor rest hn h
    rw [run_factor] at h
    rw [List.length_append] at hn
    obtain ⟨fs, w₂, rfl, hfs⟩ := exists_factors hfactor w₁ (by omega) h
    rw [run_factors] at h
    rw [List.length_append] at hn
    obtain ⟨ts, w', rfl, hend⟩ := exists_terms hfactor w₂ (by omega) hfs h
    refine ⟨.cons op hsum (.mk f fs) ts, w', ?_, hend⟩
    rw [Terms.tokens_cons_append, Term.tokens, List.append_assoc]
termination_by w.length

theorem exists_expr {n : Nat} (hfactor : ∀ w : List Token, w.length < n → Factored w)
    {w : List Token} (hn : w.length < n)
    (h : run ⟨.operand p {} outer, items, enclosing⟩ w = .ok t) :
    ∃ e w', w = Expr.tokens e ++ w' ∧ NoOperator w' := by
  obtain ⟨f, w₁, rfl⟩ := hfactor w hn h
  rw [run_factor] at h
  rw [List.length_append] at hn
  obtain ⟨fs, w₂, rfl, hfs⟩ := exists_factors hfactor w₁ (by omega) h
  rw [run_factors] at h
  rw [List.length_append] at hn
  obtain ⟨ts, w', rfl, hend⟩ := exists_terms hfactor w₂ (by omega) hfs h
  refine ⟨.mk (.mk f fs) ts, w', ?_, hend⟩
  rw [Expr.tokens, Term.tokens, List.append_assoc, List.append_assoc]

theorem exists_closing {w : List Token} (hw : NoOperator w)
    (h : run ⟨.operator p sum term (nest :: outer), items, enclosing⟩ w = .ok t) :
    ∃ w', w = .closing :: w' := by
  match w with
  | [] => cases h
  | .closing :: w' => exact ⟨w', rfl⟩
  | .operator op :: _ => exact (hw op rfl).elim
  | .number _ :: _ | .name _ :: _ | .keyword _ :: _ | .opening :: _ | .stop :: _ => cases h

theorem factored (w : List Token) : Factored w := by
  intro p nest outer items enclosing t h
  match w with
  | [] => cases h
  | .number value :: w' => exact ⟨.number value, w', rfl⟩
  | .operator .sub :: rest =>
      obtain ⟨f, w', rfl⟩ := factored rest h
      exact ⟨.minus f, w', rfl⟩
  | .opening :: rest =>
      obtain ⟨e, w₁, rfl, hend⟩ := exists_expr (n := rest.length + 1) (fun w _ => factored w)
        (Nat.lt_succ_self _) h
      obtain ⟨sum, term, -, hrun⟩ := run_expr e
      obtain ⟨w', rfl⟩ := exists_closing hend ((hrun w₁).symm.trans h)
      exact ⟨.parens e, w', (Factor.tokens_parens_append ..).symm⟩
  | .operator .add :: _ | .operator .mul :: _ | .operator .div :: _ => cases h
  | .name _ :: _ | .keyword _ :: _ | .closing :: _ | .stop :: _ => cases h
termination_by w.length

theorem run_finish {name : String} {before : List Tree} (w : List Token) :
    run ⟨.item, items, ⟨name, before⟩ :: enclosing⟩ (.keyword .finish :: w) =
      run ⟨.item, .procedure name (.body items.reverse) :: before, enclosing⟩ w :=
  rfl

theorem run_item_of_startsFactor {token : Token} (h : startsFactor token = true) (w : List Token) :
    run ⟨.item, items, enclosing⟩ (token :: w) =
      run ⟨.operand .item {} [], items, enclosing⟩ (token :: w) := by
  match token with
  | .number _ | .opening | .operator _ => rfl
  | .name _ | .keyword _ | .closing | .stop => cases h

theorem run_item_of_expr (e : Expr) (w : List Token) :
    run ⟨.item, items, enclosing⟩ (e.tokens ++ w) =
      run ⟨.operand .item {} [], items, enclosing⟩ (e.tokens ++ w) := by
  obtain ⟨token, rest, htokens, hstarts⟩ := e.tokens_eq_cons
  rw [htokens, List.cons_append, run_item_of_startsFactor hstarts]

theorem run_push {w : List Token} (h : NoOperator w) :
    run ⟨.operator .item sum term [], items, enclosing⟩ w =
      run ⟨.item, Pending.complete sum term :: items, enclosing⟩ w := by
  match w with
  | .operator op :: _ => exact (h op rfl).elim
  | [] | .number _ :: _ | .name _ :: _ | .keyword _ :: _ => rfl
  | .opening :: _ | .closing :: _ | .stop :: _ => rfl

mutual

theorem run_item : ∀ (item : Item) {items : List Tree} {enclosing : List Enclosing}
    {w : List Token}, item.Settled → item.Ends w →
    run ⟨.item, items, enclosing⟩ (item.tokens ++ w) =
      run ⟨.item, item.tree :: items, enclosing⟩ w
  | .procedure name inner, items, enclosing, w, hsettled, _ => by
      have hinner : run ⟨.item, [], ⟨name, items⟩ :: enclosing⟩
          (tokensAll inner ++ .keyword .finish :: w) = _ :=
        run_items inner hsettled (closes_finish w)
      rw [Item.tokens_procedure_append]
      refine hinner.trans ?_
      rw [run_finish, List.append_nil, List.reverse_reverse, Item.tree]
  | .save value name, items, enclosing, w, _, _ => by
      obtain ⟨sum, term, htree, hvalue⟩ := run_expr value
      rw [Item.tokens_save_append, Item.tree, ← htree]
      exact hvalue (.keyword .into :: .name name :: w)
  | .call _, _, _, _, _, _ => rfl
  | .expr value, items, enclosing, w, _, hw => by
      obtain ⟨sum, term, htree, hvalue⟩ := run_expr value
      rw [Item.tokens, run_item_of_expr, hvalue, run_push hw, htree, Item.tree]

theorem run_items : ∀ (inner : List Item) {items : List Tree} {enclosing : List Enclosing}
    {w : List Token}, SettledAll inner → Closes w →
    run ⟨.item, items, enclosing⟩ (tokensAll inner ++ w) =
      run ⟨.item, (treeAll inner).reverse ++ items, enclosing⟩ w
  | [], _, _, _, _, _ => rfl
  | item :: rest, items, enclosing, w, hsettled, hw => by
      have hends := hsettled.ends hw
      rw [SettledAll] at hsettled
      rw [tokensAll, List.append_assoc, run_item item hsettled.1 hends,
        run_items rest hsettled.2.2 hw, treeAll, List.reverse_cons, List.append_assoc,
        List.singleton_append]

end

theorem exists_name_of_procedureName {w : List Token}
    (h : run ⟨.procedureName, items, enclosing⟩ w = .ok t) : ∃ name w', w = .name name :: w' := by
  match w with
  | .name name :: w' => exact ⟨name, w', rfl⟩
  | [] | .number _ :: _ | .keyword _ :: _ | .operator _ :: _ => cases h
  | .opening :: _ | .closing :: _ | .stop :: _ => cases h

theorem exists_name_of_save {w : List Token} (hw : NoOperator w)
    (h : run ⟨.operator .save sum term [], items, enclosing⟩ w = .ok t) :
    ∃ name w', w = .keyword .into :: .name name :: w' := by
  match w with
  | .keyword .into :: .name name :: w' => exact ⟨name, w', rfl⟩
  | .operator op :: _ => exact (hw op rfl).elim
  | [] | .number _ :: _ | .name _ :: _ | .opening :: _ | .closing :: _ | .stop :: _ => cases h
  | .keyword .create :: _ | .keyword .finish :: _ | .keyword .save :: _ => cases h
  | [.keyword .into] | .keyword .into :: .number _ :: _ => cases h
  | .keyword .into :: .keyword _ :: _ | .keyword .into :: .operator _ :: _ => cases h
  | .keyword .into :: .opening :: _ => cases h
  | .keyword .into :: .closing :: _ | .keyword .into :: .stop :: _ => cases h

theorem exists_finish {e : Enclosing} {w : List Token} (hw : Closes w)
    (h : run ⟨.item, items, e :: enclosing⟩ w = .ok t) : ∃ w', w = .keyword .finish :: w' := by
  cases w with
  | nil => cases h
  | cons token w' =>
      cases hw token rfl
      exact ⟨w', rfl⟩

def Itemised (w : List Token) : Prop :=
  ∀ ⦃items enclosing t⦄, run ⟨.item, items, enclosing⟩ w = .ok t →
    ∃ inner w', w = tokensAll inner ++ w' ∧ SettledAll inner ∧ Closes w'

theorem exists_item_of_expr {w : List Token}
    (h : run ⟨.operand .item {} [], items, enclosing⟩ w = .ok t) :
    ∃ item w', w = Item.tokens item ++ w' ∧ item.Settled ∧ item.Ends w' := by
  obtain ⟨e, w', rfl, hend⟩ := exists_expr (fun w _ => factored w) (Nat.lt_succ_self w.length) h
  exact ⟨.expr e, w', rfl, trivial, hend⟩

theorem exists_item {w : List Token}
    (hinner : ∀ w' : List Token, w'.length < w.length → Itemised w') (hw : ¬ Closes w)
    (h : run ⟨.item, items, enclosing⟩ w = .ok t) :
    ∃ item w', w = Item.tokens item ++ w' ∧ item.Settled ∧ item.Ends w' := by
  match w with
  | [] => exact (hw fun _ htoken => by cases htoken).elim
  | .keyword .finish :: rest => exact (hw (closes_finish rest)).elim
  | .keyword .create :: rest =>
      obtain ⟨name, w₁, rfl⟩ := exists_name_of_procedureName h
      have hshorter : w₁.length < w₁.length + 1 + 1 := by omega
      obtain ⟨inner, w₂, rfl, hsettled, hcloses⟩ := hinner w₁ hshorter h
      obtain ⟨w', rfl⟩ := exists_finish hcloses ((run_items inner hsettled hcloses).symm.trans h)
      exact ⟨.procedure name inner, w', (Item.tokens_procedure_append ..).symm, hsettled, trivial⟩
  | .keyword .save :: rest =>
      obtain ⟨e, w₁, rfl, hend⟩ := exists_expr (fun w _ => factored w)
        (Nat.lt_succ_self rest.length) h
      obtain ⟨sum, term, -, hrun⟩ := run_expr e
      obtain ⟨name, w', rfl⟩ := exists_name_of_save hend ((hrun w₁).symm.trans h)
      exact ⟨.save e name, w', (Item.tokens_save_append ..).symm, trivial, trivial⟩
  | .name name :: rest => exact ⟨.call name, rest, rfl, trivial, trivial⟩
  | .number _ :: _ | .operator _ :: _ | .opening :: _ => exact exists_item_of_expr h
  | .keyword .into :: _ | .closing :: _ | .stop :: _ => cases h

theorem itemised (w : List Token) : Itemised w := by
  induction hn : w.length using Nat.strongRecOn generalizing w with
  | ind n ih =>
      intro items enclosing t h
      by_cases hw : Closes w
      · exact ⟨[], w, rfl, trivial, hw⟩
      · obtain ⟨item, w₁, rfl, hsettled, hends⟩ :=
          exists_item (fun w' hw' => ih w'.length (hn ▸ hw') w' rfl) hw h
        rw [run_item item hsettled hends] at h
        -- An item takes at least one token, so less is left to read.
        have hshorter := item.length_tokens_pos
        rw [List.length_append] at hn
        obtain ⟨inner, w', rfl, hinner, hcloses⟩ := ih w₁.length (by omega) w₁ rfl h
        refine ⟨item :: inner, w', ?_, ⟨hsettled, hends.apart, hinner⟩, hcloses⟩
        rw [tokensAll, List.append_assoc]

theorem run_start_eq_ok_iff {w : List Token} :
    run start w = .ok t ↔
      ∃ items, tokensAll items = w ∧ SettledAll items ∧ t = .program (treeAll items) := by
  have hstart : ∀ {items : List Item}, SettledAll items →
      run start (tokensAll items) = .ok (.program (treeAll items)) := by
    intro items hsettled
    have hrun : run ⟨.item, [], []⟩ (tokensAll items ++ []) = _ :=
      run_items items hsettled closes_nil
    rw [List.append_nil, List.append_nil] at hrun
    rw [start, hrun, run, finish, program, List.reverse_reverse]
  constructor
  · intro h
    obtain ⟨items, w', rfl, hsettled, hcloses⟩ := itemised w h
    match w' with
    | [] =>
        rw [List.append_nil, hstart hsettled] at h
        cases h
        exact ⟨items, (List.append_nil _).symm, hsettled, rfl⟩
    | token :: w'' =>
        -- No procedure is open here that the keyword could end.
        cases hcloses token rfl
        rw [start, run_items items hsettled hcloses] at h
        cases h
  · rintro ⟨items, rfl, hsettled, rfl⟩
    exact hstart hsettled

end Reading

open Grammar

/-- A program is read exactly if its tokens are derivable, and its tree is that of the only
derivation in which expressions go on for as long as they can. -/
theorem Tree.ofTokens_eq_ok_iff_settled_derivation (tokens : List Placed) :
    ((∃ t, ofTokens tokens = .ok t) ↔ ∃ items, tokensAll items = word tokens) ∧
    ((∃ items, tokensAll items = word tokens) ↔
      ∃! items, tokensAll items = word tokens ∧ SettledAll items) ∧
    ∀ t, ofTokens tokens = .ok t ↔
      ∃ items, tokensAll items = word tokens ∧ SettledAll items ∧ t = .program (treeAll items) := by
  have htree : ∀ t, ofTokens tokens = .ok t ↔
      ∃ items, tokensAll items = word tokens ∧ SettledAll items ∧ t = .program (treeAll items) :=
    fun t => Reading.readAll_eq_ok_iff.trans Reading.run_start_eq_ok_iff
  have hunique := exists_iff_existsUnique_settled (word tokens)
  refine ⟨⟨?_, fun h => ?_⟩, hunique, htree⟩
  · rintro ⟨t, h⟩
    obtain ⟨items, htokens, -⟩ := (htree t).mp h
    exact ⟨items, htokens⟩
  · obtain ⟨items, ⟨htokens, hsettled⟩, -⟩ := hunique.mp h
    exact ⟨.program (treeAll items), (htree _).mpr ⟨items, htokens, hsettled, rfl⟩⟩

end Niladic
