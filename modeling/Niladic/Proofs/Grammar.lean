import Mathlib.Logic.ExistsUnique
import Niladic.Tree
import Niladic.Token

/-!
The grammar of programs. A derivation is kept as data, with the tokens it stands for and the tree it
means. Derivations differ only in where an expression that is an item ends, and each word that has a
derivation has exactly one in which such expressions go on for as long as they can. All of them mean
programs of procedures, calls, assignments and expressions.
-/

namespace Niladic

def Operator.isProduct : Operator → Bool
  | .mul | .div => true
  | .add | .sub => false

namespace Tree

inductive IsExpression : Tree → Prop
  | number (x : Float) : IsExpression (.number x)
  | binary (op : Operator) {left right : Tree} (hleft : left.IsExpression)
      (hright : right.IsExpression) : IsExpression (.binary op left right)

inductive IsItem : Tree → Prop
  | procedure (name : String) {items : List Tree} (hitems : ∀ t ∈ items, t.IsItem) :
      IsItem (.procedure name (.body items))
  | call (name : String) : IsItem (.call name)
  | assign (name : String) {value : Tree} (hvalue : value.IsExpression) :
      IsItem (.assign name value)
  | expression {t : Tree} (ht : t.IsExpression) : IsItem t

inductive IsSource : Tree → Prop
  | program {items : List Tree} (hitems : ∀ t ∈ items, t.IsItem) : IsSource (.program items)

theorem IsExpression.negate {t : Tree} (h : t.IsExpression) : t.negate.IsExpression := by
  cases h with
  | number x => exact .number _
  | binary op hleft hright => exact .binary .sub (.number 0.0) (.binary op hleft hright)

end Tree

namespace Grammar

mutual

inductive Factor where
  | number (value : Float)
  | minus (inner : Factor)
  | parens (inner : Expr)

inductive Factors where
  | nil
  | cons (op : Operator) (product : op.isProduct = true) (next : Factor) (rest : Factors)

inductive Term where
  | mk (first : Factor) (rest : Factors)

inductive Terms where
  | nil
  | cons (op : Operator) (sum : op.isProduct = false) (next : Term) (rest : Terms)

inductive Expr where
  | mk (first : Term) (rest : Terms)

end

inductive Item where
  | procedure (name : String) (items : List Item)
  | save (value : Expr) (name : String)
  | call (name : String)
  | expr (value : Expr)

mutual

def Factor.tokens : Factor → List Token
  | .number value => [.number value]
  | .minus inner => .operator .sub :: inner.tokens
  | .parens inner => .opening :: inner.tokens ++ [.closing]

def Factors.tokens : Factors → List Token
  | .nil => []
  | .cons op _ next rest => .operator op :: next.tokens ++ rest.tokens

def Term.tokens : Term → List Token
  | .mk first rest => first.tokens ++ rest.tokens

def Terms.tokens : Terms → List Token
  | .nil => []
  | .cons op _ next rest => .operator op :: next.tokens ++ rest.tokens

def Expr.tokens : Expr → List Token
  | .mk first rest => first.tokens ++ rest.tokens

end

mutual

def Factor.tree : Factor → Tree
  | .number value => .number value
  | .minus inner =>
      match inner.tree with
      | .number value => .number (-value)
      | operand => .binary .sub (.number 0.0) operand
  | .parens inner => inner.tree

def Factors.treeFrom : Factors → Tree → Tree
  | .nil, left => left
  | .cons op _ next rest, left => rest.treeFrom (.binary op left next.tree)

def Term.tree : Term → Tree
  | .mk first rest => rest.treeFrom first.tree

def Terms.treeFrom : Terms → Tree → Tree
  | .nil, left => left
  | .cons op _ next rest, left => rest.treeFrom (.binary op left next.tree)

def Expr.tree : Expr → Tree
  | .mk first rest => rest.treeFrom first.tree

end

theorem Factor.tree_minus (inner : Factor) : (Factor.minus inner).tree = inner.tree.negate := by
  rw [Factor.tree]
  cases inner.tree <;> rfl

mutual

def Item.tokens : Item → List Token
  | .procedure name items =>
      .keyword .create :: .name name :: tokensAll items ++ [.keyword .finish]
  | .save value name => .keyword .save :: value.tokens ++ [.keyword .into, .name name]
  | .call name => [.name name]
  | .expr value => value.tokens

def tokensAll : List Item → List Token
  | [] => []
  | item :: rest => item.tokens ++ tokensAll rest

end

mutual

def Item.tree : Item → Tree
  | .procedure name items => .procedure name (.body (treeAll items))
  | .save value name => .assign name value.tree
  | .call name => .call name
  | .expr value => value.tree

def treeAll : List Item → List Tree
  | [] => []
  | item :: rest => item.tree :: treeAll rest

end

mutual

theorem Factor.isExpression : ∀ f : Factor, f.tree.IsExpression
  | .number x => .number x
  | .minus inner => by
      rw [Factor.tree_minus]
      exact inner.isExpression.negate
  | .parens inner => inner.isExpression

theorem Factors.isExpression : ∀ (fs : Factors) {left : Tree}, left.IsExpression →
    (fs.treeFrom left).IsExpression
  | .nil, _, h => h
  | .cons op _ next rest, _, h => rest.isExpression (.binary op h next.isExpression)

theorem Term.isExpression : ∀ t : Term, t.tree.IsExpression
  | .mk first rest => rest.isExpression first.isExpression

theorem Terms.isExpression : ∀ (ts : Terms) {left : Tree}, left.IsExpression →
    (ts.treeFrom left).IsExpression
  | .nil, _, h => h
  | .cons op _ next rest, _, h => rest.isExpression (.binary op h next.isExpression)

theorem Expr.isExpression : ∀ e : Expr, e.tree.IsExpression
  | .mk first rest => rest.isExpression first.isExpression

end

mutual

theorem Item.isItem : ∀ item : Item, item.tree.IsItem
  | .procedure name items => .procedure name (isItem_of_mem items)
  | .save value name => .assign name value.isExpression
  | .call name => .call name
  | .expr value => .expression value.isExpression

theorem isItem_of_mem : ∀ items : List Item, ∀ t ∈ treeAll items, t.IsItem
  | [], _, ht => nomatch ht
  | item :: rest, t, ht => by
      rcases List.mem_cons.mp ht with rfl | ht
      · exact item.isItem
      · exact isItem_of_mem rest t ht

end

def Item.Apart : Item → Item → Prop
  | .expr _, next => next.tokens.head? ≠ some (.operator .sub)
  | _, _ => True

mutual

def Item.Settled : Item → Prop
  | .procedure _ items => SettledAll items
  | _ => True

def SettledAll : List Item → Prop
  | [] => True
  | item :: rest => item.Settled ∧ (∀ next ∈ rest.head?, item.Apart next) ∧ SettledAll rest

end

theorem Factor.tokens_parens_append (e : Expr) (w : List Token) :
    (Factor.parens e).tokens ++ w = .opening :: (e.tokens ++ .closing :: w) := by
  simp only [Factor.tokens, List.cons_append, List.append_assoc, List.nil_append]

theorem Factors.tokens_cons_append {op : Operator} (h : op.isProduct = true) (next : Factor)
    (rest : Factors) (w : List Token) :
    (Factors.cons op h next rest).tokens ++ w =
      .operator op :: (next.tokens ++ (rest.tokens ++ w)) := by
  simp only [Factors.tokens, List.cons_append, List.append_assoc]

theorem Terms.tokens_cons_append {op : Operator} (h : op.isProduct = false) (next : Term)
    (rest : Terms) (w : List Token) :
    (Terms.cons op h next rest).tokens ++ w =
      .operator op :: (next.tokens ++ (rest.tokens ++ w)) := by
  simp only [Terms.tokens, List.cons_append, List.append_assoc]

theorem Item.tokens_procedure_append (name : String) (items : List Item) (w : List Token) :
    (Item.procedure name items).tokens ++ w =
      .keyword .create :: .name name :: (tokensAll items ++ .keyword .finish :: w) := by
  simp only [Item.tokens, List.cons_append, List.append_assoc, List.nil_append]

theorem Item.tokens_save_append (value : Expr) (name : String) (w : List Token) :
    (Item.save value name).tokens ++ w =
      .keyword .save :: (value.tokens ++ .keyword .into :: .name name :: w) := by
  simp only [Item.tokens, List.cons_append, List.append_assoc, List.nil_append]

def NoProduct (w : List Token) : Prop :=
  ∀ op, w.head? = some (.operator op) → op.isProduct = false

def NoOperator (w : List Token) : Prop :=
  ∀ op, w.head? ≠ some (.operator op)

def Closes (w : List Token) : Prop :=
  ∀ token, w.head? = some token → token = .keyword .finish

theorem noProduct_or (w : List Token) :
    NoProduct w ∨ ∃ op rest, w = .operator op :: rest ∧ op.isProduct = true := by
  match w with
  | .operator op :: rest =>
      cases h : op.isProduct with
      | true => exact .inr ⟨op, rest, rfl, h⟩
      | false =>
          refine .inl fun op' hop => ?_
          cases hop
          exact h
  | [] | .number _ :: _ | .name _ :: _ | .keyword _ :: _ => exact .inl fun _ hop => by cases hop
  | .opening :: _ | .closing :: _ | .stop :: _ => exact .inl fun _ hop => by cases hop

theorem noOperator_or (w : List Token) : NoOperator w ∨ ∃ op rest, w = .operator op :: rest := by
  match w with
  | .operator op :: rest => exact .inr ⟨op, rest, rfl⟩
  | [] | .number _ :: _ | .name _ :: _ | .keyword _ :: _ => exact .inl fun _ hop => by cases hop
  | .opening :: _ | .closing :: _ | .stop :: _ => exact .inl fun _ hop => by cases hop

theorem Closes.noOperator {w : List Token} (h : Closes w) : NoOperator w := by
  intro op hop
  cases h _ hop

theorem closes_nil : Closes [] := by
  intro token htoken
  cases htoken

theorem closes_finish (w : List Token) : Closes (.keyword .finish :: w) := by
  intro token htoken
  cases htoken
  rfl

theorem noOperator_closing (w : List Token) : NoOperator (.closing :: w) := by
  intro op hop
  cases hop

theorem noOperator_keyword (k : Keyword) (w : List Token) : NoOperator (.keyword k :: w) := by
  intro op hop
  cases hop

theorem Terms.noProduct {w : List Token} (ts : Terms) (h : NoOperator w) :
    NoProduct (ts.tokens ++ w) := by
  intro op hop
  cases ts with
  | nil => exact (h op hop).elim
  | cons op' sum next rest =>
      cases hop
      exact sum

mutual

theorem Factor.unique : ∀ {f f' : Factor} {w w' : List Token},
    f.tokens ++ w = f'.tokens ++ w' → f = f' ∧ w = w'
  | .number _, .number _, _, _, h => by
      cases h
      exact ⟨rfl, rfl⟩
  | .minus f, .minus f', _, _, h => by
      simp only [Factor.tokens, List.cons_append, List.cons.injEq, true_and] at h
      obtain ⟨rfl, hw⟩ := Factor.unique h
      exact ⟨rfl, hw⟩
  | .parens e, .parens e', _, _, h => by
      rw [Factor.tokens_parens_append, Factor.tokens_parens_append, List.cons.injEq] at h
      obtain ⟨rfl, hw⟩ := Expr.unique h.2 (noOperator_closing _) (noOperator_closing _)
      cases hw
      exact ⟨rfl, rfl⟩
  | .number _, .minus _, _, _, h | .number _, .parens _, _, _, h => by cases h
  | .minus _, .number _, _, _, h | .minus _, .parens _, _, _, h => by cases h
  | .parens _, .number _, _, _, h | .parens _, .minus _, _, _, h => by cases h

theorem Factors.unique : ∀ {fs fs' : Factors} {w w' : List Token},
    fs.tokens ++ w = fs'.tokens ++ w' → NoProduct w → NoProduct w' → fs = fs' ∧ w = w'
  | .nil, .nil, _, _, h, _, _ => ⟨rfl, h⟩
  | .nil, .cons op product next rest, w, _, h, hw, _ => by
      have hop : w.head? = some (.operator op) := congrArg List.head? h
      rw [hw op hop] at product
      cases product
  | .cons op product next rest, .nil, _, w', h, _, hw' => by
      have hop : w'.head? = some (.operator op) := congrArg List.head? h.symm
      rw [hw' op hop] at product
      cases product
  | .cons op _ next rest, .cons op' _ next' rest', _, _, h, hw, hw' => by
      rw [Factors.tokens_cons_append, Factors.tokens_cons_append, List.cons.injEq,
        Token.operator.injEq] at h
      obtain ⟨rfl, h⟩ := h
      obtain ⟨rfl, hrest⟩ := Factor.unique h
      obtain ⟨rfl, hend⟩ := Factors.unique hrest hw hw'
      exact ⟨rfl, hend⟩

theorem Term.unique : ∀ {t t' : Term} {w w' : List Token},
    t.tokens ++ w = t'.tokens ++ w' → NoProduct w → NoProduct w' → t = t' ∧ w = w'
  | .mk first rest, .mk first' rest', _, _, h, hw, hw' => by
      simp only [Term.tokens, List.append_assoc] at h
      obtain ⟨rfl, hrest⟩ := Factor.unique h
      obtain ⟨rfl, hend⟩ := Factors.unique hrest hw hw'
      exact ⟨rfl, hend⟩

theorem Terms.unique : ∀ {ts ts' : Terms} {w w' : List Token},
    ts.tokens ++ w = ts'.tokens ++ w' → NoOperator w → NoOperator w' → ts = ts' ∧ w = w'
  | .nil, .nil, _, _, h, _, _ => ⟨rfl, h⟩
  | .nil, .cons .., _, _, h, hw, _ => (hw _ (congrArg List.head? h)).elim
  | .cons .., .nil, _, _, h, _, hw' => (hw' _ (congrArg List.head? h.symm)).elim
  | .cons op _ next rest, .cons op' _ next' rest', _, _, h, hw, hw' => by
      rw [Terms.tokens_cons_append, Terms.tokens_cons_append, List.cons.injEq,
        Token.operator.injEq] at h
      obtain ⟨rfl, h⟩ := h
      obtain ⟨rfl, hrest⟩ := Term.unique h (rest.noProduct hw) (rest'.noProduct hw')
      obtain ⟨rfl, hend⟩ := Terms.unique hrest hw hw'
      exact ⟨rfl, hend⟩

theorem Expr.unique : ∀ {e e' : Expr} {w w' : List Token},
    e.tokens ++ w = e'.tokens ++ w' → NoOperator w → NoOperator w' → e = e' ∧ w = w'
  | .mk first rest, .mk first' rest', _, _, h, hw, hw' => by
      simp only [Expr.tokens, List.append_assoc] at h
      obtain ⟨rfl, hrest⟩ := Term.unique h (rest.noProduct hw) (rest'.noProduct hw')
      obtain ⟨rfl, hend⟩ := Terms.unique hrest hw hw'
      exact ⟨rfl, hend⟩

end

def startsFactor : Token → Bool
  | .number _ | .operator .sub | .opening => true
  | _ => false

theorem Factor.tokens_eq_cons (f : Factor) :
    ∃ token w, f.tokens = token :: w ∧ startsFactor token = true := by
  cases f with
  | number value => exact ⟨_, [], rfl, rfl⟩
  | minus inner => exact ⟨_, inner.tokens, rfl, rfl⟩
  | parens inner => exact ⟨_, inner.tokens ++ [.closing], rfl, rfl⟩

theorem Expr.tokens_eq_cons (e : Expr) :
    ∃ token w, e.tokens = token :: w ∧ startsFactor token = true := by
  obtain ⟨⟨first, factors⟩, terms⟩ := e
  obtain ⟨token, w, htokens, hstarts⟩ := first.tokens_eq_cons
  refine ⟨token, w ++ factors.tokens ++ terms.tokens, ?_, hstarts⟩
  rw [Expr.tokens, Term.tokens, htokens, List.cons_append, List.cons_append]

theorem Expr.tokens_append_ne {token : Token} {w w' : List Token} (e : Expr)
    (h : startsFactor token = false) : e.tokens ++ w ≠ token :: w' := by
  obtain ⟨first, rest, htokens, hstarts⟩ := e.tokens_eq_cons
  intro heq
  rw [htokens] at heq
  cases heq
  rw [h] at hstarts
  cases hstarts

def startsItem : Token → Bool
  | .keyword .create | .keyword .save | .name _ => true
  | token => startsFactor token

theorem startsItem_of_startsFactor {token : Token} (h : startsFactor token = true) :
    startsItem token = true := by
  cases token with
  | keyword | name => cases h
  | number | operator | opening | closing | stop => exact h

theorem Item.tokens_eq_cons (item : Item) :
    ∃ token w, item.tokens = token :: w ∧ startsItem token = true := by
  cases item with
  | procedure name items => exact ⟨_, .name name :: tokensAll items ++ [.keyword .finish], rfl, rfl⟩
  | save value name => exact ⟨_, value.tokens ++ [.keyword .into, .name name], rfl, rfl⟩
  | call name => exact ⟨_, [], rfl, rfl⟩
  | expr value =>
      obtain ⟨token, w, htokens, hstarts⟩ := value.tokens_eq_cons
      exact ⟨token, w, htokens, startsItem_of_startsFactor hstarts⟩

def Item.Ends : Item → List Token → Prop
  | .expr _, w => NoOperator w
  | _, _ => True

theorem Item.length_tokens_pos (item : Item) : 0 < item.tokens.length := by
  obtain ⟨token, w, htokens, -⟩ := item.tokens_eq_cons
  rw [htokens]
  exact Nat.succ_pos _

theorem Item.not_closes (item : Item) (w : List Token) : ¬ Closes (item.tokens ++ w) := by
  obtain ⟨token, rest, htokens, hstarts⟩ := item.tokens_eq_cons
  intro h
  rw [htokens] at h
  cases h token (List.head?_cons ..)
  cases hstarts

theorem SettledAll.ends {item : Item} {rest : List Item} {w : List Token}
    (h : SettledAll (item :: rest)) (hw : Closes w) : item.Ends (tokensAll rest ++ w) := by
  rw [SettledAll] at h
  obtain ⟨-, hapart, -⟩ := h
  cases item with
  | procedure | save | call => trivial
  | expr value =>
      intro op hop
      cases rest with
      | nil => exact hw.noOperator op hop
      | cons next rest =>
          obtain ⟨token, tail, htokens, hstarts⟩ := next.tokens_eq_cons
          rw [tokensAll, htokens] at hop
          cases hop
          cases op with
          | add | mul | div => cases hstarts
          | sub => exact hapart next rfl (by rw [htokens, List.head?_cons])

theorem Item.Ends.apart {item : Item} {rest : List Item} {w : List Token}
    (h : item.Ends (tokensAll rest ++ w)) : ∀ next ∈ rest.head?, item.Apart next := by
  intro next hnext
  obtain ⟨tail, rfl⟩ := List.head?_eq_some_iff.mp hnext
  cases item with
  | procedure | save | call => trivial
  | expr value =>
      intro hhead
      apply h .sub
      rw [tokensAll, List.append_assoc, List.head?_append, hhead]
      rfl

mutual

theorem Item.unique : ∀ {item item' : Item} {w w' : List Token},
    item.tokens ++ w = item'.tokens ++ w' → item.Settled → item'.Settled →
      item.Ends w → item'.Ends w' → item = item' ∧ w = w'
  | .procedure name items, .procedure name' items', _, _, h, hsettled, hsettled', _, _ => by
      rw [Item.tokens_procedure_append, Item.tokens_procedure_append, List.cons.injEq,
        List.cons.injEq, Token.name.injEq] at h
      obtain ⟨-, rfl, h⟩ := h
      rw [Item.Settled] at hsettled hsettled'
      obtain ⟨rfl, hend⟩ := items_unique h hsettled hsettled' (closes_finish _) (closes_finish _)
      cases hend
      exact ⟨rfl, rfl⟩
  | .save value name, .save value' name', _, _, h, _, _, _, _ => by
      rw [Item.tokens_save_append, Item.tokens_save_append, List.cons.injEq] at h
      obtain ⟨rfl, hend⟩ := Expr.unique h.2 (noOperator_keyword _ _)
        (noOperator_keyword _ _)
      cases hend
      exact ⟨rfl, rfl⟩
  | .call _, .call _, _, _, h, _, _, _, _ => by
      cases h
      exact ⟨rfl, rfl⟩
  | .expr value, .expr value', _, _, h, _, _, hw, hw' => by
      obtain ⟨rfl, hend⟩ := Expr.unique h hw hw'
      exact ⟨rfl, hend⟩
  | .expr value, .procedure .., _, _, h, _, _, _, _ => (value.tokens_append_ne rfl h).elim
  | .expr value, .save .., _, _, h, _, _, _, _ => (value.tokens_append_ne rfl h).elim
  | .expr value, .call _, _, _, h, _, _, _, _ => (value.tokens_append_ne rfl h).elim
  | .procedure .., .expr value, _, _, h, _, _, _, _ => (value.tokens_append_ne rfl h.symm).elim
  | .save .., .expr value, _, _, h, _, _, _, _ => (value.tokens_append_ne rfl h.symm).elim
  | .call _, .expr value, _, _, h, _, _, _, _ => (value.tokens_append_ne rfl h.symm).elim
  | .procedure .., .save .., _, _, h, _, _, _, _ => by cases h
  | .procedure .., .call .., _, _, h, _, _, _, _ => by cases h
  | .save .., .procedure .., _, _, h, _, _, _, _ => by cases h
  | .save .., .call .., _, _, h, _, _, _, _ => by cases h
  | .call .., .procedure .., _, _, h, _, _, _, _ => by cases h
  | .call .., .save .., _, _, h, _, _, _, _ => by cases h

theorem items_unique : ∀ {items items' : List Item} {w w' : List Token},
    tokensAll items ++ w = tokensAll items' ++ w' → SettledAll items → SettledAll items' →
      Closes w → Closes w' → items = items' ∧ w = w'
  | [], [], _, _, h, _, _, _, _ => ⟨rfl, h⟩
  | [], item :: rest, _, w', h, _, _, hw, _ => by
      rw [tokensAll, tokensAll, List.append_assoc, List.nil_append] at h
      rw [h] at hw
      exact (item.not_closes _ hw).elim
  | item :: rest, [], w, _, h, _, _, _, hw' => by
      rw [tokensAll, tokensAll, List.append_assoc, List.nil_append] at h
      rw [← h] at hw'
      exact (item.not_closes _ hw').elim
  | item :: rest, item' :: rest', _, _, h, hsettled, hsettled', hw, hw' => by
      have hends := hsettled.ends hw
      have hends' := hsettled'.ends hw'
      rw [SettledAll] at hsettled hsettled'
      rw [tokensAll, tokensAll, List.append_assoc, List.append_assoc] at h
      obtain ⟨rfl, hrest⟩ := Item.unique h hsettled.1 hsettled'.1 hends hends'
      obtain ⟨rfl, hend⟩ := items_unique hrest hsettled.2.2 hsettled'.2.2 hw hw'
      exact ⟨rfl, hend⟩

end

def Terms.append : Terms → Terms → Terms
  | .nil, ts' => ts'
  | .cons op sum next rest, ts' => .cons op sum next (rest.append ts')

theorem Terms.tokens_append : ∀ ts ts' : Terms, (ts.append ts').tokens = ts.tokens ++ ts'.tokens
  | .nil, _ => rfl
  | .cons op sum next rest, ts' => by
      rw [Terms.append, Terms.tokens, Terms.tokens, Terms.tokens_append rest ts',
        List.cons_append, List.cons_append, List.cons_append, List.append_assoc]

def Expr.before : Expr → List Item → List Item
  | .mk first rest, .expr (.mk (.mk (.minus f) fs) ts) :: items =>
      .expr (.mk first (rest.append (.cons .sub rfl (.mk f fs) ts))) :: items
  | e, items => .expr e :: items

theorem Expr.tokens_before (e : Expr) (items : List Item) :
    tokensAll (e.before items) = e.tokens ++ tokensAll items := by
  fun_cases Expr.before e items with
  | case1 first rest f fs ts items =>
      simp only [tokensAll, Item.tokens, Expr.tokens, Term.tokens, Factor.tokens, Terms.tokens,
        Terms.tokens_append, List.cons_append, List.append_assoc]
  | case2 => rw [tokensAll, Item.tokens]

theorem Item.eq_expr_of_head {item : Item} (h : item.tokens.head? = some (.operator .sub)) :
    ∃ f fs ts, item = .expr (.mk (.mk (.minus f) fs) ts) := by
  match item, h with
  | .expr (.mk (.mk (.minus f) fs) ts), _ => exact ⟨f, fs, ts, rfl⟩

theorem SettledAll.before {items : List Item} (h : SettledAll items) (e : Expr) :
    SettledAll (e.before items) := by
  fun_cases Expr.before e items with
  -- What follows the expression that was joined also followed the one that it took in.
  | case1 first rest f fs ts items => exact h
  | case2 _ _ hminus =>
      refine ⟨trivial, fun next hnext hhead => ?_, h⟩
      obtain ⟨f, fs, ts, rfl⟩ := Item.eq_expr_of_head hhead
      obtain ⟨rest, rfl⟩ := List.head?_eq_some_iff.mp hnext
      obtain ⟨first, terms⟩ := e
      exact hminus first terms f fs ts rest rfl rfl

mutual

def Item.settle : Item → List Item → List Item
  | .procedure name inner, rest => .procedure name (settleAll inner) :: rest
  | .expr value, rest => value.before rest
  | .save value name, rest => .save value name :: rest
  | .call name, rest => .call name :: rest

def settleAll : List Item → List Item
  | [] => []
  | item :: rest => item.settle (settleAll rest)

end

mutual

theorem Item.tokens_settle : ∀ (item : Item) (rest : List Item),
    tokensAll (item.settle rest) = item.tokens ++ tokensAll rest
  | .procedure name inner, rest => by
      rw [Item.settle, tokensAll, Item.tokens, Item.tokens, tokens_settleAll inner]
  | .expr value, rest => by rw [Item.settle, value.tokens_before, Item.tokens]
  | .save .., rest | .call _, rest => by rw [Item.settle, tokensAll]

theorem tokens_settleAll : ∀ items : List Item, tokensAll (settleAll items) = tokensAll items
  | [] => rfl
  | item :: rest => by rw [settleAll, Item.tokens_settle, tokens_settleAll rest, tokensAll]

end

mutual

theorem Item.settledAll_settle : ∀ (item : Item) {rest : List Item}, SettledAll rest →
    SettledAll (item.settle rest)
  | .procedure name inner, _, h => by
      rw [Item.settle, SettledAll, Item.Settled]
      exact ⟨settledAll_settleAll inner, fun _ _ => trivial, h⟩
  | .expr value, _, h => by
      rw [Item.settle]
      exact h.before value
  | .save .., _, h | .call _, _, h => ⟨trivial, fun _ _ => trivial, h⟩

theorem settledAll_settleAll : ∀ items : List Item, SettledAll (settleAll items)
  | [] => trivial
  | item :: rest => by
      rw [settleAll]
      exact item.settledAll_settle (settledAll_settleAll rest)

end

theorem exists_iff_existsUnique_settled (w : List Token) :
    (∃ items, tokensAll items = w) ↔ ∃! items, tokensAll items = w ∧ SettledAll items := by
  constructor
  · rintro ⟨items, rfl⟩
    refine ⟨settleAll items, ⟨tokens_settleAll items, settledAll_settleAll items⟩, ?_⟩
    rintro items' ⟨htokens, hsettled⟩
    have hwords : tokensAll items' ++ [] = tokensAll (settleAll items) ++ [] := by
      rw [htokens, tokens_settleAll]
    exact (items_unique hwords hsettled (settledAll_settleAll items) closes_nil closes_nil).1
  · rintro ⟨items, ⟨htokens, -⟩, -⟩
    exact ⟨items, htokens⟩

-- One subtraction, or a number and a negated one.
example : tokensAll [.expr (.mk (.mk (.number 1) .nil)
      (.cons .sub rfl (.mk (.number 2) .nil) .nil))] =
    tokensAll [.expr (.mk (.mk (.number 1) .nil) .nil),
      .expr (.mk (.mk (.minus (.number 2)) .nil) .nil)] :=
  rfl

end Grammar

end Niladic
