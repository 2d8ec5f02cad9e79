import Niladic.Proofs.Parsing
import Niladic.Proofs.Signs

/-!
Reading builds exactly the trees of source programs. Each of them is spelled with an operator always
in parentheses, a minus sign for each literal that has its sign set, and parentheses around each
expression that is an item, which no minus sign can then join to the item before it.
-/

namespace Niladic

def Unsigned (w : List Token) : Prop := ∀ x, .number x ∈ w → Number.isSigned x = false

namespace Grammar

def Factor.expr (f : Factor) : Expr := .mk (.mk f .nil) .nil

theorem Factor.tokens_expr (f : Factor) : f.expr.tokens = f.tokens := by
  rw [Factor.expr, Expr.tokens, Term.tokens, Factors.tokens, Terms.tokens, List.append_nil,
    List.append_nil]

theorem Factor.tree_expr (f : Factor) : f.expr.tree = f.tree := by
  rw [Factor.expr, Expr.tree, Term.tree, Factors.treeFrom, Terms.treeFrom]

def Expr.pair (op : Operator) (left right : Factor) : Expr :=
  match h : op.isProduct with
  | true => .mk (.mk left (.cons op h right .nil)) .nil
  | false => .mk (.mk left .nil) (.cons op h (.mk right .nil) .nil)

theorem Expr.tokens_pair (op : Operator) (left right : Factor) :
    (Expr.pair op left right).tokens = left.tokens ++ .operator op :: right.tokens := by
  unfold Expr.pair
  split <;> simp [Expr.tokens, Term.tokens, Factors.tokens, Terms.tokens]

theorem Expr.tree_pair (op : Operator) (left right : Factor) :
    (Expr.pair op left right).tree = .binary op left.tree right.tree := by
  unfold Expr.pair
  split <;> simp [Expr.tree, Term.tree, Factors.treeFrom, Terms.treeFrom]

end Grammar

open Grammar

namespace Tree

def factor : Tree → Factor
  | .number x => if Number.isSigned x then .minus (.number (-x)) else .number x
  | .binary op left right => .parens (.pair op left.factor right.factor)
  | _ => .number 0

mutual

def item : Tree → Item
  | .procedure name (.body items) => .procedure name (itemAll items)
  | .call name => .call name
  | .assign name value => .save value.factor.expr name
  | t => .expr (Factor.parens t.factor.expr).expr

def itemAll : List Tree → List Item
  | [] => []
  | t :: rest => t.item :: itemAll rest

end

variable {t : Tree}

theorem IsExpression.tree_factor (h : t.IsExpression) : t.factor.tree = t := by
  induction h with
  | number x =>
      rw [factor]
      split
      next hsigned =>
        change Tree.number (- -x) = _
        rw [Number.neg_neg_of_isSigned hsigned]
      next => rfl
  | binary op _ _ hleft hright => rw [factor, Factor.tree, Expr.tree_pair, hleft, hright]

theorem IsExpression.unsigned_factor (h : t.IsExpression) : Unsigned t.factor.tokens := by
  induction h with
  | number x =>
      rw [factor]
      split
      next hsigned => simpa [Unsigned, Factor.tokens] using Number.isSigned_neg hsigned
      next hclear => simpa [Unsigned, Factor.tokens] using hclear
  | binary op _ _ hleft hright =>
      rw [factor, Factor.tokens, Expr.tokens_pair]
      intro x hx
      simp only [List.cons_append, List.append_assoc, List.mem_cons, List.mem_append, reduceCtorEq,
        List.not_mem_nil, false_or, or_false] at hx
      exact hx.elim (hleft x) (hright x)

structure Spelled (t : Tree) : Prop where
  tree : t.item.tree = t
  settled : t.item.Settled
  unsigned : Unsigned t.item.tokens
  opening : t.item.tokens.head? ≠ some (.operator .sub)

theorem IsExpression.spelled (h : t.IsExpression) : t.Spelled := by
  have hitem : t.item = .expr (Factor.parens t.factor.expr).expr := by
    cases h <;> rfl
  have htokens : t.item.tokens = .opening :: t.factor.tokens ++ [.closing] := by
    rw [hitem, Item.tokens, Factor.tokens_expr, Factor.tokens, Factor.tokens_expr]
  constructor
  · rw [hitem, Item.tree, Factor.tree_expr, Factor.tree, Factor.tree_expr, h.tree_factor]
  · rw [hitem]
    trivial
  · rw [htokens]
    simpa [Unsigned] using h.unsigned_factor
  · rw [htokens]
    nofun

theorem spelledAll {items : List Tree} (h : ∀ t ∈ items, t.Spelled) :
    treeAll (itemAll items) = items ∧ SettledAll (itemAll items) ∧
      Unsigned (tokensAll (itemAll items)) := by
  induction items with
  | nil => exact ⟨rfl, trivial, nofun⟩
  | cons t rest ih =>
      obtain ⟨ht, hrest⟩ := List.forall_mem_cons.mp h
      obtain ⟨htree, hsettled, hunsigned⟩ := ih hrest
      rw [itemAll]
      refine ⟨?_, ⟨ht.settled, fun next hnext => ?_, hsettled⟩, fun x hx => ?_⟩
      · rw [treeAll, ht.tree, htree]
      · -- The next item does not start with a minus sign.
        cases rest with
        | nil => cases hnext
        | cons t' rest =>
            cases hnext
            cases t.item with
            | procedure | save | call => trivial
            | expr => exact (hrest t' List.mem_cons_self).opening
      · exact (List.mem_append.mp hx).elim (ht.unsigned x) (hunsigned x)

theorem IsItem.spelled (h : t.IsItem) : t.Spelled := by
  induction h with
  | @procedure name items hitems ih =>
      obtain ⟨htree, hsettled, hunsigned⟩ := spelledAll ih
      have hitem : item (.procedure name (.body items)) = .procedure name (itemAll items) := rfl
      constructor
      · rw [hitem, Item.tree, htree]
      · exact hsettled
      · simpa [Unsigned, hitem, Item.tokens] using hunsigned
      · nofun
  | call name =>
      exact ⟨rfl, trivial, nofun, nofun⟩
  | @assign name value hvalue =>
      have hitem : item (.assign name value) = .save value.factor.expr name := rfl
      constructor
      · rw [hitem, Item.tree, Factor.tree_expr, hvalue.tree_factor]
      · trivial
      · simpa [Unsigned, hitem, Item.tokens, Factor.tokens_expr] using hvalue.unsigned_factor
      · nofun
  | expression ht => exact ht.spelled

-- The literal after the expression is negated, and not subtracted from it.
example : tokensAll (itemAll [.number 1, .number (-2)]) =
    [.opening, .number 1, .closing, .opening, .operator .sub, .number 2, .closing] := by
  decide +kernel

end Tree

namespace Reading

theorem step_stop (r : Reading) : ∃ fault, r.step .stop = .error fault := by
  obtain ⟨phase, items, enclosing⟩ := r
  cases phase with
  | item | procedureName | operand | variableName => exact ⟨_, rfl⟩
  | operator purpose sum term outer =>
      cases outer with
      | nil => cases purpose <;> exact ⟨_, rfl⟩
      | cons nest outer => exact ⟨_, rfl⟩

theorem stop_not_mem_of_run {r : Reading} {w : List Token} {t : Tree} (h : r.run w = .ok t) :
    .stop ∉ w := by
  induction w generalizing r with
  | nil => nofun
  | cons token w ih =>
      rw [run] at h
      intro hstop
      rcases List.mem_cons.mp hstop with rfl | hstop
      · obtain ⟨fault, hfault⟩ := r.step_stop
        rw [hfault] at h
        cases h
      · split at h
        next => exact ih h hstop
        next => cases h

theorem exists_ofTokens {w : List Token} {t : Tree} (h : run start w = .ok t) :
    ∃ tokens, tokens.map Placed.token = w ∧ Tree.ofTokens tokens = .ok t := by
  have htokens : (w.map (Placed.mk · Position.start)).map Placed.token = w := by
    rw [List.map_map]
    exact List.map_id w
  refine ⟨w.map (Placed.mk · Position.start), htokens, readAll_eq_ok_iff.mpr ?_⟩
  have hword : w.takeWhile (· ≠ .stop) = w := by
    apply List.takeWhile_eq_self_iff.mpr
    intro token htoken
    simpa using fun hstop : token = .stop => stop_not_mem_of_run h (hstop ▸ htoken)
  rw [word, htokens, hword]
  exact h

end Reading

namespace Token

theorem exists_lexeme_of_mem_placedFrom {before : List Char} {pieces : List Piece} {p : Placed}
    (hp : p ∈ placedFrom before pieces) : ∃ w, p.token = ofLexeme w := by
  induction pieces generalizing before with
  | nil => cases hp
  | cons piece pieces ih =>
      rcases List.mem_cons.mp hp with rfl | hp
      · exact ⟨piece.lexeme, rfl⟩
      · exact ih hp

theorem ofSymbol?_ne_number {c : Char} {x : Float} : ofSymbol? c ≠ some (.number x) := by
  unfold ofSymbol?
  split
  · nofun
  · nofun
  · intro h
    obtain ⟨op, -, hop⟩ := Option.map_eq_some_iff.mp h
    cases hop

theorem isSigned_of_ofLexeme {w : List Char} {x : Float} (h : ofLexeme w = .number x) :
    Number.isSigned x = false := by
  unfold ofLexeme at h
  split at h
  next => cases h
  next c rest =>
    split at h
    next token hsymbol =>
      rw [h] at hsymbol
      exact (ofSymbol?_ne_number hsymbol).elim
    next =>
      split at h
      next =>
        cases h
        exact Number.isSigned_ofDigits _ _
      next =>
        unfold ofWord at h
        split at h <;> cases h

theorem unsigned_of_ofText {text : String} {tokens : List Placed} (h : ofText text = .ok tokens) :
    Unsigned (tokens.map Placed.token) := by
  obtain ⟨cutting, hcuts⟩ := exists_cuts text.toList
  have hgives : Gives cutting (ofText text) := @scan_gives _ _ hcuts [] (by simp)
  rw [h] at hgives
  intro x hx
  obtain ⟨p, hp, htoken⟩ := List.mem_map.mp hx
  cases hgives with
  | tokens hrest hpoints =>
      rcases List.mem_append.mp hp with hp | hp
      · obtain ⟨w, hw⟩ := exists_lexeme_of_mem_placedFrom hp
        exact isSigned_of_ofLexeme (hw.symm.trans htoken)
      · cases List.mem_singleton.mp hp
        cases htoken

end Token

/-- Reading builds the trees of source programs and no others, and for each of them it is enough to
read tokens without signs, which are all that scanning gives. -/
theorem Tree.ofTokens_builds_exactly_source (t : Tree) :
    ((∃ tokens, ofTokens tokens = .ok t) ↔ t.IsSource) ∧
    (t.IsSource ↔ ∃ tokens, Unsigned (tokens.map Placed.token) ∧ ofTokens tokens = .ok t) ∧
    ∀ text tokens, Token.ofText text = .ok tokens → Unsigned (tokens.map Placed.token) := by
  have hbuilds : ∀ tokens, ofTokens tokens = .ok t → t.IsSource := by
    intro tokens h
    obtain ⟨items, -, -, rfl⟩ := Reading.run_start_eq_ok_iff.mp (Reading.readAll_eq_ok_iff.mp h)
    exact .program (isItem_of_mem items)
  have hspelled : t.IsSource →
      ∃ tokens, Unsigned (tokens.map Placed.token) ∧ ofTokens tokens = .ok t := by
    rintro ⟨hitems⟩
    obtain ⟨htree, hsettled, hunsigned⟩ := spelledAll fun t ht => (hitems t ht).spelled
    obtain ⟨tokens, htokens, htree'⟩ :=
      Reading.exists_ofTokens (Reading.run_start_eq_ok_iff.mpr ⟨_, rfl, hsettled, rfl⟩)
    rw [htree] at htree'
    rw [← htokens] at hunsigned
    exact ⟨tokens, hunsigned, htree'⟩
  refine ⟨⟨fun ⟨tokens, h⟩ => hbuilds tokens h, fun h => ?_⟩,
    ⟨hspelled, fun ⟨tokens, _, h⟩ => hbuilds tokens h⟩, fun _ _ => Token.unsigned_of_ofText⟩
  obtain ⟨tokens, -, h⟩ := hspelled h
  exact ⟨tokens, h⟩

end Niladic
