import Mathlib.Data.List.Infix
import Niladic.Proofs.Literals
import Niladic.Tree.Outline

namespace Niladic

theorem Kind.title_injective {k k' : Kind} (h : k.title = k'.title) : k = k' := by
  have hread (k : Kind) : ofTitle? k.title = some k := by cases k <;> rfl
  exact Option.some.inj ((hread k).symm.trans (h ▸ hread k'))

theorem Operator.symbol_injective {op op' : Operator} (h : op.symbol = op'.symbol) : op = op' :=
  Option.some.inj ((ofSymbol?_symbol op).symm.trans (h ▸ ofSymbol?_symbol op'))

namespace Tree

theorem toList_indented (depth : Nat) (text : String) :
    (indented depth text).toList = List.replicate depth '\t' ++ text.toList := by
  simp [indented]

theorem indented_inj {depth : Nat} {text text' : String}
    (h : indented depth text = indented depth text') : text = text' := by
  have hlist := congrArg String.toList h
  rw [toList_indented, toList_indented] at hlist
  exact String.toList_inj.mp (List.append_cancel_left hlist)

def remark : Tree → String
  | .number value => " " ++ Number.text value
  | .binary op _ _ => " " ++ op.symbol.toString
  | _ => ""

def details (depth : Nat) : Tree → List String
  | .program items | .body items => outlineAll depth items
  | .number _ => []
  | .binary _ left right => outline depth left ++ outline depth right
  | .assign name value => indented depth ("VariableName: " ++ name) :: outline depth value
  | .procedure name inner => indented depth ("Name: " ++ name) :: outline depth inner
  | .call name => [indented depth ("Name: " ++ name)]

def headline (t : Tree) : String := t.kind.title ++ ":" ++ t.remark

theorem outline_eq_cons (depth : Nat) (t : Tree) :
    outline depth t = indented depth t.headline :: t.details (depth + 1) := by
  cases t with
  | number value =>
      rw [outline, headline, remark, ← String.append_assoc]
      rfl
  | binary op left right =>
      rw [outline, headline, remark, ← String.append_assoc]
      rfl
  | program | assign | body | procedure | call => rfl

theorem toList_headline (t : Tree) :
    t.headline.toList = t.kind.title.toList ++ ':' :: t.remark.toList := by
  simp [headline]

theorem headline_inj {s t : Tree} (h : s.headline = t.headline) :
    s.kind = t.kind ∧ s.remark = t.remark := by
  have hcolon (k : Kind) : ':' ∉ k.title.toList := by cases k <;> decide
  have hlist := congrArg String.toList h
  rw [toList_headline, toList_headline] at hlist
  obtain ⟨htitle, hremark⟩ := append_cons_inj_of_not_mem (hcolon _) (hcolon _) hlist
  exact ⟨Kind.title_injective (String.toList_inj.mp htitle), String.toList_inj.mp hremark⟩

def Shallow (depth : Nat) (lines : List String) : Prop :=
  ∀ line ∈ lines.head?, ¬ List.replicate depth '\t' <+: line.toList

theorem Shallow.succ {depth : Nat} {lines : List String} (h : Shallow depth lines) :
    Shallow (depth + 1) lines := by
  intro line hline hdeep
  refine h line hline (List.IsPrefix.trans ?_ hdeep)
  rw [List.replicate_succ']
  exact List.prefix_append ..

theorem shallow_outline_append (depth : Nat) (t : Tree) (rest : List String) :
    Shallow (depth + 1) (outline depth t ++ rest) := by
  intro line hline hdeep
  rw [outline_eq_cons] at hline
  cases hline
  rw [toList_indented, List.replicate_succ', List.prefix_append_right_inj, toList_headline] at hdeep
  have htab (k : Kind) : ¬ ['\t'] <+: k.title.toList ++ ':' :: t.remark.toList := by
    cases k <;> simp [Kind.title]
  exact htab _ hdeep

theorem not_shallow_outline_append (depth : Nat) (t : Tree) (rest : List String) :
    ¬ Shallow depth (outline depth t ++ rest) := by
  rw [outline_eq_cons]
  intro h
  refine h _ rfl ?_
  rw [toList_indented]
  exact List.prefix_append ..

theorem shallow_outlineAll_append {depth : Nat} {rest : List String} (items : List Tree)
    (h : Shallow depth rest) : Shallow (depth + 1) (outlineAll depth items ++ rest) := by
  cases items with
  | nil => exact h.succ
  | cons item items =>
      rw [outlineAll, List.append_assoc]
      exact shallow_outline_append depth item _

theorem named_inj {depth : Nat} {label name name' : String} {lines lines' : List String}
    (h : indented depth (label ++ name) :: lines = indented depth (label ++ name') :: lines') :
    name = name' ∧ lines = lines' := by
  obtain ⟨hline, hlines⟩ := List.cons.inj h
  exact ⟨String.append_right_inj label |>.mp (indented_inj hline), hlines⟩

mutual

theorem outline_unique {depth : Nat} {rest rest' : List String} : ∀ {s t : Tree},
    outline depth s ++ rest = outline depth t ++ rest' → Shallow (depth + 1) rest →
      Shallow (depth + 1) rest' → s = t ∧ rest = rest' := by
  intro s t h hrest hrest'
  rw [outline_eq_cons, outline_eq_cons, List.cons_append, List.cons_append] at h
  obtain ⟨hhead, h⟩ := List.cons.inj h
  obtain ⟨hkind, hremark⟩ := headline_inj (indented_inj hhead)
  match s, t, hkind with
  | .program items, .program items', _ | .body items, .body items', _ =>
      obtain ⟨rfl, hend⟩ := outlineAll_unique h hrest hrest'
      exact ⟨rfl, hend⟩
  | .number x, .number y, _ =>
      obtain rfl := Number.text_injective ((String.append_right_inj " ").mp hremark)
      exact ⟨rfl, h⟩
  | .binary op left right, .binary op' left' right', _ =>
      have hop : op.symbol.toString = op'.symbol.toString := (String.append_right_inj " ").mp hremark
      obtain rfl := Operator.symbol_injective (by simpa using congrArg String.toList hop)
      rw [details, details, List.append_assoc, List.append_assoc] at h
      obtain ⟨rfl, hright⟩ := outline_unique h (shallow_outline_append _ right _)
        (shallow_outline_append _ right' _)
      obtain ⟨rfl, hend⟩ := outline_unique hright hrest.succ hrest'.succ
      exact ⟨rfl, hend⟩
  | .assign name value, .assign name' value', _ =>
      obtain ⟨rfl, hvalue⟩ := named_inj h
      obtain ⟨rfl, hend⟩ := outline_unique hvalue hrest.succ hrest'.succ
      exact ⟨rfl, hend⟩
  | .procedure name inner, .procedure name' inner', _ =>
      obtain ⟨rfl, hinner⟩ := named_inj h
      obtain ⟨rfl, hend⟩ := outline_unique hinner hrest.succ hrest'.succ
      exact ⟨rfl, hend⟩
  | .call name, .call name', _ =>
      obtain ⟨rfl, hend⟩ := named_inj h
      exact ⟨rfl, hend⟩

theorem outlineAll_unique {depth : Nat} {rest rest' : List String} : ∀ {xs ys : List Tree},
    outlineAll depth xs ++ rest = outlineAll depth ys ++ rest' → Shallow depth rest →
      Shallow depth rest' → xs = ys ∧ rest = rest'
  | [], [], h, _, _ => ⟨rfl, h⟩
  | [], y :: ys, h, hrest, _ => by
      rw [outlineAll, outlineAll, List.nil_append, List.append_assoc] at h
      exact (not_shallow_outline_append depth y _ (h ▸ hrest)).elim
  | x :: xs, [], h, _, hrest' => by
      rw [outlineAll, outlineAll, List.nil_append, List.append_assoc] at h
      exact (not_shallow_outline_append depth x _ (h ▸ hrest')).elim
  | x :: xs, y :: ys, h, hrest, hrest' => by
      rw [outlineAll, outlineAll, List.append_assoc, List.append_assoc] at h
      obtain ⟨rfl, hitems⟩ := outline_unique h (shallow_outlineAll_append xs hrest)
        (shallow_outlineAll_append ys hrest')
      obtain ⟨rfl, hend⟩ := outlineAll_unique hitems hrest hrest'
      exact ⟨rfl, hend⟩

end

/-- Different trees have different outlines, at every depth. All that is not a number is one and the
same literal here, so that no tree has to be left out. -/
theorem outline_determines_tree (depth : Nat) : Function.Injective (outline depth) := by
  intro s t h
  have hend : Shallow (depth + 1) [] := by
    intro line hline
    cases hline
  have happend : outline depth s ++ [] = outline depth t ++ [] := by rw [h]
  exact (outline_unique happend hend hend).1

end Tree

end Niladic
