import Mathlib.Data.List.Forall2
import Niladic.Code.Listing
import Niladic.Proofs.Labels

namespace Niladic

open Text

theorem flatMap_terminated_injective {α : Type} {a : α} {xs ys : List (List α)}
    (hxs : ∀ x ∈ xs, a ∉ x) (hys : ∀ y ∈ ys, a ∉ y)
    (h : xs.flatMap (· ++ [a]) = ys.flatMap (· ++ [a])) : xs = ys := by
  induction xs generalizing ys with
  | nil =>
      cases ys with
      | nil => rfl
      | cons y ys => simp at h
  | cons x xs ih =>
      cases ys with
      | nil => simp at h
      | cons y ys =>
          obtain ⟨hx, hxs⟩ := List.forall_mem_cons.mp hxs
          obtain ⟨hy, hys⟩ := List.forall_mem_cons.mp hys
          simp only [List.flatMap_cons, List.append_assoc, List.singleton_append] at h
          obtain ⟨hhead, hrest⟩ := append_cons_inj_of_not_mem hx hy h
          rw [hhead, ih hxs hys hrest]

theorem flatMap_headed_injective {α : Type} {a : α} {xs ys : List (List α)}
    (hxs : ∀ x ∈ xs, a ∉ x) (hys : ∀ y ∈ ys, a ∉ y)
    (h : xs.flatMap (a :: ·) = ys.flatMap (a :: ·)) : xs = ys := by
  have shift (zs : List (List α)) : zs.flatMap (a :: ·) ++ [a] = a :: zs.flatMap (· ++ [a]) := by
    induction zs with
    | nil => rfl
    | cons z zs ih => simp [ih]
  have hshift : a :: xs.flatMap (· ++ [a]) = a :: ys.flatMap (· ++ [a]) := by
    rw [← shift, ← shift, h]
  exact flatMap_terminated_injective hxs hys (List.cons.inj hshift).2

theorem map_eq_map_of {α β γ : Type} {f : α → β} {g : α → γ} {P : α → Prop}
    (hfg : ∀ {x y}, P x → P y → f x = f y → g x = g y) {xs ys : List α} (hxs : ∀ x ∈ xs, P x)
    (hys : ∀ y ∈ ys, P y) (h : xs.map f = ys.map f) : xs.map g = ys.map g := by
  induction xs generalizing ys with
  | nil =>
      cases ys with
      | nil => rfl
      | cons y ys => cases h
  | cons x xs ih =>
      cases ys with
      | nil => cases h
      | cons y ys =>
          obtain ⟨hx, hxs⟩ := List.forall_mem_cons.mp hxs
          obtain ⟨hy, hys⟩ := List.forall_mem_cons.mp hys
          obtain ⟨hhead, htail⟩ := List.cons.inj h
          rw [List.map_cons, List.map_cons, hfg hx hy hhead, ih hxs hys htail]

theorem map_injective_of {α β : Type} {f : α → β} {P : α → Prop}
    (hf : ∀ {x y}, P x → P y → f x = f y → x = y) {xs ys : List α} (hxs : ∀ x ∈ xs, P x)
    (hys : ∀ y ∈ ys, P y) (h : xs.map f = ys.map f) : xs = ys := by
  have hid := map_eq_map_of (g := id) hf hxs hys h
  rwa [List.map_id, List.map_id] at hid

theorem mapM_eq_some_iff {α β : Type} {f : α → Option β} {xs : List α} {ys : List β} :
    xs.mapM f = some ys ↔ List.Forall₂ (fun x y => f x = some y) xs ys := by
  induction xs generalizing ys with
  | nil => cases ys <;> simp
  | cons x xs ih =>
      rw [List.mapM_cons]
      cases ys with
      | nil => simp [Option.bind_eq_some_iff]
      | cons y ys => simp [Option.bind_eq_some_iff, List.forall₂_cons, ih]

theorem forall_mem_right {α β : Type} {R : α → β → Prop} {P : β → Prop} {xs : List α} {ys : List β}
    (h : List.Forall₂ R xs ys) (hP : ∀ x ∈ xs, ∀ y, R x y → P y) : ∀ y ∈ ys, P y := by
  induction h with
  | nil => simp
  | @cons x y xs ys hxy _ ih =>
      obtain ⟨hx, hxs⟩ := List.forall_mem_cons.mp hP
      exact List.forall_mem_cons.mpr ⟨hx y hxy, ih hxs⟩

inductive Phrase where
  | arith (op : Operator) (left right : String)
  | slot
  | load (pointer : String)
  | store (value pointer : String)
  | call (returns : Returns) (callee : String)
  | ret (value : String)
  | retVoid

namespace Phrase

def text : Phrase → String
  | .arith op left right => op.mnemonic ++ " double " ++ left ++ ", " ++ right
  | .slot => "alloca double"
  | .load pointer => "load double, ptr " ++ pointer
  | .store value pointer => "store double " ++ value ++ ", ptr " ++ pointer
  | .call returns callee => "call " ++ returns.typeName ++ " @" ++ callee ++ "()"
  | .ret value => "ret double " ++ value
  | .retVoid => "ret void"

@[simp] theorem text_arith (op : Operator) (left right : String) :
    text (.arith op left right) = op.mnemonic ++ " double " ++ left ++ ", " ++ right := rfl

@[simp] theorem text_slot : text .slot = "alloca double" := rfl

@[simp] theorem text_load (pointer : String) :
    text (.load pointer) = "load double, ptr " ++ pointer := rfl

@[simp] theorem text_store (value pointer : String) :
    text (.store value pointer) = "store double " ++ value ++ ", ptr " ++ pointer := rfl

@[simp] theorem text_call (returns : Returns) (callee : String) :
    text (.call returns callee) = "call " ++ returns.typeName ++ " @" ++ callee ++ "()" := rfl

@[simp] theorem text_ret (value : String) : text (.ret value) = "ret double " ++ value := rfl

@[simp] theorem text_retVoid : text .retVoid = "ret void" := rfl

def Clear : Phrase → Prop
  | .arith _ left right => Free [',', '\n'] left ∧ Free [',', '\n'] right
  | .store value pointer => Free [',', '\n'] value ∧ Free [',', '\n'] pointer
  | .load text | .call _ text | .ret text => Free [',', '\n'] text
  | .slot | .retVoid => True

theorem mnemonic_append_injective {op op' : Operator} {s s' : List Char}
    (h : op.mnemonic.toList ++ s = op'.mnemonic.toList ++ s') : op = op' ∧ s = s' := by
  cases op <;> cases op' <;> simp [Operator.mnemonic] at h <;> simp [h]

theorem typeName_append_injective {r r' : Returns} {s s' : List Char}
    (h : r.typeName.toList ++ s = r'.typeName.toList ++ s') : r = r' ∧ s = s' := by
  cases r <;> cases r' <;> simp [Returns.typeName] at h <;> simp [h]

def initial : Phrase → Char
  | .arith .. => 'f'
  | .slot => 'a'
  | .load _ => 'l'
  | .store .. => 's'
  | .call .. => 'c'
  | .ret _ | .retVoid => 'r'

theorem head?_text (p : Phrase) : p.text.toList.head? = some p.initial := by
  cases p with
  | arith op left right => cases op <;> simp [initial, Operator.mnemonic]
  | _ => simp [initial]

theorem text_injective {p q : Phrase} (hp : p.Clear) (hq : q.Clear) (h : p.text = q.text) :
    p = q := by
  -- The first letter tells phrases apart, but for the two that return.
  have hinitial : p.initial = q.initial := by
    rw [← Option.some_inj, ← head?_text, ← head?_text, h]
  have comma {s : String} (hs : Free [',', '\n'] s) : ',' ∉ s.toList := hs.not_mem (by decide)
  replace h := congrArg String.toList h
  cases p with
  | arith op left right =>
      cases q with
      | arith op' left' right' =>
          simp only [text_arith, String.toList_append, List.append_assoc] at h
          obtain ⟨rfl, h⟩ := mnemonic_append_injective h
          simp only [List.append_cancel_left_eq] at h
          obtain ⟨hleft, hright⟩ := append_cons_inj_of_not_mem (comma hp.1) (comma hq.1) h
          rw [String.toList_inj.mp hleft, String.toList_inj.mp (List.cons.inj hright).2]
      | _ => simp [initial] at hinitial
  | slot =>
      cases q with
      | slot => rfl
      | _ => simp [initial] at hinitial
  | load pointer =>
      cases q with
      | load pointer' =>
          simp [String.toList_inj] at h
          rw [h]
      | _ => simp [initial] at hinitial
  | store value pointer =>
      cases q with
      | store value' pointer' =>
          simp only [text_store, String.toList_append, List.append_assoc,
            List.append_cancel_left_eq] at h
          obtain ⟨hvalue, hpointer⟩ := append_cons_inj_of_not_mem (comma hp.1) (comma hq.1) h
          simp [String.toList_inj] at hpointer
          rw [String.toList_inj.mp hvalue, hpointer]
      | _ => simp [initial] at hinitial
  | call returns callee =>
      cases q with
      | call returns' callee' =>
          simp only [text_call, String.toList_append, List.append_assoc,
            List.append_cancel_left_eq] at h
          obtain ⟨rfl, h⟩ := typeName_append_injective h
          simp [String.toList_inj] at h
          rw [h]
      | _ => simp [initial] at hinitial
  | ret value =>
      cases q with
      | ret value' =>
          simp [String.toList_inj] at h
          rw [h]
      | retVoid => simp at h
      | _ => simp [initial] at hinitial
  | retVoid =>
      cases q with
      | ret value' => simp at h
      | retVoid => rfl
      | _ => simp [initial] at hinitial

theorem free_text {p : Phrase} (hp : p.Clear) : Free ['\n'] p.text := by
  have clear {s : String} (hs : Free [',', '\n'] s) : Free ['\n'] s := hs.mono (by decide)
  cases p with
  | arith op left right =>
      have hop : Free ['\n'] op.mnemonic := by cases op <;> decide
      exact (((hop.append (by decide)).append (clear hp.1)).append (by decide)).append (clear hp.2)
  | slot => decide
  | load pointer => exact Free.append (by decide) (clear hp)
  | store value pointer =>
      exact ((Free.append (by decide) (clear hp.1)).append (by decide)).append (clear hp.2)
  | call returns callee =>
      have htype : Free ['\n'] returns.typeName := by cases returns <;> decide
      exact (((Free.append (by decide) htype).append (by decide)).append (clear hp)).append (by decide)
  | ret value => exact Free.append (by decide) (clear hp)
  | retVoid => decide

end Phrase

structure Line where
  result : Option String
  phrase : Phrase

namespace Line

def text (l : Line) : String := "  " ++ l.result.elim "" (· ++ " = ") ++ l.phrase.text

theorem text_named (r : String) (p : Phrase) : text ⟨some r, p⟩ = "  " ++ r ++ " = " ++ p.text := by
  simp only [text, Option.elim_some, String.append_assoc]

theorem text_unnamed (p : Phrase) : text ⟨none, p⟩ = "  " ++ p.text := rfl

structure Clear (l : Line) : Prop where
  result : ∀ r ∈ l.result, ∃ name, r = "%" ++ name ∧ Plain name
  phrase : l.phrase.Clear

theorem text_injective {l l' : Line} (hl : l.Clear) (hl' : l'.Clear) (h : l.text = l'.text) :
    l = l' := by
  obtain ⟨result, phrase⟩ := l
  obtain ⟨result', phrase'⟩ := l'
  have hne (p : Phrase) : p.text.toList.head? ≠ some '%' := by
    rw [Phrase.head?_text]
    cases p <;> simp [Phrase.initial]
  unfold text at h
  replace h := congrArg String.toList h
  cases result with
  | none =>
      cases result' with
      | none =>
          simp only [Option.elim_none, String.toList_append, List.append_assoc,
            List.append_cancel_left_eq, String.toList_inj] at h
          have hphrase : phrase = phrase' := Phrase.text_injective hl.phrase hl'.phrase h
          rw [hphrase]
      | some r' =>
          obtain ⟨name', rfl, -⟩ := hl'.result r' rfl
          simp at h
          exact absurd (by rw [h]; rfl) (hne phrase)
  | some r =>
      obtain ⟨name, rfl, hname⟩ := hl.result r rfl
      cases result' with
      | none =>
          simp at h
          exact absurd (by rw [← h]; rfl) (hne phrase')
      | some r' =>
          obtain ⟨name', rfl, hname'⟩ := hl'.result r' rfl
          simp only [Option.elim_some, String.toList_append, List.append_assoc,
            List.append_cancel_left_eq] at h
          obtain ⟨hresult, hrest⟩ := append_cons_inj_of_not_mem (hname.not_mem (by decide))
            (hname'.not_mem (by decide)) h
          simp [String.toList_inj] at hresult hrest
          have hphrase : phrase = phrase' := Phrase.text_injective hl.phrase hl'.phrase hrest
          rw [hresult, hphrase]

theorem free_text {l : Line} (hl : l.Clear) : Free ['\n'] l.text := by
  obtain ⟨result, phrase⟩ := l
  refine (Free.append (by decide) ?_).append (Phrase.free_text hl.phrase)
  cases result with
  | none => exact (by decide : Free ['\n'] "")
  | some r =>
      obtain ⟨name, rfl, hname⟩ := hl.result r rfl
      exact (Free.append (by decide) (hname.mono (by decide))).append (by decide)

theorem text_ne_empty (l : Line) : l.text ≠ "" := by
  intro h
  have := congrArg String.toList h
  simp [text] at this

end Line

@[ext] structure Paragraph where
  name : String
  returns : Returns
  body : List Line

namespace Paragraph

def title (p : Paragraph) : String :=
  "define " ++ (p.returns.typeName ++ " @" ++ p.name ++ "()") ++ " \x7b"

def lines (p : Paragraph) : List String :=
  p.title :: "entry:" :: (p.body.map Line.text ++ ["\x7d"])

structure Clear (p : Paragraph) : Prop where
  name : Plain p.name
  body : ∀ l ∈ p.body, l.Clear

theorem title_injective {p q : Paragraph} (h : p.title = q.title) :
    p.name = q.name ∧ p.returns = q.returns := by
  replace h := congrArg String.toList h
  simp only [title, String.toList_append, List.append_assoc, List.append_cancel_left_eq] at h
  obtain ⟨hreturns, h⟩ := Phrase.typeName_append_injective h
  simp [String.toList_inj] at h
  exact ⟨h, hreturns⟩

theorem lines_injective {p q : Paragraph} (hp : p.Clear) (hq : q.Clear) (h : p.lines = q.lines) :
    p = q := by
  obtain ⟨htitle, hbody⟩ := List.cons.inj h
  obtain ⟨hname, hreturns⟩ := title_injective htitle
  have htexts := List.append_cancel_right (List.cons.inj hbody).2
  exact Paragraph.ext hname hreturns
    (map_injective_of (fun hl hl' => Line.text_injective hl hl') hp.body hq.body htexts)

theorem mem_lines {p : Paragraph} (hp : p.Clear) {s : String} (hs : s ∈ p.lines) :
    s ≠ "" ∧ Free ['\n'] s := by
  simp only [lines, List.mem_cons, List.mem_append, List.mem_map, List.not_mem_nil, or_false] at hs
  rcases hs with rfl | rfl | ⟨l, hl, rfl⟩ | rfl
  · have htype : Free ['\n'] p.returns.typeName := by cases p.returns <;> decide
    refine ⟨fun h => ?_, (Free.append (by decide) (((htype.append (by decide)).append
      (hp.name.mono (by decide))).append (by decide))).append (by decide)⟩
    simpa [title] using congrArg String.toList h
  · exact ⟨by decide, by decide⟩
  · exact ⟨l.text_ne_empty, Line.free_text (hp.body l hl)⟩
  · exact ⟨by decide, by decide⟩

end Paragraph

end Niladic
