import Mathlib.Data.List.Induction
import ReactiveMarkup.Proofs.TemplateLiteral

/-! # Values of interpolated text

The parts of a text are joined by `+`, which adds two numbers and joins all else.
-/

namespace ReactiveMarkup.Interpolation

inductive Scalar (ν : Type) where
  | number (n : ν)
  | string (s : String)

structure Numbers (ν : Type) where
  add : ν → ν → ν
  print : ν → String

namespace Numbers

variable {ν : Type} (N : Numbers ν)

def text : Scalar ν → String
  | .number n => N.print n
  | .string s => s

def plus : Scalar ν → Scalar ν → Scalar ν
  | .number m, .number n => .number (N.add m n)
  | a, b => .string (N.text a ++ N.text b)

def settle : Scalar ν → List (Scalar ν) → List (Scalar ν)
  | .number m, .number n :: vs => settle (.number (N.add m n)) vs
  | v, vs => v :: vs

inductive Operand : List Char → Part × Scalar ν → Prop where
  | literal : readLiteral (cs ++ [backquote]) = (t.toList, .closed []) →
    Operand (backquote :: (cs ++ [backquote])) (.text t, .string t)
  | code (c : String) (v : Scalar ν) : Operand ('(' :: (c.toList ++ [')'])) (.code c, v)

inductive Evaluates : List Char → List (Part × Scalar ν) → Scalar ν → Prop where
  | operand : Operand cs p → Evaluates cs [p] p.2
  | plus : Evaluates cs ps v → Operand ds p →
    Evaluates (cs ++ '+' :: ds) (ps ++ [p]) (N.plus v p.2)
  | coerced (v : Scalar ν) :
    Evaluates "''+$class".toList [(.code "$class", v)] (N.plus (.string "") v)

variable (e : Escape) (v : Scalar ν) (vs : List (Scalar ν))

theorem operand_render (hv : ∀ t, p = .text t → v = .string t) :
    Operand (p.render e).toList (p, v) := by
  cases p with
  | text t =>
    obtain rfl := hv t rfl
    have hread := @readLiteral_chars e t.toList [backquote] (by decide)
    rw [readLiteral_closed, List.append_nil] at hread
    simpa [Part.render, Escape.apply] using Operand.literal hread
  | code c => simpa [Part.render] using Operand.code c v

theorem evaluates_render (hv : ∀ p ∈ first :: rest, ∀ t, p.1 = .text t → p.2 = .string t) :
    N.Evaluates ("+".intercalate (((first :: rest).map (·.1)).map (Part.render e))).toList
      (first :: rest) ((rest.map (·.2)).foldl N.plus first.2) := by
  induction rest using List.reverseRecOn with
  | nil => simpa using .operand (operand_render e _ (hv first (by simp)))
  | append_singleton rest p ih =>
    rw [← List.cons_append, List.forall_mem_append] at hv
    have hlast := operand_render e p.2 (hv.2 p (by simp))
    rw [← List.cons_append, List.map_append, List.map_append,
      String.intercalate_append_of_ne_nil (by simp) (by simp)]
    simpa using (ih hv.1).plus hlast

theorem foldl_string :
    vs.foldl N.plus (.string s) = .string (s ++ String.join (vs.map N.text)) := by
  induction vs generalizing s with
  | nil => simp
  | cons v vs ih =>
    have hplus : N.plus (.string s) v = .string (s ++ N.text v) := by cases v <;> rfl
    rw [List.foldl_cons, hplus, ih]
    simp [String.append_assoc]

theorem text_foldl : N.text (vs.foldl N.plus v) = String.join ((N.settle v vs).map N.text) := by
  induction vs generalizing v with
  | nil => cases v <;> simp [settle]
  | cons w vs ih =>
    cases v with
    | string s =>
      rw [foldl_string, settle]
      · simp [text]
      · nofun
    | number m =>
      cases w with
      | number n => exact ih (.number (N.add m n))
      | string s => simp [settle, plus, foldl_string, text, String.append_assoc]

end Numbers

/-- The expression of a text evaluates to its values, joined in order once the numbers at the front
are added up. None are unless it begins with two numbers. -/
theorem parts_join_after_numbers {ν : Type} (N : Numbers ν) (source : String) (e : Escape)
    (r : Interpolated) (h : parse source e = .ok r) (first : Part × Scalar ν)
    (rest : List (Part × Scalar ν)) (hparts : r.parts = (first :: rest).map (·.1))
    (hv : ∀ p ∈ first :: rest, ∀ t, p.1 = .text t → p.2 = .string t) :
    ∃ v, N.Evaluates r.result.toList (first :: rest) v ∧
      N.text v = String.join ((N.settle first.2 (rest.map (·.2))).map N.text) ∧
      ((∀ m n others, first.2 :: rest.map (·.2) ≠ .number m :: .number n :: others) →
        N.text v = String.join ((first :: rest).map fun p => N.text p.2)) := by
  have hresult : r.result = render e r.parts := by
    unfold parse at h
    split at h <;> cases h
    rfl
  obtain ⟨v, hvalue, htext⟩ : ∃ v, N.Evaluates r.result.toList (first :: rest) v ∧
      N.text v = String.join ((N.settle first.2 (rest.map (·.2))).map N.text) := by
    rw [hresult, hparts, render]
    split
    · next hclass =>
      obtain ⟨hfirst, rfl⟩ : first.1 = .code "$class" ∧ rest = [] := by simpa using hclass
      obtain ⟨_, v⟩ := first
      cases hfirst
      refine ⟨_, .coerced v, ?_⟩
      cases v <;> simp [Numbers.plus, Numbers.settle, Numbers.text]
    · exact ⟨_, N.evaluates_render e hv, N.text_foldl _ _⟩
  refine ⟨v, hvalue, htext, fun hnone => ?_⟩
  rw [htext, Numbers.settle.eq_2 _ _ _ (by simpa using hnone)]
  simp [Function.comp_def]

def wholes : Numbers Nat := ⟨Nat.add, Nat.repr⟩

/-- Two numbers side by side are added, although text follows. -/
theorem parts_join_after_numbers_wholes : ∃ r v,
    parse "\x7ba\x7d\x7bb\x7d px" .template = .ok r ∧
      wholes.Evaluates r.result.toList
        [(.code "a", .number 1), (.code "b", .number 2), (.text " px", .string " px")] v ∧
      wholes.text v = "3 px" := by
  obtain ⟨v, hvalue, htext, -⟩ := parts_join_after_numbers wholes "\x7ba\x7d\x7bb\x7d px" .template
    ⟨"(a)+(b)+\x60 px\x60", [.code "a", .code "b", .text " px"]⟩ (by rfl) (.code "a", .number 1)
    [(.code "b", .number 2), (.text " px", .string " px")] rfl (by simp)
  exact ⟨_, v, by rfl, hvalue, htext.trans (by decide)⟩

end ReactiveMarkup.Interpolation
