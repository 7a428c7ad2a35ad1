import ReactiveMarkup.Reactive.Value
import ReactiveMarkup.Proofs.Addresses

/-! # What emitted functions bind

The key function of a loop and the setter of a two-way binding each hold a path that the author
wrote. Their parameters decide which variable the path starts at.
-/

namespace ReactiveMarkup.Template

open Reactive (Value)
open Script (Tree)

/-- A variable and the fields that are read from it in turn. -/
structure Path where
  root : String
  fields : List String
  deriving DecidableEq

namespace Path

def ofTree? : Tree → Option Path
  | .node (.name n) _ _ => some ⟨n, []⟩
  | .node .paren _ [t] => ofTree? t
  | .node (.dot _) _ [t, key] => do
    let p ← ofTree? t
    return ⟨p.root, p.fields ++ [← key.name?]⟩
  | _ => none

def of? (code : String) : Option Path := (Script.parseExpression code).bind ofTree?

def walk (p : Path) (v : Value) : Value := p.fields.foldl Value.get v

end Path

/-! ## Keys -/

structure KeyFunction where
  parameters : List String
  body : String

namespace KeyFunction

def text (f : KeyFunction) : String :=
  let parameters := ", ".intercalate f.parameters
  s!"function getKey({parameters}) \x7breturn {f.body};\x7d"

/-- The answer to `arguments` where the variables outside the function are `outer`. -/
def call (f : KeyFunction) (outer : String → Value) (arguments : List Value) : Option Value :=
  (Path.of? f.body).map fun p =>
    p.walk (((f.parameters.zip arguments).lookup p.root).getD (outer p.root))

end KeyFunction

variable {kindOf : String → Option Expression.Kind}

theorem key_ne_item {header : String} {h : EachHeader} (hh : parseEach kindOf header = .ok h) :
    h.key ≠ some h.item := by
  unfold parseEach at hh
  repeat' split at hh
  all_goals cases hh
  · simp
  · next hk _ => simpa using (Option.filter_eq_some_iff.mp hk).2

theorem of?_index : Path.of? "i" = some ⟨"i", []⟩ := by decide +kernel

/-- The key function of a loop answers with its index parameter, or with a path that starts at its
item parameter only where the author wrote the name of the whole item. Any other path starts at a
variable outside the loop. -/
theorem getKey_call {header : String} {h : EachHeader} {k : String} {p : Path}
    (hh : parseEach kindOf header = .ok h) (hk : h.key = some k) (hp : Path.of? k = some p) :
    k ≠ h.item ∧ ∃ f : KeyFunction, keyCode h = f.text ∧ ∀ outer item index,
      f.call outer [item, index] = some (
        if k = h.index then index
        else p.walk (if p.root = h.item then item else outer p.root)) := by
  refine ⟨fun hitem => key_ne_item hh (hitem ▸ hk), ?_⟩
  by_cases hindex : k = h.index
  · refine ⟨⟨["_", "i"], "i"⟩, ?_, fun outer item index => ?_⟩
    · simp only [keyCode, hk, hindex, beq_self_eq_true, if_true]
      decide +kernel
    · simp [KeyFunction.call, of?_index, hindex, Path.walk, List.lookup_cons]
  · refine ⟨⟨[h.item], k⟩, ?_, fun outer item index => ?_⟩
    · unfold keyCode KeyFunction.text
      rw [hk, String.intercalate_singleton]
      exact if_neg (by simpa using hindex)
    · by_cases hroot : p.root = h.item
      · simp [KeyFunction.call, hp, hindex, hroot]
      · have hne : (p.root == h.item) = false := by simpa using hroot
        simp [KeyFunction.call, hp, hindex, hroot, hne, List.lookup_cons]

theorem getKey_call_field : ∃ f : KeyFunction,
    keyCode ⟨"rows", "$$item", "$index", some "id", ["id"]⟩ = f.text ∧
      ∀ outer item index, f.call outer [item, index] = some (outer "id") := by
  have hh : parseEach Expression.kind? "#each rows as \x7bid\x7d (id)" =
      .ok ⟨"rows", "$$item", "$index", some "id", ["id"]⟩ := by rfl
  have hp : Path.of? "id" = some ⟨"id", []⟩ := by decide +kernel
  exact (getKey_call hh rfl hp).2

/-! ## Setters -/

structure Setter where
  parameter : String
  target : String

namespace Setter

def text (f : Setter) : String :=
  s!"{f.parameter} => \x7b{f.target} = {f.parameter}; $$apply();\x7d);"

/-- The path outside the setter that a call assigns to. -/
def assigned? (f : Setter) : Option Path := (Path.of? f.target).filter (·.root ≠ f.parameter)

end Setter

/-- The setter of a two-way binding assigns to the path that the author wrote, unless that starts at
the name which is next in the count. -/
theorem twoWay_setter {path : List Nat} {e : Markup.Element} {x : ElementWork} {s : Setting}
    {w w' : Work} {spec content code : String} {value : Option String}
    (hr : Runs s (twoWayCode (nameAt path) e x spec value content) w code w') :
    ∃ call m, ∃ f : Setter,
      code = call ++ f.text ∧ s.kindOf f.target = some .identifier ∧
      Yields s (twoWayExpression ((directiveParts spec).headD "") ((directiveParts spec).drop 1)
        value content) (f.target, []) ∧
      f.parameter = "a" ++ toString m ∧
      m = w.names.count + (if (w.addresses.nameAt? path).isSome then 0 else 1) ∧
      w'.names.count = m + 1 ∧
      ∀ p, Path.of? f.target = some p → (f.assigned? = some p ↔ p.root ≠ "a" ++ toString m) := by
  simp only [twoWayCode, runs_bind, runs_require, runs_requireName, Prod.exists, runs_nameAt,
    runs_fresh, runs_pure] at hr
  obtain ⟨-, u, ⟨-, hu⟩, x, options, v, hx, -, u₁, ⟨-, hu₁⟩, -, u₂, ⟨hoptions, hu₂⟩, -, u₃,
    ⟨hkind, hu₃⟩, el, _, ⟨-, rfl⟩, a, _, ⟨rfl, rfl⟩, rfl, rfl⟩ := hr
  obtain rfl : u₃ = v := hu₃.trans (hu₂.trans hu₁)
  rw [hu, List.isEmpty_iff.mp hoptions] at hx
  obtain ⟨hkept, hnames, -⟩ := steady_twoWayExpression _ _ _ _ _ _ _ _ hx
  have hcount : (u₃.addresses.claim "el" u₃.names path).2.2.count =
      w.names.count + if (w.addresses.nameAt? path).isSome then 0 else 1 := by
    rw [Address.claim_names, hkept.addresses, hnames]
    split
    · rfl
    · rfl
  refine ⟨_, _, ⟨_, x⟩, rfl, hkind, ⟨_, _, hx⟩, rfl, hcount, rfl, fun p hp => ?_⟩
  simp [Setter.assigned?, hp]

theorem twoWay_setter_captured : ∃ code w' call, ∃ f : Setter,
    Runs sampleSetting (twoWayCode (nameAt [0]) (sampleTag "input" []) ⟨[], none, false⟩ "value"
      (some "\x7ba1\x7d") "") {} code w' ∧
    code = call ++ f.text ∧ f.parameter = "a1" ∧
    ∀ p, Path.of? f.target = some p → (f.assigned? = some p ↔ p.root ≠ "a1") := by
  have hstart : ((twoWayCode (nameAt [0]) (sampleTag "input" []) ⟨[], none, false⟩ "value"
      (some "\x7ba1\x7d") "").start sampleSetting).1.toOption.map id =
      some "$runtime.bindInput($cd, el0, 'value', () => a1, a1 => \x7ba1 = a1; $$apply();\x7d);" :=
    by decide +kernel
  obtain ⟨code, w', hr, -⟩ := runs_of_start hstart
  obtain ⟨call, m, f, hcode, -, -, hf, rfl, -, hp⟩ := twoWay_setter hr
  exact ⟨code, w', call, f, hr, hcode, hf, hp⟩

end ReactiveMarkup.Template
