import ReactiveMarkup.Template.Address
import ReactiveMarkup.Template.Static

/-! # Trees of addresses

What naming a node does to the tree of addresses, and what the definitions of the variables do when
they are executed one after the other over a forest: each variable comes to hold the node that the
tree names with it.
-/

namespace ReactiveMarkup.Template

open List Option Address

theorem lookup_cons_eq [BEq α] [LawfulBEq α] [DecidableEq α] (cs : List (α × β)) :
    ((k, b) :: cs).lookup j = if j = k then some b else cs.lookup j := by
  rw [lookup_cons]
  by_cases h : j = k
  · simp [h]
  · simp [h, beq_false_of_ne h]

theorem mem_of_lookup [BEq α] [LawfulBEq α] {k : α} {b : β} {cs : List (α × β)}
    (h : cs.lookup k = some b) : (k, b) ∈ cs := by
  obtain ⟨before, after, rfl, -⟩ := lookup_eq_some_iff.mp h
  simp

/-! ## Numbered names -/

theorem numbered_inj {j k : Nat} (h : stem ++ toString j = stem ++ toString k) : j = k := by
  have hlist := congrArg String.toList h
  rw [String.toList_append, String.toList_append, append_cancel_left_eq] at hlist
  have hdigits : Nat.toDigits 10 j = Nat.toDigits 10 k := by
    rw [← Nat.toList_repr, ← Nat.toList_repr]
    exact hlist
  rw [← Nat.ofDigitChars_ten_toDigits (n := j), hdigits, Nat.ofDigitChars_ten_toDigits]

def elementName (k : Nat) : String := "el" ++ toString k

theorem elementName_inj {j k : Nat} (h : elementName j = elementName k) : j = k := numbered_inj h

theorem elementName_ne_parent : elementName k ≠ "$parentElement" := by
  intro h
  have hlist := congrArg (fun s => s.toList.head?) h
  rw [elementName] at hlist
  simp at hlist

namespace Address

/-! ## The tree by paths -/

def nameAt? : Address → List Nat → Option String
  | a, [] => a.name?
  | a, i :: path => nameAt? (childAt i a.children) path

def Has : Address → List Nat → Prop
  | _, [] => True
  | a, i :: path => ∃ c, a.children.lookup i = some c ∧ Has c path

/-- Children stand in the order of their indices, at every level. -/
inductive Ordered : Address → Prop where
  | node (name : Option String) (cs : List (Nat × Address)) :
      (cs.map Prod.fst).Pairwise (· < ·) → (∀ c ∈ cs, Ordered c.2) → Ordered (.node name cs)

theorem nameAt?_empty : empty.nameAt? path = none := by
  induction path with
  | nil => rfl
  | cons i path ih => exact ih

theorem has_empty : empty.Has path ↔ path = [] := by
  cases path with
  | nil => simp [Has]
  | cons i path => simp [Has, empty, children]

theorem has_childAt (h : (childAt i cs).Has path) :
    path = [] ∨ ∃ c, cs.lookup i = some c ∧ c.Has path := by
  unfold childAt at h
  cases hc : cs.lookup i with
  | none =>
    rw [hc] at h
    exact .inl (has_empty.mp h)
  | some c =>
    rw [hc] at h
    exact .inr ⟨c, rfl, h⟩

theorem lookup_putChild : (putChild i a cs).lookup j = if j = i then some a else cs.lookup j := by
  induction cs with
  | nil => rw [putChild, lookup_cons_eq]
  | cons c cs ih =>
    obtain ⟨k, b⟩ := c
    unfold putChild
    split
    · rw [lookup_cons_eq]
    · split
      · next he =>
        subst he
        rw [lookup_cons_eq, lookup_cons_eq]
        by_cases hj : j = i <;> simp [hj]
      · next hne =>
        rw [lookup_cons_eq, lookup_cons_eq, ih]
        by_cases hj : j = i
        · simp [hj, hne]
        · simp [hj]

theorem mem_putChild (h : c ∈ putChild i a cs) : c = (i, a) ∨ c ∈ cs := by
  induction cs with
  | nil => simpa [putChild] using h
  | cons d cs ih =>
    unfold putChild at h
    split at h
    · simpa using h
    · split at h
      · rcases mem_cons.mp h with h | h
        · exact .inl h
        · exact .inr (.tail _ h)
      · rcases mem_cons.mp h with h | h
        · exact .inr (h ▸ mem_cons_self)
        · exact (ih h).imp_right (.tail _)

theorem keys_putChild (h : (cs.map Prod.fst).Pairwise (· < ·)) :
    ((putChild i a cs).map Prod.fst).Pairwise (· < ·) := by
  induction cs with
  | nil => simp [putChild]
  | cons d cs ih =>
    rw [map_cons, pairwise_cons] at h
    unfold putChild
    split
    · next hlt =>
      simp only [map_cons, pairwise_cons, mem_cons]
      refine ⟨?_, h.1, h.2⟩
      rintro j (rfl | hj)
      · exact hlt
      · exact Nat.lt_trans hlt (h.1 j hj)
    · split
      · next he =>
        subst he
        simpa using h
      · next hlt hne =>
        rw [map_cons, pairwise_cons]
        refine ⟨?_, ih h.2⟩
        intro j hj
        obtain ⟨c, hc, rfl⟩ := mem_map.mp hj
        rcases mem_putChild hc with rfl | hc
        · exact Nat.lt_of_le_of_ne (Nat.le_of_not_lt hlt) (Ne.symm hne)
        · exact h.1 c.1 (mem_map_of_mem hc)

theorem ordered_empty : empty.Ordered := .node none [] .nil (by simp)

theorem Ordered.childAt {a : Address} (h : a.Ordered) (i : Nat) :
    (childAt i a.children).Ordered := by
  cases h with
  | node name cs hkeys hcs =>
    unfold Address.childAt
    cases hc : cs.lookup i with
    | none =>
      simp only [children, hc, getD_none]
      exact ordered_empty
    | some c =>
      simp only [children, hc, getD_some]
      exact hcs (i, c) (mem_of_lookup hc)

/-! ## Naming a node -/

variable (stem : String) (a : Address) (names : Names)

theorem claim_fst :
    (a.claim stem names path).1 = (a.nameAt? path).getD (stem ++ toString names.count) := by
  induction path generalizing a with
  | nil =>
    cases a with
    | node name cs => cases name <;> rfl
  | cons i path ih => exact ih (childAt i a.children)

theorem claim_names : (a.claim stem names path).2.2 =
      if (a.nameAt? path).isSome then names else { count := names.count + 1 } := by
  induction path generalizing a with
  | nil =>
    cases a with
    | node name cs => cases name <;> rfl
  | cons i path ih => exact ih (childAt i a.children)

theorem nameAt?_claim : (a.claim stem names path).2.1.nameAt? q =
      if q = path then some (a.claim stem names path).1 else a.nameAt? q := by
  induction path generalizing a q with
  | nil =>
    cases a with
    | node name cs =>
      cases q with
      | nil | cons j q => cases name <;> rfl
  | cons i path ih =>
    cases q with
    | nil => rfl
    | cons j q =>
      have hchild : (a.claim stem names (i :: path)).2.1.nameAt? (j :: q) =
          (childAt j (putChild i ((childAt i a.children).claim stem names path).2.1
            a.children)).nameAt? q := rfl
      rw [hchild, childAt, lookup_putChild]
      by_cases hj : j = i
      · subst hj
        rw [if_pos rfl, getD_some, ih]
        by_cases hq : q = path
        · rw [if_pos hq, if_pos (by rw [hq])]
          rfl
        · rw [if_neg hq, if_neg (by simpa using hq)]
          rfl
      · rw [if_neg hj, if_neg (by simp [hj])]
        rfl

theorem has_claim (h : (a.claim stem names path).2.1.Has q) : a.Has q ∨ q <+: path := by
  induction path generalizing a q with
  | nil =>
    left
    cases a with
    | node name cs =>
      cases q with
      | nil => trivial
      | cons j q => cases name <;> exact h
  | cons i path ih =>
    cases q with
    | nil => exact .inl trivial
    | cons j q =>
      obtain ⟨c, hc, hq⟩ := h
      have hc : (putChild i ((childAt i a.children).claim stem names path).2.1
          a.children).lookup j = some c := hc
      rw [lookup_putChild] at hc
      by_cases hj : j = i
      · subst hj
        rw [if_pos rfl] at hc
        obtain rfl := some.inj hc
        rcases ih _ hq with hq | hq
        · rcases has_childAt hq with rfl | hq
          · exact .inr (by simp)
          · exact .inl hq
        · exact .inr (by simpa using hq)
      · rw [if_neg hj] at hc
        exact .inl ⟨c, hc, hq⟩

theorem Ordered.claim {a : Address} (h : a.Ordered) : (a.claim stem names path).2.1.Ordered := by
  induction path generalizing a with
  | nil =>
    cases h with
    | node name cs hkeys hcs => cases name <;> exact .node _ cs hkeys hcs
  | cons i path ih =>
    have hchild := ih (h.childAt i)
    cases h with
    | node name cs hkeys hcs =>
      refine .node name _ (keys_putChild hkeys) ?_
      intro c hc
      rcases mem_putChild hc with rfl | hc
      · exact hchild
      · exact hcs c hc

/-- The names of a tree are variables that have been given out, each to one node. -/
structure Named (a : Address) (names : Names) : Prop where
  below : ∀ p n, a.nameAt? p = some n → ∃ k < names.count, n = elementName k
  unique : ∀ p q n, a.nameAt? p = some n → a.nameAt? q = some n → p = q

theorem named_empty (names : Names) : empty.Named names where
  below p n h := by simp [nameAt?_empty] at h
  unique p q n h := by simp [nameAt?_empty] at h

theorem Named.lt {a : Address} {names : Names} (h : a.Named names)
    (hp : a.nameAt? p = some (elementName k)) : k < names.count := by
  obtain ⟨j, hj, he⟩ := h.below p _ hp
  rwa [elementName_inj he]

theorem Named.mono {a : Address} {names names' : Names} (h : a.Named names)
    (hn : names.count ≤ names'.count) : a.Named names' where
  below p n hp := by
    obtain ⟨k, hk, rfl⟩ := h.below p n hp
    exact ⟨k, Nat.lt_of_lt_of_le hk hn, rfl⟩
  unique := h.unique

theorem Named.claim {a : Address} {names : Names} (h : a.Named names) :
    (a.claim "el" names path).2.1.Named (a.claim "el" names path).2.2 := by
  rw [claim_names]
  cases hp : a.nameAt? path with
  | some m =>
    -- the node has its name already
    have hsame : ∀ q, (a.claim "el" names path).2.1.nameAt? q = a.nameAt? q := by
      intro q
      rw [nameAt?_claim, claim_fst, hp]
      by_cases hq : q = path
      · rw [if_pos hq, hq, hp]
        rfl
      · rw [if_neg hq]
    exact ⟨fun p n hn => h.below p n (hsame p ▸ hn),
      fun p q n hn hn' => h.unique p q n (hsame p ▸ hn) (hsame q ▸ hn')⟩
  | none =>
    have hname : ∀ q, (a.claim "el" names path).2.1.nameAt? q =
        if q = path then some (elementName names.count) else a.nameAt? q := by
      intro q
      rw [nameAt?_claim, claim_fst, hp]
      rfl
    -- the new name is none of the old ones
    have hnew : ∀ q, a.nameAt? q ≠ some (elementName names.count) := fun q hq =>
      Nat.lt_irrefl _ (h.lt hq)
    constructor
    · intro p n hn
      rw [hname] at hn
      split at hn
      · exact ⟨names.count, Nat.lt_succ_self _, (some.inj hn).symm⟩
      · obtain ⟨k, hk, rfl⟩ := h.below p n hn
        exact ⟨k, Nat.lt_succ_of_lt hk, rfl⟩
    · intro p q n hn hn'
      rw [hname] at hn hn'
      split at hn
      · next hp =>
        split at hn'
        · next hq => rw [hp, hq]
        · exact absurd (hn'.trans hn.symm) (hnew q)
      · split at hn'
        · exact absurd (hn.trans hn'.symm) (hnew p)
        · exact h.unique p q n hn hn'

end Address

/-! ## Forests -/

def Static.children : Static → List Static
  | .element _ _ body => body
  | _ => []

/-- The nodes below the node at a path; the empty path leads to the root of the forest. -/
def childrenAt : List Static → List Nat → Option (List Static)
  | forest, [] => some forest
  | forest, i :: path =>
    match forest[i]? with
    | some s => childrenAt s.children path
    | none => none

def Reaches (forest : List Static) (path : List Nat) : Prop := (childrenAt forest path).isSome

theorem childrenAt_append (forest : List Static) :
    childrenAt forest (p ++ q) = (childrenAt forest p).bind fun below => childrenAt below q := by
  induction p generalizing forest with
  | nil => rfl
  | cons i p ih =>
    rw [cons_append, childrenAt, childrenAt]
    cases forest[i]? with
    | none => rfl
    | some s => exact ih s.children

theorem Reaches.of_append (h : Reaches forest (p ++ q)) : Reaches forest p := by
  unfold Reaches at h
  rw [childrenAt_append] at h
  cases hp : childrenAt forest p with
  | none => simp [hp] at h
  | some below => simp [Reaches, hp]

theorem Reaches.of_isPrefix (h : Reaches forest q) (hp : p <+: q) : Reaches forest p := by
  obtain ⟨r, rfl⟩ := hp
  exact h.of_append

/-! ## Definitions of variables -/

abbrev Locals := List (String × List Nat)

/-- Goes from a node to children, one index after the other; none when a child is missing. -/
def descend (forest : List Static) (path : List Nat) : List Nat → Option (List Nat)
  | [] => some path
  | i :: steps =>
    if i < ((childrenAt forest path).getD []).length then descend forest (path ++ [i]) steps
    else none

/-- None when it reads a variable that is not defined or a child that is missing, or defines a
variable again. -/
def Lookup.execute (forest : List Static) (env : Locals) (l : Lookup) : Option Locals :=
  match env.lookup l.base, env.lookup l.name with
  | some path, none => (descend forest path l.steps).map fun q => (l.name, q) :: env
  | _, _ => none

def execute (forest : List Static) (env : Locals) (ls : List Lookup) : Option Locals :=
  ls.foldlM (Lookup.execute forest) env

theorem execute_append : execute forest env (xs ++ ys) =
      (execute forest env xs).bind fun env' => execute forest env' ys :=
  foldlM_append

theorem descend_eq (h : Reaches forest (p ++ steps)) :
    descend forest p steps = some (p ++ steps) := by
  induction steps generalizing p with
  | nil => simp [descend]
  | cons i steps ih =>
    have hsplit : p ++ i :: steps = (p ++ [i]) ++ steps := by simp
    rw [hsplit] at h
    have hchild : i < ((childrenAt forest p).getD []).length := by
      have hi := h.of_append
      unfold Reaches at hi
      rw [childrenAt_append] at hi
      cases hp : childrenAt forest p with
      | none => simp [hp] at hi
      | some below =>
        simp only [hp, bind_some, childrenAt] at hi
        cases hb : below[i]? with
        | none => simp [hb] at hi
        | some s => exact (List.getElem?_eq_some_iff.mp hb).1
    rw [descend, if_pos hchild, ih h, hsplit]

/-! ## The variables of a tree -/

/-- The variables of a tree whose root stands for the node at `path` can be defined. -/
structure Fits (forest : List Static) (path : List Nat) (a : Address) (names : Names)
    (env : Locals) : Prop where
  ordered : a.Ordered
  named : a.Named names
  free : ∀ p n, a.nameAt? p = some n → env.lookup n = none
  later : ∀ k, names.count ≤ k → env.lookup (elementName k) = none
  reaches : ∀ p, a.Has p → Reaches forest (path ++ p)

/-- The variables of the tree have been defined, and none but these and new ones. -/
structure Defines (path : List Nat) (a : Address) (names names' : Names) (env env' : Locals) :
    Prop where
  count : names.count ≤ names'.count
  keeps : ∀ n p, env.lookup n = some p → env'.lookup n = some p
  named : ∀ p n, a.nameAt? p = some n → env'.lookup n = some (path ++ p)
  only : ∀ n, env.lookup n = none → env'.lookup n ≠ none →
    (∃ p, a.nameAt? p = some n) ∨ ∃ k, names.count ≤ k ∧ k < names'.count ∧ n = elementName k

section Trees

variable {forest : List Static} {path : List Nat} {names names' : Names} {env env' : Locals}
  {a : Address} {cs : List (Nat × Address)}

theorem Address.nameAt?_cons : (node none ((i, a) :: cs)).nameAt? (j :: p) =
      if j = i then a.nameAt? p else (node none cs).nameAt? (j :: p) := by
  have hchild : (node none ((i, a) :: cs)).nameAt? (j :: p) =
      ((((i, a) :: cs).lookup j).getD .empty).nameAt? p := rfl
  rw [hchild, lookup_cons_eq]
  by_cases hj : j = i
  · rw [if_pos hj, if_pos hj]
    rfl
  · rw [if_neg hj, if_neg hj]
    rfl

@[simp] theorem Address.nameAt?_cons_self :
    (node none ((i, a) :: cs)).nameAt? (i :: p) = a.nameAt? p := by
  rw [nameAt?_cons, if_pos rfl]

theorem Address.nameAt?_forget {p : List Nat} {n : String}
    (h : (node none cs).nameAt? p = some n) :
    (node name cs).nameAt? p = some n ∧ p ≠ [] := by
  cases p with
  | nil => cases h
  | cons i p => exact ⟨h, by simp⟩

theorem Fits.root (h : Fits forest path a names env) : Reaches forest path := by
  have hr := h.reaches [] trivial
  rwa [append_nil] at hr

theorem Fits.forget {name : Option String} (h : Fits forest path (.node name cs) names env) :
    Fits forest path (.node none cs) names env where
  ordered := by
    cases h.ordered with
    | node _ _ hkeys hcs => exact .node none cs hkeys hcs
  named :=
    ⟨fun p n hn => h.named.below p n (nameAt?_forget hn).1, fun p q n hn hn' =>
      h.named.unique p q n (nameAt?_forget hn).1 (nameAt?_forget hn').1⟩
  free p n hn := h.free p n (nameAt?_forget hn).1
  later := h.later
  reaches p hp := by
    cases p with
    | nil => exact h.reaches [] trivial
    | cons i p => exact h.reaches (i :: p) hp

theorem Fits.define {n : String} {q : List Nat} (h : Fits forest path a names env)
    (hn : ∀ p, a.nameAt? p ≠ some n) (hl : ∀ k, names.count ≤ k → elementName k ≠ n) :
    Fits forest path a names ((n, q) :: env) where
  ordered := h.ordered
  named := h.named
  free p m hm := by
    have hne : m ≠ n := fun he => hn p (he ▸ hm)
    rw [lookup_cons_eq, if_neg hne]
    exact h.free p m hm
  later k hk := by
    rw [lookup_cons_eq, if_neg (hl k hk)]
    exact h.later k hk
  reaches := h.reaches

theorem Defines.define {name : Option String} {n : String}
    (hd : Defines path (.node none cs) names₁ names' ((n, path) :: env) env')
    (hn : env.lookup n = none) (hname : ∀ m, name = some m → m = n)
    (hcount : names.count ≤ names₁.count)
    (hnew : name = some n ∨ ∃ k, names.count ≤ k ∧ k < names₁.count ∧ n = elementName k) :
    Defines path (.node name cs) names names' env env' where
  count := Nat.le_trans hcount hd.count
  keeps m p hm := by
    refine hd.keeps m p ?_
    have hne : m ≠ n := by
      rintro rfl
      rw [hn] at hm
      cases hm
    rw [lookup_cons_eq, if_neg hne]
    exact hm
  named p m hm := by
    cases p with
    | nil =>
      obtain rfl := hname m hm
      rw [append_nil]
      exact hd.keeps m path (by rw [lookup_cons_eq, if_pos rfl])
    | cons i p => exact hd.named (i :: p) m hm
  only m hm hm' := by
    by_cases he : m = n
    · rcases hnew with hnew | ⟨k, hk, hk', hnk⟩
      · exact .inl ⟨[], by rw [he]; exact hnew⟩
      · exact .inr ⟨k, hk, Nat.lt_of_lt_of_le hk' hd.count, he.trans hnk⟩
    · have hlater : ((n, path) :: env).lookup m = none := by
        rw [lookup_cons_eq, if_neg he]
        exact hm
      rcases hd.only m hlater hm' with ⟨p, hp⟩ | ⟨k, hk, hk', hmk⟩
      · exact .inl ⟨p, (nameAt?_forget hp).1⟩
      · exact .inr ⟨k, Nat.le_trans hcount hk, hk', hmk⟩

theorem Fits.head (h : Fits forest path (.node none ((i, a) :: cs)) names env) :
    Fits forest (path ++ [i]) a names env := by
  refine ⟨?_, ⟨?_, ?_⟩, ?_, h.later, ?_⟩
  · cases h.ordered with
    | node _ _ hkeys hcs => exact hcs (i, a) mem_cons_self
  · intro p n hn
    exact h.named.below (i :: p) n (by simpa using hn)
  · intro p q n hn hn'
    have := h.named.unique (i :: p) (i :: q) n (by simpa using hn) (by simpa using hn')
    simpa using this
  · intro p n hn
    exact h.free (i :: p) n (by simpa using hn)
  · intro p hp
    have := h.reaches (i :: p) ⟨a, by simp [children], hp⟩
    simpa using this

theorem Address.nameAt?_tail {i : Nat} (ho : (node none ((i, a) :: cs)).Ordered)
    {p : List Nat} (h : (node none cs).nameAt? p = some n) :
    (node none ((i, a) :: cs)).nameAt? p = some n ∧ ∀ q, p ≠ i :: q := by
  cases p with
  | nil => cases h
  | cons j p =>
    have hj : j ≠ i := by
      rintro rfl
      cases ho with
      | node _ _ hkeys hcs =>
        have hnone : cs.lookup j = none := by
          rw [lookup_eq_none_iff]
          intro c hc
          have := (pairwise_cons.mp hkeys).1 c.1 (mem_map_of_mem hc)
          exact bne_iff_ne.mpr (Nat.ne_of_lt this)
        have hempty : (node none cs).nameAt? (j :: p) = empty.nameAt? p := by
          change ((cs.lookup j).getD .empty).nameAt? p = _
          rw [hnone]
          rfl
        rw [hempty, nameAt?_empty] at h
        cases h
    rw [nameAt?_cons, if_neg hj]
    exact ⟨h, by simp [hj]⟩

theorem Fits.tail {i : Nat} (h : Fits forest path (.node none ((i, a) :: cs)) names env)
    (hd : Defines (path ++ [i]) a names names' env env') :
    Fits forest path (.node none cs) names' env' := by
  have hnamed : ∀ p n, (node none cs).nameAt? p = some n →
      (node none ((i, a) :: cs)).nameAt? p = some n :=
    fun p n hn => (nameAt?_tail h.ordered hn).1
  refine ⟨?_, ?_, ?_, ?_, ?_⟩
  · cases h.ordered with
    | node _ _ hkeys hcs =>
      exact .node none cs (pairwise_cons.mp hkeys).2 fun c hc =>
        hcs c (.tail _ hc)
  · refine Address.Named.mono ⟨?_, ?_⟩ hd.count
    · exact fun p n hn => h.named.below p n (hnamed p n hn)
    · exact fun p q n hn hn' => h.named.unique p q n (hnamed p n hn) (hnamed q n hn')
  · intro p n hn
    obtain ⟨hwhole, hother⟩ := nameAt?_tail h.ordered hn
    have hfree := h.free p n hwhole
    cases hlook : env'.lookup n with
    | none => rfl
    | some q =>
      rcases hd.only n hfree (by simp [hlook]) with ⟨q, hq⟩ | ⟨k, hk, -, hnk⟩
      · exact absurd (h.named.unique p (i :: q) n hwhole (by simpa using hq)) (hother q)
      · have := h.named.lt (hnk ▸ hwhole)
        omega
  · intro k hk
    have hfree := h.later k (Nat.le_trans hd.count hk)
    cases hlook : env'.lookup (elementName k) with
    | none => rfl
    | some q =>
      rcases hd.only _ hfree (by simp [hlook]) with ⟨q, hq⟩ | ⟨m, -, hm, hkm⟩
      · have := h.named.lt (p := i :: q) (by simpa using hq)
        have := hd.count
        omega
      · have := elementName_inj hkm
        omega
  · intro p hp
    cases p with
    | nil => exact h.reaches [] trivial
    | cons j p =>
      obtain ⟨c, hc, hp⟩ := hp
      by_cases hj : j = i
      · subst hj
        cases h.ordered with
        | node _ _ hkeys hcs =>
          have hmem : (j, c) ∈ cs := mem_of_lookup hc
          have := (pairwise_cons.mp hkeys).1 j (mem_map_of_mem hmem)
          omega
      · refine h.reaches (j :: p) ⟨c, ?_, hp⟩
        rw [children, lookup_cons_eq, if_neg hj]
        exact hc

theorem Defines.cons (ho : (node none ((i, a) :: cs)).Ordered)
    (hd : Defines (path ++ [i]) a names names₁ env env₁)
    (hd' : Defines path (.node none cs) names₁ names' env₁ env') :
    Defines path (.node none ((i, a) :: cs)) names names' env env' where
  count := Nat.le_trans hd.count hd'.count
  keeps n p hn := hd'.keeps n p (hd.keeps n p hn)
  named p n hn := by
    cases p with
    | nil => cases hn
    | cons j p =>
      rw [nameAt?_cons] at hn
      split at hn
      · next hj =>
        have := hd'.keeps n _ (hd.named p n hn)
        simpa [hj] using this
      · exact hd'.named (j :: p) n hn
  only n hn hn' := by
    by_cases hmid : env₁.lookup n = none
    · rcases hd'.only n hmid hn' with ⟨p, hp⟩ | ⟨k, hk, hk', hnk⟩
      · exact .inl ⟨p, (nameAt?_tail ho hp).1⟩
      · exact .inr ⟨k, Nat.le_trans hd.count hk, hk', hnk⟩
    · rcases hd.only n hn hmid with ⟨p, hp⟩ | ⟨k, hk, hk', hnk⟩
      · exact .inl ⟨i :: p, by simpa using hp⟩
      · exact .inr ⟨k, hk, Nat.lt_of_lt_of_le hk' hd'.count, hnk⟩

section

variable (hb : env.lookup base = some b) (hn : env.lookup n = none)
  (hr : Reaches forest (b ++ steps))
include hb hn hr

theorem execute_cons : execute forest env (⟨n, base, steps⟩ :: ls) =
      execute forest ((n, b ++ steps) :: env) ls := by
  have hfirst : Lookup.execute forest env ⟨n, base, steps⟩ = some ((n, b ++ steps) :: env) := by
    simp [Lookup.execute, hb, hn, descend_eq hr]
  simp [execute, hfirst]

theorem execute_named (hname : ∀ m, name = some m → m = n) (hcount : names.count ≤ names₁.count)
    (hnew : name = some n ∨ ∃ k, names.count ≤ k ∧ k < names₁.count ∧ n = elementName k)
    (hbelow : ∃ env', execute forest ((n, b ++ steps) :: env) ls = some env' ∧
      Defines ((b ++ steps) ++ []) (.node none cs) names₁ names' ((n, b ++ steps) :: env) env') :
    ∃ env', execute forest env (⟨n, base, steps⟩ :: ls) = some env' ∧
      Defines (b ++ steps) (.node name cs) names names' env env' := by
  obtain ⟨env', hrun, hd⟩ := hbelow
  rw [append_nil] at hd
  refine ⟨env', ?_, hd.define hn hname hcount hnew⟩
  rw [← hrun]
  exact execute_cons hb hn hr

end

mutual

theorem execute_lookups : ∀ (a : Address) (base : String) (b steps : List Nat) (names : Names)
    (env : Locals), env.lookup base = some b → Fits forest (b ++ steps) a names env →
    ∃ env', execute forest env (a.lookups "el" base steps names).1 = some env' ∧
      Defines (b ++ steps) a names (a.lookups "el" base steps names).2 env env'
  | .node (some n) cs, base, b, steps, names, env, hb, h => by
    have hother : ∀ p, (node none cs).nameAt? p ≠ some n := by
      intro p hp
      obtain ⟨hp, hne⟩ := nameAt?_forget hp
      exact hne (h.named.unique p [] n hp rfl)
    have hlater : ∀ k, names.count ≤ k → elementName k ≠ n := by
      rintro k hk rfl
      have := h.named.lt (p := []) rfl
      omega
    have hbelow := execute_lookupsOf cs n (b ++ steps) [] names ((n, b ++ steps) :: env)
      (by rw [lookup_cons_eq, if_pos rfl])
      (by rw [append_nil]; exact h.forget.define hother hlater)
    exact execute_named hb (h.free [] n rfl) h.root (by simp [eq_comm]) (Nat.le_refl _) (.inl rfl)
      hbelow
  | .node none cs, base, b, steps, names, env, hb, h => by
    unfold lookups
    by_cases hcs : 1 < cs.length
    · -- the node gets a name of its own, from which several nodes are looked up
      simp only [hcs, if_true]
      have hnext : Fits forest (b ++ steps) (.node none cs) { count := names.count + 1 } env :=
        ⟨h.ordered, h.named.mono (Nat.le_succ _), h.free,
          fun k hk => h.later k (Nat.le_of_succ_le hk), h.reaches⟩
      have hother : ∀ p, (node none cs).nameAt? p ≠ some (elementName names.count) := fun p hp =>
        Nat.lt_irrefl _ (h.named.lt hp)
      have hlater : ∀ k, names.count + 1 ≤ k → elementName k ≠ elementName names.count := by
        intro k hk he
        have := elementName_inj he
        omega
      have hbelow := execute_lookupsOf cs (elementName names.count) (b ++ steps) []
        { count := names.count + 1 } ((elementName names.count, b ++ steps) :: env)
        (by rw [lookup_cons_eq, if_pos rfl])
        (by rw [append_nil]; exact hnext.define hother hlater)
      exact execute_named hb (h.later names.count (Nat.le_refl _)) h.root (by simp)
        (Nat.le_succ _) (.inr ⟨names.count, Nat.le_refl _, Nat.lt_succ_self _, rfl⟩) hbelow
    · simp only [hcs, if_false]
      exact execute_lookupsOf cs base b steps names env hb h

theorem execute_lookupsOf : ∀ (cs : List (Nat × Address)) (base : String) (b steps : List Nat)
    (names : Names) (env : Locals), env.lookup base = some b →
    Fits forest (b ++ steps) (.node none cs) names env →
    ∃ env', execute forest env (lookupsOf "el" base steps names cs).1 = some env' ∧
      Defines (b ++ steps) (.node none cs) names (lookupsOf "el" base steps names cs).2 env env'
  | [], base, b, steps, names, env, hb, h => by
    refine ⟨env, rfl, Nat.le_refl _, fun _ _ hn => hn, ?_, fun n hn hn' => absurd hn hn'⟩
    intro p n hn
    cases p with
    | nil => cases hn
    | cons i p =>
      have : empty.nameAt? p = some n := hn
      simp [nameAt?_empty] at this
  | (i, a) :: cs, base, b, steps, names, env, hb, h => by
    have hhead := h.head
    rw [append_assoc] at hhead
    obtain ⟨env₁, hrun₁, hd₁⟩ := execute_lookups a base b (steps ++ [i]) names env hb hhead
    rw [← append_assoc] at hd₁
    obtain ⟨env₂, hrun₂, hd₂⟩ := execute_lookupsOf cs base b steps _ env₁ (hd₁.keeps _ _ hb)
      (h.tail hd₁)
    refine ⟨env₂, ?_, ?_⟩
    · have hsplit : (lookupsOf "el" base steps names ((i, a) :: cs)).1 =
          (a.lookups "el" base (steps ++ [i]) names).1 ++
            (lookupsOf "el" base steps (a.lookups "el" base (steps ++ [i]) names).2 cs).1 := rfl
      rw [hsplit, execute_append, hrun₁]
      exact hrun₂
    · exact hd₁.cons h.ordered hd₂

end

end Trees

end ReactiveMarkup.Template
