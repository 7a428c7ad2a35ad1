import Mathlib.Algebra.Order.Field.Rat
import Mathlib.Tactic.NormNum
import ReactiveMarkup.Proofs.Fixpoint
import ReactiveMarkup.Proofs.RuntimeTraces

/-! # Deep comparison

Likeness of values down to a depth is an equivalence, finer with the depth, and structural equality
in the end.
-/

namespace ReactiveMarkup

open List

namespace Number.Binary

def rational : Binary → ℚ
  | finite s m e => (if s then -(m : ℚ) else m) * 2 ^ e
  | _ => 0

theorem rational_eq (h : low ≤ e) : rational (finite s m e) =
      ((if s then -((m * Nat.pow 2 (e - low).toNat : Nat) : Int)
        else (m * Nat.pow 2 (e - low).toNat : Nat) : Int) : ℚ) * 2 ^ low := by
  have hpow : (2 : ℚ) ^ e = 2 ^ (e - low).toNat * 2 ^ low := by
    rw [← zpow_natCast, ← zpow_add₀ (by norm_num), Int.toNat_of_nonneg (by omega)]
    congr 1
    omega
  cases s <;> simp [rational, hpow, mul_assoc]

theorem eq_finite_iff : (finite s m e).eq (finite t n k) = true ↔
      rational (finite s m e) = rational (finite t n k) := by
  have hlow : (2 : ℚ) ^ min e k ≠ 0 := zpow_ne_zero _ (by norm_num)
  rw [rational_eq (min_le_left e k), rational_eq (min_le_right e k), mul_left_inj' hlow,
    Int.cast_inj]
  simp [eq, align]

/-- What a number amounts to: the two zeros are one. -/
inductive Amount where
  | nan
  | infinite (negative : Bool)
  | finite (q : ℚ)

def amount : Binary → Amount
  | nan => .nan
  | infinite s => .infinite s
  | finite s m e => .finite (rational (finite s m e))

theorem amount_eq_iff {m n : Binary} :
    m.amount = n.amount ↔ (m.eq n || (m == .nan && n == .nan)) = true := by
  cases m <;> cases n <;> simp [amount, eq, ← eq_finite_iff]

end Number.Binary

namespace Reactive

namespace Value

open Number (Binary)

/-! ## Layers -/

/-- What a value is apart from its members. Arrays and objects are all alike in this. -/
inductive Top where
  | undefined
  | null
  | bool (b : Bool)
  | number (a : Binary.Amount)
  | string (s : String)
  | array
  | object
  | promise (id : Nat)

def top : Value → Top
  | undefined => .undefined
  | null => .null
  | bool b => .bool b
  | number n => .number n.amount
  | string s => .string s
  | array .. => .array
  | object .. => .object
  | promise i => .promise i

/-- The member of an array at an index, or of an object under a name. -/
def member? : Value → Nat ⊕ String → Option Value
  | array _ xs, .inl k => xs[k]?
  | object _ fs, .inr name => fs.lookup name
  | _, _ => none

/-- No object in the value has two fields of one name. -/
inductive Formed : Value → Prop where
  | intro {a : Value} : ((a.fields?.getD []).map (·.1)).Nodup →
    (∀ s x, a.member? s = some x → Formed x) → Formed a

/-- The values are alike apart from their members, they have members in the same places, and these
are related. -/
structure Layer (R : Value → Value → Prop) (a b : Value) : Prop where
  top : a.top = b.top
  places : ∀ s, a.member? s = none ↔ b.member? s = none
  members : ∀ s x y, a.member? s = some x → b.member? s = some y → R x y

/-- Structural equality: equality but for the identities of arrays and objects. -/
inductive Congruent : Value → Value → Prop where
  | intro {a b : Value} : a.top = b.top → (∀ s, a.member? s = none ↔ b.member? s = none) →
    (∀ s x y, a.member? s = some x → b.member? s = some y → Congruent x y) → Congruent a b

section Layers

variable {R S T : Value → Value → Prop} {a b c x : Value} {s : Nat ⊕ String} {n i j : Nat}
  {xs ys : List Value} {fs gs : List (String × Value)} {name : String} {f : String × Value}

theorem Layer.refl (h : ∀ s x, a.member? s = some x → R x x) : Layer R a a :=
  ⟨rfl, fun _ => Iff.rfl, fun s x _ hx hy => Option.mem_unique hx hy ▸ h s x hx⟩

theorem Layer.symm (h : Layer R a b)
    (hRS : ∀ s x y, a.member? s = some x → b.member? s = some y → R x y → S y x) : Layer S b a :=
  ⟨h.top.symm, fun s => (h.places s).symm, fun s x y hx hy =>
    hRS s y x hy hx (h.members s y x hy hx)⟩

theorem Layer.trans (h : Layer R a b) (h' : Layer S b c)
    (hRST : ∀ s x y z, a.member? s = some x → b.member? s = some y → R x y → S y z → T x z) :
    Layer T a c := by
  refine ⟨h.top.trans h'.top, fun s => (h.places s).trans (h'.places s), fun s x z hx hz => ?_⟩
  cases hy : b.member? s with
  | none => simp [(h.places s).mpr hy] at hx
  | some y => exact hRST s x y z hx hy (h.members s x y hx hy) (h'.members s y z hy hz)

def IsPlain (a : Value) : Prop := a.top ≠ .array ∧ a.top ≠ .object

theorem IsPlain.member? (ha : a.IsPlain) : a.member? s = none := by
  cases a with
  | array | object => simp [IsPlain, top] at ha
  | _ => rfl

theorem IsPlain.same_iff (ha : a.IsPlain) : a.same b = true ↔ a.top = b.top := by
  cases a with
  | array | object => simp [IsPlain, top] at ha
  | _ => cases b <;> simp [same, top, Binary.amount_eq_iff]

theorem lookup_eq_some {fs : List (String × Value)} (hn : (fs.map (·.1)).Nodup) :
    fs.lookup name = some x ↔ (name, x) ∈ fs := by
  rw [lookup_eq_some_iff]
  constructor
  · rintro ⟨front, back, rfl, -⟩
    simp
  · intro h
    obtain ⟨front, back, rfl⟩ := append_of_mem h
    refine ⟨front, back, rfl, fun p hp => ?_⟩
    rw [map_append, map_cons, nodup_middle] at hn
    have hmem : p.1 ∈ front.map (·.1) ++ back.map (·.1) :=
      mem_append_left _ (mem_map_of_mem hp)
    exact bne_iff_ne.mpr (ne_of_mem_of_not_mem hmem (nodup_cons.mp hn).1).symm

theorem differsWithin_array :
    differsWithin (n + 1) (array i xs) (array j ys) = false ↔
      Layer (fun x y => differsWithin n x y = false) (array i xs) (array j ys) := by
  simp only [differsWithin, Bool.or_eq_false_iff, bne_eq_false_iff_eq, any_eq_false,
    Bool.not_eq_true]
  constructor
  · rintro ⟨hlen, hall⟩
    refine ⟨rfl, ?_, ?_⟩
    · rintro (k | name)
      · simp [member?, hlen]
      · exact Iff.rfl
    · rintro (k | name) x y hx hy
      · exact hall (x, y) (mem_of_getElem? (getElem?_zip_eq_some.mpr ⟨hx, hy⟩))
      · cases hx
  · intro h
    have hlen : ∀ k, xs.length ≤ k ↔ ys.length ≤ k := fun k => by
      simpa [member?] using h.places (.inl k)
    refine ⟨le_antisymm ((hlen _).mpr le_rfl) ((hlen _).mp le_rfl), fun p hp => ?_⟩
    obtain ⟨k, hk⟩ := getElem?_of_mem hp
    obtain ⟨hx, hy⟩ := getElem?_zip_eq_some.mp hk
    exact h.members (.inl k) p.1 p.2 hx hy

theorem differsWithin_object (hn : (fs.map (·.1)).Nodup) :
    differsWithin (n + 1) (object i fs) (object j gs) = false ↔
      Layer (fun x y => differsWithin n x y = false) (object i fs) (object j gs) := by
  simp only [differsWithin, Bool.or_eq_false_iff, any_eq_false, Bool.not_eq_true,
    Bool.not_eq_false', any_eq_true, beq_iff_eq]
  constructor
  · rintro ⟨hfs, hgs⟩
    have hfound : ∀ f ∈ fs, ∃ y, gs.lookup f.1 = some y ∧ differsWithin n f.2 y = false := by
      intro f hf
      have hdiff := hfs f hf
      cases hg : gs.lookup f.1 with
      | none => simp [hg] at hdiff
      | some y => exact ⟨y, rfl, by simpa [hg] using hdiff⟩
    refine ⟨rfl, ?_, ?_⟩
    · rintro (k | name)
      · exact Iff.rfl
      · simp only [member?]
        constructor
        · intro hnone
          refine lookup_eq_none_iff.mpr fun g hg => ?_
          obtain ⟨f, hf, hfg⟩ := hgs g hg
          exact hfg ▸ lookup_eq_none_iff.mp hnone f hf
        · intro hnone
          refine lookup_eq_none_iff.mpr fun f hf => bne_iff_ne.mpr ?_
          rintro rfl
          obtain ⟨y, hy, -⟩ := hfound f hf
          cases hnone.symm.trans hy
    · rintro (k | name) x y hx hy
      · cases hx
      · obtain ⟨y', hy', hxy⟩ := hfound _ ((lookup_eq_some hn).mp hx)
        obtain rfl := Option.mem_unique hy hy'
        exact hxy
  · intro h
    have hplaces : ∀ name, fs.lookup name = none ↔ gs.lookup name = none := fun name =>
      h.places (.inr name)
    refine ⟨fun f hf => ?_, fun g hg => ?_⟩
    · have hx : fs.lookup f.1 = some f.2 := (lookup_eq_some hn).mpr hf
      have hsome := mt (hplaces f.1).mpr (by simp [hx])
      cases hy : gs.lookup f.1 with
      | none => exact absurd hy hsome
      | some y => exact h.members (.inr f.1) f.2 y hx hy
    · by_contra hnot
      have hnone : fs.lookup g.1 = none := lookup_eq_none_iff.mpr fun f hf =>
        bne_iff_ne.mpr fun hfg => hnot ⟨f, hf, hfg.symm⟩
      simpa using lookup_eq_none_iff.mp ((hplaces g.1).mp hnone) g hg

theorem differsWithin_plain (ha : a.IsPlain) :
    differsWithin (n + 1) a b = false ↔ Layer (fun x y => differsWithin n x y = false) a b := by
  have heq : differsWithin (n + 1) a b = !a.same b := by
    cases a with
    | array | object => simp [IsPlain, top] at ha
    | _ => simp [differsWithin]
  rw [heq, Bool.not_eq_false', ha.same_iff]
  refine ⟨fun h => ⟨h, fun s => ?_, fun s x y hx => ?_⟩, Layer.top⟩
  · have hb : b.IsPlain := by rwa [IsPlain, ← h]
    simp [ha.member?, hb.member?]
  · simp [ha.member?] at hx

theorem differsWithin_succ (ha : a.Formed) :
    differsWithin (n + 1) a b = false ↔ Layer (fun x y => differsWithin n x y = false) a b := by
  obtain ⟨hn, -⟩ := ha
  cases a with
  | array i xs =>
    cases b with
    | array j ys => exact differsWithin_array
    | _ => exact ⟨fun h => by simp [differsWithin, same] at h, fun h => by cases h.top⟩
  | object i fs =>
    cases b with
    | object j gs => exact differsWithin_object hn
    | _ => exact ⟨fun h => by simp [differsWithin, same] at h, fun h => by cases h.top⟩
  | _ => exact differsWithin_plain (by simp [IsPlain, top])

theorem Formed.member (ha : a.Formed) (hx : a.member? s = some x) : x.Formed := by
  obtain ⟨-, hm⟩ := ha
  exact hm s x hx

/-! ## Likeness within a number of levels -/

theorem differsWithin_self (n : Nat) (ha : a.Formed) : differsWithin n a a = false := by
  induction n generalizing a with
  | zero => rfl
  | succ n ih => exact (differsWithin_succ ha).mpr (.refl fun s x hx => ih (ha.member hx))

theorem differsWithin_symm (ha : a.Formed) (hb : b.Formed)
    (h : differsWithin n a b = false) : differsWithin n b a = false := by
  induction n generalizing a b with
  | zero => rfl
  | succ n ih =>
    refine (differsWithin_succ hb).mpr (((differsWithin_succ ha).mp h).symm ?_)
    exact fun s x y hx hy => ih (ha.member hx) (hb.member hy)

theorem differsWithin_trans (ha : a.Formed) (hb : b.Formed)
    (h : differsWithin n a b = false) (h' : differsWithin n b c = false) :
    differsWithin n a c = false := by
  induction n generalizing a b c with
  | zero => rfl
  | succ n ih =>
    refine (differsWithin_succ ha).mpr
      (((differsWithin_succ ha).mp h).trans ((differsWithin_succ hb).mp h') ?_)
    exact fun s x y z hx hy => ih (ha.member hx) (hb.member hy)

theorem differsWithin_mono (h : differsWithin n a b = true) : differsWithin (n + 1) a b = true := by
  fun_induction differsWithin n a b with
  | case1 => cases h
  | case2 n i xs j ys ih =>
    rw [differsWithin]
    simp only [Bool.or_eq_true, any_eq_true] at h ⊢
    refine h.imp id ?_
    rintro ⟨p, hp, hd⟩
    exact ⟨p, hp, ih p hd⟩
  | case3 n i fs j gs ih =>
    rw [differsWithin]
    simp only [Bool.or_eq_true, any_eq_true] at h ⊢
    refine h.imp ?_ id
    rintro ⟨f, hf, hd⟩
    refine ⟨f, hf, ?_⟩
    cases hg : gs.lookup f.1 with
    | none => rfl
    | some g => exact ih f g (by simpa [hg] using hd)
  | case4 => rfl
  | case5 => rfl
  | case6 n a b _ _ _ _ => simp_all [differsWithin]

theorem congruent_iff (ha : a.Formed) : (∀ n, differsWithin n a b = false) ↔ Congruent a b := by
  constructor
  · intro h
    induction ha generalizing b with
    | intro hn hm ih =>
      have hlayer := fun n => (differsWithin_succ ⟨hn, hm⟩).mp (h (n + 1))
      exact ⟨(hlayer 0).top, (hlayer 0).places, fun s x y hx hy =>
        ih s x hx fun n => (hlayer n).members s x y hx hy⟩
  · intro h n
    induction h generalizing n with
    | intro htop hplaces hm ih =>
      cases n with
      | zero => rfl
      | succ n =>
        exact (differsWithin_succ ha).mpr ⟨htop, hplaces, fun s x y hx hy =>
          ih s x y hx hy (ha.member hx) n⟩

theorem differsDeeply_of_congruent (ha : a.Formed) (h : a.Congruent b) :
    a.differsDeeply b d = false :=
  (congruent_iff ha).mpr h _

theorem Formed.congruent (ha : a.Formed) : a.Congruent a :=
  (congruent_iff ha).mp fun n => differsWithin_self n ha

theorem IsPlain.formed (ha : a.IsPlain) : a.Formed := by
  refine ⟨?_, by simp [ha.member?]⟩
  cases a with
  | array | object => simp [IsPlain, top] at ha
  | _ => simp [fields?]

theorem formed_array (h : ∀ x ∈ xs, x.Formed) : (array i xs).Formed := by
  refine ⟨by simp [fields?], ?_⟩
  rintro (k | name) x hx
  · exact h x (mem_of_getElem? hx)
  · cases hx

theorem same_undefined (h : undefined.same a = true) : a = undefined := by
  cases a with
  | undefined => rfl
  | _ => cases h

end Layers

end Value

/-! ## A watcher that is fed values -/

/-- Between `p`, which a watcher remembers, and `v` there is a change exactly if there is one between
`v` and any value that `p` passes for. -/
theorem Comparator.changed_deep (hp : p.Formed) (hq : q.Formed) (hpq : p.differsDeeply q d = false)
    (hsame : p.same v = true → p.differsDeeply v d = false) :
    (Comparator.deep d).changed p v = q.differsDeeply v d := by
  cases hpv : p.differsDeeply v d with
  | false =>
    have hqv : q.differsDeeply v d = false :=
      Value.differsWithin_trans hq hp (Value.differsWithin_symm hp hq hpq) hpv
    simp [changed, hpv, hqv]
  | true =>
    have hqv : q.differsDeeply v d = true := by
      by_contra hno
      have := Value.differsWithin_trans hp hq hpq (Bool.eq_false_iff.mpr hno)
      simp [Value.differsDeeply, this] at hpv
    have hns : p.same v = false := by
      by_contra hs
      simp [hsame (Bool.eq_true_of_not_eq_false hs)] at hpv
    simp [changed, hpv, hns, hqv]

variable {κ υ : Type}

/-- User code in which the hook `source` reads a value that can be set, and the hook `action` notes
the values that it is called with. -/
structure Feed (h : Host κ υ) (source action : κ) where
  value : υ → Value
  notes : υ → List Value
  put : Value → υ → υ
  value_put : ∀ v u, value (put v u) = v
  notes_put : ∀ v u, notes (put v u) = notes u
  read : ∀ w, Returns (h.read source) w (value w.user) w
  act : ∀ w v, ∃ u, Returns (h.run action (.value v)) w () { w with user := u } ∧
    value u = value w.user ∧ notes u = notes w.user ++ [v]

/-- A tree of one detector with one watcher and nothing else to do in a digest. -/
structure Single (w : World κ υ) (root : DetectorId) (i : WatcherId) (c : Watcher κ) : Prop where
  detector : ∃ t, w.detectors[root]? = some t ∧ t.watchers = [i] ∧ t.preludes = [] ∧
    t.children = [] ∧ t.onces = []
  watcher : w.watchers[i]? = some c

/-- Sets the value, makes a digest and says what was noted in it. -/
def Feed.digest {h : Host κ υ} {source action : κ} (f : Feed h source action) (root : DetectorId)
    (v : Value) : Act κ υ (List Value) := do
  modify fun w => { w with user := f.put v w.user }
  let before := f.notes (← get).user
  let _ ← Reactive.digest h root (pure ())
  return (f.notes (← get).user).drop before.length

section Single

variable {h : Host κ υ} {source action : κ} {root : DetectorId} {i : WatcherId} {c : Watcher κ}
  {w u : World κ υ}

section

variable (hw : Single w root i c)
include hw

theorem Single.passed (hc : Checked h i w cs b u) (hu : Single u root i c')
    : Returns (pass h root) w (if b then some ⟨0, 0, c'.value⟩ else none) u := by
  obtain ⟨t, ht, htw, htp, -, -⟩ := hw.detector
  obtain ⟨e, he, hew, -, hec, -⟩ := hu.detector
  obtain ⟨n, hn⟩ := exists_slack w.detectors.size
  obtain ⟨m, hm⟩ := exists_slack w.watchers.size
  have hend : ∀ last, CheckedFrom h root 0 (m + 1) (0 + 1) last u [] last u := fun last =>
    .done m 1 last u e he (by simp [hew])
  have hchecks : CheckedFrom h root 0 (m + 1 + 1) 0 none w (cs ++ [])
      (if b then some ⟨0, 0, c'.value⟩ else none) u := by
    cases b with
    | false => exact .quiet _ 0 _ w u u t i cs [] _ ht (by simp [htw]) hc (hend _)
    | true => exact .counts _ 0 _ w u u t i c' cs [] _ ht (by simp [htw]) hc hu.watcher (hend _)
  refine returns_pass_iff.mpr ⟨[] ++ (cs ++ []) ++ [], ?_⟩
  rw [Passed, hn]
  rw [← hm] at hchecks
  refine .next _ root [] 0 none _ _ w w u u t e [] _ [] ht (htp ▸ .nil w) hchecks he ?_
  rw [hec]
  exact .done n 1 _ u

theorem Single.digested (hc : Checked h i w cs b u)
    (hu : Single u root i c') (hq : Checked h i u cs' false u) :
    (∃ n, Returns (Reactive.digest h root (pure ())) w n (u.served root)) ∧
      Single (u.served root) root i c' := by
  have hpasses : ∃ r, Returns (passesFrom h root maxPasses 0 none) w r u := by
    have hfirst := hw.passed hc hu
    cases b with
    | false => exact ⟨_, returns_passesFrom_of_none hfirst⟩
    | true =>
      exact ⟨_, returns_passesFrom_of_some hfirst (returns_passesFrom_of_none (hu.passed hq hu))⟩
  obtain ⟨r, hpasses⟩ := hpasses
  obtain ⟨e, he, hew, hep, hec, heo⟩ := hu.detector
  have hend : Returns (conclude h root (pure ()) r) u r (u.served root) := by
    simp only [conclude, returns_bind, returns_pure, returns_find, updateDetector, returns_modify]
    exact ⟨(), u, ⟨trivial, rfl⟩, e, u, ⟨he, rfl⟩, ⟨⟩, _, rfl, (), _, by rw [heo]; rfl, trivial, rfl⟩
  refine ⟨⟨r.passes, ?_⟩, ⟨{ e with onces := [] }, ?_, hew, hep, hec, rfl⟩, hu.watcher⟩
  · rw [Reactive.digest, returns_bind, digestReport_eq]
    exact ⟨r, _, returns_bind.mpr ⟨r, u, hpasses, hend⟩, rfl⟩
  · rw [World.served, Array.getElem?_modify, if_pos rfl, he]
    rfl

theorem Single.fed (hread : Returns (readSource h c.source) w v w)
    (hact : Returns (perform h c.action v) (w.remember i v) () u)
    (hagain : Returns (readSource h c.source) u v u) (hd : u.detectors = w.detectors)
    (hi : u.watchers = (w.remember i v).watchers) :
    (∃ n, Returns (Reactive.digest h root (pure ())) w n
      (World.served (if c.comparator.changed c.value v then u else w) root)) ∧
    Single (World.served (if c.comparator.changed c.value v then u else w) root) root i
      { c with value := if c.comparator.changed c.value v then v else c.value } := by
  cases hch : c.comparator.changed c.value v with
  | false =>
    have hcheck := Checked.same c c v _ _ hw.watcher hread hw.watcher hch
    exact hw.digested hcheck hw hcheck
  | true =>
    have hafter : Single u root i { c with value := v } := by
      refine ⟨hd ▸ hw.detector, ?_⟩
      rw [hi, getElem?_remember, if_pos rfl, hw.watcher]
      rfl
    have hcheck := Checked.changed c c v _ _ _ hw.watcher hread hw.watcher hch hact
    have hquiet := Checked.same _ _ v _ _ hafter.watcher hagain hafter.watcher
      (Comparator.changed_self _)
    exact hw.digested hcheck hafter hquiet

theorem Single.set_user (u : υ) : Single { w with user := u } root i c :=
  ⟨hw.detector, hw.watcher⟩

end

theorem Feed.returns_digest (f : Feed h source action) (hw : Single w root i c)
    (hs : c.source = .hook source) (ha : c.action = .hook action) (v : Value) :
    ∃ w', Returns (f.digest root v) w (if c.comparator.changed c.value v then [v] else []) w' ∧
      Single w' root i { c with value := if c.comparator.changed c.value v then v else c.value } := by
  have hread : ∀ x : World κ υ, f.value x.user = v → Returns (readSource h c.source) x v x := by
    rintro x rfl
    rw [hs]
    exact f.read x
  obtain ⟨u, hact, hvalue, hnotes⟩ := f.act (World.remember { w with user := f.put v w.user } i v) v
  rw [show h.run action (.value v) = perform h c.action v by rw [ha]; rfl] at hact
  obtain ⟨⟨n, hdigest⟩, hsingle⟩ := (hw.set_user (f.put v w.user)).fed (hread _ (f.value_put v _))
    hact (hread _ (hvalue.trans (f.value_put v _))) rfl rfl
  refine ⟨_, ?_, hsingle⟩
  simp only [Feed.digest, returns_bind, returns_modify, returns_get, returns_pure]
  refine ⟨⟨⟩, _, rfl, _, _, ⟨rfl, rfl⟩, n, _, hdigest, _, _, ⟨rfl, rfl⟩, ?_, rfl⟩
  split
  · simp [World.served, hnotes, World.remember]
  · simp [World.served]

end Single

/-- What a watcher of depth `d` is called with in each digest, if that is decided by the value of the
digest before. -/
def firings (d : Int) : Value → List Value → List (List Value)
  | _, [] => []
  | last, v :: vs => (if last.differsDeeply v d then [v] else []) :: firings d v vs

theorem Feed.returns_digests {c : Watcher κ} (f : Feed h source action)
    (hs : c.source = .hook source) (ha : c.action = .hook action) (hc : c.comparator = .deep d)
    (vs : List Value) (p last : Value) (w : World κ υ) (hw : Single w root i { c with value := p })
    (hformed : ∀ v ∈ p :: last :: vs, v.Formed)
    (hsame : ∀ q ∈ p :: vs, ∀ v ∈ vs, q.same v = true → q.Congruent v)
    (hlast : p.differsDeeply last d = false) :
    ∃ w', Returns (vs.mapM (f.digest root)) w (firings d last vs) w' ∧
      Single w' root i { c with value := ((firings d last vs).flatten.getLast?).getD p } := by
  induction vs generalizing p last w with
  | nil => exact ⟨w, rfl, hw⟩
  | cons v vs ih =>
    simp only [forall_mem_cons] at hformed hsame
    obtain ⟨hp, hl, hv, hvs⟩ := hformed
    obtain ⟨⟨hpv, hpvs⟩, ⟨-, hvvs⟩, hrest⟩ := hsame
    have hfires := Comparator.changed_deep hp hl hlast fun hs =>
      Value.differsDeeply_of_congruent hp (hpv hs)
    obtain ⟨w₁, hfirst, hsingle⟩ := f.returns_digest hw hs ha v
    simp only [hc, hfires] at hfirst hsingle
    have hmore : ∀ {fs w'}, Returns (vs.mapM (f.digest root)) w₁ fs w' →
        Returns ((v :: vs).mapM (f.digest root)) w
          ((if last.differsDeeply v d then [v] else []) :: fs) w' :=
      fun hfs => by
        rw [mapM_cons, returns_bind]
        exact ⟨_, w₁, hfirst, returns_bind.mpr ⟨_, _, hfs, rfl⟩⟩
    cases hd : last.differsDeeply v d with
    | false =>
      rw [hd] at hsingle
      obtain ⟨w', hw', hsingle'⟩ := ih p v w₁ (hc ▸ hsingle) (by simp_all)
        (by simp_all) (Value.differsWithin_trans hp hl hlast hd)
      exact ⟨w', hmore hw', by simpa [firings, hd] using hsingle'⟩
    | true =>
      rw [hd] at hsingle
      obtain ⟨w', hw', hsingle'⟩ := ih v v w₁ (hc ▸ hsingle) (by simp_all)
        (by simp_all) (Value.differsWithin_self _ hv)
      refine ⟨w', hmore hw', ?_⟩
      have hlast : ((firings d last (v :: vs)).flatten.getLast?).getD p =
          ((firings d v vs).flatten.getLast?).getD v := by
        cases hg : (firings d v vs).flatten.getLast? <;> simp [firings, hd, hg, getLast?_cons]
      rw [hlast]
      exact hsingle'

/-! ## The law -/

def deepWatcher (source action : κ) (readOnly : Bool) (d : Int) (value : Value) : Watcher κ :=
  { source := .hook source, action := .hook action, readOnly, comparator := .deep d, value }

/-- For values in which no object has two fields of one name, likeness down to a depth is an
equivalence, and likeness down to every depth is structural equality. A difference stays one at
greater depths. A watcher that compares down to a depth and is fed values, of which those of one
identity have one structure, is called in exactly those digests whose value differs from that of the
digest before. -/
theorem deep_watcher_law :
    (∀ d : Int, Equivalence fun a b : { v : Value // v.Formed } => a.1.differsDeeply b.1 d = false) ∧
    (∀ (a b : Value) (d : Int), a.differsDeeply b d = true → a.differsDeeply b (d + 1) = true) ∧
    (∀ a b : Value, a.Formed → b.Formed →
      ((∀ d : Int, a.differsDeeply b d = false) ↔ a.Congruent b)) ∧
    ∀ {κ υ : Type} {h : Host κ υ} {source action : κ} (f : Feed h source action) (d : Int)
      (readOnly : Bool) (root : DetectorId) (i : WatcherId) (w : World κ υ) (vs : List Value),
      Single w root i (deepWatcher source action readOnly d .undefined) →
      (∀ v ∈ vs, v.Formed) → (∀ v ∈ vs, ∀ v' ∈ vs, v.same v' = true → v.Congruent v') →
      ∃ w', Returns (vs.mapM (f.digest root)) w (firings d .undefined vs) w' ∧
        Single w' root i (deepWatcher source action readOnly d
          (((firings d .undefined vs).flatten.getLast?).getD .undefined)) := by
  refine ⟨fun d => ⟨fun a => ?_, fun {a b} h => ?_, fun {a b c} h h' => ?_⟩, ?_, ?_, ?_⟩
  · exact Value.differsWithin_self _ a.2
  · exact Value.differsWithin_symm a.2 b.2 h
  · exact Value.differsWithin_trans a.2 b.2 h h'
  · intro a b d h
    rcases lt_or_ge d (-1) with hd | hd
    · rw [Value.differsDeeply, Int.toNat_of_nonpos (by omega)] at h
      cases h
    · have hsucc : (d + 1 + 1).toNat = (d + 1).toNat + 1 := by omega
      rw [Value.differsDeeply, hsucc]
      exact Value.differsWithin_mono h
  · intro a b ha _
    rw [← Value.congruent_iff ha]
    refine ⟨fun h n => ?_, fun h d => h _⟩
    have hn := h (n - 1)
    rwa [Value.differsDeeply, Int.sub_add_cancel, Int.toNat_natCast] at hn
  · intro κ υ h source action f d readOnly root i w vs hw hformed hsame
    have hundef : Value.undefined.Formed := Value.IsPlain.formed (by simp [Value.IsPlain, Value.top])
    have hself := Value.differsWithin_self (d + 1).toNat hundef
    refine f.returns_digests (c := deepWatcher source action readOnly d .undefined) rfl rfl rfl vs
      .undefined .undefined w hw ?_ ?_ hself
    · simpa [hundef] using hformed
    · intro q hq v hv hqv
      rcases List.mem_cons.mp hq with rfl | hq
      · rw [Value.same_undefined hqv]
        exact hundef.congruent
      · exact hsame q hq v hv hqv

def noting : Host Bool (Value × List Value) :=
  { refusing with
    read := fun _ => return (← get).user.1
    run := fun _ occasion => match occasion with
      | .value v => modify fun w => { w with user := (w.user.1, w.user.2 ++ [v]) }
      | _ => return () }

def notingFeed : Feed noting false true where
  value u := u.1
  notes u := u.2
  put v u := (v, u.2)
  value_put _ _ := rfl
  notes_put _ _ := rfl
  read _ := rfl
  act w v := ⟨(w.user.1, w.user.2 ++ [v]), rfl, rfl, rfl⟩

/-- Two arrays of one member, which differ at the second level only, then one of two. -/
def arrays : List Value :=
  [.array 0 [.array 1 []], .array 2 [.array 3 [.null]], .array 4 [.null, .null]]

theorem deep_watcher_law_arrays :
    ∃ w', Returns (arrays.mapM (notingFeed.digest 0))
        { user := (.undefined, []), detectors := #[{ root := 0, watchers := [0] }],
          watchers := #[deepWatcher false true false 0 .undefined] }
        [[.array 0 [.array 1 []]], [], [.array 4 [.null, .null]]] w' ∧
      Single w' 0 0 (deepWatcher false true false 0 (.array 4 [.null, .null])) := by
  have hnull : Value.null.Formed := Value.IsPlain.formed (by simp [Value.IsPlain, Value.top])
  have hformed : ∀ v ∈ arrays, v.Formed := by
    simp only [arrays, List.forall_mem_cons]
    refine ⟨?_, ?_, ?_, by simp⟩ <;>
      exact Value.formed_array (by simp [hnull, Value.formed_array])
  have hsame : ∀ v ∈ arrays, ∀ v' ∈ arrays, v.same v' = true → v.Congruent v' := by
    intro v hv v' hv' h
    obtain rfl : v = v' := by
      simp only [arrays, List.mem_cons, List.not_mem_nil, or_false] at hv hv'
      rcases hv with rfl | rfl | rfl <;> rcases hv' with rfl | rfl | rfl <;> first | rfl | cases h
    exact (hformed v hv).congruent
  exact deep_watcher_law.2.2.2 notingFeed 0 false 0 0 _ arrays ⟨⟨_, rfl, rfl, rfl, rfl, rfl⟩, rfl⟩
    hformed hsame

end Reactive
end ReactiveMarkup
