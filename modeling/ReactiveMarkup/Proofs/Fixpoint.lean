import ReactiveMarkup.Proofs.Calm

/-! # Fixpoints of a digest

After a digest whose last pass was calm, every watcher has a value that its source confirms.
-/

namespace ReactiveMarkup.Reactive

open List

variable {κ υ : Type}

/-! ## Quiet passes -/

inductive Request (κ : Type) where
  | prelude (k : κ)
  | read (i : WatcherId)

def requestsOf (w : World κ υ) (d : DetectorId) : List (Request κ) :=
  match w.visit? d with
  | some (preludes, watchers, _) => preludes.map .prelude ++ watchers.map .read
  | none => []

def requests (w : World κ υ) (order : List DetectorId) : List (Request κ) :=
  order.flatMap (requestsOf w)

variable (h : Host κ υ) (root : DetectorId) in
/-- The requests, called one after the other, return and disturb nothing. -/
inductive Quietly : List (Request κ) → World κ υ → World κ υ → Prop where
  | nil (w : World κ υ) : Quietly [] w w
  | prelude (k : κ) (rs : List (Request κ)) (w u w' : World κ υ) : Returns (h.run k .plain) w () u →
    Still h root w u → Quietly rs u w' → Quietly (.prelude k :: rs) w w'
  | read (i : WatcherId) (c : Watcher κ) (v : Value) (rs : List (Request κ)) (w u w' : World κ υ) :
      w.watchers[i]? = some c → Returns (readSource h c.source) w v u → Still h root w u →
      Quietly rs u w' → Quietly (.read i :: rs) w w'

section Quiet

variable {h : Host κ υ} {root : DetectorId} {w w' : World κ υ}

theorem Still.fuel {order : List DetectorId} (hs : Still h root w w')
    (hbelow : ∀ d ∈ order, Below w root d) (hfuel : ∀ d ∈ order, ∀ c, w.detectors[d]? = some c →
      c.watchers.length < w.watchers.size + slack) :
    ∀ d ∈ order, ∀ c, w'.detectors[d]? = some c →
      c.watchers.length < w'.watchers.size + slack := by
  intro d hd c hc
  obtain ⟨c', hc', -, hsame, -⟩ := hs.tree.symm.detector (hs.tree.below (hbelow d hd)) hc
  have hlength := hfuel d hd c' hc'
  rw [hsame] at hlength
  exact Nat.lt_of_lt_of_le hlength (Nat.add_le_add_right hs.watchers slack)

theorem Quietly.still (hq : Quietly h root rs w w') : Still h root w w' := by
  induction hq with
  | nil w => exact .refl h root w
  | prelude _ _ _ _ _ _ hs _ ih | read _ _ _ _ _ _ _ _ _ hs _ ih => exact hs.trans ih

theorem Quietly.split (hq : Quietly h root (rs ++ rs') w w') :
    ∃ u, Quietly h root rs w u ∧ Quietly h root rs' u w' := by
  induction rs generalizing w with
  | nil => exact ⟨w, .nil w, hq⟩
  | cons r rs ih =>
    cases hq with
    | prelude k _ _ u _ hk hs hrest =>
      obtain ⟨v, hfirst, hlater⟩ := ih hrest
      exact ⟨v, .prelude k rs w u v hk hs hfirst, hlater⟩
    | read i c v _ _ u _ hc hv hs hrest =>
      obtain ⟨x, hfirst, hlater⟩ := ih hrest
      exact ⟨x, .read i c v rs w u x hc hv hs hfirst, hlater⟩

theorem Quietly.preluded (hq : Quietly h root (ks.map .prelude) w w') :
    ∃ cs, Preluded h ks w cs w' := by
  induction ks generalizing w with
  | nil =>
    cases hq
    exact ⟨[], .nil _⟩
  | cons k ks ih =>
    cases hq with
    | prelude _ _ _ u _ hk _ hrest =>
      obtain ⟨cs, hp⟩ := ih hrest
      exact ⟨_, .cons k ks w u w' cs hk hp⟩

theorem checked_of_confirmed (hi : Watched w root i) (hconf : Confirmed h w i)
    (hc : w.watchers[i]? = some c) (hv : Returns (readSource h c.source) w v w')
    (hs : Still h root w w') : Checked h i w [⟨.read, w, w, w'⟩] false w' := by
  obtain ⟨c', v', hc', ⟨u, hv'⟩, hch⟩ := hconf
  obtain rfl := Option.mem_unique hc' hc
  obtain ⟨rfl, -⟩ := hv'.unique hv
  exact .same c' c' v' w w' hc hv ((hs.records i hi).trans hc) hch

theorem Quietly.checkedFrom (hq : Quietly h root (is.map .read) w w') (hd : Below w root d)
    (hc : w.detectors[d]? = some c) (his : c.watchers.drop index = is)
    (hconf : AllConfirmed h w root) (hn : is.length < n) :
    ∃ cs, CheckedFrom h d position n index last w cs last w' ∧ ∀ c ∈ cs, c.kind = .read := by
  induction is generalizing w c index n with
  | nil =>
    cases hq
    obtain ⟨m, rfl⟩ := Nat.exists_eq_succ_of_ne_zero (Nat.ne_of_gt hn)
    have hlength := drop_eq_nil_iff.mp his
    exact ⟨[], .done m index last _ c hc (getElem?_eq_none hlength), by simp⟩
  | cons i is ih =>
    obtain ⟨m, rfl⟩ := Nat.exists_eq_succ_of_ne_zero (Nat.ne_of_gt (Nat.zero_lt_of_lt hn))
    have hi : c.watchers[index]? = some i := by
      rw [← head?_drop, his]
      rfl
    have hwatched : Watched w root i := ⟨d, c, hd, hc, mem_of_getElem? hi⟩
    cases hq with
    | read _ e v _ _ u _ he hv hs hrest =>
      have hchecked := checked_of_confirmed hwatched (hconf i hwatched) he hv hs
      obtain ⟨c', hc', -, hwatchers, -⟩ := hs.tree.detector hd hc
      have hdrop : c'.watchers.drop (index + 1) = is := by
        rw [hwatchers, ← drop_drop, his]
        rfl
      obtain ⟨cs, hrun, hkind⟩ := ih hrest (hs.tree.below hd) hc' hdrop (hs.allConfirmed hconf)
        (Nat.lt_of_succ_lt_succ hn)
      exact ⟨_, .quiet m index last w u w' c i _ cs last hc hi hchecked hrun, by simpa using hkind⟩

theorem requests_of_sameTree (ht : SameTree root w w') (ho : ∀ d ∈ order, Below w root d) :
    requests w' order = requests w order := by
  unfold requests
  rw [flatMap_def, flatMap_def]
  congr 1
  apply map_congr_left
  intro d hd
  rw [requestsOf, requestsOf, ht d (ho d hd)]

theorem Quietly.detector (hquiet : Quietly h root (requestsOf w d) w w') (hd : Below w root d)
    (hc : w.detectors[d]? = some c) (hconf : AllConfirmed h w root)
    (hfuel : c.watchers.length < w.watchers.size + slack) :
    ∃ u cs cs', Preluded h c.preludes w cs u ∧
      CheckedFrom h d position (u.watchers.size + slack) 0 last u cs' last w' ∧
      ∀ x ∈ cs ++ cs', x.kind = .prelude ∨ x.kind = .read := by
  have hrequests : requestsOf w d = c.preludes.map .prelude ++ c.watchers.map .read := by
    simp [requestsOf, World.visit?, hc, Detector.visit]
  rw [hrequests] at hquiet
  obtain ⟨u, hpre, hread⟩ := hquiet.split
  obtain ⟨cs, hpreluded⟩ := hpre.preluded
  have hs := hpre.still
  obtain ⟨c', hc', -, hwatchers, -⟩ := hs.tree.detector hd hc
  have hdrop : c'.watchers.drop 0 = c.watchers := hwatchers
  have henough : c.watchers.length < u.watchers.size + slack :=
    Nat.lt_of_lt_of_le hfuel (Nat.add_le_add_right hs.watchers slack)
  obtain ⟨cs', hchecked, hkind⟩ :=
    hread.checkedFrom (hs.tree.below hd) hc' hdrop (hs.allConfirmed hconf) henough
  exact ⟨u, cs, cs', hpreluded, hchecked, forall_mem_append.mpr
    ⟨fun x hx => .inl (hpreluded.kind x hx), fun x hx => .inr (hkind x hx)⟩⟩

theorem Quietly.visitedFrom (hquiet : Quietly h root (requests w order) w w')
    (ho : Order w queue order) (hq : ∀ d ∈ queue, Below w root d) (hconf : AllConfirmed h w root)
    (hn : order.length < n) (hfuel : ∀ d ∈ order, ∀ c, w.detectors[d]? = some c →
      c.watchers.length < w.watchers.size + slack) :
    ∃ cs, VisitedFrom h n queue position last w cs last w' ∧
      ∀ x ∈ cs, x.kind = .prelude ∨ x.kind = .read := by
  induction order generalizing w queue n position with
  | nil =>
    cases ho
    cases hquiet
    obtain ⟨m, rfl⟩ := Nat.exists_eq_succ_of_ne_zero (Nat.ne_of_gt hn)
    exact ⟨[], .done m position last _, by simp⟩
  | cons d order ih =>
    obtain ⟨m, rfl⟩ := Nat.exists_eq_succ_of_ne_zero (Nat.ne_of_gt (Nat.zero_lt_of_lt hn))
    have hall := ho.all_below hq
    cases ho with
    | cons _ queue _ c hc horder =>
      have hd := hq d mem_cons_self
      obtain ⟨v, hfirst, hrest⟩ := hquiet.split
      have hs := hfirst.still
      obtain ⟨u, cs, cs', hpreluded, hchecked, hkind⟩ :=
        hfirst.detector hd hc hconf (hfuel d mem_cons_self c hc)
      obtain ⟨c', hc', -, -, hchildren⟩ := hs.tree.detector hd hc
      have hlater : ∀ e ∈ order, Below w root e := fun e he => hall e (.tail _ he)
      have hqueue := below_queue hq hc
      have horder' := horder.of_sameTree hs.tree hqueue
      have hqueue' : ∀ e ∈ queue ++ c.children, Below v root e :=
        fun e he => hs.tree.below (hqueue e he)
      rw [← hchildren] at horder' hqueue'
      have hrest : Quietly h root (requests v order) v w' := by
        rw [requests_of_sameTree hs.tree hlater]
        exact hrest
      have hfuel' := hs.fuel hlater fun e he => hfuel e (.tail _ he)
      obtain ⟨cs'', hvisited, hkind'⟩ := ih hrest horder' hqueue' (hs.allConfirmed hconf)
        (Nat.lt_of_succ_lt_succ hn) hfuel'
      exact ⟨_, .next m d queue position last last last w u v w' c c' cs cs' cs'' hc hpreluded
        hchecked hc' hvisited, forall_mem_append.mpr ⟨hkind, hkind'⟩⟩

end Quiet

/-! ## Digests -/

def conclude (h : Host κ υ) (root : DetectorId) (finish : Act κ υ Unit) (report : DigestReport) :
    Act κ υ DigestReport := do
  finish
  let onces := (← find World.detectors root).onces
  updateDetector root fun d => { d with onces := [] }
  onces.forM fun k => guarded (h.run k .plain)
  return report

theorem digestReport_eq :
    digestReport h root finish = passesFrom h root maxPasses 0 none >>= conclude h root finish :=
  rfl

/-- A pass that acts on nothing and leaves every value as it is. -/
structure IdlePass (h : Host κ υ) (root : DetectorId) (w w' : World κ υ) : Prop where
  run : ∃ cs, Passed h root w cs none w' ∧ ∀ c ∈ cs, c.kind = .prelude ∨ c.kind = .read
  records : ∀ i, Watched w root i → w'.watchers[i]? = w.watchers[i]?

section Digest

variable {h : Host κ υ} {root : DetectorId} {finish : Act κ υ Unit} {w w₀ w₁ w' : World κ υ}
  {cs : List (Call κ υ)} {report : DigestReport}

theorem returns_passesFrom_of_none (hp : Returns (pass h root) w none w') :
    Returns (passesFrom h root (n + 1) made last) w ⟨made + 1, true, last⟩ w' := by
  rw [passesFrom, returns_bind]
  exact ⟨none, w', hp, rfl⟩

theorem returns_passesFrom_of_some (hp : Returns (pass h root) w (some l) w₁)
    (hr : Returns (passesFrom h root n (made + 1) (some l)) w₁ report w') :
    Returns (passesFrom h root (n + 1) made last) w report w' := by
  rw [passesFrom, returns_bind]
  exact ⟨some l, w₁, hp, hr⟩

theorem IdlePass.outcome_digestReport (hp : IdlePass h root w w') (finish : Act κ υ Unit) :
    outcome (digestReport h root finish) w =
      outcome (conclude h root finish ⟨1, true, none⟩) w' := by
  obtain ⟨cs, hrun, -⟩ := hp.run
  have hpasses : Returns (passesFrom h root maxPasses 0 none) w ⟨1, true, none⟩ w' :=
    returns_passesFrom_of_none (returns_pass_iff.mpr ⟨cs, hrun⟩)
  rw [digestReport_eq, outcome_bind, hpasses]

theorem Converges.last_pass (hr : Converges h root w w₀ cs w₁) : Passed h root w₀ cs none w₁ := by
  induction hr with
  | last _ _ _ hp => exact hp
  | again _ _ _ _ _ _ _ _ _ ih => exact ih

theorem exists_converges (hd : Returns (digestReport h root finish) w report w')
    (hc : report.converged = true) :
    ∃ w₀ cs w₁, Converges h root w w₀ cs w₁ ∧
      Returns (conclude h root finish report) w₁ report w' := by
  rw [digestReport_eq, returns_bind] at hd
  obtain ⟨r, w₁, hpasses, hend⟩ := hd
  have hreport : report = r := by
    simp only [conclude, returns_bind, returns_pure] at hend
    obtain ⟨_, _, _, _, _, _, _, _, _, _, _, _, hr, _⟩ := hend
    exact hr
  subst hreport
  obtain ⟨w₀, cs, hrun⟩ := converges_of_passesFrom hpasses hc
  exact ⟨w₀, cs, w₁, hrun, hend⟩

/-- Every watcher is confirmed, and a pass has fuel for the order in which it goes. -/
structure Rested (h : Host κ υ) (root : DetectorId) (order : List DetectorId) (w : World κ υ) :
    Prop where
  walk : Order w [root] order
  length : order.length < w.detectors.size + slack
  fuel : ∀ d ∈ order, ∀ c, w.detectors[d]? = some c → c.watchers.length < w.watchers.size + slack
  confirmed : AllConfirmed h w root

theorem below_root : ∀ d ∈ [root], Below w root d := by
  intro d hd
  obtain rfl := mem_singleton.mp hd
  exact .root

theorem Passed.rested (hp : Passed h root w cs none w')
    (hcalm : ∀ c ∈ cs, c.kind ≠ .act false → c.Calm h root) : ∃ order, Rested h root order w' := by
  have hall : ∀ c ∈ cs, c.Calm h root := fun c hc => hcalm c hc ((VisitedFrom.no_act hp rfl).2 c hc)
  obtain ⟨order, horder, hlength, halong⟩ := VisitedFrom.confirmsAlong hp hall below_root
  have htree := halong.carries.tree
  refine ⟨order, horder.of_sameTree htree below_root, ?_, ?_, ?_⟩
  · exact Nat.lt_of_lt_of_le hlength (Nat.add_le_add_right halong.carries.detectors slack)
  · intro d hd c hc
    obtain ⟨c', hc', -, hsame, -⟩ :=
      htree.symm.detector (htree.below (horder.all_below below_root d hd)) hc
    exact hsame ▸ halong.fuel d hd c' hc'
  · intro i hi
    obtain ⟨d, c, hd, hc, hic⟩ := htree.symm.watched hi
    exact halong.confirmed d (horder.below_mem hd) c hc i hic

theorem Rested.of_still {order : List DetectorId} (hr : Rested h root order w)
    (hs : Still h root w w') : Rested h root order w' := by
  refine ⟨hr.walk.of_sameTree hs.tree below_root, ?_, ?_, hs.allConfirmed hr.confirmed⟩
  · exact Nat.lt_of_lt_of_le hr.length (Nat.add_le_add_right hs.detectors slack)
  · exact hs.fuel (hr.walk.all_below below_root) hr.fuel

theorem Rested.idlePass (hr : Rested h root order w) (hq : Quietly h root (requests w order) w w') :
    IdlePass h root w w' :=
  ⟨hq.visitedFrom hr.walk below_root hr.confirmed hr.length hr.fuel, hq.still.records⟩

end Digest

/-! ## A prelude that counts -/

/-- The prelude counts its calls, the source says whether more than `limit` have been counted, and
the action counts its own calls. -/
def counting (limit : Nat) : Host Unit (Nat × Nat) where
  read _ := return .bool (limit < (← get).user.1)
  key _ v _ := return v
  run _ occasion := modify fun w => { w with user :=
    match occasion with
    | .value _ => (w.user.1, w.user.2 + 1)
    | _ => (w.user.1 + 1, w.user.2) }
  buildItem _ _ _ _ _ := throw .failed
  attach _ _ := throw .failed
  construct _ _ _ := throw .failed
  options _ := throw .failed
  page _ := []

def counter (value : Value) : Watcher Unit := { source := .hook (), action := .hook (), value }

/-- A detector with one prelude and one watcher, after so many calls. -/
def counted (preludes actions : Nat) (value : Value) : World Unit (Nat × Nat) where
  user := (preludes, actions)
  detectors := #[{ root := 0, watchers := [0], preludes := [()] }]
  watchers := #[counter value]

section Counting

variable {limit m a : Nat} {x : Value}

theorem counted_prelude : Preluded (counting limit) [()] (counted m a x)
    [⟨.prelude, counted m a x, counted m a x, counted (m + 1) a x⟩] (counted (m + 1) a x) :=
  .cons () [] _ _ _ _ rfl (.nil _)

theorem counted_pass (w' : World Unit (Nat × Nat)) (hw : w'.detectors = (counted 0 0 x).detectors)
    (hr : ∀ n, CheckedFrom (counting limit) 0 0 (n + 2) 0 none (counted (m + 1) a x) cs r w') :
    Passed (counting limit) 0 (counted m a x)
      ([⟨.prelude, counted m a x, counted m a x, counted (m + 1) a x⟩] ++ cs ++ []) r w' := by
  have hfuel : 1 + slack = 999999 + 1 + 1 := rfl
  have hdetectors : (counted m a x).detectors.size = 1 := rfl
  have hwatchers : (counted (m + 1) a x).watchers.size = 1 := rfl
  have hend : VisitedFrom (counting limit) (999999 + 1) ([] ++ []) 1 r w' [] r w' := .done _ _ _ _
  have hfirst : w'.detectors[0]? = some { root := 0, watchers := [0], preludes := [()] } := by
    rw [hw]
    rfl
  have hcheck := hr 999999
  rw [← hfuel, ← hwatchers] at hcheck
  rw [Passed, hdetectors, hfuel]
  exact .next (999999 + 1) 0 [] 0 none r r _ _ _ _ _ _ _ _ _ rfl counted_prelude hcheck hfirst hend

def countedCalls (preludes actions : Nat) (value : Value) : List (Call Unit (Nat × Nat)) :=
  [⟨.prelude, counted preludes actions value, counted preludes actions value,
      counted (preludes + 1) actions value⟩,
    ⟨.read, counted (preludes + 1) actions value, counted (preludes + 1) actions value,
      counted (preludes + 1) actions value⟩]

theorem counted_quiet (a : Nat) (x : Value) (hv : x = .bool (limit < m + 1)) :
    Passed (counting limit) 0 (counted m a x) (countedCalls m a x) none (counted (m + 1) a x) := by
  have hsame : (counter x).comparator.changed x (.bool (limit < m + 1)) = false := by
    rw [hv]
    exact Comparator.changed_self _
  have hchecked := Checked.same (h := counting limit) (i := 0) (counter x) (counter x)
    (.bool (limit < m + 1)) (counted (m + 1) a x) _ rfl rfl rfl hsame
  exact counted_pass (counted (m + 1) a x) rfl fun n =>
    .quiet (n + 1) 0 none _ _ _ _ 0 _ [] none rfl rfl hchecked (.done n 1 none _ _ rfl rfl)

theorem counted_counts (hv : Comparator.identity.changed x (.bool (limit < m + 1)) = true) :
    ∃ cs, Passed (counting limit) 0 (counted m a x) cs (some ⟨0, 0, .bool (limit < m + 1)⟩)
      (counted (m + 1) (a + 1) (.bool (limit < m + 1))) := by
  have hchecked := Checked.changed (h := counting limit) (i := 0) (counter x) (counter x)
    (.bool (limit < m + 1)) (counted (m + 1) a x) _
    (counted (m + 1) (a + 1) (.bool (limit < m + 1))) rfl rfl rfl hv rfl
  exact ⟨_, counted_pass (counted (m + 1) (a + 1) _) rfl fun n =>
    .counts (n + 1) 0 none _ _ _ _ 0 _ _ [] _ rfl rfl hchecked rfl (.done n 1 _ _ _ rfl rfl)⟩

theorem counted_reads (hl : limit < m ↔ limit < p)
    (hr : Reads (counting limit) (counted m a x) s v) :
    Reads (counting limit) (counted p a x) s v := by
  obtain ⟨u, hu⟩ := hr
  cases s with
  | hook k | truth k =>
    have hv : (Except.ok (Value.bool (limit < m)), counted m a x) =
        ((.ok v, u) : Except Stop Value × _) := hu
    simp only [hl, Prod.mk.injEq, Except.ok.injEq] at hv
    exact ⟨counted p a x, hv.1 ▸ rfl⟩
  | property c name => cases hu

theorem counted_still (hl : limit < m ↔ limit < p) :
    Still (counting limit) 0 (counted m a x) (counted p a x) where
  detectors := Nat.le_refl _
  watchers := Nat.le_refl _
  tree _ _ := rfl
  records _ _ := rfl
  reads _ _ v _ _ hv := ⟨v, counted_reads hl hv, .refl⟩

theorem countedCalls_calm (hl : limit < m ↔ limit < m + 1) :
    ∀ c ∈ countedCalls m a x, c.Calm (counting limit) 0 := by
  intro c hc
  simp only [countedCalls, mem_cons, not_mem_nil, or_false] at hc
  rcases hc with rfl | rfl
  · exact counted_still hl
  · exact Still.refl _ _ _

theorem counted_digest (limit m a : Nat) (x : Value) (b : Bool)
    (hb : b = decide (limit < m + 1)) (hb' : b = decide (limit < m + 2))
    (hv : Comparator.identity.changed x (.bool b) = true) :
    Returns (digestReport (counting limit) 0 (pure ())) (counted m a x)
      ⟨2, true, some ⟨0, 0, .bool b⟩⟩ (counted (m + 2) (a + 1) (.bool b)) ∧
    Converges (counting limit) 0 (counted m a x) (counted (m + 1) (a + 1) (.bool b))
      (countedCalls (m + 1) (a + 1) (.bool b)) (counted (m + 2) (a + 1) (.bool b)) := by
  rw [hb] at hv
  obtain ⟨cs, hfirst⟩ := counted_counts hv
  rw [← hb] at hfirst
  have hsecond := counted_quiet (a + 1) (.bool b) (by rw [hb'])
  have hpasses : Returns (passesFrom (counting limit) 0 maxPasses 0 none) (counted m a x)
      ⟨2, true, some ⟨0, 0, .bool b⟩⟩ (counted (m + 2) (a + 1) (.bool b)) :=
    returns_passesFrom_of_some (returns_pass_iff.mpr ⟨cs, hfirst⟩)
      (returns_passesFrom_of_none (returns_pass_iff.mpr ⟨_, hsecond⟩))
  refine ⟨?_, .again _ _ _ _ _ _ _ hfirst (.last _ _ _ hsecond)⟩
  rw [digestReport_eq, returns_bind]
  exact ⟨_, _, hpasses, rfl⟩

end Counting

/-! ## The fixpoint -/

/-- A digest that converges ends in a pass that counts no change. If the calls of that pass are
calm, every watcher below the root is then confirmed. If what finishes the digest and the preludes
and reads of another pass disturb nothing, another digest makes one pass, performs no action and
leaves every value as it is. -/
theorem digest_fixpoint (h : Host κ υ) (root : DetectorId) (finish : Act κ υ Unit)
    (w w' : World κ υ) (report : DigestReport)
    (hd : Returns (digestReport h root finish) w report w') (hc : report.converged = true) :
    (∃ w₀ cs w₁, Converges h root w w₀ cs w₁ ∧
      Returns (conclude h root finish report) w₁ report w') ∧
    ∀ w₀ cs w₁, Converges h root w w₀ cs w₁ →
      Returns (conclude h root finish report) w₁ report w' →
      (∀ c ∈ cs, c.kind ≠ .act false → c.Calm h root) →
      AllConfirmed h w₁ root ∧
      (Still h root w₁ w' → ∃ order, Order w' [root] order ∧
        ∀ w₂, Quietly h root (requests w' order) w' w₂ → IdlePass h root w' w₂ ∧
          ∀ finish', outcome (digestReport h root finish') w' =
            outcome (conclude h root finish' ⟨1, true, none⟩) w₂) := by
  refine ⟨exists_converges hd hc, ?_⟩
  intro w₀ cs w₁ hrun _ hcalm
  obtain ⟨order, hrested⟩ := Passed.rested hrun.last_pass hcalm
  refine ⟨hrested.confirmed, ?_⟩
  intro hstill
  have hrested' := hrested.of_still hstill
  refine ⟨order, hrested'.walk, ?_⟩
  intro w₂ hquiet
  have hidle := hrested'.idlePass hquiet
  exact ⟨hidle, hidle.outcome_digestReport⟩

theorem digest_fixpoint_counted :
    Returns (digestReport (counting 0) 0 (pure ())) (counted 0 0 .undefined)
      ⟨2, true, some ⟨0, 0, .bool true⟩⟩ (counted 2 1 (.bool true)) ∧
    AllConfirmed (counting 0) (counted 2 1 (.bool true)) 0 ∧
    IdlePass (counting 0) 0 (counted 2 1 (.bool true)) (counted 3 1 (.bool true)) ∧
    ∀ finish, outcome (digestReport (counting 0) 0 finish) (counted 2 1 (.bool true)) =
      outcome (conclude (counting 0) 0 finish ⟨1, true, none⟩) (counted 3 1 (.bool true)) := by
  obtain ⟨hdigest, hrun⟩ := counted_digest 0 0 0 .undefined true rfl rfl rfl
  obtain ⟨hconf, hnext⟩ := (digest_fixpoint (counting 0) 0 (pure ()) _ _ _ hdigest rfl).2 _ _ _ hrun
    rfl fun c hc _ => countedCalls_calm (by omega) c hc
  obtain ⟨order, horder, hidle⟩ := hnext (.refl _ _ _)
  have hquiet : Quietly (counting 0) 0 [.prelude (), .read 0] (counted 2 1 (.bool true))
      (counted 3 1 (.bool true)) :=
    .prelude () _ _ _ _ rfl (counted_still (by omega))
      (.read 0 (counter (.bool true)) (.bool true) _ _ _ _ rfl rfl (.refl _ _ _) (.nil _))
  cases horder with
  | cons _ _ order c hc hrest =>
    obtain rfl := Option.some.inj hc
    cases hrest
    exact ⟨hdigest, hconf, hidle _ hquiet⟩

/-- Though the last pass of a digest is calm, prelude included, the prelude may change what the
watcher reads in the next digest, which then performs an action. -/
theorem fixpoint_lost_to_prelude :
    ∃ w₀ cs w₁, Converges (counting 2) 0 (counted 0 0 .undefined) w₀ cs w₁ ∧
      (∀ c ∈ cs, c.Calm (counting 2) 0) ∧
      Returns (digestReport (counting 2) 0 (pure ())) (counted 0 0 .undefined)
        ⟨2, true, some ⟨0, 0, .bool false⟩⟩ w₁ ∧
      w₁ = counted 2 1 (.bool false) ∧
      Returns (digestReport (counting 2) 0 (pure ())) w₁
        ⟨2, true, some ⟨0, 0, .bool true⟩⟩ (counted 4 2 (.bool true)) := by
  obtain ⟨hdigest, hrun⟩ := counted_digest 2 0 0 .undefined false rfl rfl rfl
  obtain ⟨hagain, -⟩ := counted_digest 2 2 1 (.bool false) true rfl rfl rfl
  exact ⟨_, _, _, hrun, countedCalls_calm (by omega), hdigest, rfl, hagain⟩

end ReactiveMarkup.Reactive
