import ReactiveMarkup.Proofs.AwaitRuns
import ReactiveMarkup.Proofs.ListIdentity
import ReactiveMarkup.Proofs.RuntimeCode
import ReactiveMarkup.Reactive.Block

/-! # The latest value

What a block that awaits values shows from its registration on, whatever digests and settlements
there are and in whatever order.
-/

namespace ReactiveMarkup.Reactive

open World

variable {κ υ : Type}

/-! ## Digests are runs -/

namespace Runs

variable {α β : Type} {h : Host κ υ} {x : Awaiter κ} {valid : World κ υ → Prop}

theorem still (hw : ∀ w v w', Returns act w v w' → w' = w) : Runs h x valid act := by
  intro a s g w v w' _ hret
  obtain rfl := hw w v w' hret
  exact ⟨[], a, .nothing⟩

theorem bind (ht : Tidy h x valid) (hact : Runs h x valid act) (hf : ∀ v, Runs h x valid (f v)) :
    Runs h x valid (act >>= f) := by
  intro a s g w v w' hs hret
  obtain ⟨b, u, hfirst, hrest⟩ := returns_bind.mp hret
  obtain ⟨t, c, hd⟩ := hact a s g w b u hs hfirst
  obtain ⟨s₁, g₁, -, hs₁, -⟩ := hd.keeps ht s g hs
  obtain ⟨t', d, hd'⟩ := hf b c s₁ g₁ u v w' hs₁ hrest
  exact ⟨t ++ t', d, hd.trans hd'⟩

theorem sequential (ht : Tidy h x valid) : Sequential (Runs h x valid) where
  pure _ := still fun _ _ _ hret => (returns_pure.mp hret).2
  stop _ := still fun _ _ _ hret => by cases hret
  bind := bind ht
  look _ _ := still fun _ _ _ hret => by
    cases hret
    rfl

theorem check (hu : Abides h x valid) (i : WatcherId) : Runs h x valid (check h i) := by
  by_cases hi : i = x.watcher
  · subst hi
    intro a s g w v w' hs hret
    have hmeets := check_meets hu hs
    rw [Meets.of_outcome hret] at hmeets
    obtain ⟨_, u, t, b, s', -, hd, -, hend⟩ := hmeets
    split at hend
    · obtain ⟨_, t', c, hd'⟩ := hend
      exact ⟨_, c, hd'⟩
    · subst hend
      exact ⟨t, b, hd⟩
  · exact hu.check i hi

theorem run (hu : Abides h x valid) (k : κ) : Runs h x valid (h.run k .plain) :=
  fun a s g w v w' hs hret => hu.plain k a s g w v w' hs hret.guarded

theorem drain (ht : Tidy h x valid) :
    Runs h x valid (updateDetector d fun c => { c with onces := [] }) := by
  intro a s g w _ w' hs hret
  obtain rfl := returns_modify.mp hret
  obtain ⟨_, hshows, -⟩ := hs.shows
  refine ⟨[], a, .elsewhere .nothing ⟨⟨rfl, rfl, fun _ _ => .refl⟩, ?_⟩
    (ht.upkeep w _ hshows.valid (.drain d))⟩
  intro m own hst
  refine ⟨own, { hst with alive := ?_, children := ?_, bounded := ?_ }⟩
  · simpa using hst.alive
  · rw [childrenOf_modify_of (f := fun c => { c with onces := [] }) fun _ => rfl]
    exact hst.children
  · simpa using hst.bounded

theorem digest (hu : Abides h x valid) (root : DetectorId) (hf : Runs h x valid finish) :
    Runs h x valid (digest h root finish) := by
  have hP := sequential hu.toTidy
  refine hP.digest (run hu) (hP.checkFrom (check hu)) ?_ hf
  exact hP.found (fun _ _ => rfl) fun _ => hP.bind (drain hu.toTidy) fun _ => hP.forM hu.plain _

end Runs

/-! ## From the registration on -/

/-- A label at which a block of the detector `d` can be registered. -/
structure Vacant (d : DetectorId) (label parent : NodeId) (parts : AwaitParts κ) (a : Around)
    (w : World κ υ) : Prop where
  alive : d < w.detectors.size
  children : (childrenOf w d).Perm a.others
  bounded : ∀ c ∈ a.others, c < w.detectors.size
  linked : w.document.Linked
  known : parent < w.document.nodes.size
  templates : ∀ br ∈ parts.pending.toList ++ parts.fulfilled.toList ++ parts.rejected.toList,
    br.template < w.document.nodes.size ∧ w.document.kind br.template = .fragment
  siblings : w.document.children parent = a.front ++ label :: a.back
  waiters : ∀ (p : PromiseId) (q : Promise κ), w.promises[p]? = some q →
    generations w.awaits.size q.waiters = []

def World.nextAwaiter (w : World κ υ) (d : DetectorId) (label parent : NodeId) (k : κ)
    (parts : AwaitParts κ) (apply : κ) : Awaiter κ where
  id := w.awaits.size
  block := { point := w.points.size, pending := parts.pending, fulfilled := parts.fulfilled
             rejected := parts.rejected, apply }
  watcher := w.watchers.size
  watch := { source := .hook k, action := .awaitValue w.awaits.size }
  owner := d
  label := label
  parent := parent
  acts := rfl

theorem awaitBlock_status {w w' : World κ υ} {apply : κ}
    (hw : Vacant d label parent parts a w)
    (hret : Returns (awaitBlock d label k parts apply) w () w') (hv : valid w') :
    Status h (w.nextAwaiter d label parent k parts apply) valid a {} 0 w' := by
  have hchildren : childrenOf w' d = childrenOf w d := by
    cases hret
    exact childrenOf_modify_of
      (f := fun c => { c with watchers := c.watchers ++ [w.watchers.size] }) (fun _ => rfl) d d
  have hsize : w'.detectors.size = w.detectors.size := by
    cases hret
    simp
  have hdoc : w'.document = w.document := by
    cases hret
    rfl
  have hpoint : w'.points[w.points.size]? = some { owner := d, label } := by
    cases hret
    simp
  have hblock : w'.awaits[w.awaits.size]? =
      some (w.nextAwaiter d label parent k parts apply).block := by
    cases hret
    simp [nextAwaiter]
  have hwatch : w'.watchers[w.watchers.size]? =
      some (w.nextAwaiter d label parent k parts apply).watch := by
    cases hret
    simp [nextAwaiter]
  have hpromises : w'.promises = w.promises := by
    cases hret
    rfl
  refine ⟨hwatch, none, ⟨⟨none, [], ?_, rfl⟩, hblock, ?_, hv⟩, rfl, rfl⟩
  · constructor
    · exact hpoint
    · exact hsize ▸ hw.alive
    · simpa [hchildren, nextAwaiter, Awaiter.site] using hw.children
    · exact hsize ▸ hw.bounded
    · simp
    · simp
    · exact hdoc ▸ hw.linked
    · exact hdoc ▸ hw.known
    · intro t ht
      obtain ⟨br, hbr, rfl⟩ := List.mem_map.mp ht
      exact hdoc ▸ hw.templates br hbr
    · exact hdoc ▸ hw.siblings
    · rfl
  · have hnil : ∀ (p : PromiseId) (q : Promise κ), w'.promises[p]? = some q →
        generations w.awaits.size q.waiters = [] := hpromises ▸ hw.waiters
    exact ⟨fun p q hq => by simp [nextAwaiter, hnil p q hq],
      fun p q hq => by simp [nextAwaiter, hnil p q hq, Stage.awaited], by simp [Stage.awaited]⟩

/-- What holds in the world `w` that a run with the turns `t` gets to, and what can come next. -/
structure UpToDate (h : Host κ υ) (x : Awaiter κ) (valid : World κ υ → Prop) (a₀ : Around)
    (w₀ : World κ υ) (t : List Turn) (a : Around) (w : World κ υ) (s : Progress) : Prop where
  turns : Progress.replay {} t = some s
  cached : w.watchers[x.watcher]? = some { x.watch with value := s.seen.getD .undefined }
  shown : ∃ m own, Stands x.site a m own w ∧ x.Mounts h valid (x.block.due w.promises s.seen) m
  awaited : s.stage.awaited = outstanding w.promises s.seen
  owed : s.stage.owed = none
  calls : ∀ t₁ t₂ s₁, t = t₁ ++ t₂ → Progress.replay {} t₁ = some s₁ →
    (∀ y ∈ t₂, y.isObserved = false) →
    t₂.countP (·.isCall) = if s₁.stage.endsIn t₂ then 1 else 0
  settling : ∀ (p : PromiseId) (q : Promise κ) r, w.promises[p]? = some q →
    Meets (Halted h x valid) (settle h p r) w fun _ w' =>
      if q.settled.isSome then w' = w
      else ∃ t' a', Doing h x valid .code (t ++ .settled p r :: t') a₀ w₀ a' w'
  stale : ∀ (p : PromiseId) (q : Promise κ) r, w.promises[p]? = some q → q.settled = none →
    s.stage.awaited ≠ some p → (∀ y ∈ q.waiters, (y.generation? x.id).isSome) →
    Returns (settle h p r) w () (w.settleAt p r)
  checking : Meets (Halted h x valid) (check h x.watcher) w fun _ w' => ∃ v u t₁ b s₁,
    Returns (readSource h x.watch.source) w v u ∧ Doing h x valid .code (t ++ t₁) a₀ w₀ b u ∧
    Progress.replay {} (t ++ t₁) = some s₁ ∧
    if x.watch.comparator.changed (s₁.seen.getD .undefined) v then
      ∃ result t₂ c, Doing h x valid .code (t ++ t₁ ++ .observed v result :: t₂) a₀ w₀ c w'
    else w' = u
  digesting : ∀ root finish n w', Runs h x valid finish → Returns (digest h root finish) w n w' →
    ∃ t' a', Doing h x valid .code (t ++ t') a₀ w₀ a' w'

/-- A block shows the branch of the value it has taken last and nothing else: that of a plain value,
the pending one of an open promise, or that of how the promise has ended. Between two values it
takes, `apply` is called once if the promise ends and otherwise not. Settling a promise that it does
not wait for tells it nothing. -/
theorem awaitBlock_shows_latest (h : Host κ υ) (d : DetectorId) (label parent : NodeId)
    (k apply : κ) (parts : AwaitParts κ) (valid : World κ υ → Prop) (a₀ a : Around)
    (w w₀ w' : World κ υ) (t : List Turn) (hw : Vacant d label parent parts a₀ w)
    (hreg : Returns (awaitBlock d label k parts apply) w () w₀) (hv : valid w₀)
    (hu : Abides h (w.nextAwaiter d label parent k parts apply) valid)
    (hd : Doing h (w.nextAwaiter d label parent k parts apply) valid .code t a₀ w₀ a w') :
    ∃ s, UpToDate h (w.nextAwaiter d label parent k parts apply) valid a₀ w₀ t a w' s := by
  have hs₀ := awaitBlock_status (h := h) hw hreg hv
  have ht := hu.toTidy
  obtain ⟨s, g, hreplay, hs, hl⟩ := hd.keeps ht {} 0 hs₀
  have howed : s.stage.owed = none := hl.of_none
  obtain ⟨shown, hshows, hfits⟩ := hs.shows
  rw [Progress.Fits, howed] at hfits
  obtain ⟨rfl, hout⟩ := hfits
  refine ⟨s, hreplay, hs.cached, hshows.stands, hout, howed, ?_, ?_, ?_, ?_, ?_⟩
  · rintro t₁ t₂ s₁ rfl hfirst hn
    rw [Progress.replay_append, hfirst, Option.bind_some] at hreplay
    exact Progress.calls_of_replay hreplay hn howed
  · intro p q r hq
    refine (settle_meets hu hs hq r).mono fun _ w'' hpost => ?_
    split at hpost
    · next hsome => rwa [if_pos hsome]
    · next hsome =>
      rw [if_neg hsome]
      obtain ⟨t', a', hd'⟩ := hpost
      exact ⟨t', a', hd.trans hd'⟩
  · intro p q r hq hopen ha hown
    exact settle_stale hs hq hopen ha hown ht r
  · refine (check_meets hu hs).mono fun _ w'' hpost => ?_
    obtain ⟨v, u, t₁, b, s₁, hret, hd₁, hreplay₁, hend⟩ := hpost
    refine ⟨v, u, t₁, b, s₁, hret, hd.trans hd₁, Progress.replay_trans hreplay hreplay₁, ?_⟩
    split at hend
    · next hch =>
      rw [if_pos hch]
      obtain ⟨result, t₂, c, hd₂⟩ := hend
      exact ⟨result, t₂, c, by simpa using hd.trans hd₂⟩
    · next hch => rwa [if_neg hch]
  · intro root finish n w'' hf hret
    obtain ⟨t', a', hd'⟩ := Runs.digest hu root hf a s g w' n w'' hs hret
    exact ⟨t', a', hd.trans hd'⟩

/-! A promise is taken and then fulfilled, and the block shows the branch for it. -/

section Sample

def promising : Host Unit Unit := { idle with read := fun _ => pure (.promise 0) }

def waitingParts : AwaitParts Unit where
  pending := none
  fulfilled := some { template := 5, build := () }
  rejected := none

def waitingWorld : World Unit Unit where
  user := ()
  document := sampleDocument
  detectors := #[{ root := 0 }]
  promises := #[{}]

def waitingAround : Around where
  front := []
  back := [2, 3, 4]
  others := []

/-- There is one block, and nothing is to be done when a detector is destroyed. -/
structure Lone (w : World Unit Unit) : Prop where
  flat : Flat 0 w
  block : w.awaits.size = 1
  watcher : w.watchers.size = 1
  promise : 0 < w.promises.size

theorem Lone.chore (ho : x.owner = 0) (hw : Lone w) (hc : Chore x w w') : Lone w' := by
  obtain ⟨hflat, hblock, hwatcher, hpromise⟩ := hw
  cases hc with
  | arrange e | point m => exact ⟨⟨hflat.quiet, hflat.single⟩, hblock, hwatcher, hpromise⟩
  | adopt hret =>
    obtain ⟨ds, rfl⟩ := newChild_world hret
    exact ⟨hflat.adopt (ho ▸ hret), hblock, hwatcher, hpromise⟩
  | release hret =>
    rw [ho] at hret
    cases hret
    exact ⟨hflat.modify 0 (fun _ hc => hc) (.inl rfl), hblock, hwatcher, hpromise⟩
  | renew =>
    exact ⟨⟨hflat.quiet, hflat.single⟩, by simpa [renew] using hblock, hwatcher, hpromise⟩
  | remember v =>
    exact ⟨⟨hflat.quiet, hflat.single⟩, hblock, by simpa [remember] using hwatcher, hpromise⟩
  | settle p r =>
    exact ⟨⟨hflat.quiet, hflat.single⟩, hblock, hwatcher, by simpa [settleAt] using hpromise⟩
  | enlist p g =>
    exact ⟨⟨hflat.quiet, hflat.single⟩, hblock, hwatcher, by simpa [enlist] using hpromise⟩
  | drain d =>
    exact ⟨hflat.modify d (fun _ hc => hc) (.inr fun _ hc => hc), hblock, hwatcher, hpromise⟩

theorem promising_abides (hid : x.id = 0) (hwatcher : x.watcher = 0) (ho : x.owner = 0)
    (hsource : x.watch.source = .hook ()) : Abides promising x Lone where
  upkeep := fun _ _ hw hc => hw.chore ho hc
  build := by
    intro br _ c f v w w' hw hf hret
    cases hret
    exact ⟨hw, .refl, .refl hf.1⟩
  destroy := by
    intro br _ v m _ hm own w w' hx hw hf hret
    have hne : m.detector ≠ 0 := by
      rw [ho] at hm
      exact hm.ne'
    obtain ⟨hflat, hsize, hchildren, ds, rfl⟩ := destroy_flat hne hw.flat hret
    refine ⟨⟨hflat, hw.block, hw.watcher, hw.promise⟩,
      ⟨rfl, rfl, fun _ _ => .refl⟩, own, hx, ?_⟩
    refine { Clear.refl hf.1 with detectors := hsize.symm.le, children := ?_ }
    simpa [Awaiter.site, ho] using hchildren
  read := Runs.still fun w v w' hret => by
    rw [hsource] at hret
    cases hret
    rfl
  known := by
    intro w v w' p hw hret hp
    rw [hsource] at hret
    cases hret
    obtain rfl : 0 = p := Option.some.inj hp
    exact hw.promise
  wake := by
    intro r y hy
    cases y with
    | hook k => exact Runs.still fun w v w' hret => by cases hret; rfl
    | block j g =>
      intro a s g' w v w' hs hret
      obtain ⟨_, hshows, -⟩ := hs.shows
      obtain ⟨b, _, hfind, -⟩ := returns_bind.mp hret
      have hj := (Array.getElem?_eq_some_iff.mp (returns_find.mp hfind).1).1
      rw [hshows.valid.block] at hj
      simp [Waiter.generation?, hid, Nat.lt_one_iff.mp hj] at hy
  plain := fun _ => Runs.still fun w v w' hret => by cases hret; rfl
  check := by
    intro i hi a s g w v w' hs hret
    obtain ⟨_, hshows, -⟩ := hs.shows
    obtain ⟨c, _, hfind, -⟩ := returns_bind.mp hret
    have hlt := (Array.getElem?_eq_some_iff.mp (returns_find.mp hfind).1).1
    rw [hshows.valid.watcher, Nat.lt_one_iff] at hlt
    exact absurd (hlt.trans hwatcher.symm) hi

abbrev waiting : Awaiter Unit := waitingWorld.nextAwaiter 0 1 0 () waitingParts ()

theorem waitingWorld_vacant : Vacant 0 1 0 waitingParts waitingAround waitingWorld where
  alive := by decide
  children := by decide
  bounded := by simp [waitingAround]
  linked := linked_sampleDocument
  known := by decide
  templates := by
    intro br hbr
    obtain rfl : br = { template := 5, build := () } := by simpa [waitingParts] using hbr
    exact ⟨by decide, rfl⟩
  siblings := by decide
  waiters := by
    intro p q hq
    obtain rfl := List.mem_singleton.mp (Array.mem_toList_iff.mpr (Array.mem_of_getElem? hq))
    rfl

def waitingRegistered : World Unit Unit :=
  { waitingWorld with
    detectors := #[{ root := 0, watchers := [0] }]
    points := #[{ owner := 0, label := 1 }]
    awaits := #[waiting.block]
    watchers := #[waiting.watch] }

abbrev waitingTaken : World Unit Unit :=
  ((waitingRegistered.remember 0 (.promise 0)).renew 0).enlist 0 (.block 0 1)

theorem waitingRegistered_lone : Lone waitingRegistered where
  flat := .lone rfl rfl
  block := rfl
  watcher := rfl
  promise := by decide

theorem waiting_ends : ∃ w, Doing promising waiting Lone .code
    [.observed (.promise 0) none, .settled 0 (.fulfilled .null), .called] waitingAround
    waitingRegistered waitingAround w := by
  have hread : Returns (readSource promising waiting.watch.source) waitingRegistered (.promise 0)
      waitingRegistered := rfl
  have hclear : Returns (unmount promising 0) (waitingRegistered.remember 0 (.promise 0)) ()
      (waitingRegistered.remember 0 (.promise 0)) := rfl
  have hopen : Returns (mountExhibit promising 0 (waiting.block.opening (.promise 0)))
      ((waitingRegistered.remember 0 (.promise 0)).renew 0) ()
      ((waitingRegistered.remember 0 (.promise 0)).renew 0) := rfl
  have hpending : Doing promising waiting Lone (.follow (.promise 0)) [] waitingAround
      ((waitingRegistered.remember 0 (.promise 0)).renew 0) waitingAround waitingTaken :=
    .pending (b := { waiting.block with generation := 1 }) rfl rfl rfl rfl
  have hobserved : Doing promising waiting Lone .code [.observed (.promise 0) none] waitingAround
      waitingRegistered waitingAround waitingTaken :=
    Doing.observed .nothing hread .nothing rfl rfl
      hclear hopen hpending
  have hempty : Returns (unmount promising 0) (waitingTaken.settleAt 0 (.fulfilled .null)) ()
      (waitingTaken.settleAt 0 (.fulfilled .null)) := rfl
  obtain ⟨w, hfull⟩ : ∃ w, Returns (mountSettled promising waiting.block (.fulfilled .null))
      (waitingTaken.settleAt 0 (.fulfilled .null)) () w := ⟨_, rfl⟩
  have hrun : Returns (promising.run () .plain) w () w := rfl
  have hwoken : Doing promising waiting Lone (.wakes (.fulfilled .null) [.block 0 1]) [.called]
      waitingAround (waitingTaken.settleAt 0 (.fulfilled .null)) waitingAround w :=
    .woken (t := []) (e := { waiting.block with generation := 1 }) rfl hempty hfull hrun .nothing .done
  exact ⟨w, hobserved.settled rfl rfl hwoken⟩

theorem awaitBlock_shows_latest_sample :
    Returns (awaitBlock 0 1 () waitingParts ()) waitingWorld () waitingRegistered ∧
      ∃ w s, UpToDate promising waiting Lone waitingAround waitingRegistered
        [.observed (.promise 0) none, .settled 0 (.fulfilled .null), .called] waitingAround w s := by
  obtain ⟨w, hd⟩ := waiting_ends
  have hreg : Returns (awaitBlock 0 1 () waitingParts ()) waitingWorld () waitingRegistered := rfl
  obtain ⟨s, hs⟩ := awaitBlock_shows_latest promising 0 1 0 () () waitingParts Lone waitingAround
    waitingAround waitingWorld waitingRegistered w _ waitingWorld_vacant hreg
    waitingRegistered_lone (promising_abides rfl rfl rfl rfl) hd
  exact ⟨hreg, w, s, hs⟩

end Sample

end ReactiveMarkup.Reactive
