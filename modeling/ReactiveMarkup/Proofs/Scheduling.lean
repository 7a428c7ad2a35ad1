import ReactiveMarkup.Proofs.RuntimeTraces

/-! # Digests that are asked for

A call of `apply` plans a digest unless one is planned or under way.
-/

namespace ReactiveMarkup.Reactive

open List World

variable {κ υ : Type}

/-! ## The flags of a scheduler -/

namespace World

variable (w : World κ υ) (s : SchedulerId)

def isPlanned : Bool := (w.schedulers[s]?).any (·.planned)

def isRunning : Bool := (w.schedulers[s]?).any (·.running)

def isIdle : Bool := (w.schedulers[s]?).any (!·.running)

def queued : Nat := w.tasks.countP (Task.isDigestOf s)

end World

def Tallied (s : SchedulerId) (w : World κ υ) : Prop := w.queued s = (w.isPlanned s).toNat

/-- No scheduler makes passes, and the queue agrees with what is planned. -/
def AtRest (w : World κ υ) : Prop := ∀ s, Tallied s w ∧ w.isRunning s = false

variable {w u w' : World κ υ} {s : SchedulerId} {calls : List Frame} {j : Errand κ υ}
  {tr tr' : List (Moment κ υ)} {root : DetectorId} {m : Moment κ υ}

theorem isPlanned_of_known (hs : w.schedulers[s]? = some c) : w.isPlanned s = c.planned := by
  simp [isPlanned, hs]

theorem isRunning_of_known (hs : w.schedulers[s]? = some c) : w.isRunning s = c.running := by
  simp [isRunning, hs]

theorem isIdle_of_known (hs : w.schedulers[s]? = some c) : w.isIdle s = !c.running := by
  simp [isIdle, hs]

theorem any_modify_same {a : Array Scheduler} (hf : ∀ c, p (f c) = p c) :
    ((a.modify i f)[s]?).any p = (a[s]?).any p := by
  rw [Array.getElem?_modify]
  split
  · cases a[s]? with
    | none => rfl
    | some c => exact hf c
  · rfl

theorem any_modify_other {a : Array Scheduler} (hi : i ≠ s) :
    ((a.modify i f)[s]?).any p = (a[s]?).any p := by
  rw [Array.getElem?_modify, if_neg hi]

theorem any_modify_false {a : Array Scheduler} (hf : ∀ c, p (f c) = false) :
    ((a.modify s f)[s]?).any p = false := by
  rw [Array.getElem?_modify, if_pos rfl]
  cases a[s]? with
  | none => rfl
  | some c => exact hf c

theorem Adds.flags (h : Adds w w') :
    w'.isPlanned s = w.isPlanned s ∧ w'.isRunning s = w.isRunning s := by
  cases hs : w.schedulers[s]? with
  | some c =>
    have hs' : w'.schedulers[s]? = some c := by
      rw [h.schedulers s (Array.getElem?_eq_some_iff.mp hs).1, hs]
    simp [isPlanned, isRunning, hs, hs']
  | none =>
    cases hs' : w'.schedulers[s]? with
    | none => simp [isPlanned, isRunning, hs, hs']
    | some c =>
      obtain ⟨hp, hr⟩ := h.idle s c hs hs'
      simp [isPlanned, isRunning, hs, hs', hp, hr]

theorem Adds.queued (h : Adds w w') : w'.queued s = w.queued s := by
  obtain ⟨more, hmore, hnone⟩ := h.tasks
  have hzero : more.countP (Task.isDigestOf s) = 0 :=
    countP_eq_zero.mpr fun t ht => by simp [hnone t ht s]
  rw [World.queued, hmore, countP_append, hzero, Nat.add_zero]
  rfl

/-! ## Plans along a trace -/

theorem Change.plan (h : Change w w') :
    w'.isPlanned s = w.isPlanned s ∧ w'.queued s = w.queued s := by
  cases h with
  | adds h => exact ⟨h.flags.1, h.queued⟩
  | strike | orphan => exact ⟨rfl, rfl⟩
  | setRunning i b | countRun i => exact ⟨any_modify_same fun _ => rfl, rfl⟩
  | @dropTask t rest _ ht hd =>
    refine ⟨rfl, ?_⟩
    rw [queued, queued, ht, countP_cons_of_neg (by simp [hd s])]

def Moment.plans (s : SchedulerId) (m : Moment κ υ) : Bool :=
  m.event == .apply s && m.world.isIdle s && !m.world.isPlanned s

def Moment.takes (s : SchedulerId) (m : Moment κ υ) : Bool := m.event == .take s

structure Planning (s : SchedulerId) (m : Moment κ υ) (u : World κ υ) : Prop where
  planned : u.isPlanned s = (m.plans s || m.world.isPlanned s && !m.takes s)
  queued : u.queued s + (m.takes s).toNat = m.world.queued s + (m.plans s).toNat

theorem Planning.of_same (hp : m.plans s = false) (ht : m.takes s = false)
    (hs : u.isPlanned s = m.world.isPlanned s) (hq : u.queued s = m.world.queued s) :
    Planning s m u :=
  ⟨by simp [hp, ht, hs], by simp [hp, ht, hq]⟩

theorem apply_world :
    (outcome (apply i) w).2 = if w.isIdle i && !w.isPlanned i then w.plan i else w := by
  rw [outcome_apply]
  cases hi : w.schedulers[i]? with
  | none => simp [isIdle, hi]
  | some c => simp only [isIdle_of_known hi, isPlanned_of_known hi]

theorem isPlanned_plan (h : w.isIdle s) : (w.plan s).isPlanned s = true := by
  cases hs : w.schedulers[s]? with
  | none => simp [isIdle, hs] at h
  | some c => simp [isPlanned, plan, Array.getElem?_modify, hs]

theorem planning_apply : Planning s ⟨.apply i, calls, w⟩ (outcome (apply i) w).2 := by
  rw [apply_world]
  by_cases hi : i = s
  · subst hi
    have hplans : Moment.plans i (⟨.apply i, calls, w⟩ : Moment κ υ) =
        (w.isIdle i && !w.isPlanned i) := by
      simp [Moment.plans]
    split <;> rename_i hfree
    · rw [hfree] at hplans
      have hplanned := isPlanned_plan (Bool.and_eq_true_iff.mp hfree).1
      refine ⟨by simp [hplans, hplanned], ?_⟩
      simp [hplans, Moment.takes, queued, plan, Task.isDigestOf]
    · exact .of_same (hplans.trans (Bool.not_eq_true _ ▸ hfree)) rfl rfl rfl
  · have hplans : Moment.plans s (⟨.apply i, calls, w⟩ : Moment κ υ) = false := by
      simp [Moment.plans, hi]
    split
    · refine .of_same hplans rfl (any_modify_other hi) ?_
      simp [queued, plan, Task.isDigestOf, hi]
    · exact .of_same hplans rfl rfl rfl

theorem Effect.planning {e : Event} (h : Effect e w u) (calls : List Frame) (s : SchedulerId) :
    Planning s ⟨e, calls, w⟩ u := by
  cases h with
  | read | act | remove | destroy | begin | breakOff => exact .of_same rfl rfl rfl rfl
  | apply i => exact planning_apply
  | @take rest i _ ht =>
    by_cases hi : i = s
    · subst hi
      have htakes : Moment.takes i (⟨.take i, calls, w⟩ : Moment κ υ) = true := by
        simp [Moment.takes]
      refine ⟨?_, ?_⟩
      · rw [htakes, Bool.not_true, Bool.and_false]
        exact any_modify_false fun _ => rfl
      · rw [htakes]
        simp [Moment.plans, queued, takeDigest, ht, Task.isDigestOf]
    · refine .of_same rfl (by simp [Moment.takes, hi]) (any_modify_other hi) ?_
      simp [queued, takeDigest, ht, Task.isDigestOf, hi]

theorem Planning.tallied (h : Planning s m u) (hw : Tallied s m.world) : Tallied s u := by
  have hq := h.queued
  have hplans : m.plans s = true → m.world.isPlanned s = false ∧ m.takes s = false := by
    simp only [Moment.plans, Moment.takes, Bool.and_eq_true_iff, beq_iff_eq]
    rintro ⟨⟨he, -⟩, hn⟩
    exact ⟨by simpa using hn, by simp [he]⟩
  unfold Tallied at hw ⊢
  rw [h.planned]
  cases hp : m.plans s with
  | true =>
    simp_all
  | false => cases ht : m.takes s <;> cases hn : m.world.isPlanned s <;> simp_all

theorem Change.tallied (h : Change w w') (hw : Tallied s w) : Tallied s w' := by
  obtain ⟨hp, hq⟩ := h.plan
  rw [Tallied, hp, hq]
  exact hw

theorem Trail.tallied (h : Trail w tr w') (hw : Tallied s w) :
    Tallied s w' ∧ ∀ m ∈ tr, Tallied s m.world :=
  h.keeps (fun hc hw => hc.tallied hw) (fun he hw => (he.planning [] s).tallied hw) hw

theorem Trail.balance (h : Trail w tr w') :
    tr.countP (·.takes s) + w'.queued s = tr.countP (·.plans s) + w.queued s := by
  induction h with
  | done w => rfl
  | change hc _ ih => rw [ih, hc.plan.2]
  | @event e w u tr w' calls he _ ih =>
    have hq := (he.planning calls s).queued
    cases hp : Moment.plans s (⟨e, calls, w⟩ : Moment κ υ) <;>
      cases ht : Moment.takes s (⟨e, calls, w⟩ : Moment κ υ) <;>
      simp [hp, ht] at hq ⊢ <;> omega

/-! ## Digests of a scheduler -/

/-- The call asks for a digest: it comes from outside, from a hook that waits for a digest, or from
the passes of others. -/
def Asks (s : SchedulerId) (root : DetectorId) (m : Moment κ υ) : Prop :=
  m.event = .apply s ∧ .loop s ∉ m.calls ∧ ∃ c, m.world.schedulers[s]? = some c ∧ c.root = root

/-- The passes of a scheduler do not break off, and its runs are not nested. -/
def Unbroken (s : SchedulerId) (tr : List (Moment κ υ)) : Prop :=
  ∀ m ∈ tr, m.event ≠ .breakOff s ∧ ∀ root, m.event = .begin s root → .run s ∉ m.calls

/-- The flag of a scheduler is set while it makes its passes. -/
def Flagged (s : SchedulerId) (calls : List Frame) (w : World κ υ) : Prop :=
  w.isRunning s = decide (.loop s ∈ calls)

theorem Unbroken.append (h : Unbroken s (tr ++ tr')) : Unbroken s tr ∧ Unbroken s tr' :=
  forall_mem_append.mp h

theorem Unbroken.tail (h : Unbroken s (m :: tr)) : Unbroken s tr := (forall_mem_cons.mp h).2

namespace Flagged

theorem of_same (h : Flagged s calls w) (hw : w'.isRunning s = w.isRunning s) :
    Flagged s calls w' :=
  hw.trans h

theorem frame (hf : f ≠ .loop s) : Flagged s (f :: calls) w ↔ Flagged s calls w := by
  simp [Flagged, hf.symm]

theorem enter (h : Flagged s calls w) (hf : f ≠ .loop s) : Flagged s (f :: calls) w :=
  (frame hf).mpr h

theorem apply (h : Flagged s calls w) : Flagged s calls (outcome (apply i) w).2 := by
  refine h.of_same ?_
  rw [apply_world]
  split
  · exact any_modify_same fun _ => rfl
  · rfl

theorem start {i : SchedulerId} (h : Flagged s calls w) (hi : w.schedulers[i]? = some c) :
    Flagged s (.loop i :: calls) (w.setRunning i true) := by
  by_cases hs : i = s
  · subst hs
    simp [Flagged, isRunning, setRunning, Array.getElem?_modify, hi]
  · rw [frame (by simpa using hs)]
    exact h.of_same (any_modify_other hs)

theorem leave {i : SchedulerId} (hf : ∀ c, (f c).running = false) (hcalls : i = s → .loop s ∉ calls)
    (h : i ≠ s → Flagged s calls w) :
    Flagged s calls { w with schedulers := w.schedulers.modify i f } := by
  by_cases hs : i = s
  · have hnot := hcalls hs
    subst hs
    rw [Flagged, decide_eq_false hnot]
    exact any_modify_false hf
  · exact (h hs).of_same (any_modify_other hs)

end Flagged

/-- The flag agrees with the calls at every moment and in the end. -/
structure Marked (s : SchedulerId) (calls : List Frame) (tr : List (Moment κ υ)) (w : World κ υ) :
    Prop where
  last : Flagged s calls w
  moments : ∀ m ∈ tr, Flagged s m.calls m.world

namespace Marked

variable {f : Frame} {e : Event}

theorem nil (h : Flagged s calls w) : Marked s calls [] w := ⟨h, by simp⟩

theorem cons (h : Flagged s calls w) (htr : Marked s calls tr w') :
    Marked s calls (⟨e, calls, w⟩ :: tr) w' :=
  ⟨htr.last, forall_mem_cons.mpr ⟨h, htr.moments⟩⟩

theorem append (h : Marked s calls tr u) (h' : Marked s calls tr' w') :
    Marked s calls (tr ++ tr') w' :=
  ⟨h'.last, forall_mem_append.mpr ⟨h.moments, h'.moments⟩⟩

theorem leave (hf : f ≠ .loop s) (h : Marked s (f :: calls) tr w) : Marked s calls tr w :=
  ⟨(Flagged.frame hf).mp h.last, h.moments⟩

theorem of_same (h : Marked s calls tr w) (hw : w'.isRunning s = w.isRunning s) :
    Marked s calls tr w' :=
  ⟨h.last.of_same hw, h.moments⟩

end Marked

def Enclosed (s : SchedulerId) (calls : List Frame) : Prop := .loop s ∈ calls → .run s ∈ calls

theorem Enclosed.frame (h : Enclosed s calls) (hf : f ≠ .loop s) : Enclosed s (f :: calls) := by
  intro hmem
  obtain rfl | hmem := mem_cons.mp hmem
  · exact absurd rfl hf
  · exact .tail f (h hmem)

theorem Enclosed.loop (h : Enclosed s calls) : Enclosed s (.loop i :: .run i :: calls) := by
  intro hmem
  simp only [mem_cons, Frame.loop.injEq, reduceCtorEq, false_or] at hmem
  obtain rfl | hmem := hmem
  · simp
  · simp [h hmem]

theorem Unbroken.begins (h : Unbroken s (⟨.begin i root, calls, w⟩ :: tr))
    (hcalls : Enclosed s calls) : i = s → .loop s ∉ calls := by
  rintro rfl hloop
  exact (h _ mem_cons_self).2 root rfl (hcalls hloop)

theorem Marked.finish (h : Marked s (.loop i :: .run i :: calls) tr u)
    (hi : i = s → .loop s ∉ calls) : Marked s (.run i :: calls) tr (u.setRunning i false) := by
  refine ⟨.leave (fun _ => rfl) (by simpa using hi) fun hne => ?_, h.moments⟩
  exact (Flagged.frame (by simpa using hne)).mp h.last

theorem Does.marked (h : Does calls j w tr w') (ho : Unbroken s tr) (hcalls : Enclosed s calls)
    (hw : Flagged s calls w) : Marked s calls tr w' := by
  induction h with
  | silent w hx => exact (Marked.nil hw).of_same ((hx w).flags).2
  | bind _ _ ih ih' | next _ _ ih ih' =>
    have htr := ih ho.append.1 hcalls hw
    exact htr.append (ih' ho.append.2 hcalls htr.last)
  | stop _ ih | guarded _ ih | call _ ih | nextStops _ ih | start _ ih | other _ _ _ ih =>
    exact ih ho hcalls hw
  | remove | unknown => exact .cons hw (.nil hw)
  | tooDeep | nobody | unscheduled => exact .nil hw
  | cleanupStops _ _ ih | unread _ _ _ ih | same _ _ _ _ _ ih =>
    exact .cons hw ((ih ho.tail (hcalls.frame (by simp)) (hw.enter (by simp))).leave (by simp))
  | destroy _ _ _ ih ih' =>
    have htr := ih ho.tail.append.1 (hcalls.frame (by simp)) (hw.enter (by simp))
    have htr' := ih' ho.tail.append.2 (hcalls.frame (by simp)) htr.last
    exact .cons hw ((htr.leave (by simp)).append (htr'.leave (by simp)))
  | changed _ _ _ _ _ _ ih ih' =>
    have htr := ih ho.tail.append.1 (hcalls.frame (by simp)) (hw.enter (by simp))
    have hu := (htr.leave (by simp)).last
    have htr' := ih' ho.tail.append.2.tail hcalls hu
    exact .cons hw ((htr.leave (by simp)).append (.cons hu htr'))
  | apply i w => exact .cons hw (.nil hw.apply)
  | @loopStops i _ calls _ _ _ _ _ hs _ ih =>
    -- the scheduler of these passes is another one
    have hi : i ≠ s := by
      rintro rfl
      exact (ho.tail.append.2 _ (mem_singleton_self _)).1 rfl
    have hpasses := ih ho.tail.append.1 hcalls.loop ((hw.enter (by simp)).start hs)
    have htr : Marked s calls _ _ := (hpasses.leave (by simpa using hi)).leave (by simp)
    exact .cons hw (htr.append (.cons htr.last (.nil htr.last)))
  | @onceStops i _ _ _ _ _ _ _ _ _ _ hs _ _ ih ih' =>
    have hpasses := ih ho.tail.append.1 hcalls.loop ((hw.enter (by simp)).start hs)
    have htr := hpasses.finish (ho.begins hcalls)
    have htr' := ih' ho.tail.append.2 (hcalls.frame (by simp)) htr.last
    exact .cons hw ((htr.append htr').leave (by simp))
  | @run i _ _ _ _ _ _ _ _ _ hs _ _ ih ih' =>
    have hpasses := ih ho.tail.append.1 hcalls.loop ((hw.enter (by simp)).start hs)
    have htr := hpasses.finish (ho.begins hcalls)
    have htr' := ih' ho.tail.append.2 (hcalls.frame (by simp)) htr.last
    have hall := (htr.append htr').leave (by simp)
    exact .cons hw ⟨.leave (fun _ => rfl) (ho.begins hcalls) fun _ => hall.last, hall.moments⟩
  | take _ _ ih => exact .cons hw (ih ho.tail hcalls (hw.of_same (any_modify_same fun _ => rfl)))

/-! ## A digest that is taken up begins -/

def Prompt (s : SchedulerId) (tr : List (Moment κ υ)) : Prop :=
  ∀ (before : List (Moment κ υ)) (m : Moment κ υ) (rest : List (Moment κ υ)),
    tr = before ++ m :: rest → m.event = .take s → ∀ c, m.world.schedulers[s]? = some c →
      ∃ (b : Moment κ υ) (rest' : List (Moment κ υ)), rest = b :: rest' ∧ b.event = .begin s c.root

namespace Prompt

theorem nil : Prompt s ([] : List (Moment κ υ)) := by
  intro before m rest h
  simp at h

theorem append (h : Prompt s tr) (h' : Prompt s tr') : Prompt s (tr ++ tr') := by
  intro before m rest heq hm c hc
  obtain ⟨more, rfl, rfl⟩ | ⟨more, rfl, hmore⟩ := append_eq_append_iff.mp heq
  · exact h' more m rest rfl hm c hc
  · cases more with
    | nil =>
      exact h' [] m rest hmore.symm hm c hc
    | cons m' more =>
      obtain ⟨rfl, rfl⟩ := List.cons.inj hmore
      obtain ⟨b, rest', rfl, hb⟩ := h before m more rfl hm c hc
      exact ⟨b, rest' ++ tr', rfl, hb⟩

theorem cons (hm : m.event = .take s → ∀ c, m.world.schedulers[s]? = some c →
    ∃ b rest, tr = b :: rest ∧ b.event = .begin s c.root) (h : Prompt s tr) : Prompt s (m :: tr) := by
  intro before m' rest heq hm' c hc
  cases before with
  | nil =>
    obtain ⟨rfl, rfl⟩ := List.cons.inj heq
    exact hm hm' c hc
  | cons _ before =>
    obtain ⟨rfl, rfl⟩ := List.cons.inj heq
    exact h before m' rest rfl hm' c hc

end Prompt

theorem Does.begins (hdoes : Does calls (.run h s r) w tr w') (hs : w.schedulers[s]? = some c) :
    ∃ b rest, tr = b :: rest ∧ b.event = .begin s c.root := by
  cases hdoes with
  | unscheduled hs' => simp [hs] at hs'
  | loopStops hs' _ | onceStops hs' _ _ | run hs' _ _ =>
    obtain rfl := Option.mem_unique hs hs'
    exact ⟨_, _, rfl, rfl⟩

theorem Does.prompt (h : Does calls j w tr w') : Prompt s tr := by
  refine h.shape (fun _ => .nil) (fun _ _ he => .cons (fun hs => absurd hs (he s)) .nil)
    (fun ih ih' => ih.append ih') (fun ih => ih)
    (fun _ ih => .cons nofun (ih.append (.cons nofun .nil))) fun _ hrun ih => ?_
  refine .cons (fun hs c hc => ?_) ih
  obtain rfl := Event.take.inj hs
  exact hrun.begins (c := { c with planned := false })
    (by simp [takeDigest, Array.getElem?_modify, hc])

/-! ## Calls are answered -/

def Rooted (s : SchedulerId) (root : DetectorId) (w : World κ υ) : Prop :=
  ∃ c, w.schedulers[s]? = some c ∧ c.root = root

theorem Rooted.modify (h : Rooted s root w) (hf : ∀ c, (f c).root = c.root) :
    Rooted s root { w with schedulers := w.schedulers.modify i f, tasks := ts } := by
  obtain ⟨c, hc, rfl⟩ := h
  rw [Rooted, Array.getElem?_modify, hc]
  split
  · exact ⟨f c, rfl, hf c⟩
  · exact ⟨c, rfl, rfl⟩

theorem Change.rooted (h : Change w w') (hw : Rooted s root w) : Rooted s root w' := by
  cases h with
  | adds h =>
    obtain ⟨c, hc, hroot⟩ := hw
    exact ⟨c, (h.schedulers s (Array.getElem?_eq_some_iff.mp hc).1).trans hc, hroot⟩
  | strike | orphan | dropTask => exact hw
  | setRunning | countRun => exact hw.modify fun _ => rfl

theorem Effect.rooted (h : Effect e w w') (hw : Rooted s root w) : Rooted s root w' := by
  cases h with
  | read | act | remove | destroy | begin | breakOff => exact hw
  | apply i =>
    rw [apply_world]
    split
    · exact hw.modify fun _ => rfl
    · exact hw
  | take => exact hw.modify fun _ => rfl

theorem Trail.rooted (h : Trail w tr w') (hw : Rooted s root w) :
    Rooted s root w' ∧ ∀ m ∈ tr, Rooted s root m.world :=
  h.keeps (fun hc hw => hc.rooted hw) (fun he hw => he.rooted hw) hw

theorem Trail.head (h : Trail w (m :: tr) w') :
    Trail w [] m.world ∧ ∃ u, Effect m.event m.world u ∧ Trail u tr w' := by
  generalize heq : m :: tr = whole at h
  induction h with
  | done => simp at heq
  | change hc _ ih =>
    obtain ⟨hm, hrest⟩ := ih heq
    exact ⟨.change hc hm, hrest⟩
  | event he hrest =>
    obtain ⟨rfl, rfl⟩ := List.cons.inj heq
    exact ⟨.done _, _, he, hrest⟩

theorem Trail.at (h : Trail w (tr ++ m :: tr') w') :
    Trail w tr m.world ∧ ∃ u, Effect m.event m.world u ∧ Trail u tr' w' := by
  obtain ⟨v, hv, hrest⟩ := h.split
  obtain ⟨hm, hu⟩ := hrest.head
  refine ⟨?_, hu⟩
  have htrail := hv.append hm
  rwa [append_nil] at htrail

/-- The scheduler takes up one digest of its root and begins it. It takes up another only for a call
that is made after this. -/
def DigestsOnce (s : SchedulerId) (root : DetectorId) (tr : List (Moment κ υ)) : Prop :=
  ∃ (before : List (Moment κ υ)) (m b : Moment κ υ) (rest : List (Moment κ υ)),
    tr = before ++ m :: b :: rest ∧ m.event = .take s ∧ b.event = .begin s root ∧
    (∀ x ∈ before, x.event ≠ .take s) ∧
    ∀ (between : List (Moment κ υ)) (m' : Moment κ υ) (rest' : List (Moment κ υ)),
      rest = between ++ m' :: rest' → m'.event = .take s → ∃ x ∈ between, Asks s root x

theorem isIdle_of_rooted (h : Rooted s root w) : w.isIdle s = !w.isRunning s := by
  obtain ⟨c, hc, -⟩ := h
  rw [isIdle_of_known hc, isRunning_of_known hc]

theorem takes_iff : m.takes s = true ↔ m.event = .take s := beq_iff_eq

theorem Asks.planned (h : Asks s root m) (hm : Flagged s m.calls m.world)
    (he : Effect m.event m.world u) : u.isPlanned s = true := by
  obtain ⟨hevent, hloop, hroot⟩ := h
  have hidle : m.world.isIdle s = true := by
    rw [isIdle_of_rooted hroot, hm, decide_eq_false hloop]
    rfl
  rw [(he.planning m.calls s).planned]
  cases hp : m.world.isPlanned s with
  | true => simp [Moment.takes, hevent]
  | false => simp [Moment.plans, hevent, hidle, hp]

theorem asks_of_plans (h : m.plans s = true) (hm : Flagged s m.calls m.world)
    (hroot : Rooted s root m.world) : Asks s root m := by
  simp only [Moment.plans, Bool.and_eq_true_iff, beq_iff_eq] at h
  obtain ⟨⟨hevent, hidle⟩, -⟩ := h
  refine ⟨hevent, fun hloop => ?_, hroot⟩
  rw [isIdle_of_rooted hroot, hm, decide_eq_true hloop] at hidle
  cases hidle

theorem Trail.plans_between (h : Trail u (tr ++ m :: rest) w') (hu : Tallied s u)
    (hp : u.isPlanned s = false) (hm : m.event = .take s) : ∃ x ∈ tr, x.plans s = true := by
  obtain ⟨hbefore, v, he, -⟩ := h.at
  have hqueued : 0 < m.world.queued s := by
    rw [hm] at he
    cases he with
    | take ht => simp [queued, ht, Task.isDigestOf]
  have hempty : u.queued s = 0 := by
    rw [hu, hp]
    rfl
  have hbalance := hbefore.balance (s := s)
  have hplans : 0 < tr.countP (·.plans s) := by omega
  exact countP_pos_iff.mp hplans

theorem Trail.first_take (h : Trail u tr w') (hu : Tallied s u) (hp : u.isPlanned s = true)
    (hend : w'.queued s = 0) :
    ∃ (before : List (Moment κ υ)) (m : Moment κ υ) (rest : List (Moment κ υ)),
      tr = before ++ m :: rest ∧ m.event = .take s ∧ ∀ x ∈ before, x.event ≠ .take s := by
  have hone : u.queued s = 1 := by
    rw [hu, hp]
    rfl
  have hbalance := h.balance (s := s)
  have htakes : 0 < tr.countP (·.takes s) := by omega
  obtain ⟨x, hx, hxt⟩ := countP_pos_iff.mp htakes
  obtain ⟨m, hm⟩ := Option.isSome_iff_exists.mp (find?_isSome.mpr ⟨x, hx, hxt⟩)
  obtain ⟨htake, before, rest, rfl, hbefore⟩ := find?_eq_some_iff_append.mp hm
  refine ⟨before, m, rest, rfl, takes_iff.mp htake, fun y hy he => ?_⟩
  simpa [takes_iff.mpr he] using hbefore y hy

theorem Does.digestsOnce (h : Does calls j w (before ++ m :: rest) w')
    (ho : Unbroken s (before ++ m :: rest)) (hcalls : Enclosed s calls) (hflag : Flagged s calls w)
    (htally : Tallied s w) (hm : Asks s root m) (hend : w'.queued s = 0) :
    DigestsOnce s root rest := by
  have hflags := (h.marked ho hcalls hflag).moments
  have htallied := (h.trail.tallied htally).2
  obtain ⟨-, u, he, hrest⟩ := h.trail.at
  have hmem : m ∈ before ++ m :: rest := by simp
  have hu : Tallied s u := (he.planning m.calls s).tallied (htallied m hmem)
  have hrooted : Rooted s root u := he.rooted hm.2.2
  have hroots := (hrest.rooted hrooted).2
  obtain ⟨early, t, later, rfl, ht, hearly⟩ :=
    hrest.first_take hu (hm.planned (hflags m hmem) he) hend
  -- the digest begins as soon as it is taken up
  obtain ⟨c, hc, hroot⟩ := hroots t (by simp)
  obtain ⟨b, rest, rfl, hb⟩ := (h.prompt) (before ++ m :: early) t later (by simp) ht c hc
  rw [hroot] at hb
  refine ⟨early, t, b, rest, rfl, ht, hb, hearly, ?_⟩
  rintro between t' rest' rfl ht'
  -- nothing is planned when the first digest has been taken up
  obtain ⟨-, v, hv, hafter⟩ := hrest.at
  have hplan := hv.planning t.calls s
  have hnone : v.isPlanned s = false := by
    rw [hplan.planned]
    simp [Moment.plans, Moment.takes, ht]
  have hafter : Trail v ((b :: between) ++ t' :: rest') w' := hafter
  obtain ⟨x, hx, hplans⟩ := hafter.plans_between
    (hplan.tallied (htallied t (by simp))) hnone ht'
  obtain rfl | hx := mem_cons.mp hx
  · simp [Moment.plans, hb] at hplans
  · exact ⟨x, hx, asks_of_plans hplans (hflags x (by simp [hx])) (hroots x (by simp [hx]))⟩

/-! ## Histories that end when the event loop is idle -/

theorem tasks_of_runTasks : ∀ {ran k : Nat} {w w' : World κ υ},
    Returns (runTasks h n ran) w k w' → w'.tasks = [] := by
  induction n with
  | zero =>
    intro ran k w w' hr
    cases hr
  | succ n ih =>
    intro ran k w w' hr
    obtain ⟨v, u, hget, hnext⟩ := returns_bind.mp hr
    obtain ⟨rfl, rfl⟩ := returns_get.mp hget
    cases ht : u.tasks with
    | nil =>
      simp only [ht] at hnext
      obtain ⟨-, rfl⟩ := returns_pure.mp hnext
      exact ht
    | cons t rest =>
      simp only [ht] at hnext
      obtain ⟨-, _, -, htask⟩ := returns_bind.mp hnext
      obtain ⟨-, _, -, hlater⟩ := returns_bind.mp htask
      exact ih hlater

def playOut (h : Host κ υ) (moves : List (Move κ)) : Act κ υ Nat := do
  play h moves
  runUntilIdle h

theorem tasks_of_playOut (hr : Returns (playOut h moves) w n w') : w'.tasks = [] := by
  obtain ⟨-, _, -, hidle⟩ := returns_bind.mp hr
  obtain ⟨_, _, -, hrun⟩ := returns_bind.mp hidle
  exact tasks_of_runTasks hrun

/-- Whatever the hooks do, the moves have a trace; and in every trace, a scheduler has one digest in
the queue while one is planned, and none otherwise. A call of `apply` while the scheduler makes its
passes changes nothing. Any other call is followed, when the event loop has become idle, by a digest
that began after the call; all calls up to there share it, and there is no further digest without a
further call. -/
theorem applies_share_digest {h : Host κ υ} (hh : Conforms h) (moves : List (Move κ)) (hw : Sound w)
    (hrest : AtRest w) :
    (∃ tr, Does [] (.act (playOut h moves) (outcome (playOut h moves) w).1) w tr
      (outcome (playOut h moves) w).2) ∧
    ∀ tr r w', Does [] (.act (playOut h moves) r) w tr w' →
      outcome (playOut h moves) w = (r, w') ∧
      (∀ s, Tallied s w' ∧ ∀ m ∈ tr, Tallied s m.world) ∧
      ∀ s, Unbroken s tr →
        (∀ m ∈ tr, m.event = .apply s → .loop s ∈ m.calls → (outcome (apply s) m.world).2 = m.world) ∧
        ∀ (before : List (Moment κ υ)) (m : Moment κ υ) (rest : List (Moment κ υ)) root n,
          tr = before ++ m :: rest → Asks s root m → r = .ok n → DigestsOnce s root rest := by
  refine ⟨((hh.play moves).bind fun _ => hh.runUntilIdle) w hw [], fun tr r w' hdoes => ?_⟩
  refine ⟨hdoes.ends, fun s => hdoes.trail.tallied (hrest s).1, fun s ho => ?_⟩
  have hcalls : Enclosed s [] := by simp [Enclosed]
  have hflag : Flagged s [] w := by simp [Flagged, (hrest s).2]
  refine ⟨fun m hm _ hloop => ?_, ?_⟩
  · have hrunning := (hdoes.marked ho hcalls hflag).moments m hm
    rw [Flagged, decide_eq_true hloop] at hrunning
    rw [apply_world, if_neg]
    cases hs : m.world.schedulers[s]? with
    | none => simp [isIdle, hs]
    | some c =>
      rw [isRunning_of_known hs] at hrunning
      simp [isIdle_of_known hs, hrunning]
  · rintro before m rest root n rfl hm rfl
    have hidle : w'.queued s = 0 := by
      rw [queued, tasks_of_playOut hdoes.ends]
      rfl
    exact hdoes.digestsOnce ho hcalls hflag (hrest s).1 hm hidle

/-! ## Calls from outside, from a watcher and from a waiting hook -/

namespace Repeat

inductive Hook where
  | truth
  | ask

def host : Host Hook Unit where
  read := fun _ => return .bool true
  key := fun _ _ _ => throw .failed
  run := fun _ _ => apply 0
  buildItem := fun _ _ _ _ _ => throw .failed
  attach := fun _ _ => throw .failed
  construct := fun _ _ _ => throw .failed
  options := fun _ => throw .failed
  page _ := []

theorem conforms_host : Conforms host where
  read := fun _ => silent_pure.traced
  key := fun _ _ _ => silent_throw.traced
  run := fun _ _ => traced_apply
  buildItem := fun _ _ _ _ _ => silent_throw.traced
  attach := fun _ _ => silent_throw.traced
  construct := fun _ _ _ => silent_throw.traced
  options := fun _ => silent_throw.traced

def watcher : Watcher Hook := { source := .hook .truth, action := .hook .ask, readOnly := true }

/-- A detector whose watcher asks for a digest, and so does a hook that waits for one. -/
def world : World Hook Unit where
  user := ()
  detectors := #[{ root := 0, watchers := [0], onces := [.ask] }]
  watchers := #[watcher]
  schedulers := #[{ root := 0 }]

def asked : World Hook Unit := world.plan 0

def taken : World Hook Unit := asked.takeDigest 0 []

def noticed : World Hook Unit := (taken.setRunning 0 true).remember 0 (.bool true)

def serving : World Hook Unit := (noticed.setRunning 0 false).served 0

def askedAgain : World Hook Unit := (serving.plan 0).countRun 0

def takenAgain : World Hook Unit := askedAgain.takeDigest 0 []

def idle : World Hook Unit :=
  (((takenAgain.setRunning 0 true).setRunning 0 false).served 0).countRun 0

def firstPasses : List (Moment Hook Unit) :=
  [⟨.take 0, [], asked⟩, ⟨.begin 0 0, [], taken⟩, ⟨.read 0, [.loop 0, .run 0], taken.setRunning 0 true⟩,
    ⟨.act 0, [.loop 0, .run 0], taken.setRunning 0 true⟩, ⟨.apply 0, [.loop 0, .run 0], noticed⟩]

def secondDigest : List (Moment Hook Unit) :=
  [⟨.take 0, [], askedAgain⟩, ⟨.begin 0 0, [], takenAgain⟩,
    ⟨.read 0, [.loop 0, .run 0], takenAgain.setRunning 0 true⟩]

theorem does_firstDigest :
    Does [] (.act (takeTask host (.digest 0) []) (.ok ())) asked
      (firstPasses ++ [⟨.apply 0, [.run 0], serving⟩]) askedAgain := by
  have hlisted : 0 ∈ watchersOf (taken.setRunning 0 true) 0 := by decide
  have hcheck : Does [.loop 0, .run 0] (.act (check host 0) (.ok false)) (taken.setRunning 0 true)
      [⟨.read 0, [.loop 0, .run 0], taken.setRunning 0 true⟩,
        ⟨.act 0, [.loop 0, .run 0], taken.setRunning 0 true⟩,
        ⟨.apply 0, [.loop 0, .run 0], noticed⟩] noticed :=
    .noticed (p := []) hlisted rfl rfl
      (.returned) rfl (by decide) (.apply 0 noticed)
  have hpasses := Does.passed (d := 0)
    rfl rfl rfl hcheck rfl rfl rfl
  have honces : Does [.run 0] (.act (runOnces host 0) (.ok ())) (noticed.setRunning 0 false)
      [⟨.apply 0, [.run 0], serving⟩] (serving.plan 0) :=
    .first (.found rfl)
      (.first (.served) (.one (.guarded (.apply 0 serving))))
  exact .take rfl (.run (c := { root := 0 }) rfl hpasses honces)

theorem does_secondDigest :
    Does [] (.act (takeTask host (.digest 0) []) (.ok ())) askedAgain secondDigest idle := by
  have hlisted : 0 ∈ watchersOf (takenAgain.setRunning 0 true) 0 := by decide
  have hcheck : Does [.loop 0, .run 0] (.act (check host 0) (.ok false))
      (takenAgain.setRunning 0 true) [⟨.read 0, [.loop 0, .run 0], takenAgain.setRunning 0 true⟩]
      (takenAgain.setRunning 0 true) :=
    .same
      hlisted rfl (.returned) rfl (by decide)
  have hpasses := Does.passed (d := 0)
    rfl rfl rfl hcheck rfl rfl rfl
  have honces : Does [.run 0] (.act (runOnces host 0) (.ok ()))
      ((takenAgain.setRunning 0 true).setRunning 0 false) []
      (((takenAgain.setRunning 0 true).setRunning 0 false).served 0) :=
    .first (.found rfl) (.first (.served) (.returned))
  exact .take rfl (.run (c := { root := 0, digests := 1 }) rfl hpasses honces)

theorem does_playOut :
    Does [] (.act (playOut host [.user .ask .plain]) (.ok 2)) world
      (⟨.apply 0, [], world⟩ ::
        (firstPasses ++ ⟨.apply 0, [.run 0], serving⟩ :: secondDigest)) idle := by
  have htasks : Does [] (.act (runTasks host (asked.tasks.length + slack) 0) (.ok 2)) asked
      ((firstPasses ++ [⟨.apply 0, [.run 0], serving⟩]) ++ (secondDigest ++ [])) idle := by
    exact .nextTask rfl does_firstDigest (.nextTask rfl does_secondDigest (.noTask rfl))
  have hidle : Does [] (.act (runUntilIdle host) (.ok 2)) asked _ idle :=
    .first (.silent asked silent_get) htasks
  have hmoves : Does [] (.act (play host [.user .ask .plain]) (.ok ())) world [⟨.apply 0, [], world⟩]
      asked :=
    .moved (p := [⟨.apply 0, [], world⟩]) (.apply 0 world) (.played)
  exact .bind hmoves hidle

theorem atRest_world : AtRest world := by
  intro s
  have hflags : World.isPlanned world s = false ∧ World.isRunning world s = false := by
    rcases s with _ | s <;> exact ⟨rfl, rfl⟩
  exact ⟨by rw [Tallied, hflags.1]; rfl, hflags.2⟩

end Repeat

/-- The call from outside has one digest; the watcher's call in it changes nothing; the call of the
waiting hook has the other digest. -/
theorem applies_share_digest_repeat :
    Conforms Repeat.host ∧ Sound Repeat.world ∧ AtRest Repeat.world ∧
      (outcome (playOut Repeat.host [.user .ask .plain]) Repeat.world).1 = .ok 2 ∧
      (∀ s, ∀ m ∈ Repeat.firstPasses ++ ⟨.apply 0, [.run 0], Repeat.serving⟩ :: Repeat.secondDigest,
        Tallied s m.world) ∧
      (outcome (apply 0) Repeat.noticed).2 = Repeat.noticed ∧
      DigestsOnce 0 0
        (Repeat.firstPasses ++ ⟨.apply 0, [.run 0], Repeat.serving⟩ :: Repeat.secondDigest) ∧
      DigestsOnce 0 0 Repeat.secondDigest := by
  have hsound : Sound Repeat.world := by decide
  have horderly : Unbroken 0 (⟨.apply 0, [], Repeat.world⟩ ::
      (Repeat.firstPasses ++ ⟨.apply 0, [.run 0], Repeat.serving⟩ :: Repeat.secondDigest)) := by
    simp [Unbroken, Repeat.firstPasses, Repeat.secondDigest]
  obtain ⟨hends, htallied, hall⟩ := (applies_share_digest Repeat.conforms_host [.user .ask .plain]
    hsound Repeat.atRest_world).2 _ _ _ Repeat.does_playOut
  obtain ⟨hloop, hdigests⟩ := hall 0 horderly
  refine ⟨Repeat.conforms_host, hsound, Repeat.atRest_world, congrArg Prod.fst hends, fun s m hm => ?_,
    hloop ⟨.apply 0, [.loop 0, .run 0], Repeat.noticed⟩ (by simp [Repeat.firstPasses]) rfl (by simp),
    ?_, ?_⟩
  · exact (htallied s).2 m (.tail _ hm)
  · exact hdigests [] _ _ 0 2 rfl ⟨rfl, by simp, _, rfl, rfl⟩ rfl
  · exact hdigests (⟨.apply 0, [], Repeat.world⟩ :: Repeat.firstPasses)
      ⟨.apply 0, [.run 0], Repeat.serving⟩ _ 0 2 rfl ⟨rfl, by simp, _, rfl, rfl⟩ rfl

end ReactiveMarkup.Reactive
