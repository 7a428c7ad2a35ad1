import Mathlib.Data.List.Sort
import ReactiveMarkup.Proofs.Slices
import ReactiveMarkup.Script.Patch

/-! # Patched sources

A rendered span is its source with texts put in at their offsets and all cut parts left out, if the
cuts that meet the span lie in each other or apart.
-/

namespace ReactiveMarkup.Script

open Text (Span byteLength splitAt?)
open List

variable {p : Patch} {ps : List Patch} {s : Span}

/-! ## Order -/

namespace Patch

/-- At one offset closings come first, the latest made before earlier ones, then openings and then
cuts, the earliest made first. -/
def Before (a b : Patch) : Prop :=
  a.pos < b.pos ∨ a.pos = b.pos ∧
    match a.change, b.change with
    | .closing _, .closing _ => b.seq < a.seq
    | .closing _, _ | .opening _, .cut _ => True
    | _, .closing _ | .cut _, .opening _ => False
    | _, _ => a.seq < b.seq

theorem before_of_le (h : le a b = true) (hne : a.seq ≠ b.seq) : Before a b := by
  unfold le rank at h
  unfold Before
  cases ha : a.change <;> cases hb : b.change <;> simp_all <;> omega

theorem Before.asymm (h : Before a b) : ¬ Before b a := by
  unfold Before at h ⊢
  cases ha : a.change <;> cases hb : b.change <;> simp_all <;> omega

theorem Before.pos_le (h : Before a b) : a.pos ≤ b.pos := by
  unfold Before at h
  omega

instance : Std.Antisymm Before := ⟨fun _ _ h h' => (h.asymm h').elim⟩

theorem pairwise_before_mergeSort (h : ps.Pairwise (·.seq < ·.seq)) :
    (ps.mergeSort le).Pairwise Before := by
  have htrans : ∀ a b c : Patch, le a b = true → le b c = true → le a c = true := by
    simp only [le, Bool.or_eq_true, Bool.and_eq_true, decide_eq_true_eq, beq_iff_eq]
    omega
  have htotal : ∀ a b : Patch, (le a b || le b a) = true := by
    simp only [le, Bool.or_eq_true, Bool.and_eq_true, decide_eq_true_eq, beq_iff_eq]
    omega
  have hseq : ((ps.mergeSort le).map seq).Nodup :=
    ((mergeSort_perm ps le).map seq).nodup_iff.mpr (pairwise_map.mpr (h.imp Nat.ne_of_lt))
  exact (pairwise_mergeSort htrans htotal ps).imp₂ (fun _ _ => before_of_le) (pairwise_map.mp hseq)

theorem sublist_of_before {xs ps : List Patch} (hx : xs.Pairwise Before) (hp : ps.Pairwise Before)
    (h : xs ⊆ ps) : xs <+ ps :=
  have hdistinct : xs.Nodup := hx.imp fun hab e => (e ▸ hab).asymm (e ▸ hab)
  sublist_of_subperm_of_pairwise (subperm_of_subset hdistinct h) hx hp

def text (p : Patch) : List Char :=
  match p.change with
  | .opening t | .closing t => t.toList
  | .cut _ => []

/-- Where the source goes on after a patch. -/
def stop (p : Patch) : Nat :=
  match p.change with
  | .cut e => e
  | _ => p.pos

def isClosing (p : Patch) : Bool := p.change matches .closing _

def isOpening (p : Patch) : Bool := p.change matches .opening _

def isCut (p : Patch) : Bool := p.change matches .cut _

/-- A cut leaves out the character at offset `n`. -/
def covers (n : Nat) (p : Patch) : Bool := p.pos ≤ n && n < p.stop

/-- The offset `n` is strictly inside a cut. -/
def encloses (n : Nat) (p : Patch) : Bool := p.pos < n && n < p.stop

theorem stop_of_isCut_eq_false (h : p.isCut = false) : p.stop = p.pos := by
  unfold isCut at h
  unfold stop
  cases hc : p.change <;> simp_all

theorem text_of_isCut (h : p.isCut = true) : p.text = [] := by
  unfold isCut at h
  unfold text
  cases hc : p.change <;> simp_all

theorem isCut_eq_false_iff : p.isCut = false ↔ p.isClosing = true ∨ p.isOpening = true := by
  unfold isCut isClosing isOpening
  cases p.change <;> simp

/-- At its own offset a cut comes after all texts. -/
theorem Before.isCut (h : Before a b) (hpos : a.pos = b.pos) (ha : a.isCut = true) :
    b.isCut = true := by
  unfold Before at h
  unfold Patch.isCut at ha ⊢
  cases hc : a.change <;> cases hc' : b.change <;> simp_all

theorem Before.seq_lt (h : Before a b) (ha : a.isCut = true) (hb : b.isCut = true) :
    a.pos < b.pos ∨ a.pos = b.pos ∧ a.seq < b.seq := by
  unfold Before at h
  unfold Patch.isCut at ha hb
  cases hc : a.change <;> cases hc' : b.change <;> simp_all

def within (s : Span) (p : Patch) : Bool := s.start ≤ p.pos && p.pos ≤ s.stop

/-- A patch begins and ends between characters of the source. -/
def Fits (source : List Char) (stop : Nat) (p : Patch) : Prop :=
  p.pos ≤ min p.stop stop ∧ (splitAt? source p.pos).isSome ∧
    (splitAt? source (min p.stop stop)).isSome

instance {e : Nat} : Decidable (Fits source e p) := inferInstanceAs (Decidable (_ ∧ _ ∧ _))

end Patch

/-! ## Pieces -/

/-- A character of the source or the text of a patch. -/
inductive Piece where
  | kept (c : Char)
  | put (p : Patch)

namespace Piece

def text : Piece → List Char
  | kept c => [c]
  | put p => p.text

def patch? : Piece → Option Patch
  | kept _ => none
  | put p => some p

end Piece

/-- The text from offset `n` on. At each offset stands what is put there, and then the character,
unless it is cut. -/
def pieces (put : Nat → List Patch) (cut : Nat → Bool) (n : Nat) : List Char → List Piece
  | [] => (put n).map .put
  | c :: cs => (put n).map .put ++
      ((if cut n then [] else [.kept c]) ++ pieces put cut (n + c.utf8Size) cs)

/-- The patches `qs`, unless the offset is strictly inside a cut. -/
def outside (ps : List Patch) (n : Nat) (qs : List Patch) : List Patch :=
  if ps.any (·.encloses n) then [] else qs

/-- What is put at an offset: the closings, the latest made first, and then the openings, the earliest
made first. -/
def putAt (ps : List Patch) (n : Nat) : List Patch :=
  outside ps n ((ps.filter fun p => p.pos == n && p.isClosing).reverse ++
    ps.filter fun p => p.pos == n && p.isOpening)

def cutAt (ps : List Patch) (n : Nat) : Bool := ps.any (·.covers n)

/-- The text from offset `n` on, with all that the patches put in and without all that they cut. -/
def patched (ps : List Patch) : Nat → List Char → List Piece := pieces (putAt ps) (cutAt ps)

section

variable {put put' : Nat → List Patch} {cut cut' : Nat → Bool} {n : Nat} {xs ys cs : List Char}

theorem pieces_congr (hput : ∀ m, n ≤ m → m ≤ n + byteLength cs → put m = put' m)
    (hcut : ∀ m, n ≤ m → m < n + byteLength cs → cut m = cut' m) :
    pieces put cut n cs = pieces put' cut' n cs := by
  induction cs generalizing n with
  | nil => rw [pieces, pieces, hput n (by simp) (by simp)]
  | cons c cs ih =>
    have hc := c.utf8Size_pos
    simp only [Text.byteLength_cons] at hput hcut
    rw [pieces, pieces, hput n (by omega) (by omega), hcut n (by omega) (by omega),
      ih (fun m hm hm' => hput m (by omega) (by omega)) fun m hm hm' => hcut m (by omega) (by omega)]

/-- Where nothing is put in, a part of the text is kept or cut as a whole. -/
theorem pieces_append {b : Bool}
    (h : ∀ m, n ≤ m → m < n + byteLength xs → put m = [] ∧ cut m = b) :
    pieces put cut n (xs ++ ys) =
      (if b then [] else xs.map .kept) ++ pieces put cut (n + byteLength xs) ys := by
  induction xs generalizing n with
  | nil => simp
  | cons c xs ih =>
    have hc := c.utf8Size_pos
    simp only [Text.byteLength_cons] at h
    obtain ⟨hput, hcut⟩ := h n (by omega) (by omega)
    rw [cons_append, pieces, hput, hcut, ih fun m hm hm' => h m (by omega) (by omega),
      Text.byteLength_cons, Nat.add_assoc]
    cases b <;> simp

theorem pieces_put (hn : put n = p :: put' n) (hput : ∀ m, n < m → put m = put' m) :
    pieces put cut n cs = .put p :: pieces put' cut n cs := by
  cases cs with
  | nil => simp [pieces, hn]
  | cons c cs =>
    have hc := c.utf8Size_pos
    have hrest : pieces put cut (n + c.utf8Size) cs = pieces put' cut (n + c.utf8Size) cs :=
      pieces_congr (fun m hm _ => hput m (by omega)) fun _ _ _ => rfl
    simp [pieces, hn, hrest]

theorem text_kept : (xs.map Piece.kept).flatMap Piece.text = xs := by
  induction xs with
  | nil => rfl
  | cons c xs ih => simpa [Piece.text] using ih

end

theorem prefix_of_byteLength_le (hxs : xs <+: zs) (hys : ys <+: zs)
    (h : byteLength xs ≤ byteLength ys) : xs <+: ys := by
  obtain h' | ⟨ts, rfl⟩ := prefix_or_prefix_of_prefix hxs hys
  · exact h'
  · cases ts with
    | nil => simp
    | cons c cs =>
      have := c.utf8Size_pos
      simp at h
      omega

theorem exists_between (hn : (splitAt? (front ++ cs ++ back) n).isSome)
    (hfront : byteLength front ≤ n) (hcs : n ≤ byteLength front + byteLength cs) :
    ∃ xs ys, cs = xs ++ ys ∧ byteLength front + byteLength xs = n := by
  obtain ⟨⟨f, b⟩, hsplit⟩ := Option.isSome_iff_exists.mp hn
  obtain ⟨hsource, rfl⟩ := Text.splitAt?_eq_some hsplit
  have hf : f <+: front ++ cs ++ back := ⟨b, hsource.symm⟩
  obtain ⟨xs, rfl⟩ := prefix_of_byteLength_le ⟨cs ++ back, by simp⟩ hf hfront
  obtain ⟨ys, hys⟩ := prefix_of_byteLength_le hf (prefix_append ..) (by simpa using hcs)
  exact ⟨xs, ys, by simpa using hys.symm, by simp⟩

theorem sliceText_eq (hfront : byteLength front = start) (hstop : start + byteLength xs = stop) :
    sliceText (front ++ xs ++ back) start stop = xs := by
  subst hfront hstop
  rw [sliceText, ← Text.byteLength_append, Text.slice?_append, Option.getD_some]

theorem applyPatches_cons (hle : pos ≤ p.pos) (hstop : p.pos ≤ stop) :
    applyPatches source stop pos (p :: ps) = sliceText source pos p.pos ++
      (p.text ++ applyPatches source stop (min p.stop stop) ps) := by
  rw [applyPatches, if_neg (by omega), Patch.text, Patch.stop]
  cases p.change <;> simp [hstop]

/-- Cuts of which a rendered span leaves out every part. None reaches into the span from before it.
One that begins in an earlier one, or with it, ends in it as far as the span goes. No text stands at
the end of the span if a cut goes beyond it. -/
structure Clear (ps : List Patch) (s : Span) : Prop where
  start : ∀ p ∈ ps, p.pos < s.start → p.stop ≤ s.start
  nested : ∀ p ∈ ps, ∀ q ∈ ps, p.within s → q.within s →
    p.pos < q.pos ∨ p.pos = q.pos ∧ p.seq < q.seq → q.pos < p.stop → min q.stop s.stop ≤ p.stop
  stop : ∀ p ∈ ps, p.pos < s.stop → s.stop < p.stop → ∀ q ∈ ps, q.pos = s.stop → q.isCut = true

theorem Clear.subset (h : Clear ps s) (hsub : qs ⊆ ps) : Clear qs s where
  start := fun p hp => h.start p (hsub hp)
  nested := fun p hp q hq => h.nested p (hsub hp) q (hsub hq)
  stop := fun p hp hlt hgt q hq => h.stop p (hsub hp) hlt hgt q (hsub hq)

theorem Clear.ends_in (h : Clear (p :: ps) s) (hw : ∀ q ∈ p :: ps, q.within s = true)
    (hq : q ∈ ps) (hb : p.Before q) (hlt : q.pos < p.stop) : min q.stop s.stop ≤ p.stop := by
  cases hc : p.isCut with
  | false =>
    have := hb.pos_le
    rw [Patch.stop_of_isCut_eq_false hc] at hlt
    omega
  | true =>
    cases hc' : q.isCut with
    | false =>
      rw [Patch.stop_of_isCut_eq_false hc']
      omega
    | true =>
      exact h.nested p mem_cons_self q (.tail p hq) (hw p mem_cons_self) (hw q (.tail p hq))
        (hb.seq_lt hc hc') hlt

/-! ## Applied patches -/

/-- What ordered patches put at an offset. -/
def queued (ps : List Patch) (n : Nat) : List Patch :=
  outside ps n (ps.filter fun p => p.pos == n && !p.isCut)

section

variable {n pos : Nat} {ys cs front back : List Char}

theorem filter_texts_eq_nil (h : ∀ q ∈ ps, q.pos = n → q.isCut = true) :
    (ps.filter fun q => q.pos == n && !q.isCut) = [] := by
  rw [filter_eq_nil_iff]
  intro q hq
  simpa using h q hq

theorem queued_before (h : ∀ q ∈ ps, n < q.pos) : queued ps n = [] ∧ cutAt ps n = false := by
  constructor
  · rw [queued, filter_texts_eq_nil fun q hq he => absurd he (h q hq).ne', outside, ite_self]
  · rw [cutAt, any_eq_false]
    intro q hq
    have := h q hq
    simp [Patch.covers]
    omega

/-- A patch that ends at the offset or before it has no effect from there on. -/
theorem pieces_past (hle : p.pos ≤ pos) (hcut : p.pos = pos → p.isCut = true)
    (hstop : min p.stop s.stop ≤ pos) (hcs : pos + byteLength cs = s.stop)
    (h : Clear (p :: ps) s) :
    pieces (queued (p :: ps)) (cutAt (p :: ps)) pos cs = pieces (queued ps) (cutAt ps) pos cs := by
  refine pieces_congr (fun m hm hm' => ?_) fun m hm hm' => ?_
  · have hnot : (p.pos == m && !p.isCut) = false := by
      rcases hle.lt_or_eq with hlt | heq
      · simp; omega
      · simp [hcut heq]
    by_cases hin : p.encloses m = true
    · -- the offset is the end of the span, and no text stands there
      obtain ⟨hlt, hgt⟩ : p.pos < m ∧ m < p.stop := by simpa [Patch.encloses] using hin
      obtain rfl : m = s.stop := by omega
      have hnone := filter_texts_eq_nil fun q hq he =>
        h.stop p mem_cons_self hlt hgt q (.tail p hq) he
      simp [queued, outside, hin, hnone]
    · simp [queued, outside, hin, hnot]
  · have hnot : p.covers m = false := by simp [Patch.covers]; omega
    simp [cutAt, hnot]

theorem pieces_text (hp : p.isCut = false) (hps : ∀ q ∈ p :: ps, p.pos ≤ q.pos) :
    pieces (queued (p :: ps)) (cutAt (p :: ps)) p.pos cs =
      .put p :: pieces (queued ps) (cutAt ps) p.pos cs := by
  have hstop := Patch.stop_of_isCut_eq_false hp
  have hcut : cutAt (p :: ps) = cutAt ps := by
    funext m
    have hnot : p.covers m = false := by simp [Patch.covers, hstop]
    simp [cutAt, hnot]
  rw [hcut]
  refine pieces_put ?_ fun m hm => ?_
  · have hnot : ∀ q ∈ p :: ps, q.encloses p.pos = false := by
      intro q hq
      have := hps q hq
      simp [Patch.encloses]
      omega
    obtain ⟨-, hrest⟩ := forall_mem_cons.mp hnot
    rw [queued, queued, outside, outside, if_neg (by simpa using hnot), if_neg (by simpa using hrest)]
    simp [hp]
  · have hnot : p.encloses m = false := by simp [Patch.encloses, hstop]; omega
    simp [queued, outside, hnot, hm.ne]

theorem pieces_cut (hp : p.isCut = true) (hps : ∀ q ∈ ps, p.Before q)
    (hys : p.pos + byteLength ys = min p.stop s.stop)
    (hcs : min p.stop s.stop + byteLength cs = s.stop) (h : Clear (p :: ps) s) :
    pieces (queued (p :: ps)) (cutAt (p :: ps)) p.pos (ys ++ cs) =
      pieces (queued ps) (cutAt ps) (min p.stop s.stop) cs := by
  have hgone : ∀ m, p.pos ≤ m → m < p.pos + byteLength ys →
      queued (p :: ps) m = [] ∧ cutAt (p :: ps) m = true := by
    intro m hm hm'
    have hcovers : p.covers m = true := by simp [Patch.covers]; omega
    refine ⟨?_, by simp [cutAt, hcovers]⟩
    rcases hm.lt_or_eq with hlt | rfl
    · have hin : p.encloses m = true := by simp [Patch.encloses]; omega
      simp [queued, outside, hin]
    · rw [queued, filter_texts_eq_nil, outside, ite_self]
      exact forall_mem_cons.mpr ⟨fun _ => hp, fun q hq he => (hps q hq).isCut he.symm hp⟩
  rw [pieces_append hgone, if_pos rfl, nil_append, hys,
    pieces_past (by omega) (fun _ => hp) le_rfl (by omega) h]

theorem text_pieces_cons (hps : ∀ q ∈ ps, p.Before q)
    (hys : p.pos + byteLength ys = min p.stop s.stop)
    (hcs : min p.stop s.stop + byteLength cs = s.stop) (h : Clear (p :: ps) s) :
    (pieces (queued (p :: ps)) (cutAt (p :: ps)) p.pos (ys ++ cs)).flatMap Piece.text =
      p.text ++ (pieces (queued ps) (cutAt ps) (min p.stop s.stop) cs).flatMap Piece.text := by
  cases hp : p.isCut with
  | true => rw [pieces_cut hp hps hys hcs h, Patch.text_of_isCut hp, nil_append]
  | false =>
    have hstop := Patch.stop_of_isCut_eq_false hp
    have hle : ∀ q ∈ p :: ps, p.pos ≤ q.pos :=
      forall_mem_cons.mpr ⟨le_refl _, fun q hq => (hps q hq).pos_le⟩
    obtain rfl : ys = [] := by
      cases ys with
      | nil => rfl
      | cons c ys =>
        have := c.utf8Size_pos
        rw [Text.byteLength_cons] at hys
        omega
    rw [nil_append, pieces_text hp hle, flatMap_cons, show min p.stop s.stop = p.pos by omega]
    rfl

theorem applyPatches_pieces (hfront : byteLength front = pos) (hcs : pos + byteLength cs = s.stop)
    (hps : ∀ p ∈ ps, p.within s = true ∧ p.Fits (front ++ cs ++ back) s.stop)
    (hord : ps.Pairwise Patch.Before) (h : Clear ps s)
    (hpast : ∀ p ∈ ps, p.pos < pos → min p.stop s.stop ≤ pos) :
    applyPatches (front ++ cs ++ back) s.stop pos ps =
      (pieces (queued ps) (cutAt ps) pos cs).flatMap Piece.text := by
  -- a step goes on from the end of its patch, so the text is split at both ends
  induction ps generalizing front cs pos with
  | nil =>
    have hkept : pieces (queued []) (cutAt []) pos (cs ++ []) = _ :=
      pieces_append (b := false) fun _ _ _ => ⟨rfl, rfl⟩
    rw [append_nil] at hkept
    rw [applyPatches, sliceText_eq hfront hcs, hkept]
    simp [pieces, queued, outside, text_kept]
  | cons p rest ih =>
    have hwithin : ∀ q ∈ p :: rest, q.within s = true := fun q hq => (hps q hq).1
    obtain ⟨⟨-, hle, hpos, hlast⟩, hrest⟩ := forall_mem_cons.mp hps
    obtain ⟨hbefore, hord⟩ := pairwise_cons.mp hord
    obtain ⟨hpast, hpasts⟩ := forall_mem_cons.mp hpast
    have hclear := h.subset (subset_cons_self p rest)
    by_cases hlt : p.pos < pos
    · rw [applyPatches, if_pos hlt, ih hfront hcs hrest hord hclear hpasts,
        pieces_past (by omega) (by omega) (hpast hlt) hcs h]
    obtain ⟨xs, ws, rfl, hxs⟩ := exists_between hpos (by omega) (by omega)
    simp only [Text.byteLength_append, ← append_assoc front] at hcs hlast hrest ⊢
    obtain ⟨ys, zs, rfl, hys⟩ := exists_between hlast (by simp; omega) (by simp; omega)
    simp only [Text.byteLength_append] at hcs hys
    have hkept : pieces (queued (p :: rest)) (cutAt (p :: rest)) pos (xs ++ (ys ++ zs)) = _ :=
      pieces_append (b := false) fun m _ hm => queued_before <| forall_mem_cons.mpr
        ⟨by omega, fun q hq => Nat.lt_of_lt_of_le (by omega) (hbefore q hq).pos_le⟩
    rw [applyPatches_cons (by omega) (by omega), append_assoc _ _ back,
      sliceText_eq hfront (by omega), hkept, if_neg Bool.false_ne_true, flatMap_append, text_kept,
      show pos + byteLength xs = p.pos by omega, text_pieces_cons hbefore (by omega) (by omega) h]
    simp only [← append_assoc (front ++ xs)] at hrest ⊢
    rw [ih (by simp; omega) (by omega) hrest hord hclear fun q hq hlt' => ?_]
    have := h.ends_in hwithin hq (hbefore q hq) (by omega)
    omega

end

/-! ## Rendered spans -/

namespace Patch

/-- An opening and a closing around some text. -/
def Opens (o c : Patch) : Prop :=
  (∃ s, o.change = .opening s) ∧ (∃ t, c.change = .closing t) ∧ o.pos < c.pos

theorem Opens.nested (h : Opens o c) (h' : Opens o' c') (ho : o.pos ≤ o'.pos)
    (hc : c'.pos ≤ c.pos) (hos : o.seq < o'.seq) (hcs : c.seq < c'.seq) :
    [o, o', c', c].Pairwise Before := by
  obtain ⟨⟨s, hs⟩, ⟨t, ht⟩, hlt⟩ := h
  obtain ⟨⟨s', hs'⟩, ⟨t', ht'⟩, hlt'⟩ := h'
  simp [Before, hs, ht, hs', ht']
  omega

theorem Opens.apart (h : Opens o c) (h' : Opens o' c') (ho : c.pos ≤ o'.pos) :
    [o, c, o', c'].Pairwise Before := by
  obtain ⟨⟨s, hs⟩, ⟨t, ht⟩, hlt⟩ := h
  obtain ⟨⟨s', hs'⟩, ⟨t', ht'⟩, hlt'⟩ := h'
  simp [Before, hs, ht, hs', ht']
  omega

end Patch

section

variable {n : Nat} {put : Nat → List Patch} {cut : Nat → Bool} {source cs : List Char}

theorem mem_outside : p ∈ outside ps n qs ↔ p ∈ qs ∧ ∀ q ∈ ps, q.encloses n = false := by
  unfold outside
  split
  · next hin =>
    obtain ⟨q, hq, hin⟩ := any_eq_true.mp hin
    refine iff_of_false not_mem_nil fun ⟨_, hout⟩ => ?_
    simp [hout q hq] at hin
  · next hout =>
    exact (and_iff_left (by simpa using hout)).symm

theorem mem_putAt : p ∈ putAt ps n ↔
    (p ∈ ps ∧ p.pos = n ∧ p.isCut = false) ∧ ∀ q ∈ ps, q.encloses n = false := by
  rw [putAt, mem_outside, and_congr_left_iff]
  intro _
  simp only [mem_append, mem_reverse, mem_filter, Bool.and_eq_true, beq_iff_eq,
    Patch.isCut_eq_false_iff]
  tauto

theorem pairwise_putAt (hseq : ps.Pairwise (·.seq < ·.seq)) (n : Nat) :
    (putAt ps n).Pairwise Patch.Before := by
  unfold putAt outside
  split
  · exact .nil
  simp only [pairwise_append, pairwise_reverse, mem_reverse, mem_filter, Bool.and_eq_true,
    beq_iff_eq, Patch.isClosing, Patch.isOpening]
  refine ⟨(hseq.filter _).imp_of_mem ?_, (hseq.filter _).imp_of_mem ?_, ?_⟩
  · intro a b ha hb hlt
    cases hc : a.change <;> cases hc' : b.change <;> simp_all [Patch.Before]
  · intro a b ha hb hlt
    cases hc : a.change <;> cases hc' : b.change <;> simp_all [Patch.Before]
  · intro a ha b hb
    cases hc : a.change <;> cases hc' : b.change <;> simp_all [Patch.Before]

theorem patches_put {xs : List Patch} : (xs.map Piece.put).filterMap Piece.patch? = xs := by
  rw [filterMap_map]
  exact filterMap_some

theorem patches_cons : (pieces put cut n (c :: cs)).filterMap Piece.patch? =
    put n ++ (pieces put cut (n + c.utf8Size) cs).filterMap Piece.patch? := by
  rw [pieces, filterMap_append, filterMap_append, patches_put]
  cases cut n <;> rfl

theorem mem_patches : p ∈ (pieces put cut n cs).filterMap Piece.patch? ↔
    ∃ xs ys, cs = xs ++ ys ∧ p ∈ put (n + byteLength xs) := by
  induction cs generalizing n with
  | nil =>
    rw [pieces, patches_put]
    simp
  | cons c cs ih =>
    rw [patches_cons, mem_append, @ih]
    constructor
    · rintro (hp | ⟨xs, ys, rfl, hp⟩)
      · exact ⟨[], c :: cs, rfl, hp⟩
      · exact ⟨c :: xs, ys, rfl, by simpa [Nat.add_assoc] using hp⟩
    · rintro ⟨_ | ⟨_, xs⟩, ys, hcs, hp⟩
      · exact .inl hp
      · obtain ⟨rfl, rfl⟩ := cons.inj hcs
        exact .inr ⟨xs, ys, rfl, by simpa [Nat.add_assoc] using hp⟩

theorem pairwise_patches (hseq : ps.Pairwise (·.seq < ·.seq)) :
    ((patched ps n cs).filterMap Piece.patch?).Pairwise Patch.Before := by
  unfold patched
  induction cs generalizing n with
  | nil =>
    rw [pieces, patches_put]
    exact pairwise_putAt hseq n
  | cons c cs ih =>
    rw [patches_cons]
    refine pairwise_append.mpr ⟨pairwise_putAt hseq n, ih, fun a ha b hb => .inl ?_⟩
    obtain ⟨xs, -, -, hb⟩ := mem_patches.mp hb
    have hc := c.utf8Size_pos
    rw [(mem_putAt.mp ha).1.2.1, (mem_putAt.mp hb).1.2.1]
    omega

end

/-- The patches of a span in the order in which they are applied. -/
def ordered (ps : List Patch) (s : Span) : List Patch :=
  (ps.filter (Patch.within s)).mergeSort Patch.le

theorem mem_ordered : p ∈ ordered ps s ↔ p ∈ ps ∧ p.within s = true :=
  (mergeSort_perm ..).mem_iff.trans mem_filter

theorem pairwise_ordered (hseq : ps.Pairwise (·.seq < ·.seq)) :
    (ordered ps s).Pairwise Patch.Before :=
  Patch.pairwise_before_mergeSort (hseq.filter _)

namespace Clear

variable {n : Nat} (h : Clear ps s) (hstart : s.start ≤ n) (hstop : n ≤ s.stop)
include h hstart hstop

theorem any_ordered {f : Patch → Bool} (hf : ∀ p, f p = true → p.pos ≤ n ∧ n < p.stop) :
    (ordered ps s).any f = ps.any f := by
  rw [Bool.eq_iff_iff, any_eq_true, any_eq_true]
  constructor
  · rintro ⟨p, hp, hfp⟩
    exact ⟨p, (mem_ordered.mp hp).1, hfp⟩
  · rintro ⟨p, hp, hfp⟩
    obtain ⟨hle, hlt⟩ := hf p hfp
    have hfrom : ¬ p.pos < s.start := fun hbefore => by
      have := h.start p hp hbefore
      omega
    exact ⟨p, mem_ordered.mpr ⟨hp, by simp [Patch.within]; omega⟩, hfp⟩

theorem cutAt_ordered : cutAt (ordered ps s) n = cutAt ps n :=
  h.any_ordered hstart hstop fun p hp => by simpa [Patch.covers] using hp

theorem queued_ordered (hseq : ps.Pairwise (·.seq < ·.seq)) :
    queued (ordered ps s) n = putAt ps n := by
  have hany : (ordered ps s).any (·.encloses n) = ps.any (·.encloses n) :=
    h.any_ordered hstart hstop fun p hp => by
      obtain ⟨hlt, hgt⟩ : p.pos < n ∧ n < p.stop := by simpa [Patch.encloses] using hp
      exact ⟨hlt.le, hgt⟩
  have hmem : ∀ p, p ∈ queued (ordered ps s) n ↔ p ∈ putAt ps n := by
    intro p
    have hwithin : p.pos = n → p.within s = true := by
      rintro rfl
      simp [Patch.within, hstart, hstop]
    rw [mem_putAt, queued, outside, hany, ← outside, mem_outside, and_congr_left_iff]
    intro _
    simp only [mem_filter, mem_ordered, Bool.and_eq_true, beq_iff_eq, Bool.not_eq_true']
    tauto
  have hqueued : (queued (ordered ps s) n).Pairwise Patch.Before := by
    unfold queued outside
    split
    · exact .nil
    · exact (pairwise_ordered hseq).filter _
  -- both lists are ordered, and an order has one list of given members
  have hputs := pairwise_putAt hseq n
  exact (Patch.sublist_of_before hqueued hputs fun p => (hmem p).mp).antisymm
    (Patch.sublist_of_before hputs hqueued fun p => (hmem p).mpr)

end Clear

theorem renderSpan_patched (hs : Text.slice? source s.start s.stop = some cs)
    (hseq : ps.Pairwise (·.seq < ·.seq)) (hfits : ∀ p ∈ ps, p.within s → p.Fits source s.stop)
    (h : Clear ps s) :
    (renderSpan source ps s).toList = (patched ps s.start cs).flatMap Piece.text := by
  obtain ⟨front, back, rfl, hfront, hstop⟩ := Text.slice?_eq_some hs
  have hin : ∀ p ∈ ordered ps s, p.within s = true ∧ p.Fits (front ++ cs ++ back) s.stop := by
    intro p hp
    obtain ⟨hp, hw⟩ := mem_ordered.mp hp
    exact ⟨hw, hfits p hp hw⟩
  have hpast : ∀ p ∈ ordered ps s, p.pos < s.start → min p.stop s.stop ≤ s.start := by
    intro p hp hlt
    have hwithin := (hin p hp).1
    simp [Patch.within] at hwithin
    omega
  change (String.ofList (applyPatches _ s.stop s.start (ordered ps s))).toList = _
  rw [String.toList_ofList, applyPatches_pieces hfront hstop hin (pairwise_ordered hseq)
    (h.subset fun p hp => (mem_ordered.mp hp).1) hpast, patched]
  congr 1
  refine pieces_congr (fun m hm hm' => ?_) fun m hm hm' => ?_
  · exact h.queued_ordered hm (by omega) hseq
  · exact h.cutAt_ordered hm (by omega)

/-- A span is rendered as its source without all that is cut, and with the texts of the patches that
are not strictly inside a cut, if the cuts are `Clear`. Pairs of texts that are nested or disjoint
come out so, also where their ends coincide. -/
theorem clear_rendering_keeps_source (hs : Text.slice? source s.start s.stop = some cs)
    (hseq : ps.Pairwise (·.seq < ·.seq)) (hfits : ∀ p ∈ ps, p.within s → p.Fits source s.stop)
    (hclear : Clear ps s) :
    (renderSpan source ps s).toList = (patched ps s.start cs).flatMap Piece.text ∧
    (∀ p, p ∈ (patched ps s.start cs).filterMap Piece.patch? ↔
      p ∈ ps ∧ p.within s ∧ p.isCut = false ∧ ∀ q ∈ ps, q.encloses p.pos = false) ∧
    ∀ o c o' c', [o, c, o', c'] ⊆ (patched ps s.start cs).filterMap Piece.patch? →
      o.Opens c → o'.Opens c' →
      (o.pos ≤ o'.pos → c'.pos ≤ c.pos → o.seq < o'.seq → c.seq < c'.seq →
        [o, o', c', c] <+ (patched ps s.start cs).filterMap Piece.patch?) ∧
      (c.pos ≤ o'.pos → [o, c, o', c'] <+ (patched ps s.start cs).filterMap Piece.patch?) := by
  have hord : ((patched ps s.start cs).filterMap Piece.patch?).Pairwise Patch.Before :=
    pairwise_patches hseq
  refine ⟨renderSpan_patched hs hseq hfits hclear, fun p => ?_, fun o c o' c' hin h h' => ⟨?_, ?_⟩⟩
  · obtain ⟨front, back, rfl, hfront, hstop⟩ := Text.slice?_eq_some hs
    rw [patched, mem_patches]
    constructor
    · rintro ⟨xs, ys, rfl, hp⟩
      obtain ⟨⟨hp, hpos, hcut⟩, hout⟩ := mem_putAt.mp hp
      rw [Text.byteLength_append] at hstop
      exact ⟨hp, by simp [Patch.within]; omega, hcut, hpos ▸ hout⟩
    · rintro ⟨hp, hwithin, hcut, hout⟩
      obtain ⟨-, hsplit, -⟩ := hfits p hp hwithin
      simp [Patch.within] at hwithin
      obtain ⟨xs, ys, rfl, hxs⟩ := exists_between hsplit (by omega) (by omega)
      rw [hfront] at hxs
      exact ⟨xs, ys, rfl, mem_putAt.mpr ⟨⟨hp, hxs.symm, hcut⟩, hxs ▸ hout⟩⟩
  · intro ho hc hos hcs
    refine Patch.sublist_of_before (h.nested h' ho hc hos hcs) hord fun p hp => hin ?_
    simp at hp ⊢
    tauto
  · intro hle
    exact Patch.sublist_of_before (h.apart h' hle) hord hin

def outerCall : Patch × Patch := (⟨0, 1, .opening "f("⟩, ⟨2, 2, .closing ")"⟩)

def innerCall : Patch × Patch := (⟨0, 3, .opening "g("⟩, ⟨2, 4, .closing ")"⟩)

/-- Two calls that begin and end together, before a marker that is cut. -/
def wrappedCalls : List Patch :=
  [outerCall.1, outerCall.2, innerCall.1, innerCall.2, ⟨3, 5, .cut 5⟩, ⟨4, 6, .opening "h("⟩]

theorem clear_rendering_keeps_source_wrapped : Clear wrappedCalls ⟨0, 5⟩ ∧
    (renderSpan "é;mm".toList wrappedCalls ⟨0, 5⟩).toList = "f(g(é));".toList ∧
    [outerCall.1, innerCall.1, innerCall.2, outerCall.2] <+
      (patched wrappedCalls 0 "é;mm".toList).filterMap Piece.patch? := by
  have hsource : Text.slice? "é;mm".toList 0 5 = some "é;mm".toList := by decide
  have hclear : Clear wrappedCalls ⟨0, 5⟩ := ⟨by decide, by decide, by decide⟩
  have hin : ∀ p ∈ [outerCall.1, outerCall.2, innerCall.1, innerCall.2],
      p ∈ (patched wrappedCalls 0 "é;mm".toList).filterMap Piece.patch? := by decide
  obtain ⟨htext, -, hpairs⟩ := clear_rendering_keeps_source hsource (by decide) (by decide) hclear
  exact ⟨hclear, htext.trans (by decide), (hpairs _ _ _ _ hin ⟨⟨_, rfl⟩, ⟨_, rfl⟩, by decide⟩
    ⟨⟨_, rfl⟩, ⟨_, rfl⟩, by decide⟩).1 (by decide) (by decide) (by decide) (by decide)⟩

def overlappingCuts : List Patch := [⟨0, 1, .cut 5⟩, ⟨3, 2, .cut 8⟩]

/-- A cut that begins in an earlier one is passed over, also where it goes on after that one, and so
is a cut that begins before the span. -/
theorem overlapping_cut_is_lost :
    (renderSpan "abcdefgh".toList overlappingCuts ⟨0, 8⟩ = "fgh" ∧
      (patched overlappingCuts 0 "abcdefgh".toList).flatMap Piece.text = []) ∧
    renderSpan "abcdefgh".toList overlappingCuts ⟨4, 8⟩ = "efgh" ∧
      (patched overlappingCuts 4 "efgh".toList).flatMap Piece.text = [] := by
  refine ⟨⟨?_, by decide⟩, ?_, by decide⟩
  all_goals
    rw [renderSpan, mergeSort_of_pairwise (by decide)]
    decide

end ReactiveMarkup.Script
