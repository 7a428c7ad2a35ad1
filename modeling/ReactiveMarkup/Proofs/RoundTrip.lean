import ReactiveMarkup.Proofs.TagReading

/-! # Reading printed markup

Every lexeme of a printed tree is read as it was written, so the tree is assembled again. Only a
text depends on what follows it.
-/

namespace ReactiveMarkup.Markup

open List hiding tail

open Text (Span byteLength)

/-! ## Lexemes -/

/-- The end of the source, or a tag, a comment or a control tag. -/
def Opens (rest : List Char) : Prop := rest = [] ∨ opensLexeme rest = true

/-- `text` is read as one lexeme when `rest` follows it. -/
def Reads (text : List Char) (token : Token) (rest : List Char) : Prop :=
  ∀ pos, ∃ c cs, text ++ rest = c :: cs ∧ readLexeme pos c cs = .ok (token, rest)

theorem opensLexeme_other (ht : c ≠ '<') (hb : c ≠ '\x7b') : opensLexeme (c :: cs) = false := by
  unfold opensLexeme
  split
  · next heq => exact absurd (List.cons.inj heq).1 ht
  · next heq => exact absurd (List.cons.inj heq).1 hb
  · rfl

namespace Plain

variable {c : Char} {cs rest : List Char}

theorem tail (h : Plain (c :: cs)) : Plain cs where
  tags := fun hmem => h.tags (.tail c hmem)
  controls := fun m hm hin => h.controls m hm (hin.trans (suffix_cons c cs).isInfix)

theorem opensLexeme (h : Plain (c :: cs)) (hr : Opens rest) :
    opensLexeme (c :: cs ++ rest) = false := by
  have ht : c ≠ '<' := by
    rintro rfl
    exact h.tags mem_cons_self
  by_cases hb : c = '\x7b'
  · subst hb
    cases cs with
    | cons m ds =>
      have hm : m ∉ ['#', '/', ':', '@'] := fun hm => h.controls m hm ⟨[], ds, rfl⟩
      simpa [Markup.opensLexeme, and_assoc] using hm
    | nil =>
      -- what opens a lexeme does not continue a brace
      rcases hr with rfl | hr
      · rfl
      · cases rest with
        | nil => cases hr
        | cons d ds =>
          by_cases hd : d = '<'
          · subst hd
            rfl
          · rw [opensLexeme_brace hd hr]
            rfl
  · exact opensLexeme_other ht hb

theorem readText (h : Plain (c :: cs)) (hr : Opens rest) :
    readText (c :: cs ++ rest) = (c :: cs, rest) := by
  induction cs generalizing c with
  | nil =>
    rcases hr with rfl | hr
    · rfl
    · rw [singleton_append, readText.eq_def]
      simp [hr]
  | cons d ds ih =>
    have hd := h.tail.opensLexeme hr
    rw [cons_append, cons_append, Markup.readText, ← cons_append, hd,
      ih h.tail]
    rfl

end Plain

theorem reads_text (hv : PlainText v) (hr : Opens rest) : Reads v.toList (.text v) rest := by
  intro pos
  obtain ⟨c, cs, hlist⟩ := exists_cons_of_ne_nil hv.some
  have hplain := hv.plain
  rw [hlist] at hplain
  have ht : (c == '<') = false := by
    refine beq_eq_false_iff_ne.mpr ?_
    rintro rfl
    exact hplain.tags mem_cons_self
  have hopens := hplain.opensLexeme hr
  have hread := hplain.readText hr
  refine ⟨c, cs ++ rest, by rw [hlist]; rfl, ?_⟩
  rw [cons_append] at hopens hread
  simp [readLexeme, ht, hopens, hread, ← hlist]

/-! ## Comments and close tags -/

theorem readUntil_first (hn : needle ≠ []) (hf : ¬ needle <:+: (front ++ needle).dropLast) :
    readUntil needle (front ++ needle ++ rest) = some (front, rest) := by
  induction front with
  | nil =>
    obtain ⟨c, cs, rfl⟩ := exists_cons_of_ne_nil hn
    simp [readUntil]
  | cons c front ih =>
    have hlast : (c :: front ++ needle).dropLast = c :: (front ++ needle).dropLast := by
      rw [cons_append, dropLast_cons_of_ne_nil (by simp [hn])]
    rw [hlast] at hf
    have hprefix : needle.isPrefixOf (c :: (front ++ needle ++ rest)) = false := by
      refine Bool.eq_false_iff.mpr fun hp => hf ?_
      -- a needle at the front would end before the last character
      have hfront : c :: (front ++ needle).dropLast <+: c :: (front ++ needle ++ rest) :=
        cons_prefix_cons.mpr
          ⟨rfl, ( dropLast_prefix _).trans (prefix_append _ rest)⟩
      refine (prefix_of_prefix_length_le ( isPrefixOf_iff_prefix.mp hp) hfront ?_).isInfix
      simp only [length_cons, length_dropLast, length_append]
      omega
    rw [cons_append, cons_append, readUntil, hprefix,
      ih (fun hin => hf (hin.trans (suffix_cons c _).isInfix))]
    rfl

theorem reads_comment (hc : PlainComment c) : Reads c.toList (.comment c) rest := by
  intro pos
  obtain ⟨front, hfront⟩ := hc.closes
  obtain ⟨back, hback⟩ := hc.opens
  have hlist : c.toList = '<' :: ("!--".toList ++ back) := hback.symm
  have hopens : "<!--".toList.isPrefixOf ('<' :: ("!--".toList ++ back ++ rest)) = true := by
    simp
  have hread := @readUntil_first "-->".toList front rest (by decide) (hfront ▸ hc.first)
  rw [hfront, hlist, cons_append] at hread
  refine ⟨'<', "!--".toList ++ back ++ rest, by rw [hlist]; rfl, ?_⟩
  simp only [readLexeme, beq_self_eq_true, if_pos, hopens, hread, hfront, String.ofList_toList]

theorem closeName_eq (ha : ∀ c ∈ cs, c.toNat < 0x80) (hb : ∀ c ∈ cs, Text.isBlank c = false) :
    closeName cs = String.ofList cs := by
  have hread : (cs.flatMap String.utf8EncodeChar).map (fun b => Char.ofNat b.toNat) = cs := by
    rw [map_flatMap]
    calc cs.flatMap (fun c => (String.utf8EncodeChar c).map fun b => Char.ofNat b.toNat)
        = cs.flatMap (fun c => [c]) := flatMap_congr fun c hc => encode_ascii (ha c hc)
      _ = cs := flatMap_singleton' cs
  have hdrop : ∀ ds : List Char, (∀ c ∈ ds, Text.isBlank c = false) →
      ds.dropWhile Text.isBlank = ds := by
    intro ds hds
    cases ds with
    | nil => rfl
    | cons d ds => rw [dropWhile_cons, hds d mem_cons_self]; rfl
  have htrim : Text.trimChars cs = cs := by
    rw [Text.trimChars, Text.trimEnd, Text.trimStart, hdrop cs hb,
      hdrop cs.reverse fun c hc => hb c (mem_reverse.mp hc), reverse_reverse]
  rw [closeName, utf8_ofList, hread, Text.trim, String.toList_ofList, htrim]

theorem isTagName_chars (h : isTagName cs = true) : ∀ c ∈ cs, c.isAlphanum = true ∨ c = '-' := by
  cases cs with
  | nil => cases h
  | cons c cs =>
    obtain ⟨hc, hcs⟩ := Bool.and_eq_true_iff.mp h
    exact forall_mem_cons.mpr ⟨.inl hc, by simpa using hcs⟩

theorem reads_closeTag (hn : isTagName name.toList = true) :
    Reads ("</" ++ name ++ ">").toList (.closeTag name) rest := by
  intro pos
  have hchars : ∀ c ∈ name.toList, c.isAlphanum = true ∨ c = '-' := isTagName_chars hn
  have hascii : ∀ c ∈ name.toList, c.toNat < 0x80 := by
    intro c hc
    rcases hchars c hc with hc | rfl
    · exact (bounds_of_isAlphanum hc).2
    · decide
  have hblank : ∀ c ∈ name.toList, Text.isBlank c = false := by
    intro c hc
    have hlt := hascii c hc
    have hge : 0x21 ≤ c.toNat := by
      rcases hchars c hc with hc | rfl
      · have := (bounds_of_isAlphanum hc).1
        omega
      · decide
    simp [Text.isBlank]
    omega
  have hname := closeName_eq hascii hblank
  have hread : readUntil ['>'] ('/' :: name.toList ++ ['>'] ++ rest) =
      some ('/' :: name.toList, rest) := by
    refine readUntil_first (by decide) fun hin => ?_
    rw [dropLast_concat] at hin
    rcases mem_cons.mp (hin.mem mem_cons_self) with h | h
    · cases h
    · rcases hchars _ h with h | h <;> cases h
  refine ⟨'<', '/' :: name.toList ++ ['>'] ++ rest, by simp, ?_⟩
  have hcomment : "<!--".toList.isPrefixOf ('<' :: ('/' :: name.toList ++ ['>'] ++ rest)) = false :=
    rfl
  simp only [readLexeme, beq_self_eq_true, if_pos, hcomment, hread]
  simp [hname]

/-! ## Control tags -/

theorem readBraces_balanced (he : balancedFrom q d e = true) :
    readBraces q (d + 1) (e ++ '\x7d' :: rest) = some (e, rest) := by
  induction e generalizing q d with
  | nil =>
    rw [balancedFrom, Bool.and_eq_true_iff, Option.isNone_iff_eq_none, beq_iff_eq] at he
    obtain ⟨rfl, rfl⟩ := he
    rfl
  | cons c e ih =>
    unfold balancedFrom at he
    rw [cons_append, readBraces.eq_def]
    cases q with
    | some q =>
      dsimp only at he ⊢
      rw [ih he]
      rfl
    | none =>
      dsimp only at he ⊢
      split at he
      · next hq =>
        rw [if_pos hq, ih he]
        rfl
      next hq =>
      rw [if_neg hq]
      split at he
      · next ho =>
        rw [if_pos ho, ih he]
        rfl
      next ho =>
      rw [if_neg ho]
      split at he
      · next hc =>
        obtain ⟨hd, he⟩ := Bool.and_eq_true_iff.mp he
        obtain ⟨k, rfl⟩ : ∃ k, d = k + 1 := Nat.exists_eq_succ_of_ne_zero (by simpa using hd)
        rw [Nat.add_sub_cancel] at he
        rw [if_pos hc, if_neg (by omega), Nat.add_sub_cancel, ih he]
        rfl
      · next hc =>
        rw [if_neg hc, ih he]
        rfl

theorem beq_eq_toList (t : String) : (s == t) = (s.toList == t.toList) := by
  rw [Bool.eq_iff_iff, beq_iff_eq, beq_iff_eq, String.toList_inj]

namespace Control

theorem ofHeader?_header (hc : c.Formed) : ofHeader? c.header = some c := by
  have hsys : "@".length = 1 := rfl
  have hfragment : "#fragment".length = 9 := rfl
  cases c with
  | sysTag h =>
    obtain ⟨m, rest, hlist, hm⟩ := hc
    simp [header, ofHeader?, hlist, hm, hsys]
  | each h =>
    obtain ⟨t, ht⟩ := hc
    simp [header, ofHeader?, ← ht]
  | cond h | await h =>
    obtain ⟨t, ht⟩ := hc
    simp [header, ofHeader?, beq_eq_toList, ← ht]
  | onValue h | onError h =>
    rcases hc with rfl | ⟨t, ht⟩
    · rfl
    · simp [header, ofHeader?, opensSection, beq_eq_toList, ← ht]
  | slot h =>
    rcases hc with rfl | ⟨t, ht⟩ | ⟨t, ht⟩
    · rfl
    · simp [header, ofHeader?, opensSection, beq_eq_toList, ← ht]
    · simp [header, ofHeader?, opensSection, beq_eq_toList, ← ht]
  | fragment h =>
    obtain ⟨m, rest, hlist, hm⟩ := hc
    simp [header, ofHeader?, opensSection, beq_eq_toList, hlist, hm, hfragment]
  | eachEnd | otherwise | condEnd | awaitEnd | slotEnd | fragmentEnd => rfl

theorem header_head {c : Control} (hc : c.Formed) :
    ∃ m cs, c.header.toList = m :: cs ∧ (m == '#' || m == '/' || m == ':' || m == '@') = true := by
  cases c with
  | sysTag h | fragment h =>
    obtain ⟨m, rest, hlist, -⟩ := hc
    exact ⟨_, _, hlist, rfl⟩
  | each h | cond h | await h =>
    obtain ⟨t, ht⟩ := hc
    exact ⟨_, _, ht.symm, rfl⟩
  | onValue h | onError h =>
    rcases hc with rfl | ⟨t, ht⟩
    · exact ⟨_, _, rfl, rfl⟩
    · exact ⟨_, _, ht.symm, rfl⟩
  | slot h =>
    rcases hc with rfl | ⟨t, ht⟩ | ⟨t, ht⟩
    · exact ⟨_, _, rfl, rfl⟩
    · exact ⟨_, _, ht.symm, rfl⟩
    · exact ⟨_, _, ht.symm, rfl⟩
  | eachEnd | otherwise | condEnd | awaitEnd | slotEnd | fragmentEnd => exact ⟨_, _, rfl, rfl⟩

theorem opens_braced {c : Control} (hc : c.Formed) (rest : List Char) :
    opensLexeme ((braced c.header).toList ++ rest) = true := by
  obtain ⟨m, cs, hlist, hm⟩ := header_head hc
  simpa [braced, hlist, opensLexeme] using hm

end Control

theorem reads_control (hc : c.Written) (rest : List Char) :
    Reads (braced c.header).toList (.control c c.header) rest := by
  intro pos
  have hlist : (braced c.header).toList ++ rest =
      '\x7b' :: (c.header.toList ++ '\x7d' :: rest) := by simp [braced]
  have hopens := Control.opens_braced hc.formed rest
  have hread : readBraces none 1 (c.header.toList ++ '\x7d' :: rest) =
      some (c.header.toList, rest) := readBraces_balanced hc.balanced
  rw [hlist] at hopens
  refine ⟨_, _, hlist, ?_⟩
  simp [readLexeme, hopens, hread, Control.ofHeader?_header hc.formed]

/-! ## Open tags -/

theorem Element.Written.tagText_head {e : Element} (h : e.Written) :
    ∃ c cs, (e.tagText slash).toList = '<' :: c :: cs ∧ c.isAlphanum = true := by
  have hname := h.name
  cases hlist : e.name.toList with
  | nil =>
    rw [hlist] at hname
    cases hname
  | cons c cs =>
    rw [hlist] at hname
    refine ⟨c, cs ++ ((argText e.arg).toList ++ ((attributesText e.attributes).toList ++
      (if e.closed && (!e.void || slash e) then "/>" else ">").toList)), ?_,
      (Bool.and_eq_true_iff.mp hname).1⟩
    simp [Element.tagText, hlist]

theorem reads_openTag {e : Element} (h : e.Written) :
    Reads (e.tagText slash).toList (.openTag e.tag (e.tagText slash)) rest := by
  intro pos
  obtain ⟨c, cs, htext, hc⟩ := h.tagText_head
  have hread := readTag_tagText h pos (pos + 1) rest htext.symm
  have hcomment : "<!--".toList.isPrefixOf ('<' :: (c :: cs ++ rest)) = false := by
    have hne : ('!' == c) = false := by
      refine beq_eq_false_iff_ne.mpr ?_
      rintro rfl
      cases hc
    have hlist : "<!--".toList = ['<', '!', '-', '-'] := rfl
    simp [hlist, List.isPrefixOf, hne]
  have hclose : ((c :: cs ++ rest).head? == some '/') = false := by
    refine beq_eq_false_iff_ne.mpr fun heq => ?_
    cases heq
    cases hc
  have hopen : ('<' :: (c :: cs ++ rest)).take (('<' :: (c :: cs ++ rest)).length - rest.length) =
      '<' :: c :: cs := by
    rw [← cons_append, length_append, Nat.add_sub_cancel, take_left]
  refine ⟨'<', c :: cs ++ rest, by rw [htext]; rfl, ?_⟩
  have hordinary : rawKind? e.tag.name = none := h.ordinary
  simp only [readLexeme, beq_self_eq_true, if_pos, hcomment, hclose, hread, hopen, ← htext,
    hordinary, String.ofList_toList]
  rfl

/-! ## Trees -/

/-- Reading on from byte `pos` with what has been assembled before it. -/
def resume (size pos : Nat) (cs : List Char) (a : Assembly) : Except Fault Root := do
  let a ← a.feedAll (lexemes pos cs).1
  match (lexemes pos cs).2 with
  | some f => throw f
  | none => a.finish size

theorem parseFault_eq : parseFault source = resume source.utf8ByteSize 0 source.toList {} := rfl

theorem resume_reads (h : Reads text token rest)
    (ha : a.feed ⟨token, pos, pos + byteLength text⟩ = .ok a') :
    resume size pos (text ++ rest) a = resume size (pos + byteLength text) rest a' := by
  obtain ⟨c, cs, hlist, hread⟩ := h pos
  have hstop : pos + byteLength ((c :: cs).take ((c :: cs).length - rest.length)) =
      pos + byteLength text := by
    rw [← hlist, length_append, Nat.add_sub_cancel, take_left]
  have hlex : lexemes pos (c :: cs) =
      (⟨token, pos, pos + byteLength text⟩ :: (lexemes (pos + byteLength text) rest).1,
        (lexemes (pos + byteLength text) rest).2) := by
    rw [lexemes]
    split
    · next heq =>
      rw [hread] at heq
      cases heq
    · next heq =>
      rw [hread] at heq
      cases heq
      rw [hstop]
  rw [hlist, resume, hlex, resume]
  rw [Assembly.feedAll, foldlM_cons, ha]
  rfl

/-- Reading `cs` leads from one assembly and byte to another when `rest` follows. -/
def Leads (cs rest : List Char) (a : Assembly) (pos : Nat) (a' : Assembly) (pos' : Nat) : Prop :=
  ∀ size, resume size pos (cs ++ rest) a = resume size pos' rest a'

theorem Leads.trans (h : Leads cs (ds ++ rest) a pos b mid) (h' : Leads ds rest b mid a' pos') :
    Leads (cs ++ ds) rest a pos a' pos' := by
  intro size
  rw [append_assoc, h, h']

/-- Reading `cs` adds the nodes `ns`, but for what their place says. -/
def Grows (cs : List Char) (ns : List Node) (rest : List Char) : Prop :=
  ∀ a pos, ∃ ns' k pos', forgetAll ns' = forgetAll ns ∧
    Leads cs rest a pos ⟨ns'.reverse ++ a.nodes, a.stack, k⟩ pos'

/-- Reading `cs` ends the construct of the frame `f`, whose last section was finished; `node` makes
the node from that section. -/
def Ends (cs : List Char) (f : Frame) (node : List Node → Node) (rest : List Char) : Prop :=
  ∀ nodes outer below k pos, ∃ n k' pos', n.forget = (node nodes.reverse).forget ∧
    Leads cs rest ⟨nodes, (f, outer) :: below, k⟩ pos ⟨n :: outer, below, k'⟩ pos'

/-- The lexeme ends the construct of the frame `f`, which began at `start`. -/
def Closes (f : Frame) (token : Token) (start : Nat) (node : List Node → Span → Node) : Prop :=
  ∀ nodes outer below k pos stop, Assembly.feed ⟨nodes, (f, outer) :: below, k⟩ ⟨token, pos, stop⟩ =
    .ok ⟨node nodes.reverse ⟨start, stop⟩ :: outer, below, k⟩

/-- The control tag `c` ends a section of the frame `f` and begins one of the frame `next`. -/
def Turns (f : Frame) (c : Control) (next : List Node → Frame) : Prop :=
  ∀ nodes outer below k start stop,
    Assembly.feed ⟨nodes, (f, outer) :: below, k⟩ ⟨.control c c.header, start, stop⟩ =
      .ok ⟨[], (next nodes.reverse, outer) :: below, k⟩

/-- A list of nodes is read again wherever nothing continues its last text. -/
def Regrows (slash : Element → Bool) (ns : List Node) : Prop :=
  ∀ rest, Opens rest → Grows (printAll slash ns).toList ns rest

theorem Grows.append (h : Grows cs ns (ds ++ rest)) (h' : Grows ds ms rest) :
    Grows (cs ++ ds) (ns ++ ms) rest := by
  intro a pos
  obtain ⟨ns', k, mid, hns, hlead⟩ := h a pos
  obtain ⟨ms', k', pos', hms, hlead'⟩ := h' ⟨ns'.reverse ++ a.nodes, a.stack, k⟩ mid
  refine ⟨ns' ++ ms', k', pos', ?_, ?_⟩
  · rw [forgetAll_eq_map] at hns hms
    rw [forgetAll_eq_map, map_append, hns, hms, forgetAll_eq_map, forgetAll_eq_map,
      forgetAll_eq_map, map_append]
  · rw [reverse_append, append_assoc]
    exact hlead.trans hlead'

theorem grows_leaf (hr : Reads text token rest)
    (hf : ∀ a start stop, ∃ n' k, n'.forget = n.forget ∧
      Assembly.feed a ⟨token, start, stop⟩ = .ok ⟨n' :: a.nodes, a.stack, k⟩) :
    Grows text [n] rest := by
  intro a pos
  obtain ⟨n', k, hn, hfeed⟩ := hf a pos (pos + byteLength text)
  refine ⟨[n'], k, _, ?_, fun size => resume_reads hr hfeed⟩
  simp only [forgetAll, hn]

theorem grows_open (node : List Node → Node)
    (hr : Reads text token ((printAll slash body).toList ++ (tail ++ rest)))
    (hf : ∀ a start stop, ∃ f k,
      Assembly.feed a ⟨token, start, stop⟩ = .ok ⟨[], (f, a.nodes) :: a.stack, k⟩ ∧
        Ends tail f node rest) (hb : Regrows slash body) (ht : Opens (tail ++ rest))
    (hn : ∀ ns, forgetAll ns = forgetAll body → (node ns).forget = (node body).forget := by
      intro ns hns; simp only [Node.forget, hns]) :
    Grows (text ++ (printAll slash body).toList ++ tail) [node body] rest := by
  intro a pos
  obtain ⟨f, k, hfeed, hends⟩ := hf a pos (pos + byteLength text)
  obtain ⟨ns, k₁, mid, hns, hlead⟩ := hb _ ht ⟨[], (f, a.nodes) :: a.stack, k⟩
    (pos + byteLength text)
  obtain ⟨n, k₂, pos', hnode, hlead'⟩ := hends (ns.reverse ++ []) a.nodes a.stack k₁ mid
  refine ⟨[n], k₂, pos', ?_, ?_⟩
  · rw [append_nil, reverse_reverse, hn ns hns] at hnode
    simp only [forgetAll, hnode]
  · have hopen : Leads text ((printAll slash body).toList ++ (tail ++ rest)) a pos
        ⟨[], (f, a.nodes) :: a.stack, k⟩ (pos + byteLength text) :=
      fun size => resume_reads hr hfeed
    exact (hopen.trans hlead).trans hlead'

theorem ends_last (node : List Node → Span → Node) (hr : Reads text token rest)
    (hf : Closes f token start node)
    (hn : ∀ b s', (node b s').forget = (node b s).forget := by intros; simp only [Node.forget]) :
    Ends text f (fun b => node b s) rest := by
  intro nodes outer below k pos
  exact ⟨_, k, _, hn _ _, fun size => resume_reads hr (hf nodes outer below k pos _)⟩

theorem ends_section (next : List Node → Frame) (node : List Node → List Node → Node)
    (hc : c.Written) (hf : Turns f c next) (hb : Regrows slash body) (ht : Opens (tail ++ rest))
    (hends : ∀ front, Ends tail (next front) (node front) rest)
    (hn : ∀ front ns, forgetAll ns = forgetAll body →
      (node front ns).forget = (node front body).forget := by
        intro front ns hns; simp only [Node.forget, hns]) :
    Ends ((braced c.header).toList ++ (printAll slash body).toList ++ tail) f
      (fun front => node front body) rest := by
  intro nodes outer below k pos
  obtain ⟨ns, k₁, mid, hns, hlead⟩ := hb _ ht ⟨[], (next nodes.reverse, outer) :: below, k⟩
    (pos + byteLength (braced c.header).toList)
  obtain ⟨n, k₂, pos', hnode, hlead'⟩ := hends nodes.reverse (ns.reverse ++ []) outer below k₁ mid
  rw [append_nil, reverse_reverse, hn _ ns hns] at hnode
  have hopen : Leads (braced c.header).toList ((printAll slash body).toList ++ (tail ++ rest))
      ⟨nodes, (f, outer) :: below, k⟩ pos ⟨[], (next nodes.reverse, outer) :: below, k⟩
      (pos + byteLength (braced c.header).toList) :=
    fun size => resume_reads (reads_control hc _) (hf nodes outer below k pos _)
  exact ⟨n, k₂, pos', hnode, (hopen.trans hlead).trans hlead'⟩

/-! ## Constructs -/

theorem opens_control {c : Control} (hc : c.Formed) (rest : List Char) :
    Opens ((braced c.header).toList ++ rest) :=
  Or.inr (Control.opens_braced hc rest)

theorem Control.written_fixed
    (hc : c ∈ [eachEnd, otherwise, condEnd, awaitEnd, slotEnd, fragmentEnd]) : c.Written := by
  simp only [mem_cons, not_mem_nil, or_false] at hc
  rcases hc with rfl | rfl | rfl | rfl | rfl | rfl <;> exact ⟨trivial, by decide⟩

section

variable {slash : Element → Bool} {rest : List Char} {body : List Node} {s : Span}

theorem grows_block (e : Control) (frame : Nat → Frame) (node : List Node → Span → Node)
    (hc : c.Written) (hb : Regrows slash body)
    (he : e.Written := by exact Control.written_fixed (by simp))
    (hn : ∀ b b' s s', forgetAll b' = forgetAll b →
      (node b' s').forget = (node b s).forget := by intro _ _ _ _ hb; simp only [Node.forget, hb])
    (hprint : (Node.print slash (node body s)).toList =
      (braced c.header).toList ++ (printAll slash body).toList ++
        (braced e.header).toList := by simp [Node.print, Control.header])
    (hopen : ∀ a start stop, Assembly.feed a ⟨.control c c.header, start, stop⟩ =
      .ok (a.enter (frame start)) := by intros; rfl)
    (hend : ∀ start, Closes (frame start) (.control e e.header) start node := by
      intro _ _ _ _ _ _ _; rfl) :
    Grows (Node.print slash (node body s)).toList [node body s] rest := by
  rw [hprint]
  refine grows_open (fun b => node b s) (reads_control hc _) (fun a start stop => ?_) hb
    (opens_control he.formed rest) fun ns hns => hn body ns s s hns
  refine ⟨frame start, a.nextId, hopen a start stop, ?_⟩
  exact ends_last node (reads_control he rest) (hend start) fun b s' => hn b b s s' rfl

theorem grows_condElse (hc : (Control.cond h).Written) (hb : Regrows slash body)
    (ha : Regrows slash alt) :
    Grows (Node.print slash (.cond h body true alt s)).toList [.cond h body true alt s] rest := by
  have helse : Control.otherwise.Written := Control.written_fixed (by simp)
  have hend : Control.condEnd.Written := Control.written_fixed (by simp)
  have htail : ∀ start, Ends ((braced Control.otherwise.header).toList ++
      (printAll slash alt).toList ++ (braced Control.condEnd.header).toList) (.cond h start)
      (fun b => .cond h b true alt s) rest := by
    intro start
    refine ends_section (.otherwise h start) (fun b alt => .cond h b true alt s) helse
      (fun _ _ _ _ _ _ => rfl) ha (opens_control hend.formed rest) fun front => ?_
    exact ends_last (.cond h front true) (reads_control hend rest) fun _ _ _ _ _ _ => rfl
  have hgrows := grows_open (fun b => .cond h b true alt s) (reads_control hc _)
    (fun a start stop => ⟨.cond h start, a.nextId, rfl, htail start⟩) hb
    (by rw [append_assoc, append_assoc]; exact opens_control helse.formed _)
  simpa [Node.print, Control.header] using hgrows

def sectionText (slash : Element → Bool) (header : Option String) (body : List Node) : List Char :=
  match header with
  | some h => (braced h).toList ++ (printAll slash body).toList
  | none => []

theorem opens_section {c : String → Control} (hc : ∀ h, (c h).header = h)
    (hw : ∀ h, header = some h → (c h).Written) (ht : Opens (tail ++ rest)) :
    Opens (sectionText slash header body ++ tail ++ rest) := by
  cases header with
  | none => exact ht
  | some h =>
    have := opens_control (hw h rfl).formed ((printAll slash body).toList ++ (tail ++ rest))
    rw [hc] at this
    simpa [sectionText] using this

section Await

variable {h : String} {main tb cb : List Node} {th ch : Option String}

theorem ends_catch {th : List Node → Option String} {main tb : List Node → List Node}
    (hch : ∀ c, ch = some c → (Control.onError c).Written) (hnone : ch = none → cb = [])
    (hcb : Regrows slash cb)
    (hturn : ∀ c, Turns f (.onError c) fun b => .onError h start (main b) (th b) (tb b) c)
    (hend : Closes f (.control .awaitEnd Control.awaitEnd.header) start fun b =>
      .await h (main b) (th b) (tb b) none []) :
    Ends (sectionText slash ch cb ++ (braced Control.awaitEnd.header).toList) f
      (fun b => .await h (main b) (th b) (tb b) ch cb s) rest := by
  have he : Control.awaitEnd.Written := Control.written_fixed (by simp)
  cases ch with
  | none =>
    rw [hnone rfl]
    exact ends_last (fun b s => .await h (main b) (th b) (tb b) none [] s) (reads_control he rest) hend
  | some c =>
    have htext : sectionText slash (some c) cb =
        (braced (Control.onError c).header).toList ++ (printAll slash cb).toList := rfl
    rw [htext]
    refine ends_section (fun b => .onError h start (main b) (th b) (tb b) c)
      (fun b cb => .await h (main b) (th b) (tb b) (some c) cb s) (hch c rfl) (hturn c) hcb
      (opens_control he.formed rest) fun front => ?_
    exact ends_last (.await h (main front) (th front) (tb front) (some c)) (reads_control he rest)
      fun _ _ _ _ _ _ => rfl

theorem ends_then {start : Nat} (hth : ∀ t, th = some t → (Control.onValue t).Written)
    (hnone : th = none → tb = []) (htb : Regrows slash tb)
    (hch : ∀ c, ch = some c → (Control.onError c).Written) (hnone' : ch = none → cb = [])
    (hcb : Regrows slash cb) :
    Ends (sectionText slash th tb ++ (sectionText slash ch cb ++
      (braced Control.awaitEnd.header).toList)) (.await h start)
      (fun b => .await h b th tb ch cb s) rest := by
  cases th with
  | none =>
    rw [hnone rfl]
    exact ends_catch hch hnone' hcb (fun _ _ _ _ _ _ _ => rfl) (fun _ _ _ _ _ _ => rfl)
  | some t =>
    have htext : sectionText slash (some t) tb =
        (braced (Control.onValue t).header).toList ++ (printAll slash tb).toList := rfl
    have hopens :
        Opens (sectionText slash ch cb ++ (braced Control.awaitEnd.header).toList ++ rest) :=
      opens_section (fun _ => rfl) hch (@opens_control .awaitEnd trivial rest)
    rw [htext]
    refine ends_section (fun b => .onValue h start b t)
      (fun b tb => .await h b (some t) tb ch cb s) (hth t rfl) (fun _ _ _ _ _ _ => rfl) htb hopens
      fun front => ?_
    exact ends_catch hch hnone' hcb (fun _ _ _ _ _ _ _ => rfl) (fun _ _ _ _ _ _ => rfl)

theorem grows_await (hc : (Control.await h).Written) (hm : Regrows slash main)
    (hth : ∀ t, th = some t → (Control.onValue t).Written) (hnone : th = none → tb = [])
    (htb : Regrows slash tb) (hch : ∀ c, ch = some c → (Control.onError c).Written)
    (hnone' : ch = none → cb = []) (hcb : Regrows slash cb) :
    Grows (Node.print slash (.await h main th tb ch cb s)).toList
      [.await h main th tb ch cb s] rest := by
  have hopens : Opens (sectionText slash th tb ++ (sectionText slash ch cb ++
      (braced Control.awaitEnd.header).toList) ++ rest) :=
    opens_section (fun _ => rfl) hth
      (opens_section (fun _ => rfl) hch (@opens_control .awaitEnd trivial rest))
  have hgrows := grows_open (fun b => .await h b th tb ch cb s) (reads_control hc _)
    (fun a start stop => ⟨.await h start, a.nextId, rfl,
      ends_then hth hnone htb hch hnone' hcb⟩) hm hopens
  cases th <;> cases ch <;> simpa [Node.print, Control.header, sectionText] using hgrows

end Await

theorem forget_ofTag (hc : e.classes = []) (k : Nat) (text : String) (s : Span) :
    (Node.element (.ofTag k e.tag text) body s).forget = (Node.element e body s').forget := by
  simp only [Node.forget, Element.tag, Element.ofTag, ← hc]

theorem grows_closed {e : Element} (he : e.Written) (hclosed : e.closed = true) :
    Grows (Node.print slash (.element e [] s)).toList [.element e [] s] rest := by
  have htext : (Node.print slash (.element e [] s)).toList = (e.tagText slash).toList := by
    simp [Node.print, hclosed]
  rw [htext]
  refine grows_leaf (reads_openTag he) fun a start stop => ?_
  refine ⟨_, a.nextId + 1, forget_ofTag he.unscoped a.nextId (e.tagText slash) ⟨start, stop⟩, ?_⟩
  simp only [Assembly.feed, Element.tag, hclosed, if_pos]
  rfl

theorem grows_element {e : Element} (he : e.Written) (hopen : e.closed = false)
    (hb : Regrows slash body) :
    Grows (Node.print slash (.element e body s)).toList [.element e body s] rest := by
  have htext : (Node.print slash (.element e body s)).toList = (e.tagText slash).toList ++
      (printAll slash body).toList ++ ("</" ++ e.name ++ ">").toList := by
    simp [Node.print, hopen]
  have htail : Opens (("</" ++ e.name ++ ">").toList ++ rest) := Or.inr (by simp [opensLexeme])
  rw [htext]
  refine grows_open (fun b => .element e b s) (reads_openTag he) (fun a start stop => ?_) hb htail
  let e' := Element.ofTag a.nextId e.tag (e.tagText slash)
  refine ⟨.element e' start, a.nextId + 1, ?_, ?_⟩
  · have htag : e.tag.closed = false := hopen
    simp only [Assembly.feed, htag]
    rfl
  · have hends : Ends ("</" ++ e.name ++ ">").toList (.element e' start) (.element e' · s) rest :=
      ends_last (.element e') (reads_closeTag he.name) fun _ _ _ _ _ _ => if_pos rfl
    intro nodes outer below k pos
    obtain ⟨n, k', pos', hn, hlead⟩ := hends nodes outer below k pos
    exact ⟨n, k', pos', hn.trans (forget_ofTag he.unscoped _ _ s), hlead⟩

end

/-! ## The whole source -/

theorem opens_print {n : Node} (hw : n.Written) (ht : n.isText = false) :
    opensLexeme ((n.print slash).toList ++ rest) = true := by
  have block : ∀ {c : Control} {text : List Char}, c.Written →
      (braced c.header).toList <+: text → opensLexeme text = true := by
    rintro c _ hc ⟨text, rfl⟩
    exact Control.opens_braced hc.formed text
  cases n with
  | element e body s =>
    obtain ⟨c, cs, htext, -⟩ := hw.1.tagText_head
    rw [Node.print, String.toList_append, htext]
    rfl
  | text v s => cases ht
  | comment c s =>
    obtain ⟨t, ht⟩ := hw.opens
    rw [Node.print, ← ht]
    rfl
  | raw b => exact hw.elim
  | each | cond | await | slot | fragment => exact block hw.1 (by simp [Node.print, Control.header])
  | sysTag h s => exact block hw (by simp [Node.print, Control.header])

mutual

theorem grows_print : ∀ n : Node, n.Written → ∀ rest,
    (n.isText = true → Opens rest) → Grows (n.print slash).toList [n] rest
  | .element e body s, ⟨he, hclosed, hb⟩, rest, _ => by
    cases hc : e.closed with
    | true =>
      obtain rfl := hclosed hc
      exact grows_closed he hc
    | false => exact grows_element he hc (grows_printAll slash body hb)
  | .text v s, hv, rest, hr =>
    grows_leaf (reads_text hv (hr rfl)) fun a start stop =>
      ⟨.text v ⟨start, stop⟩, a.nextId, rfl, rfl⟩
  | .comment c s, hc, rest, _ =>
    grows_leaf (reads_comment hc) fun a start stop =>
      ⟨.comment c ⟨start, stop⟩, a.nextId, rfl, rfl⟩
  | .raw b, hb, _, _ => hb.elim
  | .each h body s, ⟨hc, hb⟩, rest, _ =>
    grows_block .eachEnd (.each h) (.each h) hc (grows_printAll slash body hb)
  | .cond h body true alt s, ⟨hc, hb, _, ha⟩, rest, _ =>
    grows_condElse hc (grows_printAll slash body hb) (grows_printAll slash alt ha)
  | .cond h body false alt s, ⟨hc, hb, hnone, _⟩, rest, _ => by
    obtain rfl := hnone rfl
    exact grows_block .condEnd (.cond h) (.cond h · false []) hc (grows_printAll slash body hb)
  | .await h main th tb ch cb s, ⟨hc, hm, hth, hnone, htb, hch, hnone', hcb⟩, rest, _ =>
    grows_await hc (grows_printAll slash main hm) hth hnone (grows_printAll slash tb htb) hch hnone'
      (grows_printAll slash cb hcb)
  | .slot h body s, ⟨hc, hb⟩, rest, _ =>
    grows_block .slotEnd (.slot h) (.slot h) hc (grows_printAll slash body hb)
  | .fragment h body s, ⟨hc, hb⟩, rest, _ =>
    grows_block .fragmentEnd (.fragment h) (.fragment h) hc (grows_printAll slash body hb)
  | .sysTag h s, hc, rest, _ =>
    grows_leaf (reads_control hc rest) fun a start stop =>
      ⟨.sysTag h ⟨start, stop⟩, a.nextId, rfl, rfl⟩

theorem grows_printAll (slash : Element → Bool) : ∀ ns : List Node, AllWritten ns →
    Regrows slash ns
  | [], _, rest, _ => fun a pos => ⟨[], a.nextId, pos, rfl, fun _ => rfl⟩
  | n :: ns, ⟨hn, hnext, hns⟩, rest, hr => by
    have hone : Grows (n.print slash).toList [n] ((printAll slash ns).toList ++ rest) := by
      refine grows_print n hn _ fun ht => ?_
      -- a text is followed by a node of another kind, or by what ends the list
      cases ns with
      | nil => exact hr
      | cons m ms =>
        rw [printAll, String.toList_append, append_assoc]
        exact Or.inr (opens_print hns.1 (hnext ht))
    rw [printAll, String.toList_append]
    exact hone.append (grows_printAll slash ns hns rest hr)

end

theorem parse_of_grows (h : Grows source.toList ns []) :
    ∃ root, parse source = .ok root ∧ forgetAll root.body = forgetAll ns := by
  obtain ⟨ns', k, pos, hns, hlead⟩ := h {} 0
  refine ⟨⟨ns', ⟨0, source.utf8ByteSize⟩⟩, ?_, hns⟩
  have hread : parseFault source =
      resume source.utf8ByteSize pos [] ⟨ns'.reverse ++ [], [], k⟩ := by
    rw [parseFault_eq, ← hlead, append_nil]
  have hfinish : ∀ size, resume size pos [] ⟨ns'.reverse ++ [], [], k⟩ = .ok ⟨ns', ⟨0, size⟩⟩ := by
    intro size
    rw [resume, lexemes, append_nil]
    change Except.ok (Root.mk ns'.reverse.reverse ⟨0, size⟩) = _
    rw [reverse_reverse]
  rw [parse, hread, hfinish]
  rfl

/-- Reading inverts printing: a written tree is read from its text, but for spans, numbers and the
texts of open tags. -/
theorem parse_print (slash : Element → Bool) (ns : List Node) (h : AllWritten ns) :
    ∃ root, parse (printAll slash ns) = .ok root ∧ forgetAll root.body = forgetAll ns := by
  have hgrows : Grows (printAll slash ns).toList ns [] := grows_printAll slash ns h [] (Or.inl rfl)
  exact parse_of_grows hgrows

def printedItem : Element where
  id := 0
  name := "li"
  arg := some "row"
  attributes := [⟨"on", some "\x7b\x7ba:'\x7d'\x7d\x7d", "on=\x7b\x7ba:'\x7d'\x7d\x7d"⟩,
    ⟨"title", some "a b", "title=\"a b\""⟩]
  openTag := ""
  closed := false
  void := false

def printedRule : Element where
  id := 0
  name := "hr"
  arg := none
  attributes := [⟨"\x7b...rest\x7d", none, "\x7b...rest\x7d"⟩]
  openTag := ""
  closed := true
  void := true

def printedForest : List Node :=
  [.each "#each xs as x"
      [.element printedItem [.text "\x7bx\x7d \x7b" ⟨0, 0⟩, .comment "<!-- - -->" ⟨0, 0⟩,
        .element printedRule [] ⟨0, 0⟩] ⟨0, 0⟩] ⟨0, 0⟩,
    .cond "#if ok" [.text "yes" ⟨0, 0⟩] true [.sysTag "@html z" ⟨0, 0⟩] ⟨0, 0⟩,
    .await "#await p" [] (some ":then v") [.text "." ⟨0, 0⟩] (some ":catch") [] ⟨0, 0⟩]

theorem printedItem_written : printedItem.Written where
  name := by decide
  ordinary := rfl
  arg := by
    rintro _ ⟨⟩
    exact .name (by decide)
  attributes := by
    simp only [printedItem, forall_mem_cons]
    refine ⟨@Attribute.Written.code "on" "\x7ba:'\x7d'\x7d" ⟨by decide, by decide⟩ (by decide),
      @Attribute.Written.quoted "title" "a b" ⟨by decide, by decide⟩ (by decide), ?_⟩
    simp
  void := by decide
  closed := nofun
  unscoped := rfl

theorem printedRule_written : printedRule.Written where
  name := by decide
  ordinary := rfl
  arg := nofun
  attributes := by
    simp only [printedRule, forall_mem_singleton]
    exact @Attribute.Written.short "...rest" (by decide)
  void := by decide
  closed := fun _ => rfl
  unscoped := rfl

theorem printedForest_written : AllWritten printedForest := by
  have htext : PlainText "\x7bx\x7d \x7b" := ⟨by decide, by decide, by simp [infix_cons_iff]⟩
  have hyes : PlainText "yes" := ⟨by decide, by decide, by simp [infix_cons_iff]⟩
  have hdot : PlainText "." := ⟨by decide, by decide, by simp [infix_cons_iff]⟩
  have hcomment : PlainComment "<!-- - -->" :=
    ⟨by decide, by decide, by simp [infix_cons_iff]⟩
  have heach : (Control.each "#each xs as x").Written := ⟨⟨"xs as x".toList, rfl⟩, by decide⟩
  have hcond : (Control.cond "#if ok").Written := ⟨⟨"ok".toList, rfl⟩, by decide⟩
  have hsys : (Control.sysTag "@html z").Written :=
    ⟨⟨'h', "tml z".toList, rfl, by decide⟩, by decide⟩
  have hawait : (Control.await "#await p").Written := ⟨⟨"p".toList, rfl⟩, by decide⟩
  have hthen : (Control.onValue ":then v").Written := ⟨.inr ⟨"v".toList, rfl⟩, by decide⟩
  have hcatch : (Control.onError ":catch").Written := ⟨.inl rfl, by decide⟩
  have hopen : printedItem.closed = false := rfl
  simp [printedForest, AllWritten, Node.Written, Node.isText, htext, hyes, hdot, hcomment, heach,
    hcond, hsys, hawait, hthen, hcatch, printedItem_written, printedRule_written, hopen]

theorem parse_print_printedForest : AllWritten printedForest ∧
    ∃ root, parse (printAll (fun e => e.void) printedForest) = .ok root ∧
      forgetAll root.body = forgetAll printedForest :=
  ⟨printedForest_written, parse_print _ _ printedForest_written⟩

end ReactiveMarkup.Markup
