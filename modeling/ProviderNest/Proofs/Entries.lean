import ProviderNest.Proofs.Division

/-!
# The entries of a body

A body is divided at the commas of its code that stand outside all brackets opened in it
(`Source.DividedAt`); its segments lie between these commas (`Source.Segmented`), and an entry is
what trimming leaves of a segment. So nothing is lost and nothing is found twice: whatever lies
outside the entries is a blank character or a dividing comma, no such comma lies in an entry, and
one lies between any two of them (`Source.Entered`). This is asked of every part of a text between
two of its characters, whatever stands in it: the brackets need not be balanced, and a segment may
be empty, blank or nothing but a comment (`Source.cutEntries_entered`).
-/

namespace ProviderNest

open Source

namespace Source

/-- At position `k` a body that begins at position `start` is divided: a comma of its code stands
there, outside all brackets opened in the body. -/
def DividedAt (s : Source) (start k : Nat) : Prop :=
  s.codeByte? k = some Byte.comma ∧ s.depthAt start k = 0

/-- The spans of the positions from `i` up to `stop`, of which each but the last ends where the body
that begins at `start` is divided, and which is divided nowhere else. -/
inductive Segmented (s : Source) (start stop : Nat) : Nat → List Span → Prop
  | last {i : Nat} : i ≤ stop → (∀ k, i ≤ k → k < stop → ¬ s.DividedAt start k) →
      Segmented s start stop i [⟨i, stop⟩]
  | cons {i c : Nat} {rest : List Span} : i ≤ c → (∀ k, i ≤ k → k < c → ¬ s.DividedAt start k) →
      s.DividedAt start c → Segmented s start stop (c + 1) rest →
      Segmented s start stop i (⟨i, c⟩ :: rest)

section
variable {s : Source} {start stop i : Nat} {segs : List Span}

/-- The bracket depth one position on. -/
theorem depthAt_succ (h : start ≤ i) :
    s.depthAt start (i + 1) = s.depthAt start i + s.depthStep i := by
  rw [depthAt, depthAt, Nat.succ_sub h, List.range'_1_concat, List.map_append, List.sum_append,
    Nat.add_sub_cancel' h, List.map_singleton, List.sum_singleton]

/-- A comma that divides leaves the depth as it is. -/
theorem DividedAt.depthAt_succ (h : s.DividedAt start i) (hi : start ≤ i) :
    s.depthAt start (i + 1) = 0 := by
  rw [Source.depthAt_succ hi, h.2, depthStep, h.1]
  rfl

/-- The segments under way from position `first` on, behind the positions up to `i`. -/
theorem segmentsFrom_segmented {n first : Nat} (hfirst : start ≤ first) (hi : first ≤ i)
    (hnone : ∀ k, first ≤ k → k < i → ¬ s.DividedAt start k) :
    s.Segmented start (i + n) first (s.segmentsFrom n i first (s.depthAt start i)) := by
  induction n generalizing i first with
  | zero => exact .last hi hnone
  | succ n ih =>
    rw [segmentsFrom, show i + (n + 1) = i + 1 + n by omega]
    split
    · next hc =>
      have hdiv : s.DividedAt start i := hc
      refine .cons hi hnone hdiv ?_
      have hrest := ih (show start ≤ i + 1 by omega) (Nat.le_refl (i + 1))
        fun k h1 h2 => absurd h2 (Nat.not_lt_of_le h1)
      rwa [hdiv.depthAt_succ (by omega)] at hrest
    · next hc =>
      rw [← depthAt_succ (by omega)]
      refine ih hfirst (by omega) fun k h1 h2 => ?_
      rcases Nat.lt_succ_iff_lt_or_eq.1 h2 with h2 | rfl
      · exact hnone k h1 h2
      · exact hc

/-- The segments of a body lie between the commas that divide it. -/
theorem segments_segmented (h : start ≤ stop) :
    s.Segmented start stop start (s.segments start stop) := by
  have hzero : s.depthAt start start = 0 := by
    rw [depthAt, Nat.sub_self]
    rfl
  have hsegs := segmentsFrom_segmented (s := s) (n := stop - start) (Nat.le_refl start)
    (Nat.le_refl start) fun k h1 h2 => absurd h2 (Nat.not_lt_of_le h1)
  rw [hzero, Nat.add_sub_cancel' h] at hsegs
  rwa [segments, if_pos h]

namespace Segmented

theorem le (h : s.Segmented start stop i segs) : i ≤ stop := by
  induction h with
  | last h => exact h
  | cons _ _ _ _ ih => omega

/-- Each segment lies in the body, and nothing divides it. -/
theorem bounds (h : s.Segmented start stop i segs) : ∀ x ∈ segs,
    i ≤ x.start ∧ x.start ≤ x.stop ∧ x.stop ≤ stop ∧
      ∀ k, x.start ≤ k → k < x.stop → ¬ s.DividedAt start k := by
  induction h with
  | last hi hnone =>
    intro x hx
    obtain rfl := List.mem_singleton.1 hx
    exact ⟨Nat.le_refl _, hi, Nat.le_refl _, hnone⟩
  | @cons i c rest hi hnone _ hrest ih =>
    intro x hx
    rcases List.mem_cons.1 hx with rfl | hx
    · exact ⟨Nat.le_refl _, hi, Nat.le_of_succ_le hrest.le, hnone⟩
    · obtain ⟨h1, h2⟩ := ih x hx
      exact ⟨by omega, h2⟩

/-- Every position of the body lies in a segment or divides it. -/
theorem covers {k : Nat} (h : s.Segmented start stop i segs) (hi : i ≤ k) (hk : k < stop) :
    (∃ x ∈ segs, x.start ≤ k ∧ k < x.stop) ∨ s.DividedAt start k := by
  induction h with
  | last => exact .inl ⟨_, List.mem_cons_self, hi, hk⟩
  | @cons i c rest _ _ hdiv _ ih =>
    rcases Nat.lt_trichotomy k c with hlt | rfl | hgt
    · exact .inl ⟨_, List.mem_cons_self, hi, hlt⟩
    · exact .inr hdiv
    · exact (ih hgt).imp_left fun ⟨x, hx, hkx⟩ => ⟨x, List.mem_cons_of_mem _ hx, hkx⟩

/-- A segment ends where the body is divided, and the segments behind it begin further on. -/
theorem pairwise (h : s.Segmented start stop i segs) :
    segs.Pairwise fun x y => x.stop < y.start ∧ s.DividedAt start x.stop := by
  induction h with
  | last => exact List.pairwise_singleton _ _
  | cons _ _ hdiv hrest ih =>
    exact List.pairwise_cons.2 ⟨fun y hy => ⟨(hrest.bounds y hy).1, hdiv⟩, ih⟩

/-- A segment begins where the segments do, or behind a comma, and ends where they do, or before a
comma. -/
theorem ends (h : s.Segmented start stop i segs) : ∀ x ∈ segs,
    (x.start = i ∨ ∃ k, s.DividedAt start k ∧ x.start = k + 1) ∧
    (x.stop = stop ∨ s.DividedAt start x.stop) := by
  induction h with
  | last =>
    intro x hx
    obtain rfl := List.mem_singleton.1 hx
    exact ⟨.inl rfl, .inl rfl⟩
  | @cons i c rest _ _ hdiv _ ih =>
    intro x hx
    rcases List.mem_cons.1 hx with rfl | hx
    · exact ⟨.inl rfl, .inr hdiv⟩
    · obtain ⟨h1, h2⟩ := ih x hx
      exact ⟨.inr (h1.elim (fun heq => ⟨c, hdiv, heq⟩) id), h2⟩

end Segmented

/-- The segments of a part that can be cut out of a text can be cut out. -/
theorem Segmented.check_eq {t : Text} (ht : t.WellFormed)
    (h : (ofText t).Segmented start stop start segs) (hs : stop ≤ t.length)
    (hstart : (ofText t).isBoundary start = true) (hstop : (ofText t).isBoundary stop = true) :
    ∀ x ∈ segs, (ofText t).check x = .ok x := by
  intro x hx
  obtain ⟨-, hle, hstop', -⟩ := h.bounds x hx
  obtain ⟨hfirst, hlast⟩ := h.ends x hx
  have h1 : (ofText t).isBoundary x.start = true := by
    rcases hfirst with heq | ⟨k, hk, heq⟩
    · rw [heq, hstart]
    · rw [heq]
      exact isBoundary_succ_of_ascii ht (getElem?_of_codeByte? hk.1) (by decide)
  have h2 : (ofText t).isBoundary x.stop = true := by
    rcases hlast with heq | hk
    · rw [heq, hstop]
    · exact isBoundary_of_ascii (getElem?_of_codeByte? hk.1) (by decide)
  exact (cut_eq hle (by rw [size_ofText]; omega) h1 h2).1

end

/-! ## What lies outside the entries -/

/-- Each position among blank characters belongs to one of them. -/
theorem hasAt_of_blanks {cs : List Char} {i j k : Nat} (hj : j ≤ (Text.ofChars cs).length)
    (h : Text.MadeOf Text.blanks ((ofText (.ofChars cs)).bytes ⟨i, j⟩)) (hik : i ≤ k)
    (hkj : k < j) : ∃ c ∈ Text.blanks, Text.HasAt cs k c := by
  have hlen := length_bytes (s := ofText (.ofChars cs)) (x := ⟨i, j⟩)
    (Nat.le_trans hik (Nat.le_of_lt hkj)) (by rwa [size_ofText])
  have hsplit := drop_eq_bytes_append (t := .ofChars cs) (i := i) (j := j) (by omega)
  obtain ⟨ds, hblank, hds⟩ := h
  rw [hds] at hlen hsplit
  -- The blanks are whole characters of the text, since a character begins where they do.
  have hstarts : Text.Starts ((Text.ofChars cs).drop i) := by
    intro b hb
    rw [hsplit, List.head?_append_of_ne_nil _ (fun hnil => by
      rw [hnil, List.length_nil] at hlen
      dsimp only at hlen
      omega)] at hb
    exact (Text.wellFormed_ofChars ds).starts b hb
  obtain ⟨us, vs, rfl, hus⟩ := Text.exists_cut (by omega) hstarts
  rw [Text.ofChars_append, ← hus, List.drop_left] at hsplit
  obtain ⟨ws, rfl⟩ := Text.prefix_of_ofChars ⟨_, hsplit.symm⟩
  have hinside : k - i < (Text.ofChars ds).length := by
    rw [hlen]
    dsimp only
    omega
  obtain ⟨c, hc, hat⟩ := Text.exists_hasAt hinside
  have hmoved := hat.append us ws
  rw [hus, Nat.add_sub_cancel' hik] at hmoved
  exact ⟨c, hblank c hc, hmoved⟩

/-- The entries of the body from `start` up to `stop` in the text with the characters `cs`. They are
not empty, follow each other in the body and are trimmed; nothing divides an entry, outside of the
entries there are blank characters and the commas that divide the body, and one of these commas
stands between any two entries. -/
structure Entered (cs : List Char) (start stop : Nat) (es : List Span) : Prop where
  inside : ∀ e ∈ es, start ≤ e.start ∧ e.start < e.stop ∧ e.stop ≤ stop
  ordered : es.Pairwise fun e f => e.stop ≤ f.start
  trimmed : ∀ e ∈ es, ((ofText (.ofChars cs)).bytes e).Trimmed
  undivided : ∀ e ∈ es, ∀ k, e.start ≤ k → k < e.stop →
    ¬ (ofText (.ofChars cs)).DividedAt start k
  outside : ∀ k, start ≤ k → k < stop → (∀ e ∈ es, ¬ (e.start ≤ k ∧ k < e.stop)) →
    (∃ c ∈ Text.blanks, Text.HasAt cs k c) ∨ (ofText (.ofChars cs)).DividedAt start k
  divided : es.Pairwise fun e f => ∃ k, e.stop ≤ k ∧ k < f.start ∧
    (ofText (.ofChars cs)).DividedAt start k

section
variable {cs : List Char} {start stop : Nat} {segs : List Span}

/-- What trimming leaves of the segments of a body are its entries. -/
theorem Segmented.entered (h : (ofText (.ofChars cs)).Segmented start stop start segs)
    (hs : stop ≤ (Text.ofChars cs).length) :
    Entered cs start stop (segs.filterMap (ofText (.ofChars cs)).trimBlank?) := by
  have htrim {x e : Span} (hx : x ∈ segs) (he : (ofText (.ofChars cs)).trimBlank? x = some e) :=
    (trimBlank?_some (h.bounds x hx).2.1
      (by rw [size_ofText]; exact Nat.le_trans (h.bounds x hx).2.2.1 hs) he)
  have hdivided : (segs.filterMap (ofText (.ofChars cs)).trimBlank?).Pairwise fun e f =>
      ∃ k, e.stop ≤ k ∧ k < f.start ∧ (ofText (.ofChars cs)).DividedAt start k := by
    refine List.pairwise_filterMap.2 (h.pairwise.imp_of_mem fun {x y} hx hy hxy e he f hf => ?_)
    obtain ⟨-, -, h1, -⟩ := htrim hx he
    obtain ⟨h2, -⟩ := htrim hy hf
    exact ⟨x.stop, h1, by omega, hxy.2⟩
  refine ⟨fun e he => ?_, hdivided.imp fun ⟨k, h1, h2, _⟩ => by omega, fun e he => ?_,
    fun e he k hk1 hk2 => ?_, fun k hk1 hk2 hnot => ?_, hdivided⟩
  · obtain ⟨x, hx, he⟩ := List.mem_filterMap.1 he
    obtain ⟨h1, -, h2, -⟩ := h.bounds x hx
    obtain ⟨h3, h4, h5, -⟩ := htrim hx he
    exact ⟨by omega, h4, by omega⟩
  · obtain ⟨x, hx, he⟩ := List.mem_filterMap.1 he
    obtain ⟨-, h1, h2, -⟩ := h.bounds x hx
    exact trimmed_of_trimBlank? h1 (by rw [size_ofText]; omega) he
  · obtain ⟨x, hx, he⟩ := List.mem_filterMap.1 he
    obtain ⟨-, -, -, hnone⟩ := h.bounds x hx
    obtain ⟨h3, -, h5, -⟩ := htrim hx he
    exact hnone k (by omega) (by omega)
  · rcases h.covers hk1 hk2 with ⟨x, hx, hx1, hx2⟩ | hdiv
    case inr => exact .inr hdiv
    obtain ⟨-, h1, h2, -⟩ := h.bounds x hx
    left
    cases he : (ofText (.ofChars cs)).trimBlank? x with
    | none =>
      have hblank := trimBlank?_none h1 (by rw [size_ofText]; omega) he
      exact hasAt_of_blanks (by omega) hblank hx1 hx2
    | some e =>
      obtain ⟨-, h4, h5, hbefore, hbehind, -⟩ := htrim hx he
      have hout := hnot e (List.mem_filterMap.2 ⟨x, hx, he⟩)
      rcases Nat.lt_or_ge k e.start with hlt | hge
      · exact hasAt_of_blanks (by omega) hbefore hx1 hlt
      · have hstop : e.stop ≤ k := Nat.le_of_not_lt fun hlt => hout ⟨hge, hlt⟩
        exact hasAt_of_blanks (by omega) hbehind hstop hx2

/-- **Nothing is lost and nothing found twice** where a part of a text, between two of its
characters, is divided into entries: the entries can be cut out, and they are all there is but for
blank characters and the commas between them. -/
theorem cutEntries_entered (h : start ≤ stop) (hs : stop ≤ (Text.ofChars cs).length)
    (hstart : (ofText (.ofChars cs)).isBoundary start = true)
    (hstop : (ofText (.ofChars cs)).isBoundary stop = true) :
    (ofText (.ofChars cs)).cutEntries start stop =
      .ok ((ofText (.ofChars cs)).entries start stop) ∧
    Entered cs start stop ((ofText (.ofChars cs)).entries start stop) := by
  have hsegs := segments_segmented (s := ofText (.ofChars cs)) h
  refine ⟨?_, hsegs.entered hs⟩
  have hcheck := hsegs.check_eq (Text.wellFormed_ofChars cs) hs hstart hstop
  rw [cutEntries, size_ofText, if_neg (Nat.not_lt_of_le hs), mapM_eq_ok hcheck, List.map_id']
  rfl

/-- A body with an empty segment, a blank one and one that is a comment, with commas in brackets, in
a comment and in a literal, and with a closing bracket too many before its last comma. -/
def unbalancedBody : List Char :=
  "é\x7b a: [1, 2],,\u00a0, /* , */ ,\u3000b: \",\" ) , c \x7d".toList

/-- Four commas divide the body, and two of its five segments are blank. -/
theorem cutEntries_entered_unbalanced :
    3 ≤ 44 ∧ 44 ≤ (Text.ofChars unbalancedBody).length ∧
    (ofText (.ofChars unbalancedBody)).isBoundary 3 = true ∧
    (ofText (.ofChars unbalancedBody)).isBoundary 44 = true ∧
    (ofText (.ofChars unbalancedBody)).cutEntries 3 44 = .ok [⟨4, 13⟩, ⟨19, 26⟩, ⟨31, 43⟩] ∧
    Entered unbalancedBody 3 44 [⟨4, 13⟩, ⟨19, 26⟩, ⟨31, 43⟩] := by
  have hstart : (ofText (.ofChars unbalancedBody)).isBoundary 3 = true := by decide +kernel
  have hstop : (ofText (.ofChars unbalancedBody)).isBoundary 44 = true := by decide +kernel
  have hes : (ofText (.ofChars unbalancedBody)).entries 3 44 =
      [⟨4, 13⟩, ⟨19, 26⟩, ⟨31, 43⟩] := by decide +kernel
  have hlen : 44 ≤ (Text.ofChars unbalancedBody).length := by decide +kernel
  have hbody := cutEntries_entered (by decide) hlen hstart hstop
  rw [hes] at hbody
  exact ⟨by decide, hlen, hstart, hstop, hbody⟩

end

end Source

end ProviderNest
