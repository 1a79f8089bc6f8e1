import ProviderNest.Proofs.Balance
import ProviderNest.Proofs.Gaps

/-!
# What becomes of a configuration

A pass nests an entry around its configuration, which stands behind the key `default` afterwards
(`Held`). Later passes look into it again. An entry that a later pass finds lies before the
configuration, behind it, around it or inside it (`Held.flat_cases`, `Held.env_cases`), and a gap
between the entries of an object may lie inside as well, where stray brackets end the nesting early.
`Held.kept_iff` says what follows: a pass leaves the configuration as it is exactly if it nests no
entry inside and every gap that it lays out there is laid out so already. One direction is plain.
For the other the braces of the code are counted, of which every nested entry brings new ones, and
then the gaps are compared one by one, each up to the first character that is neither a blank nor a
comma. `Pipeline.body_kept_iff` puts the passes of a run together.
-/

namespace ProviderNest

open LexState Source

/-- One span lies inside another. -/
def Span.Inside (x y : Span) : Prop := y.start ≤ x.start ∧ x.stop ≤ y.stop

/-- A pass nests no entry inside a part of a text. -/
structure Pass.NestsNone (p : Pass) (t : Text) (x : Span) : Prop where
  flats : ∀ f ∈ p.flats t, ¬ f.span.Inside x
  envs : ∀ e, Hit.env e ∈ p.hits (ofText t) → ¬ e.span.Inside x

/-- A pass spares a part of a text: it nests no entry inside, and lays out no gap inside but in the
way it is laid out already. -/
structure Pass.Spares (p : Pass) (t : Text) (x : Span) : Prop extends p.NestsNone t x where
  gaps : ∀ i j text, Change.gap i j text ∈ p.changes t → x.start < i → j < x.stop →
    (ofText t).bytes ⟨i, j⟩ = text

/-- The configuration `body` stands at `x` behind the key `default`. -/
structure Held (t body : Text) (x : Span) : Prop where
  key : ∃ i, i + 9 = x.start ∧ KeyAt t nestedKey i [] [Byte.space]
  cells : (ofText t).slice x.start x.stop = (ofText body).cells.toList
  stop_eq : x.stop = x.start + body.length
  closing : (ofText body).closing? 0 = some (body.length - 1)

/-! ## Braces of a part -/

section
variable {t : Text} {x : Span}

/-- A part with the cells of a text of its own has the code of that text. -/
theorem codeByte?_of_slice {s w : Source} {o k : Nat}
    (hs : s.slice o (o + w.size) = w.cells.toList) (hk : k < w.size) :
    s.codeByte? (o + k) = w.codeByte? k := by
  have := getElem?_slice s (i := o) (j := o + w.size) (k := k) (by omega)
  rw [hs, Array.getElem?_toList] at this
  rw [codeByte?, codeByte?, this]

/-- A part with the cells of a text of its own has the braces of that text. -/
theorem closing?_of_slice {s w : Source} {o i c : Nat}
    (hs : s.slice o (o + w.size) = w.cells.toList) (hc : w.closing? i = some c) :
    s.closing? (o + i) = some (o + c) := by
  obtain ⟨ho, hic, hcl⟩ := closing?_spec hc
  have hlt := lt_size_of_codeByte? hcl
  have hopen : s.codeByte? (o + i) = some Byte.openBrace :=
    (codeByte?_of_slice hs (by omega)).trans ho
  have hend := lt_size_of_codeByte? ((codeByte?_of_slice hs hlt).trans hcl)
  rw [closing?, if_pos ho] at hc
  have hshift : s.closingFrom (w.size - (i + 1)) (o + (i + 1)) 0 = some (o + c) := by
    rw [closingFrom_shift (s := w) fun k _ hk b _ => by rw [codeByte?_of_slice hs (by omega)], hc]
    rfl
  rw [closing?, if_pos hopen]
  exact closingFrom_steps hshift (by omega)

/-- A part between closed braces on its own. -/
theorem cells_of_bytes {body : Text} {i j : Nat} (hij : i ≤ j) (hj : j ≤ t.length)
    (hb : (ofText t).bytes ⟨i, j⟩ = body) (hi : (ofText t).codeByte? i = some Byte.openBrace)
    (hs : Solid body) : (ofText t).slice i j = (ofText body).cells.toList := by
  obtain ⟨h, -⟩ := read_slice t hij hj
  rw [stateAt_of_codeByte? hi (by decide), ← map_byte_slice] at h
  have hbody : ((ofText t).slice i j).map Cell.byte = body := (bytes_eq _ ⟨i, j⟩).symm.trans hb
  rw [hbody] at h
  rw [← h, toList_ofText]
  exact (after_cells_alike (.inr (.inr hs)) code).2

/-- Closed braces are a text of their own. -/
theorem closing?_bytes {o c : Nat} (h : (ofText t).closing? o = some c) :
    (ofText t).slice o (c + 1) = (ofText ((ofText t).bytes ⟨o, c + 1⟩)).cells.toList ∧
    (ofText ((ofText t).bytes ⟨o, c + 1⟩)).closing? 0 = some (c - o) := by
  obtain ⟨ho, hoc, hc⟩ := closing?_spec h
  have hlt := lt_size_of_codeByte? hc
  rw [size_ofText] at hlt
  have hsolid : Solid ((ofText t).bytes ⟨o, c + 1⟩) :=
    solid_bytes (by omega) (solid_of_codeByte? (i := c + 1) hc (by omega) (by decide)).1
  have hcells := cells_of_bytes (by omega) (by omega) rfl ho hsolid
  have hlen : ((ofText t).bytes ⟨o, c + 1⟩).length = c + 1 - o :=
    length_bytes (x := ⟨o, c + 1⟩) (by dsimp only; omega) (by rw [size_ofText]; exact hlt)
  generalize (ofText t).bytes ⟨o, c + 1⟩ = body at hcells hlen
  refine ⟨hcells, ?_⟩
  have hcode : ∀ k, k < body.length → (ofText t).codeByte? (o + k) = (ofText body).codeByte? k := by
    intro k hk
    refine codeByte?_of_slice ?_ (by rwa [size_ofText])
    rw [size_ofText, show o + body.length = c + 1 by omega, hcells]
  have hopen : (ofText body).codeByte? 0 = some Byte.openBrace := by
    rw [← hcode 0 (by omega)]
    exact ho
  rw [closing?, if_pos ho] at h
  have hshift : (ofText t).closingFrom (body.length - 1) (o + 1) 0 =
      ((ofText body).closingFrom (body.length - 1) 1 0).map (o + ·) :=
    closingFrom_shift fun k _ hk b _ => by rw [hcode k (by omega)]
  have hsteps := closingFrom_steps h (m := body.length - 1) (by omega)
  rw [hshift] at hsteps
  obtain ⟨d, hd, hdc⟩ := Option.map_eq_some_iff.1 hsteps
  rw [closing?, if_pos hopen, size_ofText]
  rw [show 0 + 1 = 1 from rfl, hd]
  congr 1
  omega

/-- The configuration of a flat entry is a text of its own. -/
theorem Source.IsFlat.body_alone {e : FlatEntry} {colon : Nat} (h : (ofText t).IsFlat e colon) :
    (ofText t).slice e.body.start e.body.stop = (ofText ((ofText t).bytes e.body)).cells.toList ∧
    (ofText ((ofText t).bytes e.body)).closing? 0 =
      some (((ofText t).bytes e.body).length - 1) := by
  obtain ⟨-, -, -, h1, h2⟩ := h.order
  obtain ⟨hcells, hclosing⟩ := closing?_bytes h.closing
  rw [Nat.sub_add_cancel h.stop_pos] at hcells hclosing
  refine ⟨hcells, hclosing.trans (congrArg some ?_)⟩
  rw [length_bytes (Nat.le_of_lt (by omega)) h2]
  omega

end

namespace Held

variable {t body : Text} {x : Span}

/-- The brace of the configuration is the one behind the key. -/
theorem opening (h : Held t body x) : ∃ i, KeyAt t nestedKey i [] [Byte.space] ∧ i + 9 = x.start ∧
    i + nestedKey.length + ([] : Text).length + 1 + [Byte.space].length = x.start := by
  obtain ⟨i, hi, hk⟩ := h.key
  refine ⟨i, hk, hi, ?_⟩
  have : nestedKey.length = 7 := by decide
  simp only [List.length_nil, List.length_singleton]
  omega

/-- The key before the configuration. -/
theorem slice_key (h : Held t body x) :
    (ofText t).slice (x.start - 9) x.start = codeCells (.ofString "default: ") := by
  obtain ⟨i, hk, hi, -⟩ := h.opening
  have := congrArg (List.take 9) hk.cells
  rw [slice, List.take_take, Nat.add_sub_cancel_left] at this
  rw [slice, ← hi, Nat.add_sub_cancel, Nat.add_sub_cancel_left]
  exact this

theorem closing_at (h : Held t body x) :
    x.start + 1 < x.stop ∧ x.stop ≤ t.length ∧ (ofText t).closing? x.start = some (x.stop - 1) := by
  have hstop := h.stop_eq
  obtain ⟨-, hlt, -⟩ := closing?_spec h.closing
  have hcells := h.cells
  rw [hstop, ← size_ofText body] at hcells
  have hclose := closing?_of_slice hcells h.closing
  rw [show x.start + (body.length - 1) = x.stop - 1 by omega] at hclose
  obtain ⟨-, -, hc⟩ := closing?_spec hclose
  have := lt_size_of_codeByte? hc
  rw [size_ofText] at this
  exact ⟨by omega, by omega, hclose⟩

/-- A part without a brace comes before the end of the configuration or behind it. -/
theorem end_apart (h : Held t body x) {y : Span} (hy : NoBrace t y) :
    y.stop < x.stop ∨ x.stop ≤ y.start := by
  obtain ⟨h1, -, hc⟩ := h.closing_at
  obtain ⟨-, -, hc⟩ := closing?_spec hc
  rcases Nat.lt_or_ge y.stop x.stop with h2 | h2
  · exact .inl h2
  · refine .inr (Nat.le_of_not_lt fun h3 => ?_)
    exact (hy (x.stop - 1) (by omega) (by omega)).2 hc

/-- A flat entry lies before the configuration and its key, behind it, around it or inside it. -/
theorem flat_cases (h : Held t body x) {f : FlatEntry} {colon : Nat}
    (hf : (ofText t).IsFlat f colon) : f.body.stop + 9 ≤ x.start ∨ x.stop ≤ f.name.start ∨
      f.body.start + 9 ≤ x.start ∧ x.stop < f.body.stop ∨
      x.start < f.name.start ∧ f.body.stop < x.stop := by
  obtain ⟨i, hk, hi, hb⟩ := h.opening
  obtain ⟨h1, h2, hclose⟩ := h.closing_at
  obtain ⟨ho1, ho2, ho3, ho4, -⟩ := hf.order
  obtain ⟨hopen', -, hclose'⟩ := closing?_spec hf.closing
  obtain ⟨-, -, hend⟩ := closing?_spec hclose
  have hapart := hk.apart (by decide) hf.key
  have hbrace := hk.close_apart (by decide) hclose'
  rw [hb] at hapart hbrace
  dsimp only at hapart
  rcases hapart with ha | ha | ⟨ha, -⟩
  · rcases hbrace with hc | hc
    · exact .inl (by omega)
    · have := closing?_lt hf.closing hclose (by omega) hc
      exact .inr (.inr (.inl ⟨by omega, by omega⟩))
  · rcases h.end_apart (noBrace_key hf.key) with hc | hc
    · -- The body opens inside the configuration, so it closes there, too.
      dsimp only at hc
      have hne : f.body.start ≠ x.stop - 1 := by
        intro heq
        rw [heq, hend] at hopen'
        cases hopen'
      have := closing?_lt hclose hf.closing (by omega) (by omega)
      exact .inr (.inr (.inr ⟨ha, by omega⟩))
    · exact .inr (.inl hc)
  · refine absurd ?_ hf.name_ne
    rw [ha, bytes_eq, hk.slice_name, map_byte_codeCells]

/-- An entry read from the environment lies before the configuration and its key, behind it or
inside it. -/
theorem env_cases (h : Held t body x) {e : EnvEntry} {colon value stop : Nat}
    (he : (ofText t).IsEnv e colon value stop) : e.var.stop + 9 ≤ x.start ∨ x.stop ≤ e.name.start ∨
      x.start < e.name.start ∧ e.var.stop < x.stop := by
  obtain ⟨i, hk, hi, hb⟩ := h.opening
  have hapart := hk.env_apart (by decide) he
  rw [hb] at hapart
  rcases hapart with ha | ha
  · exact .inl (by omega)
  · rcases h.end_apart (noBrace_env he) with hc | hc
    · exact .inr (.inr ⟨ha, hc⟩)
    · exact .inr (.inl hc)

/-- A gap lies before the configuration and its key, behind it or inside it. -/
theorem gap_cases (h : Held t body x) {a b : Nat} {lead : Text} (hg : IsGap t a b lead) :
    b + 9 ≤ x.start ∨ x.stop ≤ a ∨ x.start < a ∧ b < x.stop := by
  obtain ⟨i, hk, hi, hb⟩ := h.opening
  have hapart := hk.gap_apart (by decide) hg
  rw [hb] at hapart
  rcases hapart with ha | ha
  · exact .inl (by omega)
  · rcases h.end_apart (noBrace_gap hg) with hc | hc
    · exact .inr (.inr ⟨ha, hc⟩)
    · exact .inr (.inl hc)

/-- A patch lies before the configuration and its key, behind it or inside it. -/
theorem patch_cases (h : Held t body x) {q : Patch} (hq : q.Made t) :
    q.span.stop + 9 ≤ x.start ∨ x.stop ≤ q.span.start ∨
      x.start < q.span.start ∧ q.span.stop < x.stop := by
  cases hq with
  | flatFront hf hi =>
    have ho := hf.order
    dsimp only
    rcases h.flat_cases hf with hc | hc | hc | hc <;> omega
  | flatBack hf hi =>
    have ho := hf.order
    dsimp only
    rcases h.flat_cases hf with hc | hc | hc | hc <;> omega
  | envFront he hi =>
    have ho := he.order
    dsimp only
    rcases h.env_cases he with hc | hc | hc <;> omega
  | envBack he hi =>
    have ho := he.order
    dsimp only
    rcases h.env_cases he with hc | hc | hc <;> omega
  | gap hg hi => exact h.gap_cases hg

theorem clear (h : Held t body x) (ht : t.WellFormed) (p : Pass) :
    ∀ q ∈ p.patches t, q.Clear x := by
  intro q hq
  rcases h.patch_cases (p.made_patches ht q hq) with hc | hc | hc
  · exact .inl (by omega)
  · exact .inr (.inl hc)
  · exact .inr (.inr ⟨by omega, by omega⟩)

theorem bytes_eq (h : Held t body x) : (ofText t).bytes x = body := by
  rw [Source.bytes_eq, h.cells, toList_ofText, map_byte_cells]

theorem solid (h : Held t body x) : Solid body := by
  obtain ⟨h1, h2, hc⟩ := h.closing_at
  obtain ⟨-, -, hc⟩ := closing?_spec hc
  rw [← h.bytes_eq]
  exact solid_bytes (j := x.stop) (by omega) (solid_of_codeByte? hc (by omega) (by decide)).1

/-- The patches inside the configuration come in order, and the brace stays before them. -/
theorem follow_within (h : Held t body x) (ht : t.WellFormed) (p : Pass) :
    Follow Patch.span x.start x.stop (x.within (p.patches t)) ∧
    ∃ ds, t.mended x.stop x.start (x.within (p.patches t)) = ⟨Byte.openBrace, .code⟩ :: ds := by
  obtain ⟨h1, h2, hc⟩ := h.closing_at
  obtain ⟨ho, -⟩ := closing?_spec hc
  obtain ⟨-, -, hwithin, -⟩ := follow_parts (p.cells_output ht).2 (by omega) h2 (h.clear ht p)
  refine ⟨hwithin, ?_⟩
  have hfirst : ∀ j, x.start < j → ∃ ds, (ofText t).slice x.start j =
      ⟨Byte.openBrace, .code⟩ :: ds :=
    fun j hj => ⟨_, slice_eq_cons _ hj (codeByte?_eq_some.1 ho)⟩
  cases hq : x.within (p.patches t) with
  | nil => exact hfirst x.stop (by omega)
  | cons q qs =>
    have hm : q ∈ x.within (p.patches t) := by rw [hq]; exact List.mem_cons_self
    obtain ⟨hm, h3, h4⟩ := Span.mem_within.1 hm
    obtain ⟨ds, hds⟩ := hfirst q.span.start (by
      rcases h.patch_cases (p.made_patches ht q hm) with hc | hc | hc <;> omega)
    refine ⟨ds ++ q.cells t ++ t.mended x.stop q.span.stop qs, ?_⟩
    rw [mended_cons, hds]
    rfl

/-- The key `default` stays before the configuration. -/
theorem key_output (h : Held t body x) (ht : t.WellFormed) (p : Pass) :
    ∃ i, i + 9 = (p.place t x).start ∧ KeyAt (p.output t) nestedKey i [] [Byte.space] := by
  obtain ⟨i, hk, hi, -⟩ := h.opening
  obtain ⟨h1, h2, -⟩ := h.closing_at
  obtain ⟨-, hbefore, -⟩ := follow_parts (p.cells_output ht).2 (by omega) h2 (h.clear ht p)
  have hmade : ∀ q ∈ x.before (p.patches t), q.Made t :=
    fun q hq => p.made_patches ht q (List.mem_filter.1 hq).1
  have hfront : Follow Patch.span 0 i (x.before (p.patches t)) := by
    refine hbefore.to_stop (Nat.zero_le i) fun q hq => ?_
    have := hbefore.bounds q hq
    rcases h.patch_cases (hmade q hq) with hc | hc | hc <;> omega
  have hlead : t.mended x.start 0 (x.before (p.patches t)) =
      t.mended i 0 (x.before (p.patches t)) ++ codeCells (.ofString "default: ") := by
    have hkey := h.slice_key
    rw [show x.start - 9 = i by omega] at hkey
    have := mended_append (t := t) hfront (.nil (show i ≤ x.start by omega))
    rwa [List.append_nil, mended_nil, hkey] at this
  obtain ⟨-, ds, hds⟩ := h.follow_within ht p
  refine ⟨(t.mended i 0 (x.before (p.patches t))).length, ?_, ?_⟩
  · have hlen := congrArg List.length hlead
    rw [← List.length_map Cell.byte, map_byte_mended, List.length_append, List.length_map] at hlen
    exact hlen.symm
  · refine keyAt_of_cells (r := ds ++ t.mended t.length x.stop (x.behind (p.patches t))) ?_
      (by decide) (hk.ends_before (by decide) hmade hfront)
    rw [p.cells_parts ht (by omega) h2 (h.clear ht p), hlead, hds,
      show keyText nestedKey [] [Byte.space] = .ofString "default: " ++ [Byte.openBrace] by decide]
    simp only [codeCells, List.map_append, List.map_cons, List.map_nil, List.append_assoc,
      List.cons_append, List.nil_append]

/-- A configuration that a pass leaves as it is stands behind its key again. -/
theorem output (h : Held t body x) (ht : t.WellFormed) {p : Pass}
    (hkept : (ofText (p.output t)).bytes (p.place t x) = (ofText t).bytes x) :
    Held (p.output t) body (p.place t x) := by
  obtain ⟨h1, h2, -⟩ := h.closing_at
  obtain ⟨hslice, h3, h4⟩ := p.slice_place ht (by omega) h2 (h.clear ht p)
  obtain ⟨-, ds, hds⟩ := h.follow_within ht p
  rw [h.bytes_eq] at hkept
  have hstop : (p.place t x).stop = (p.place t x).start + body.length := by
    rw [← hkept, p.bytes_place ht (by omega) h2 (h.clear ht p)]
    rfl
  have hopen : (ofText (p.output t)).codeByte? (p.place t x).start = some Byte.openBrace := by
    have hlt : (p.place t x).start + 0 < (p.place t x).stop := by
      have := h.stop_eq
      omega
    have hcell := getElem?_slice (ofText (p.output t)) hlt
    rw [hslice, hds] at hcell
    exact codeByte?_eq_some.2 hcell.symm
  exact ⟨h.key_output ht p, cells_of_bytes h3 h4 hkept hopen h.solid, hstop, h.closing⟩

end Held

/-! ## Passes that leave a configuration as it is -/

section
variable {t : Text} {i j : Nat}

/-- A brace that opens in code. -/
abbrev Cell.opener : Cell := ⟨Byte.openBrace, .code⟩

/-- Patches that take out no brace leave all that are there, and add those that they put in. -/
theorem count_mended {qs : List Patch} (hf : Follow Patch.span i j qs)
    (hq : ∀ q ∈ qs, NoBrace t q.span) :
    ((ofText t).slice i j).count .opener ≤ (t.mended j i qs).count .opener ∧
    ∀ q ∈ qs, ((ofText t).slice i j).count .opener + (q.cells t).count .opener ≤
      (t.mended j i qs).count .opener := by
  induction hf with
  | nil => exact ⟨Nat.le_refl _, fun q hq => nomatch hq⟩
  | @cons i j q qs h1 h2 h3 ih =>
    obtain ⟨ih1, ih2⟩ := ih fun r hr => hq r (by simp [hr])
    have hnone : ((ofText t).slice q.span.start q.span.stop).count .opener = 0 := by
      refine List.count_eq_zero.2 fun hm => ?_
      exact ((hq q (by simp)).cells _ hm rfl).1 rfl
    have hslice : ((ofText t).slice i j).count .opener =
        ((ofText t).slice i q.span.start).count .opener +
          ((ofText t).slice q.span.stop j).count .opener := by
      rw [← slice_append (ofText t) h1 (Nat.le_trans h2 h3.le),
        ← slice_append (ofText t) h2 h3.le, List.count_append, List.count_append, hnone,
        Nat.zero_add]
    have hmended : (t.mended j i (q :: qs)).count .opener =
        ((ofText t).slice i q.span.start).count .opener + (q.cells t).count .opener +
          (t.mended j q.span.stop qs).count .opener := by
      rw [mended_cons, List.count_append, List.count_append]
    refine ⟨by omega, fun r hr => ?_⟩
    rcases List.mem_cons.1 hr with rfl | hr
    · omega
    · have := ih2 r hr
      omega

/-- No patch takes out a bracket of the code. -/
theorem Patch.Made.noBracket {q : Patch} (h : q.Made t) : NoBracket t q.span := by
  have hempty : ∀ i, NoBracket t ⟨i, i⟩ := fun i k h1 h2 => absurd h2 (Nat.not_lt_of_le h1)
  cases h with
  | flatFront he hi =>
    obtain ⟨h1, -⟩ := he.order
    exact (noBracket_key he.key).mono (Nat.le_of_lt h1) (Nat.le_refl _)
  | flatBack he hi => exact hempty _
  | envFront he hi =>
    have ho := he.order
    exact (noBracket_env he).mono (Nat.le_refl _) (by simp only [EnvEntry.span]; omega)
  | envBack he hi => exact hempty _
  | gap hg hi => exact noBracket_gap hg

theorem Patch.Made.noBrace {q : Patch} (h : q.Made t) : NoBrace t q.span := h.noBracket.noBrace

theorem openBrace_mem_front (indent : Text) : Byte.openBrace ∈ front indent := by
  simp only [front, List.mem_append]
  exact .inl (.inl (.inl (.inl (by decide))))

/-- Nesting a flat entry puts a brace in. -/
theorem opener_mem_flat {e : FlatEntry} {colon : Nat} {indent : Text}
    (h : (ofText t).IsFlat e colon) (hi : indent.IsIndent) :
    Cell.opener ∈ (e.change indent).headCells t := by
  rw [headCells_flat h hi]
  exact List.mem_map_of_mem (openBrace_mem_front indent)

/-- Nesting an entry read from the environment puts a brace in. -/
theorem opener_mem_env {e : EnvEntry} {colon value stop : Nat} {indent : Text}
    (h : (ofText t).IsEnv e colon value stop) (hi : indent.IsIndent) :
    Cell.opener ∈ (e.change (ofText t) indent).headCells t := by
  rw [headCells_env h hi]
  refine List.mem_map_of_mem (List.mem_append_left _ ?_)
  simp only [List.mem_append]
  exact .inl (.inl (.inl (.inr (openBrace_mem_front indent))))

end

namespace Held

variable {t body : Text} {x : Span} {p : Pass}

/-- Where a pass nests no entry inside the configuration, it does nothing there but lay out
gaps. -/
theorem gap_of_within (h : Held t body x) (ht : t.WellFormed) (hn : p.NestsNone t x)
    {c : Change} (hc : c ∈ p.changes t) {q : Patch} (hq : q ∈ c.patches)
    (h1 : x.start < q.span.stop) (h2 : q.span.start < x.stop) :
    q.IsGap t ∧ x.start < q.span.start ∧ q.span.stop < x.stop ∧
      c = .gap q.span.start q.span.stop q.text := by
  rcases p.mem_changes ht c hc with ⟨f, hm, colon, indent, hf, hi, rfl⟩ |
    ⟨e, hm, colon, value, stop, indent, he, hi, rfl⟩ | ⟨i, j, lead, indent, hg, hi, rfl⟩
  · refine absurd ?_ (hn.flats f hm)
    have ho := hf.order
    rw [patches_flat] at hq
    simp only [Span.Inside, FlatEntry.span]
    rcases List.mem_cons.1 hq with rfl | hq
    · dsimp only at h1 h2
      rcases h.flat_cases hf with hc | hc | hc | hc <;> omega
    · obtain rfl := List.mem_singleton.1 hq
      dsimp only at h1 h2
      rcases h.flat_cases hf with hc | hc | hc | hc <;> omega
  · refine absurd ?_ (hn.envs e hm)
    have ho := he.order
    rw [patches_env] at hq
    simp only [Span.Inside, EnvEntry.span]
    rcases List.mem_cons.1 hq with rfl | hq
    · dsimp only at h1 h2
      rcases h.env_cases he with hc | hc | hc <;> omega
    · obtain rfl := List.mem_singleton.1 hq
      dsimp only at h1 h2
      rcases h.env_cases he with hc | hc | hc <;> omega
  · rw [patches_gap] at hq
    obtain rfl := List.mem_singleton.1 hq
    dsimp only at h1 h2 ⊢
    have hin : x.start < i ∧ j < x.stop := by
      rcases h.gap_cases hg with hc | hc | hc <;> omega
    exact ⟨⟨lead, indent, hg, hi, rfl⟩, hin.1, hin.2, rfl⟩

/-- Where a pass nests no entry inside the configuration, its patches there lay out gaps, and none
of them reaches the next one. -/
theorem reach_within (h : Held t body x) (ht : t.WellFormed) (hn : p.NestsNone t x) :
    (∀ q ∈ x.within (p.patches t), q.IsGap t) ∧
    Follow Patch.reach x.start x.stop (x.within (p.patches t)) := by
  obtain ⟨h1, -⟩ := h.closing_at
  have hgap : ∀ q ∈ x.within (p.patches t),
      q.IsGap t ∧ x.start < q.span.start ∧ q.span.stop < x.stop := by
    intro q hq
    obtain ⟨hm, h2, h3⟩ := Span.mem_within.1 hq
    obtain ⟨c, hc, hqc⟩ := List.mem_flatMap.1 hm
    obtain ⟨hg, h4, h5, -⟩ := h.gap_of_within ht hn hc hqc h2 h3
    exact ⟨hg, h4, h5⟩
  have hreach : Follow Patch.reach 0 t.length (x.within (p.patches t)) := by
    rw [Span.within, List.filter_filter]
    refine follow_reach_filter (p.follow_reach ht) fun c hc q hq hf => ?_
    simp only [Bool.and_eq_true, Bool.not_eq_true', decide_eq_true_eq, decide_eq_false_iff_not,
      Nat.not_le] at hf
    obtain ⟨-, -, -, heq⟩ := h.gap_of_within ht hn hc hq hf.2 hf.1
    exact ⟨_, _, _, heq⟩
  refine ⟨fun q hq => (hgap q hq).1, ?_⟩
  refine (hreach.to_stop (Nat.zero_le _) fun q hq => ?_).of_start (by omega) fun q hq => ?_
  · exact (hgap q hq).2.2
  · exact Nat.le_of_lt (hgap q hq).2.1

/-- A pass that spares a configuration leaves it as it is. -/
theorem kept_of_spares (h : Held t body x) (ht : t.WellFormed) (hs : p.Spares t x) :
    (ofText (p.output t)).bytes (p.place t x) = (ofText t).bytes x := by
  obtain ⟨h1, h2, -⟩ := h.closing_at
  rw [p.bytes_place ht (by omega) h2 (h.clear ht p)]
  refine patched_idle (h.follow_within ht p).1 fun q hq => ?_
  obtain ⟨hm, h3, h4⟩ := Span.mem_within.1 hq
  obtain ⟨c, hc, hqc⟩ := List.mem_flatMap.1 hm
  obtain ⟨-, h5, h6, rfl⟩ := h.gap_of_within ht hs.toNestsNone hc hqc h3 h4
  exact hs.gaps _ _ _ hc h5 h6

/-- A pass that leaves a configuration as it is puts no brace into it. -/
theorem opener_not_mem (h : Held t body x) (ht : t.WellFormed)
    (hkept : (ofText (p.output t)).bytes (p.place t x) = (ofText t).bytes x) :
    ∀ q ∈ x.within (p.patches t), Cell.opener ∉ q.cells t := by
  obtain ⟨h1, h2, -⟩ := h.closing_at
  have hcells := (h.output ht hkept).cells
  rw [(p.slice_place ht (by omega) h2 (h.clear ht p)).1, ← h.cells] at hcells
  intro q hq hm
  have hcount := (count_mended (h.follow_within ht p).1 fun r hr =>
    (p.made_patches ht r (Span.mem_within.1 hr).1).noBrace).2 q hq
  have := List.count_pos_iff.2 hm
  rw [hcells] at hcount
  omega

/-- A pass that leaves a configuration as it is nests no entry inside it. -/
theorem nestsNone_of_kept (h : Held t body x) (ht : t.WellFormed)
    (hkept : (ofText (p.output t)).bytes (p.place t x) = (ofText t).bytes x) :
    p.NestsNone t x := by
  have hnone := h.opener_not_mem ht hkept
  constructor
  · intro f hf hin
    obtain ⟨indent, colon, hi, hc, hflat⟩ := Pass.change_of_mem_flats ht hf
    have ho := hflat.order
    simp only [Span.Inside, FlatEntry.span] at hin
    refine hnone ⟨⟨f.name.stop, f.body.start⟩, front indent⟩
      (Span.mem_within.2 ⟨List.mem_flatMap.2 ⟨_, hc, List.mem_cons_self⟩, ?_, ?_⟩)
      (opener_mem_flat hflat hi)
    · dsimp only
      omega
    · dsimp only
      omega
  · intro e he hin
    obtain ⟨colon, value, stop, henv⟩ := (finds_hits p (ofText t)).2.2 _ he
    have ho := henv.order
    simp only [Span.Inside, EnvEntry.span] at hin
    refine hnone ⟨⟨e.name.start, e.var.start⟩,
      (e.change (ofText t) ((ofText t).indentOf e.name.start)).head⟩
      (Span.mem_within.2 ⟨?_, ?_, ?_⟩) (opener_mem_env henv (isIndent_indentOf _ _))
    · refine List.mem_flatMap.2 ⟨_, List.mem_flatMap.2 ⟨_, he, List.mem_singleton.2 rfl⟩, ?_⟩
      rw [patches_env]
      exact List.mem_cons_self
    · dsimp only
      omega
    · dsimp only
      omega

/-- **Which passes leave a configuration as it is**: those that nest no entry inside it, and lay out
gaps inside it only in the way they are laid out already. -/
theorem kept_iff (h : Held t body x) (ht : t.WellFormed) :
    (ofText (p.output t)).bytes (p.place t x) = (ofText t).bytes x ↔ p.Spares t x := by
  refine ⟨fun hkept => ?_, h.kept_of_spares ht⟩
  obtain ⟨h1, h2, -⟩ := h.closing_at
  have hn := h.nestsNone_of_kept ht hkept
  obtain ⟨hgap, hreach⟩ := h.reach_within ht hn
  rw [p.bytes_place ht (by omega) h2 (h.clear ht p)] at hkept
  refine ⟨hn, fun i j text hc hi hj => ?_⟩
  have hm : ⟨⟨i, j⟩, text⟩ ∈ p.patches t := by
    refine List.mem_flatMap.2 ⟨_, hc, ?_⟩
    rw [patches_gap]
    exact List.mem_cons_self
  have hle : i ≤ j := ((p.cells_output ht).2.bounds _ hm).2.1
  refine idle_of_patched hreach h2 hgap hkept ⟨⟨i, j⟩, text⟩ (Span.mem_within.2 ⟨hm, ?_, ?_⟩)
  · exact Nat.lt_of_lt_of_le hi hle
  · exact Nat.lt_of_le_of_lt hle hj

end Held

/-! ## Configurations in a run -/

/-- Where passes one after the other leave a part of a text. -/
def placeAfter : List Pass → Text → Span → Span
  | [], _, x => x
  | p :: ps, t, x => placeAfter ps (p.output t) (p.place t x)

/-- Of passes one after the other none changes a byte of a part. -/
def Untouched : List Pass → Text → Span → Prop
  | [], _, _ => True
  | p :: ps, t, x => (ofText (p.output t)).bytes (p.place t x) = (ofText t).bytes x ∧
      Untouched ps (p.output t) (p.place t x)

/-- Passes one after the other spare a part. -/
def Spared : List Pass → Text → Span → Prop
  | [], _, _ => True
  | p :: ps, t, x => p.Spares t x ∧ Spared ps (p.output t) (p.place t x)

/-- No run fails. -/
theorem runPasses_ok {t : Text} (ht : t.WellFormed) (ps : List Pass) :
    ∃ m, runPasses ps t = .ok m := by
  induction ps generalizing t with
  | nil => exact ⟨_, rfl⟩
  | cons p ps ih =>
    obtain ⟨m, hm⟩ := ih (p.wellFormed_output ht)
    exact ⟨_, runPasses_cons ht hm⟩

/-- The first pass of a run, and the run of the others on its output. -/
theorem runPasses_cons_inv {t : Text} (ht : t.WellFormed) {p : Pass} {ps : List Pass}
    {m : Migration} (hm : runPasses (p :: ps) t = .ok m) :
    ∃ m', runPasses ps (p.output t) = .ok m' ∧
      m = ⟨m'.text, ⟨p, p.edits t⟩ :: m'.stages⟩ := by
  obtain ⟨m', hm'⟩ := runPasses_ok (p.wellFormed_output ht) ps
  exact ⟨m', hm', Except.ok.inj (hm.symm.trans (runPasses_cons ht hm'))⟩

namespace Held

variable {t body : Text} {x : Span}

/-- The configuration with its key. -/
theorem bytes_key (h : Held t body x) :
    (ofText t).bytes ⟨x.start - 9, x.stop⟩ = .ofString "default: " ++ body := by
  obtain ⟨h1, -⟩ := h.closing_at
  rw [Source.bytes_eq, ← slice_append _ (Nat.sub_le x.start 9) (show x.start ≤ x.stop by omega),
    List.map_append, h.slice_key, h.cells, toList_ofText, map_byte_cells]
  rfl

/-- Passes one after the other leave a configuration as it is if and only if they spare it, and then
it still stands behind its key. -/
theorem runPasses (h : Held t body x) (ht : t.WellFormed) {ps : List Pass} {m : Migration}
    (hm : runPasses ps t = .ok m) : (Untouched ps t x ↔ Spared ps t x) ∧
      (Untouched ps t x → Held m.text body (placeAfter ps t x)) := by
  induction ps generalizing t x m with
  | nil =>
    cases hm
    exact ⟨Iff.rfl, fun _ => h⟩
  | cons p ps ih =>
    have ht' := p.wellFormed_output ht
    obtain ⟨m', hm', rfl⟩ := runPasses_cons_inv ht hm
    have hstep := h.kept_iff (p := p) ht
    rw [Untouched, Spared, hstep]
    refine ⟨and_congr_right fun hs => ?_, fun hu => ?_⟩
    · exact (ih (h.output ht (hstep.2 hs)) ht' hm').1
    · exact (ih (h.output ht (hstep.2 hu.1)) ht' hm').2 hu.2

end Held

/-- The configuration of an entry that a pass nests stands behind the key `default`. -/
theorem Pass.held_body {p : Pass} {t : Text} {f : FlatEntry} (ht : t.WellFormed)
    (hf : f ∈ p.flats t) : Held (p.output t) ((ofText t).bytes f.body) (p.place t f.body) := by
  obtain ⟨i, hi, hkey, hslice⟩ := Pass.keyAt_body ht hf
  obtain ⟨indent, colon, -, hc, hflat⟩ := Pass.change_of_mem_flats ht hf
  obtain ⟨as, bs, hp, ha, hb⟩ := Pass.patches_around ht hc (back_ne_nil indent)
  obtain ⟨h1, h2, h3, h4, h5⟩ := hflat.order
  obtain ⟨hcases, -⟩ := Pass.parts_around (show f.name.stop ≤ f.body.start by omega)
    (show f.body.start < f.body.stop by omega) hp ha hb
  have hclear := Pass.clear_around hcases
  obtain ⟨hcells, hclosing⟩ := hflat.body_alone
  have hlen : ((ofText t).bytes f.body).length = f.body.stop - f.body.start :=
    length_bytes (by omega) h5
  rw [size_ofText] at h5
  obtain ⟨-, hle, hend⟩ := p.slice_place ht (x := f.body) (by omega) h5 hclear
  refine ⟨⟨i, hi, hkey⟩, hslice.trans hcells, ?_, ?_⟩
  · have := congrArg List.length hslice
    rw [length_slice _ hle (by rw [size_ofText]; exact hend),
      length_slice _ (by omega) (by rw [size_ofText]; exact h5)] at this
    omega
  · exact hclosing

/-- **When the configurations of a block come through a run as they are.** Let the first pass of one
of the two pipelines nest an entry of a `providers` block. Then no pass of the run changes a byte of
its configuration, and the configuration stands behind `default: ` in the end, if and only if each
of the later passes nests no entry inside it, and lays out no gap there but in the way it is laid
out already. -/
theorem Pipeline.body_kept_iff (p : Pipeline) (hp : p = .batch ∨ p = .singleFile) (cs : List Char)
    (f : FlatEntry) (hf : f ∈ Pass.providersBlock.flats (.ofChars cs)) :
    ∃ m, p.run (.ofChars cs) = .ok m ∧
      (Untouched p.passes (.ofChars cs) f.body ∧
        (ofText m.text).bytes ⟨(placeAfter p.passes (.ofChars cs) f.body).start - 9,
          (placeAfter p.passes (.ofChars cs) f.body).stop⟩ =
            .ofString "default: " ++ (ofText (.ofChars cs)).bytes f.body ↔
        Spared p.passes.tail (Pass.providersBlock.output (.ofChars cs))
          (Pass.providersBlock.place (.ofChars cs) f.body)) := by
  have ht := Text.wellFormed_ofChars cs
  have hheld := Pass.held_body ht hf
  have hcons : p.passes = .providersBlock :: p.passes.tail := by
    rcases hp with rfl | rfl <;> rfl
  have ht' := Pass.providersBlock.wellFormed_output ht
  obtain ⟨m, hm⟩ := runPasses_ok ht' p.passes.tail
  obtain ⟨hiff, hlast⟩ := hheld.runPasses ht' hm
  have hrun := runPasses_cons ht hm
  rw [← hcons] at hrun
  refine ⟨_, hrun, ?_⟩
  rw [hcons, Untouched, placeAfter, List.tail_cons, hheld.bytes_eq, ← hiff]
  exact ⟨fun hu => hu.1.2, fun hu => ⟨⟨rfl, hu⟩, (hlast hu).bytes_key⟩⟩

/-- A configuration with a field that is read from the environment in an object of its own. -/
def environmentField : List Char :=
  "providers: \x7b a: \x7b apiKey: k, h: \x7b t: process.env.X \x7d \x7d \x7d".toList

/-- The second pass nests the field inside the configuration that the first pass nested. So the
configuration does not come through the run as it is: its bytes change, and the final text has it
nowhere behind `default: `. -/
theorem Pipeline.body_not_kept :
    (ofText (.ofChars environmentField)).bytes ⟨16, 54⟩ =
      .ofString "\x7b apiKey: k, h: \x7b t: process.env.X \x7d \x7d" ∧
    ∃ m, Pipeline.batch.run (.ofChars environmentField) = .ok m ∧
      ¬ Untouched Pipeline.batch.passes (.ofChars environmentField) ⟨16, 54⟩ ∧
      ¬ .ofString "default: " ++ (ofText (.ofChars environmentField)).bytes ⟨16, 54⟩ <:+: m.text ∧
      ¬ Spared [.envAssignment, .returnLiteral, .constLiteral]
        (Pass.providersBlock.output (.ofChars environmentField))
        (Pass.providersBlock.place (.ofChars environmentField) ⟨16, 54⟩) := by
  obtain ⟨m, hm, hiff⟩ := Pipeline.body_kept_iff .batch (.inl rfl) environmentField
    ⟨⟨13, 14⟩, ⟨16, 54⟩⟩ (by decide +kernel)
  have htouched : ¬ Untouched Pipeline.batch.passes (.ofChars environmentField) ⟨16, 54⟩ := by
    rintro ⟨-, hsecond, -⟩
    exact absurd hsecond (by decide +kernel)
  have htext : (Pipeline.batch.run (.ofChars environmentField)).toOption.any (fun m =>
      .ofString "default: " ++ (ofText (.ofChars environmentField)).bytes ⟨16, 54⟩ <:+: m.text) =
        false := by
    decide +kernel
  rw [hm] at htext
  exact ⟨by decide +kernel, m, hm, htouched, of_decide_eq_false htext,
    fun hs => htouched (hiff.2 hs).1⟩

end ProviderNest
