import ProviderNest.Proofs.Outermost
import ProviderNest.Proofs.Woven

/-!
# Flat entries layer by layer

A run of the pass over flat entries nests the outermost ones, so what a second run finds lies one
layer further inside. Each flat entry inside the body of an outermost one is moved with that body
(`Pass.moved`), and it stays a flat entry, since the body is kept byte for byte. No other entry of
the result is flat (`Pass.inside_of_output`): outside of the bodies a flat entry would have been one
before, the nested shape itself has the key `default` in front, and that key is the name of no flat
entry.

Moving keeps the entries apart or inside each other as they were, so each of them lies one layer
further outside (`Pass.layer_moved`), and the runs count layer by layer (`Pass.count_iterate`).
`Pass.simpleInline_second_run` says so of the second one.
-/

namespace ProviderNest

open LexState Source

/-! ## Flat entries by their cells -/

namespace Source

/-- The cells of a flat entry, and those behind it. -/
theorem IsFlat.slice_eq {t : Text} {e : FlatEntry} {colon j : Nat} (h : (ofText t).IsFlat e colon)
    (hj : e.body.stop ≤ j) :
    (ofText t).slice e.body.start j = ⟨Byte.openBrace, .code⟩ ::
      ((ofText t).slice (e.body.start + 1) (e.body.stop - 1) ++
        ⟨Byte.closeBrace, .code⟩ :: (ofText t).slice e.body.stop j) := by
  rw [← slice_append _ h.encloses.le hj, h.encloses.slice_eq]
  simp

section
variable {s s' : Source} {i j o : Nat}

/-- Parts of two texts with the same cells have the same cells inside. -/
theorem slice_inside {o' a b n : Nat} (h : s.slice o (o + n) = s'.slice o' (o' + n)) (hb : b ≤ n) :
    s.slice (o + a) (o + b) = s'.slice (o' + a) (o' + b) := by
  have hpart (s : Source) (o : Nat) :
      s.slice (o + a) (o + b) = ((s.slice o (o + n)).drop a).take (b - a) := by
    rw [slice, slice, List.drop_take, List.take_take, List.drop_drop]
    congr 1
    omega
  rw [hpart, hpart, h]

/-- **A flat entry of a part** is a flat entry wherever the part stands. -/
theorem IsFlat.of_slice {t t' : Text} {e : FlatEntry} {o' n colon : Nat}
    (h : (ofText t).IsFlat (e.shift o) colon)
    (hs : (ofText t).slice o (o + n) = (ofText t').slice o' (o' + n)) (hn : o' + n ≤ t'.length)
    (hstart : 0 < e.name.start) (hstop : e.body.stop ≤ n) :
    ∃ colon', (ofText t').IsFlat (e.shift o') colon' := by
  obtain ⟨h1, h2, h3, h4, h5⟩ := h.order
  have hword := h.key.word
  simp only [FlatEntry.shift, Span.shift] at h1 h2 h3 h4 h5 hword
  have hcells := slice_inside (a := e.name.start) hs hstop
  have hlength := congrArg List.length (slice_inside (a := e.name.start) hs hstop)
  -- The byte before the name stands in the part, too.
  have hedge : (ofText t').inWord (o' + e.name.start - 1) = false := by
    have hbefore := hword.before.resolve_left (by dsimp only; omega)
    dsimp only at hbefore
    obtain ⟨c, hc⟩ := exists_cell (s := ofText t) (i := o + (e.name.start - 1)) (by omega)
    have hc' := hc
    rw [← getElem?_slice _ (show o + (e.name.start - 1) < o + n by omega), hs,
      getElem?_slice _ (by omega)] at hc'
    rw [show o + e.name.start - 1 = o + (e.name.start - 1) by omega, inWord_eq hc] at hbefore
    rw [show o' + e.name.start - 1 = o' + (e.name.start - 1) by omega, inWord_eq hc', hbefore]
  have hslice := h.slice_eq (Nat.le_refl _)
  simp only [FlatEntry.shift, Span.shift] at hslice
  rw [slice_self] at hslice
  have hbefore := slice_append (ofText t) (show o + e.name.start ≤ o + e.body.start by omega)
    (show o + e.body.start ≤ o + e.body.stop by omega)
  rw [hslice, hcells] at hbefore
  obtain ⟨colon', hflat, -⟩ := isFlat_of_slice (Nat.add_le_add_left (by omega) o')
    (by rw [size_ofText]; omega) (.inr hedge) h.shape hbefore.symm
  have hname := length_bytes (Nat.le_of_lt hword.lt) hword.stop_le
  have hkey := length_slice (ofText t) (i := o + e.name.start) (j := o + e.body.start)
    (by omega) (by omega)
  have hbody := length_slice (ofText t) (i := o + e.body.start + 1) (j := o + e.body.stop - 1)
    (by omega) (by omega)
  simp only [FlatEntry.shift, Span.shift, hname, hkey, hbody] at hflat
  refine ⟨colon', ?_⟩
  obtain ⟨⟨a, b⟩, ⟨c, d⟩⟩ := e
  dsimp only at *
  have h6 : o' + a + (o + b - (o + a)) = o' + b := by omega
  have h7 : o' + a + (o + c - (o + a)) = o' + c := by omega
  have h8 : o' + c + (o + d - 1 - (o + c + 1)) + 2 = o' + d := by omega
  rwa [h6, h7, h8] at hflat

end

end Source

/-! ## No other entry of the result is flat -/

section
variable {t : Text} {i j : Nat} {es : List FlatEntry}

theorem allTurned_flats (hes : ∀ e ∈ es, ∃ colon, (ofText t).IsFlat e colon) :
    t.AllTurned (es.map .flat) := by
  intro h hm
  obtain ⟨e, he, rfl⟩ := List.mem_map.1 hm
  obtain ⟨colon, he⟩ := hes e he
  exact turned_flat he

/-- What a pass leaves begins with the cell with which the text does, unless that begins a word. -/
theorem head?_wovenCells {hs : List Hit} (ht : t.WellFormed) (hf : Finds (ofText t) i hs j)
    (hs' : t.AllTurned hs) {c : Cell} (hc : ((ofText t).slice i j).head? = some c)
    (hw : c.inWord = false) : (t.wovenCells j i hs).head? = some c := by
  cases hs with
  | nil => exact hc
  | cons x hs =>
    obtain ⟨hle, hone, hrest⟩ := hf.uncons
    obtain ⟨hx, -⟩ := hs'.of_cons
    have hstart := Nat.le_of_lt (Nat.lt_of_lt_of_le hx.lt hrest.le)
    rcases Nat.eq_or_lt_of_le hle with rfl | hlt
    · obtain ⟨w, hw', hword⟩ := hx.begins
      have hin := hword.inWord_start
      rw [List.head?_eq_getElem?, getElem?_slice _ (Nat.lt_of_lt_of_le hx.lt hrest.le)] at hc
      rw [hw', inWord_eq (c := c) (by simpa using hc), hw] at hin
      cases hin
    · have hne : (ofText t).slice i x.span.start ≠ [] := by
        rw [← List.length_pos_iff, length_slice _ hle (Nat.le_trans hstart hf.2.1)]
        omega
      rw [wovenCells_hit ht hf, List.head?_append_of_ne_nil _ hne]
      rwa [← slice_append _ hle hstart, List.head?_append_of_ne_nil _ hne] at hc

/-- A configuration begins with the field `apiKey` only if it did before. -/
theorem opens_of_woven (ht : t.WellFormed) (hf : Finds (ofText t) i (es.map .flat) j)
    (hes : ∀ e ∈ es, ∃ colon, (ofText t).IsFlat e colon)
    (h : Opens (t.wovenCells j i (es.map .flat))) : Opens ((ofText t).slice i j) := by
  have hs' := allTurned_flats hes
  obtain ⟨u, m, r, hu, ⟨v, hv, rfl⟩, hds, hr⟩ := h
  have hfree : Wordfree u := fun c hc => not_inWord_of_isTrivia (hu c hc)
  have hsize := hf.2.1
  obtain ⟨hslice, hf, hds⟩ := wovenCells_gap ht hf hs' hfree hds
  generalize hn : i + u.length = n at *
  have hu' : (ofText t).slice i j = u ++ (ofText t).slice n j := by
    rw [← slice_append _ (by omega) hf.le, hslice]
  have hcolon : Wordfree (v ++ codeCells [Byte.colon]) := by
    intro c hc
    rcases List.mem_append.1 hc with hc | hc
    · exact not_inWord_of_isTrivia (hv c hc)
    · rw [List.mem_singleton.1 hc]
      rfl
  rw [List.append_assoc, List.append_assoc, ← List.append_assoc v] at hds
  rcases wovenCells_word ht hf hs' (by decide) (hcolon.head? (by simp)) hds.symm with
    ⟨hword, hf, hds⟩ | ⟨x, gs, heq, hstart, hname, -⟩
  · -- The field is kept, and so is what decides that its colon is not doubled.
    obtain ⟨hgap, hf, rfl⟩ := wovenCells_gap ht hf hs' hcolon hds.symm
    have hle : n + apiKeyField.length ≤ j := Nat.le_trans (Nat.le_add_right _ _) hf.le
    rw [hu', ← slice_append _ (Nat.le_add_right n apiKeyField.length) hle, hword,
      ← slice_append _ (Nat.le_add_right _ _) hf.le, hgap]
    refine ⟨u, codeCells apiKeyField ++ v ++ codeCells [Byte.colon], _, hu, ⟨v, hv, rfl⟩, by simp,
      fun hdouble => hr (head?_wovenCells ht hf hs' hdouble rfl)⟩
  · -- The field is the name of an entry that is nested, and the colon of that entry is not doubled.
    obtain ⟨e, es', rfl, rfl, -⟩ := List.map_eq_cons_iff.1 heq
    obtain ⟨colon, he⟩ := hes e List.mem_cons_self
    have ho := he.order
    have hstop : e.body.stop ≤ j := hf.uncons.2.2.le
    obtain ⟨v', u', hv', hu'', hkey⟩ := he.key.keyCells
    obtain rfl : e.name.start = n := hstart
    have hbrace := (closing?_spec he.closing).1
    rw [hu', ← slice_append _ (show e.name.start ≤ e.body.start by omega) (by omega), hkey,
      show (ofText t).bytes e.name = apiKeyField from hname]
    refine ⟨u, codeCells apiKeyField ++ v' ++ codeCells [Byte.colon],
      u' ++ (ofText t).slice e.body.start j, hu, ⟨v', hv', rfl⟩, by simp, ?_⟩
    rw [slice_eq_cons _ (by omega) (codeByte?_eq_some.1 hbrace)]
    intro hdouble
    cases u' with
    | nil => exact absurd (Option.some.inj hdouble) (by decide)
    | cons c u' =>
      cases hdouble
      exact absurd (hu'' _ List.mem_cons_self) (by decide)

/-- **A flat entry among kept cells** was a flat entry before. -/
theorem exists_flat_of_woven {n : Nat} {w : Text} {k ds r : List Cell} (ht : t.WellFormed)
    (hes : ∀ e ∈ es, ∃ colon, (ofText t).IsFlat e colon)
    (hf : Finds (ofText t) (n + k.length) (es.map .flat) t.length)
    (hk : (ofText t).slice n (n + k.length) = k) (hb : n = 0 ∨ (ofText t).inWord (n - 1) = false)
    (hshape : FlatShape [] [] w k ds [])
    (h : t.wovenCells t.length (n + k.length) (es.map .flat) =
      ⟨Byte.openBrace, .code⟩ :: (ds ++ ⟨Byte.closeBrace, .code⟩ :: r)) :
    ∃ e ∈ (ofText t).flatEntries, e.name.start = n := by
  have hs' := allTurned_flats hes
  have hbrace : Wordfree [(⟨Byte.openBrace, .code⟩ : Cell)] := by decide
  obtain ⟨hopen, hf, hds⟩ := wovenCells_gap ht hf hs' hbrace (by rw [h]; rfl)
  rw [List.length_singleton] at hopen hf hds
  obtain ⟨m, gs, gs', heq, hgs, hgs', hclose, rfl, -⟩ :=
    closing_of_woven ht hf hs' hds.symm hshape.closed
  generalize ho : n + k.length = o at *
  obtain ⟨as, bs, rfl, rfl, rfl⟩ := List.map_eq_append_iff.1 heq
  have has : ∀ e ∈ as, ∃ colon, (ofText t).IsFlat e colon :=
    fun e he => hes e (List.mem_append_left _ he)
  have hopens := opens_of_woven ht hgs has hshape.opens
  have hclosed := hshape.closed
  rw [closers_wovenCells ht hgs] at hclosed
  have hm := lt_size_of_codeByte? hclose
  have hle := hgs.le
  have hslice : (ofText t).slice n (m + 1) = k ++ ⟨Byte.openBrace, .code⟩ ::
      ((ofText t).slice (o + 1) m ++ ⟨Byte.closeBrace, .code⟩ :: []) := by
    rw [← slice_append _ (show n ≤ o by omega) (by omega), hk,
      ← slice_append _ (Nat.le_succ o) (by omega), hopen, ← slice_append _ hle (Nat.le_succ m),
      slice_eq_cons _ (Nat.lt_succ_self m) (codeByte?_eq_some.1 hclose), slice_self]
    rfl
  obtain ⟨colon, hflat, -⟩ := isFlat_of_slice (by omega) hm hb
    { hshape with closed := hclosed, opens := hopens } hslice
  exact ⟨_, mem_flatEntries.2 ⟨colon, hflat⟩, rfl⟩

end

/-! ## Where flat entries are moved -/

/-- One span lies strictly inside another. -/
def Span.StrictlyInside (x y : Span) : Prop := y.start < x.start ∧ x.stop < y.stop

instance (x y : Span) : Decidable (x.StrictlyInside y) := inferInstanceAs (Decidable (_ ∧ _))

/-- Where a pass leaves a flat entry that it does not break up. -/
def Pass.moved (p : Pass) (t : Text) (e : FlatEntry) : FlatEntry :=
  ⟨⟨p.offset t e.name.start, p.offset t e.name.stop⟩,
    ⟨p.offset t e.body.start, p.offset t e.body.stop⟩⟩

namespace Pass

variable {p : Pass} {t : Text} {e f : FlatEntry} {n m : Nat}

/-- No patch of a pass lies within the body of an entry that the pass nests. -/
theorem patches_apart (ht : t.WellFormed) (hf : f ∈ p.flats t) : ∀ q ∈ p.patches t,
    q.span.stop ≤ f.body.start ∨ f.body.stop ≤ q.span.start := by
  obtain ⟨indent, colon, -, hc, hflat⟩ := Pass.change_of_mem_flats ht hf
  have ho := hflat.order
  obtain ⟨as, bs, hp, ha, hb⟩ := Pass.patches_around ht hc (back_ne_nil indent)
  exact (Pass.parts_around (show f.name.stop ≤ f.body.start by omega)
    (show f.body.start < f.body.stop by omega) hp ha hb).1

theorem keeps_body (ht : t.WellFormed) (hf : f ∈ p.flats t) (hn : f.body.start ≤ n)
    (hn' : n < f.body.stop) : p.Keeps t n := by
  obtain ⟨-, colon, -, -, hflat⟩ := Pass.change_of_mem_flats ht hf
  have ho := hflat.order
  rw [size_ofText] at ho
  exact ⟨by omega, fun q hq => by have := patches_apart ht hf q hq; omega⟩

/-- The body of an entry that a pass nests is moved as a whole. -/
theorem offset_body (ht : t.WellFormed) (hf : f ∈ p.flats t) (hn : f.body.start ≤ n)
    (hn' : n < f.body.stop) : p.offset t n = p.offset t f.body.start + (n - f.body.start) := by
  have hsame : ((p.patches t).filter fun q => q.span.stop ≤ n) =
      (p.patches t).filter fun q => q.span.stop ≤ f.body.start := by
    refine List.filter_congr fun q hq => ?_
    have h1 := patches_apart ht hf q hq
    have h2 := ((p.cells_output ht).2.bounds q hq).2.1
    rw [decide_eq_decide]
    omega
  have hbefore : Follow Patch.span 0 f.body.start
      ((p.patches t).filter fun q => q.span.stop ≤ f.body.start) :=
    ((p.cells_output ht).2.sublist List.filter_sublist).to_stop (Nat.zero_le _)
      fun q hq => of_decide_eq_true (List.mem_filter.1 hq).2
  have hparts := mended_append (t := t) hbefore (.nil hn)
  rw [List.append_nil] at hparts
  rw [p.offset_eq, hsame, hparts, List.length_append, ← p.offset_eq, mended_nil,
    length_slice _ hn (by rw [size_ofText]; exact Nat.le_of_lt (keeps_body ht hf hn hn').lt)]

/-- Bytes that come through a pass stay in order. -/
theorem offset_lt_iff (ht : t.WellFormed) (hn : p.Keeps t n) (hm : p.Keeps t m) :
    p.offset t n < p.offset t m ↔ n < m := by
  refine ⟨fun h => ?_, fun h => (offset_lt ht hn h).1⟩
  rcases Nat.lt_trichotomy n m with hlt | rfl | hlt
  · exact hlt
  · exact absurd h (Nat.lt_irrefl _)
  · exact absurd h (Nat.lt_asymm (offset_lt ht hm hlt).1)

/-- The body of an entry that a pass nests comes through the pass. -/
theorem slice_body (ht : t.WellFormed) (hf : f ∈ p.flats t) : ∃ n, f.body.start + n = f.body.stop ∧
    (p.place t f.body).stop = p.offset t f.body.start + n ∧
    p.offset t f.body.start + n ≤ (p.output t).length ∧
    (ofText t).slice f.body.start (f.body.start + n) =
      (ofText (p.output t)).slice (p.offset t f.body.start) (p.offset t f.body.start + n) := by
  obtain ⟨-, -, -, hslice⟩ := keyAt_body ht hf
  obtain ⟨-, colon, -, -, hflat⟩ := change_of_mem_flats ht hf
  obtain ⟨-, -, -, h4, h5⟩ := hflat.order
  have hstop := (held_body ht hf).stop_eq
  obtain ⟨-, hle, -⟩ := (held_body ht hf).closing_at
  rw [length_bytes (by omega) h5, p.place_start] at hstop
  rw [hstop, p.place_start] at hslice
  refine ⟨f.body.stop - f.body.start, by omega, hstop, by omega, ?_⟩
  rw [hslice, Nat.add_sub_cancel' (by omega)]

/-- An entry in the body of one that a pass nests is moved with it. -/
theorem moved_shift (ht : t.WellFormed) (hf : f ∈ p.flats t)
    (he : e.shift f.body.start ∈ (ofText t).flatEntries)
    (hstop : f.body.start + e.body.stop < f.body.stop) :
    p.moved t (e.shift f.body.start) = e.shift (p.offset t f.body.start) := by
  obtain ⟨colon, he⟩ := mem_flatEntries.1 he
  have ho := he.order
  simp only [FlatEntry.shift, Span.shift] at ho
  have hoffset {n : Nat} (hn : f.body.start + n < f.body.stop) :
      p.offset t (f.body.start + n) = p.offset t f.body.start + n := by
    rw [offset_body ht hf (Nat.le_add_right _ _) hn, Nat.add_sub_cancel_left]
  simp only [moved, FlatEntry.shift, Span.shift]
  rw [hoffset (by omega), hoffset (by omega), hoffset (by omega), hoffset hstop]

end Pass

/-- A flat entry behind position `o`, counted from there. -/
theorem Source.IsFlat.exists_shift {t : Text} {e : FlatEntry} {o colon : Nat}
    (he : (ofText t).IsFlat e colon) (ho : o ≤ e.name.start) :
    ∃ e' : FlatEntry, e'.shift o = e := by
  have := he.order
  obtain ⟨⟨a, b⟩, ⟨c, d⟩⟩ := e
  refine ⟨⟨⟨a - o, b - o⟩, ⟨c - o, d - o⟩⟩, ?_⟩
  simp only [FlatEntry.shift, Span.shift, FlatEntry.mk.injEq, Span.mk.injEq]
  dsimp only at *
  omega

namespace Pass

variable {p : Pass} {t : Text} {e f : FlatEntry}

/-- **A flat entry in the body of one that a pass nests stays flat.** -/
theorem moved_mem (ht : t.WellFormed) (hf : f ∈ p.flats t) (he : e ∈ (ofText t).flatEntries)
    (hin : e.span.StrictlyInside f.body) : p.moved t e ∈ (ofText (p.output t)).flatEntries := by
  obtain ⟨n, hn, -, hle, hslice⟩ := slice_body ht hf
  obtain ⟨hstart, hstop⟩ := hin
  obtain ⟨colon, hflat⟩ := mem_flatEntries.1 he
  obtain ⟨e, rfl⟩ := hflat.exists_shift (Nat.le_of_lt hstart)
  simp only [FlatEntry.span, FlatEntry.shift, Span.shift] at hstart hstop
  rw [moved_shift ht hf he hstop, mem_flatEntries]
  exact hflat.of_slice hslice hle (by omega) (by omega)

/-- A flat entry of the result that stands in the body of an entry that the pass nests was flat
before. -/
theorem exists_moved_of_inside (ht : t.WellFormed) (hf : f ∈ p.flats t)
    (he : e ∈ (ofText (p.output t)).flatEntries) (hin : e.span.StrictlyInside (p.place t f.body)) :
    ∃ e' ∈ (ofText t).flatEntries, e'.span.StrictlyInside f.body ∧ p.moved t e' = e := by
  obtain ⟨n, hn, hplace, hle, hslice⟩ := slice_body ht hf
  obtain ⟨hstart, hstop⟩ := hin
  obtain ⟨colon, hflat⟩ := mem_flatEntries.1 he
  rw [p.place_start] at hstart
  obtain ⟨e, rfl⟩ := hflat.exists_shift (Nat.le_of_lt hstart)
  obtain ⟨-, colon', -, -, hf'⟩ := change_of_mem_flats ht hf
  have hsize := hf'.order
  rw [size_ofText] at hsize
  simp only [FlatEntry.span, FlatEntry.shift, Span.shift] at hstart hstop
  have he' := mem_flatEntries.2 (hflat.of_slice hslice.symm (by omega) (by omega) (by omega))
  refine ⟨_, he', ⟨?_, ?_⟩, moved_shift ht hf he' (by omega)⟩ <;>
    simp only [FlatEntry.span, FlatEntry.shift, Span.shift] <;> omega

/-- Where a pass leaves what a change keeps: behind the other changes before it, and behind what the
change puts in. -/
theorem offset_kept {c : Change} {cs cs' : List Change} (ht : t.WellFormed)
    (hp : p.changes t = cs ++ c :: cs') (hk : c.kept.start < c.kept.stop) (htail : c.tail ≠ []) :
    p.offset t c.kept.start = (weave (ofText t).slice (Change.headCells t) Change.tailCells
      c.start 0 cs ++ c.headCells t).length := by
  have hmem : ∀ d ∈ cs ++ c :: cs', d.Fits t := fun d hd =>
    (p.made_changes ht d (hp ▸ hd)).fits ht
  have hle := (hmem c (by simp)).start_le
  have hfollow := p.follow_changes ht
  rw [hp] at hfollow
  obtain ⟨hweave, has⟩ := weave_eq_mended hfollow.of_append.1 fun d hd =>
    hmem d (List.mem_append_left _ hd)
  rw [Change.span_start] at hweave has
  have hpatches : p.patches t = cs.flatMap Change.patches ++ ⟨⟨c.start, c.kept.start⟩, c.head⟩ ::
      ⟨⟨c.kept.stop, c.kept.stop⟩, c.tail⟩ :: cs'.flatMap Change.patches := by
    rw [patches, hp, List.flatMap_append, List.flatMap_cons, Change.patches, if_neg htail]
    rfl
  have hall := (p.cells_output ht).2
  rw [hpatches] at hall
  have hbehind : Follow Patch.span c.kept.stop t.length (cs'.flatMap Change.patches) := by
    cases hall.of_append.2 with
    | cons _ _ h =>
      cases h with
      | cons _ _ h => exact h
  obtain ⟨-, -, hpart⟩ := parts_around hle hk hpatches has hbehind
  rw [hweave, ← mended_around hle has, ← hpart, ← List.length_map Cell.byte, map_byte_mended]
  rfl

/-- Where a pass leaves the configuration of a flat entry that it finds. -/
theorem offset_flat {gs gs' : List Hit} (ht : t.WellFormed)
    (hhits : p.hits (ofText t) = gs ++ .flat f :: gs') :
    p.offset t f.body.start = (t.wovenCells (Hit.flat f).span.start 0 gs ++
      (codeCells (Hit.newName t (.flat f)) ++
        codeCells (front (Hit.indent t (.flat f))))).length := by
  have hfinds := finds_hits p (ofText t)
  rw [hhits, size_ofText] at hfinds
  obtain ⟨colon, hflat⟩ := hfinds.2.2 (.flat f) (by simp)
  obtain ⟨h1, h2, h3, h4, h5⟩ := hflat.order
  rw [size_ofText] at h5
  have hname : Finds (ofText t) f.name.start [] f.name.stop := .nil (Nat.le_of_lt h1) (by omega)
  have hgs : Finds (ofText t) 0 gs f.name.start :=
    ⟨hfinds.1.of_append.1, by rw [size_ofText]; omega,
      fun x hx => hfinds.2.2 x (List.mem_append_left _ hx)⟩
  have hcells := wovenCells_append ht hgs hname
  rw [List.append_nil] at hcells
  have hoffset := offset_kept (c := f.change ((ofText t).indentOf f.name.start)) ht
    (by rw [changes, hhits, List.flatMap_append, List.flatMap_cons]; rfl)
    (show f.body.start < f.body.stop by omega) (back_ne_nil _)
  rw [headCells_flat hflat (isIndent_indentOf _ _)] at hoffset
  rw [← List.append_assoc, Hit.newName, ← hflat.key.word.slice_eq]
  exact hoffset.trans (congrArg
    (fun cs => (cs ++ codeCells (front ((ofText t).indentOf f.name.start))).length) hcells)

/-! ## Every flat entry of the result is moved -/

section
variable {us k ds r : List Cell} {w : Text} {gs gs' : List Hit} {n : Nat}

/-- No flat entry is left among the cells that are kept. -/
theorem kept_not_flat (ht : t.WellFormed)
    (hhits : Pass.simpleInline.hits (ofText t) = gs ++ gs') (hgs : Finds (ofText t) 0 gs n)
    (hgs' : Finds (ofText t) (n + k.length) gs' t.length)
    (hk : (ofText t).slice n (n + k.length) = k) (hd : Detached (t.wovenCells n 0 gs))
    (hshape : FlatShape [] [] w k ds []) :
    t.wovenCells t.length (n + k.length) gs' ≠
      ⟨Byte.openBrace, .code⟩ :: (ds ++ ⟨Byte.closeBrace, .code⟩ :: r) := by
  intro h
  have hes : ∀ f ∈ (ofText t).outermost, ∃ colon, (ofText t).IsFlat f colon :=
    fun f hf => mem_flatEntries.1 (mem_outermost.1 hf).1
  rw [Pass.hits_simpleInline, List.map_eq_append_iff] at hhits
  obtain ⟨as, bs, heq, rfl, rfl⟩ := hhits
  have has : ∀ f ∈ as, ∃ colon, (ofText t).IsFlat f colon :=
    fun f hf => hes f (heq ▸ List.mem_append_left _ hf)
  have hbs : ∀ f ∈ bs, ∃ colon, (ofText t).IsFlat f colon :=
    fun f hf => hes f (heq ▸ List.mem_append_right _ hf)
  obtain ⟨hpos, hword⟩ := hshape.key.inWord hshape.ne_nil hshape.word hk
  have hedge := edge_of_woven ht hgs (allTurned_flats has) hd hword
  obtain ⟨e, he, rfl⟩ := exists_flat_of_woven ht hbs hgs' hk hedge hshape h
  -- The entry would be found, or one around it, and the cells would not be kept.
  obtain ⟨g, hg, hm, hcase⟩ := exists_hit_of_flat he
  have hin : g.span.start ≤ e.name.start ∧ e.name.start < g.span.stop := by
    obtain ⟨colon, he⟩ := mem_flatEntries.1 he
    have ho := he.order
    rcases hcase with rfl | ⟨h1, h2⟩ <;> simp only [FlatEntry.span] at * <;> omega
  rw [Pass.hits_simpleInline, heq, List.map_append, List.mem_append] at hm
  rcases hm with hm | hm
  · have := (hgs.1.bounds _ hm).2.2
    exact absurd hin.2 (Nat.not_lt_of_le this)
  · have := (hgs'.1.bounds _ hm).1
    simp only [Hit.span] at this
    omega

/-- The nested shape is not flat. -/
theorem front_not_flat {indent : Text} {fs s : List Cell} (hi : indent.IsIndent)
    (hw : w ≠ [] ∧ ∀ b ∈ w, Byte.isWord b = true) (hfs : closers fs 0 = some 0)
    (hshape : FlatShape [] [] w k ds []) :
    k ++ (⟨Byte.openBrace, .code⟩ :: (ds ++ ⟨Byte.closeBrace, .code⟩ :: r)) ≠
      codeCells w ++ (codeCells (front indent) ++ (⟨Byte.openBrace, .code⟩ ::
        (fs ++ ⟨Byte.closeBrace, .code⟩ :: (codeCells (back indent) ++ s)))) := by
  intro h
  obtain ⟨z, rfl, hne, hz⟩ := hshape.key.gap
  have hparts := ProviderNest.cells_around indent
    (⟨Byte.openBrace, .code⟩ :: (fs ++ [⟨Byte.closeBrace, .code⟩])) s
  simp only [List.cons_append, List.append_assoc, List.nil_append] at hparts
  rw [hparts] at h
  have hinert := hshape.key.inert hshape.word
  have hfront : Inert (codeCells w ++ codeCells (.ofString ": ")) :=
    (inert_of_isWord hw.2).append (by decide)
  rw [← List.append_assoc] at h
  obtain ⟨-, h⟩ := append_cons_inj hinert.not_open hfront.not_open h
  obtain ⟨rfl, -⟩ := closed_inj hshape.closed (neutral_nestCells hi (neutral_braces hfs) 0) h
  exact not_opens_nestCells hi hshape.opens

/-- What stands among the fields of an entry that is nested stands in its body. -/
theorem place_of_fields {as bs : List Cell} (ht : t.WellFormed)
    (hhits : Pass.simpleInline.hits (ofText t) = gs ++ .flat f :: gs')
    (hfields : Hit.fields t (.flat f) = as ++ bs)
    (hn : (t.wovenCells (Hit.flat f).span.start 0 gs ++ (codeCells (Hit.newName t (.flat f)) ++
      (codeCells (front (Hit.indent t (.flat f))) ++ ⟨Byte.openBrace, .code⟩ :: as))).length = n) :
    (Pass.simpleInline.place t f.body).start < n ∧ n < (Pass.simpleInline.place t f.body).stop := by
  have hm : f ∈ Pass.simpleInline.flats t :=
    List.mem_flatMap.2 ⟨.flat f, hhits ▸ List.mem_append_right _ List.mem_cons_self,
      List.mem_cons_self⟩
  obtain ⟨m, hm, hstop, -, -⟩ := slice_body ht hm
  have hoffset := offset_flat ht hhits
  have hstart := Pass.simpleInline.place_start t f.body
  obtain ⟨colon, hflat⟩ := (finds_hits Pass.simpleInline (ofText t)).2.2 (.flat f)
    (hhits ▸ List.mem_append_right _ List.mem_cons_self)
  have ho := hflat.order
  have hlength := congrArg List.length hfields
  rw [Hit.fields, length_slice _ (by omega) (by omega), List.length_append] at hlength
  simp only [List.length_append, List.length_cons] at hoffset hn
  omega

end

/-- **Where the flat entries of the result stand**: in the bodies of the outermost entries. -/
theorem inside_of_output (ht : t.WellFormed)
    (he : e ∈ (ofText (Pass.simpleInline.output t)).flatEntries) :
    ∃ f ∈ (ofText t).outermost, e.span.StrictlyInside (Pass.simpleInline.place t f.body) := by
  obtain ⟨colon, he⟩ := mem_flatEntries.1 he
  have ho := he.order
  rw [size_ofText] at ho
  have hturned : t.AllTurned (Pass.simpleInline.hits (ofText t)) := by
    rw [Pass.hits_simpleInline]
    exact allTurned_flats fun f hf => mem_flatEntries.1 (mem_outermost.1 hf).1
  have hplace := keyPlace_output ht hturned he.key
  have hd : Detached ((ofText (Pass.simpleInline.output t)).slice 0 e.name.start) :=
    (detached_slice (Nat.zero_le _) (by rw [size_ofText]; omega) (.inl rfl)).2 he.key.word.before
  have hstart := length_slice (ofText (Pass.simpleInline.output t)) (Nat.zero_le e.name.start)
    (by rw [size_ofText]; omega)
  have hshape := he.shape
  dsimp only at hplace
  rw [he.slice_eq ho.2.2.2.2] at hplace
  generalize (ofText (Pass.simpleInline.output t)).slice 0 e.name.start = us at *
  generalize (ofText (Pass.simpleInline.output t)).slice e.name.start e.body.start = k at *
  generalize (ofText (Pass.simpleInline.output t)).slice (e.body.start + 1) _ = ds at *
  generalize (ofText (Pass.simpleInline.output t)).slice e.body.stop _ = r at *
  generalize hvs : (⟨Byte.openBrace, .code⟩ : Cell) :: (ds ++ ⟨Byte.closeBrace, .code⟩ :: r) = vs
    at *
  generalize (ofText (Pass.simpleInline.output t)).bytes e.name = w at *
  cases hplace with
  | kept heq hgs hgs' hk => exact absurd hvs.symm (kept_not_flat ht heq hgs hgs' hk hd hshape)
  | @front gs gs' x _ _ heq hgs hname hcells =>
    have hx : x.Turned t := hturned x (by rw [heq]; simp)
    rw [← hvs] at hcells
    exact absurd hcells (front_not_flat (x.isIndent_indent t) ⟨hshape.ne_nil, hshape.word⟩ hx.closed
      hshape)
  | default hdefault => exact absurd hdefault hshape.name_ne
  | @fields gs gs' x _ _ _ _ heq hgs hfields hcells =>
    obtain ⟨f, hf, rfl⟩ := Pass.mem_hits_simpleInline.1
      (heq ▸ List.mem_append_right gs List.mem_cons_self)
    obtain ⟨h1, h2⟩ := place_of_fields ht heq hfields hstart
    refine ⟨f, hf, ?_⟩
    rcases (held_body ht (Pass.flats_simpleInline ▸ hf)).flat_cases he with h | h | h | h
    · omega
    · omega
    · omega
    · exact h

end Pass

/-! ## Layers -/

/-- How many flat entries an entry lies strictly inside. -/
def Source.layer (s : Source) (e : FlatEntry) : Nat :=
  s.flatEntries.countP fun f => e.span.StrictlyInside f.span

namespace Source

variable {t : Text} {e f g : FlatEntry}

theorem layer_eq_zero : (ofText t).layer e = 0 ↔
    ∀ f ∈ (ofText t).flatEntries, ¬ e.span.StrictlyInside f.span := by
  rw [layer, List.countP_eq_zero]
  simp

/-- An entry inside another one lies in its body. -/
theorem inside_body_iff (he : e ∈ (ofText t).flatEntries) (hf : f ∈ (ofText t).flatEntries) :
    e.span.StrictlyInside f.span ↔ e.span.StrictlyInside f.body := by
  obtain ⟨colon, he⟩ := mem_flatEntries.1 he
  obtain ⟨colon', hf⟩ := mem_flatEntries.1 hf
  have h1 := he.order
  have h2 := hf.order
  constructor
  · rintro ⟨hstart, hstop⟩
    rcases hf.apart_or_inside he hstart with h | h
    · simp only [FlatEntry.span] at hstop
      omega
    · exact h
  · rintro ⟨hstart, hstop⟩
    simp only [Span.StrictlyInside, FlatEntry.span] at *
    omega

theorem around_eq_nil_iff (he : e ∈ (ofText t).flatEntries) :
    (ofText t).around e = [] ↔ (ofText t).layer e = 0 := by
  rw [layer_eq_zero, List.eq_nil_iff_forall_not_mem]
  refine forall_congr' fun f => ?_
  rw [mem_around, not_and]
  refine imp_congr_right fun hf => not_congr ?_
  constructor
  · rintro ⟨hne, h1, h2⟩
    obtain ⟨colon, he'⟩ := mem_flatEntries.1 he
    have ho := he'.order
    rcases flatEntries_laminar he hf (Ne.symm hne) with h | h | h | h
    · simp only [FlatEntry.span] at *
      omega
    · simp only [FlatEntry.span] at *
      omega
    · omega
    · exact h
  · rintro ⟨h1, h2⟩
    refine ⟨?_, Nat.le_of_lt h1, Nat.le_of_lt h2⟩
    rintro rfl
    exact absurd h1 (Nat.lt_irrefl _)

/-- The outermost entries are those of layer zero. -/
theorem mem_outermost_iff :
    e ∈ (ofText t).outermost ↔ e ∈ (ofText t).flatEntries ∧ (ofText t).layer e = 0 :=
  mem_outermost.trans (and_congr_right around_eq_nil_iff)

theorem outermost_eq (t : Text) :
    (ofText t).outermost = (ofText t).flatEntries.filter fun e => (ofText t).layer e = 0 := by
  refine List.filter_congr fun e he => ?_
  rw [decide_eq_decide]
  exact around_eq_nil_iff he

/-- An entry that is not outermost lies inside exactly one outermost entry. -/
theorem exists_outermost (he : e ∈ (ofText t).flatEntries) (hl : (ofText t).layer e ≠ 0) :
    ∃ g ∈ (ofText t).outermost, e.span.StrictlyInside g.span ∧
      ∀ f ∈ (ofText t).outermost, e.span.StrictlyInside f.span → f = g := by
  obtain ⟨g, hg, hm, hcase⟩ := exists_hit_of_flat he
  obtain ⟨g, hout, hsame⟩ := Pass.mem_hits_simpleInline.1 hm
  cases hsame
  rcases hcase with rfl | hin
  · exact absurd (mem_outermost_iff.1 hout).2 hl
  refine ⟨g, hout, hin, fun f hf hin' => ?_⟩
  by_contra hne
  obtain ⟨hf, hf0⟩ := mem_outermost_iff.1 hf
  obtain ⟨-, hg0⟩ := mem_outermost_iff.1 hout
  obtain ⟨colon, he'⟩ := mem_flatEntries.1 he
  have ho := he'.order
  rcases flatEntries_laminar hf hg hne with h | h | h | h
  · simp only [Span.StrictlyInside, FlatEntry.span] at *
    omega
  · simp only [Span.StrictlyInside, FlatEntry.span] at *
    omega
  · exact layer_eq_zero.1 hg0 f hf h
  · exact layer_eq_zero.1 hf0 g hg h

end Source

namespace Pass

section
variable {t : Text} {e f : FlatEntry}

/-- The ends of an entry that is not outermost come through the pass. -/
theorem keeps_of_layer (ht : t.WellFormed) (he : e ∈ (ofText t).flatEntries)
    (hl : (ofText t).layer e ≠ 0) : Pass.simpleInline.Keeps t e.span.start ∧
      Pass.simpleInline.Keeps t e.span.stop := by
  obtain ⟨g, hg, hin, -⟩ := exists_outermost he hl
  obtain ⟨hstart, hstop⟩ := (inside_body_iff he (mem_outermost_iff.1 hg).1).1 hin
  obtain ⟨colon, he⟩ := mem_flatEntries.1 he
  have ho := he.order
  have hm : g ∈ Pass.simpleInline.flats t := Pass.flats_simpleInline ▸ hg
  simp only [FlatEntry.span] at *
  exact ⟨keeps_body ht hm (by omega) (by omega), keeps_body ht hm (by omega) (by omega)⟩

/-- **Entries stay inside each other**, or apart. -/
theorem moved_inside_iff (ht : t.WellFormed) (he : e ∈ (ofText t).flatEntries)
    (hf : f ∈ (ofText t).flatEntries) (hle : (ofText t).layer e ≠ 0)
    (hlf : (ofText t).layer f ≠ 0) :
    (Pass.simpleInline.moved t e).span.StrictlyInside (Pass.simpleInline.moved t f).span ↔
      e.span.StrictlyInside f.span := by
  obtain ⟨h1, h2⟩ := keeps_of_layer ht he hle
  obtain ⟨h3, h4⟩ := keeps_of_layer ht hf hlf
  exact and_congr (offset_lt_iff ht h3 h1) (offset_lt_iff ht h2 h4)

/-- **The flat entries of the result** are those that were not outermost. -/
theorem flatEntries_output (ht : t.WellFormed) :
    (ofText (Pass.simpleInline.output t)).flatEntries =
      ((ofText t).flatEntries.filter fun e => (ofText t).layer e ≠ 0).map
        (Pass.simpleInline.moved t) := by
  let r (e f : FlatEntry) : Prop := e.name.start < f.name.start
  have : Std.Irrefl r := ⟨fun _ => Nat.lt_irrefl _⟩
  have : Std.Antisymm r := ⟨fun _ _ h h' => absurd h (Nat.lt_asymm h')⟩
  have hmoved : (((ofText t).flatEntries.filter fun e => (ofText t).layer e ≠ 0).map
      (Pass.simpleInline.moved t)).Pairwise r := by
    refine List.pairwise_map.2 (((pairwise_flatEntries _).filter _).imp_of_mem ?_)
    intro e f he hf hlt
    obtain ⟨he, hle⟩ := List.mem_filter.1 he
    obtain ⟨hf, hlf⟩ := List.mem_filter.1 hf
    exact (offset_lt_iff ht (keeps_of_layer ht he (by simpa using hle)).1
      (keeps_of_layer ht hf (by simpa using hlf)).1).2 hlt
  refine (pairwise_flatEntries _).eq_of_mem_iff hmoved fun e => ?_
  rw [List.mem_map]
  constructor
  · intro he
    obtain ⟨f, hf, hin⟩ := inside_of_output ht he
    obtain ⟨e', he', hin', rfl⟩ := exists_moved_of_inside ht (Pass.flats_simpleInline ▸ hf) he hin
    have hf := (mem_outermost_iff.1 hf).1
    refine ⟨e', List.mem_filter.2 ⟨he', ?_⟩, rfl⟩
    simp only [ne_eq, decide_eq_true_eq]
    exact fun h => layer_eq_zero.1 h f hf ((inside_body_iff he' hf).2 hin')
  · rintro ⟨e', hm, rfl⟩
    obtain ⟨he', hl⟩ := List.mem_filter.1 hm
    obtain ⟨g, hg, hin, -⟩ := exists_outermost he' (by simpa using hl)
    exact moved_mem ht (Pass.flats_simpleInline ▸ hg) he'
      ((inside_body_iff he' (mem_outermost_iff.1 hg).1).1 hin)

/-- **An entry that is moved lies one layer further outside.** -/
theorem layer_moved (ht : t.WellFormed) (he : e ∈ (ofText t).flatEntries)
    (hl : (ofText t).layer e ≠ 0) : (ofText t).layer e =
      (ofText (Pass.simpleInline.output t)).layer (Pass.simpleInline.moved t e) + 1 := by
  have hmoved : (ofText (Pass.simpleInline.output t)).layer (Pass.simpleInline.moved t e) =
      ((ofText t).flatEntries.filter fun f => (ofText t).layer f ≠ 0).countP
        fun f => e.span.StrictlyInside f.span := by
    rw [Source.layer, flatEntries_output ht, List.countP_map]
    refine List.countP_congr fun f hf => ?_
    obtain ⟨hf, hlf⟩ := List.mem_filter.1 hf
    simp only [Function.comp_apply, decide_eq_true_eq]
    exact moved_inside_iff ht he hf hl (by simpa using hlf)
  -- One of the entries around this one is outermost, and the others are moved.
  have houter : (ofText t).outermost.countP (fun f => e.span.StrictlyInside f.span) = 1 := by
    obtain ⟨g, hg, hin, hone⟩ := exists_outermost he hl
    have hnodup : (ofText t).outermost.Nodup := by
      refine ((pairwise_flatEntries _).filter _).imp ?_
      rintro e f hlt rfl
      exact Nat.lt_irrefl _ hlt
    rw [← List.count_eq_one_of_mem hnodup hg, List.count]
    refine List.countP_congr fun f hf => ?_
    rw [decide_eq_true_eq, beq_iff_eq]
    constructor
    · exact hone f hf
    · rintro rfl
      exact hin
  rw [hmoved, Source.layer, List.countP_eq_countP_filter_add _ _ fun f => (ofText t).layer f ≠ 0,
    ← houter, outermost_eq]
  simp

/-- The layers of the result are those of the text without the outermost. -/
theorem countP_layer_output (ht : t.WellFormed) (n : Nat) :
    ((ofText (Pass.simpleInline.output t)).flatEntries.countP fun e =>
      (ofText (Pass.simpleInline.output t)).layer e = n) =
      (ofText t).flatEntries.countP fun e => (ofText t).layer e = n + 1 := by
  rw [flatEntries_output ht, List.countP_map, List.countP_filter]
  refine List.countP_congr fun e he => ?_
  simp only [Function.comp_apply, Bool.and_eq_true, decide_eq_true_eq]
  constructor
  · rintro ⟨h, hl⟩
    rw [layer_moved ht he hl, h]
  · intro h
    have hl : (ofText t).layer e ≠ 0 := by omega
    have := layer_moved ht he hl
    exact ⟨by omega, hl⟩

/-- The pass counts the outermost layer. -/
theorem count_simpleInline : countEdits (Pass.simpleInline.edits t) =
    (ofText t).flatEntries.countP fun e => (ofText t).layer e = 0 := by
  rw [Pass.countEdits_edits _ (by decide), Pass.flats_simpleInline, outermost_eq,
    List.countP_eq_length_filter]

/-- **The runs after the first** count layer by layer. -/
theorem countP_layer_iterate (ht : t.WellFormed) (n k : Nat) :
    ((ofText (Pass.simpleInline.output^[n] t)).flatEntries.countP fun e =>
      (ofText (Pass.simpleInline.output^[n] t)).layer e = k) =
      (ofText t).flatEntries.countP fun e => (ofText t).layer e = k + n := by
  induction n generalizing t with
  | zero => rfl
  | succ n ih =>
    rw [Function.iterate_succ_apply, ih (Pass.simpleInline.wellFormed_output ht),
      countP_layer_output ht, Nat.add_assoc]

theorem count_iterate (ht : t.WellFormed) (n : Nat) :
    countEdits (Pass.simpleInline.edits (Pass.simpleInline.output^[n] t)) =
      (ofText t).flatEntries.countP fun e => (ofText t).layer e = n := by
  rw [count_simpleInline, countP_layer_iterate ht, Nat.zero_add]

/-- The pass counts nothing if there is no flat entry. -/
theorem count_eq_zero_iff :
    countEdits (Pass.simpleInline.edits t) = 0 ↔ (ofText t).flatEntries = [] := by
  rw [Pass.countEdits_edits _ (by decide), List.length_eq_zero_iff, Pass.flats_simpleInline]
  constructor
  · intro h
    refine List.eq_nil_iff_forall_not_mem.2 fun e he => ?_
    obtain ⟨g, -, hm, -⟩ := exists_hit_of_flat he
    rw [Pass.hits_simpleInline, h] at hm
    cases hm
  · intro h
    rw [outermost_eq, h]
    rfl

/-- A second run counts nothing if no entry lies inside another one. -/
theorem count_output_eq_zero_iff (ht : t.WellFormed) :
    countEdits (Pass.simpleInline.edits (Pass.simpleInline.output t)) = 0 ↔
      ∀ e ∈ (ofText t).flatEntries, ∀ f ∈ (ofText t).flatEntries,
        ¬ e.span.StrictlyInside f.span := by
  rw [count_eq_zero_iff, flatEntries_output ht, List.map_eq_nil_iff, List.filter_eq_nil_iff]
  refine forall₂_congr fun e _ => ?_
  rw [decide_eq_true_eq, not_not, layer_eq_zero]

end

/-- **A second run of the pass over flat entries.** The first run brings every entry one layer
further outside, so a second one nests those that lay strictly inside exactly one other entry. It
nests nothing, and leaves the text as it is, if and only if no entry lay inside another one. -/
theorem simpleInline_second_run (cs : List Char) :
    ∃ r r', Pass.simpleInline.apply (.ofChars cs) = .ok r ∧
      Pass.simpleInline.apply r.text = .ok r' ∧
      ((countEdits r'.edits = 0 ∧ r'.text = r.text) ↔
        ¬ ∃ e ∈ (ofText (.ofChars cs)).flatEntries, ∃ f ∈ (ofText (.ofChars cs)).flatEntries,
          e.span.StrictlyInside f.span) ∧
      (r'.text = r.text ↔ countEdits r'.edits = 0) ∧
      countEdits r'.edits = ((ofText (.ofChars cs)).flatEntries.filter fun e =>
        ((ofText (.ofChars cs)).flatEntries.filter fun f =>
          e.span.StrictlyInside f.span).length = 1).length := by
  have ht := Text.wellFormed_ofChars cs
  have hw := Pass.simpleInline.wellFormed_output ht
  have htext := Pass.simpleInline.output_eq_iff hw
  have hcount : countEdits (Pass.simpleInline.edits (Pass.simpleInline.output (.ofChars cs))) =
      (ofText (.ofChars cs)).flatEntries.countP fun e => (ofText (.ofChars cs)).layer e = 1 :=
    count_iterate ht 1
  refine ⟨_, _, Pass.simpleInline.apply_eq ht, Pass.simpleInline.apply_eq hw, ?_, ?_, ?_⟩
  · have hidle := count_output_eq_zero_iff ht
    push Not
    exact ⟨fun h => hidle.1 h.1, fun h => ⟨hidle.2 h, htext.2 (hidle.2 h)⟩⟩
  · exact htext
  · simpa only [Source.layer, List.countP_eq_length_filter] using hcount

end Pass

end ProviderNest
