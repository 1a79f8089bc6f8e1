import Mathlib.Data.Finset.Card
import ProviderNest.Proofs.Bodies
import ProviderNest.Proofs.FirstField

/-!
# Nested configurations

Behind the key `default` a pass leaves a closed object with the field `apiKey` in front (`Nested`),
and where it writes the object out for a variable of the environment, the field is read from there
(`Pinned`). Later passes look into such an object again, and may put something in, but it stays one
(`Nested.output`, `Pinned.output`): what is put in between its braces is balanced
(`Held.encloses_output`), and the first field stays the first.

So a text has at least as many nested configurations as passes have counted entries. To see that
none is counted twice, every brace in the new text is traced to a place in the old one, to the brace
itself or to the variable (`Pass.Anchor`). Places in order land in order
(`Pass.Anchor.landing_lt`), and `Pass.stock_output` counts them: a pass adds a configuration for
every entry that it nests. `TalliedRun.stock` says so of a run.
-/

namespace ProviderNest

open LexState Source

/-- Behind the brace at position `o` of a text stands a nested configuration: the key before it is
`default`, it is closed, and the first key behind it is `apiKey`. -/
structure Nested (t : Text) (o : Nat) : Prop where
  key : ∃ i, i + 9 = o ∧ KeyAt t nestedKey i [] [Byte.space]
  closed : ((ofText t).closing? o).isSome = true
  leads : (ofText t).opensConfiguration o = true

/-- A nested configuration with an `apiKey` that is read from the environment. -/
structure Pinned (t : Text) (o : Nat) : Prop extends Nested t o where
  reads : ∃ key colon, FirstField (ofText t) o key colon ∧
    (ofText t).slice key.value (key.value + 8) = codeCells (.ofString "process.")

/-! ## Objects by their cells -/

/-- No colon comes behind the colon of a key whose value is read from the environment. -/
theorem head?_value_ne {v r : List Cell} (hv : ∀ c ∈ v, c.isTrivia = true) :
    (v ++ (codeCells (.ofString "process.") ++ r)).head? ≠ some ⟨Byte.colon, .code⟩ :=
  head?_ne_colon hv (by decide)

/-- What reads its key from the environment is led by that key. -/
theorem Reads.opens {cs : List Cell} (h : Reads cs) : Opens cs := by
  obtain ⟨u, m, v, r, hu, hm, hv, rfl⟩ := h
  exact ⟨u, m, _, hu, hm, rfl, head?_value_ne hv⟩

/-- A part of a text by the number of cells before it and in it. -/
theorem Source.slice_of_cells {s : Source} (as bs cs : List Cell)
    (h : s.cells.toList = as ++ (bs ++ cs)) : s.slice as.length (as.length + bs.length) = bs := by
  rw [slice, h, List.drop_left, Nat.add_sub_cancel_left, List.take_left]

/-- From position `o` to position `j` there are braces with the cells `ds` between them. -/
structure Encloses (s : Source) (o j : Nat) (ds : List Cell) : Prop where
  le : o ≤ j
  stop_le : j ≤ s.size
  slice_eq : s.slice o j = ⟨Byte.openBrace, .code⟩ :: (ds ++ [⟨Byte.closeBrace, .code⟩])

namespace Encloses

variable {s : Source} {o j : Nat} {ds : List Cell}

/-- Braces with cells between them are two cells longer than these. -/
theorem stop_eq (h : Encloses s o j ds) : j = o + ds.length + 2 := by
  have hlen := congrArg List.length h.slice_eq
  rw [length_slice s h.le h.stop_le, List.length_cons, List.length_append,
    List.length_singleton] at hlen
  have := h.le
  omega

theorem opening (h : Encloses s o j ds) : s.codeByte? o = some Byte.openBrace ∧
    s.slice (o + 1) j = ds ++ [⟨Byte.closeBrace, .code⟩] := by
  obtain ⟨-, hcell, hslice⟩ := slice_uncons h.stop_le h.slice_eq
  exact ⟨codeByte?_eq_some.2 hcell, hslice⟩

theorem inner (h : Encloses s o j ds) : s.slice (o + 1) (j - 1) = ds := by
  have hj := h.stop_eq
  obtain ⟨-, hslice, -⟩ := slice_split (show o + 1 ≤ j by omega) h.stop_le h.opening.2
  rwa [show o + 1 + ds.length = j - 1 by omega] at hslice

/-- Braces with balanced braces between them belong together. -/
theorem closing (h : Encloses s o j ds) (hb : closers ds 0 = some 0) :
    s.closing? o = some (j - 1) := by
  have hj := h.stop_eq
  have hsize := h.stop_le
  obtain ⟨ho, hslice⟩ := h.opening
  have hone : closers (s.slice (o + 1) j) 0 = some 1 := by
    rw [hslice, closers_append]
    exact closers_add hb
  have hnone := isSome_closingFrom (s := s) (i := o + 1) (n := ds.length) (j := j - 1) (by omega)
    (by omega) (by rw [h.inner]; exact hb) 0
  have hsome := (isSome_closingFrom (s := s) (i := o + 1) (n := ds.length + 1) (j := j) (by omega)
    hsize hone 0).2 Nat.one_pos
  obtain ⟨c, hc⟩ := Option.isSome_iff_exists.1 hsome
  obtain ⟨h1, h2, -⟩ := closingFrom_spec hc
  have hlast : ¬ c < o + 1 + ds.length := by
    intro hlt
    rw [closingFrom_steps hc hlt] at hnone
    exact absurd (hnone.1 rfl) (Nat.lt_irrefl 0)
  rw [closing?, if_pos ho, closingFrom_steps hc (by omega)]
  congr 1
  omega

/-- A field that is spelled out behind the brace. -/
theorem firstField (h : Encloses s o j ds) {u m r : List Cell} (hu : ∀ c ∈ u, c.isTrivia = true)
    (hm : FieldCells m) (hd : ds = u ++ (m ++ r)) (hr : r.head? ≠ some ⟨Byte.colon, .code⟩) :
    ∃ a colon, FirstField s o ⟨⟨a, a + 6⟩, s.skipTrivia (colon + 1)⟩ colon ∧ colon + 1 < j ∧
      s.slice (colon + 1) j = r ++ [⟨Byte.closeBrace, .code⟩] := by
  have hj := h.stop_eq
  obtain ⟨ho, hslice⟩ := h.opening
  obtain ⟨v, hv, rfl⟩ := hm
  refine firstField_of_slice ho (by omega) h.stop_le hu hv ?_ (List.append_ne_nil_of_right_ne_nil _
    (List.cons_ne_nil _ _)) ?_
  · rw [hslice, hd, List.append_assoc, List.append_assoc]
  · cases r with
    | nil =>
      intro hc
      exact absurd (congrArg Cell.byte (Option.some.inj hc)) (by decide)
    | cons c r => exact hr

/-- The braces that the search for a closing brace finds. -/
theorem of_closing {c : Nat} (h : s.closing? o = some c) :
    Encloses s o (c + 1) (s.slice (o + 1) c) := by
  obtain ⟨ho, hlt, hc⟩ := closing?_spec h
  refine ⟨by omega, lt_size_of_codeByte? hc, ?_⟩
  rw [slice_eq_cons s (show o < c + 1 by omega) (codeByte?_eq_some.1 ho),
    ← slice_append s (show o + 1 ≤ c from hlt) (Nat.le_succ c),
    slice_eq_cons s (Nat.lt_succ_self c) (codeByte?_eq_some.1 hc), slice_self]

/-- Braces among the cells of a text. -/
theorem of_cells {as r : List Cell} (h : s.cells.toList =
    as ++ (⟨Byte.openBrace, .code⟩ :: (ds ++ ⟨Byte.closeBrace, .code⟩ :: r))) :
    Encloses s as.length (as.length + ds.length + 2) ds := by
  have hsize := congrArg List.length h
  simp only [Array.length_toList, List.length_append, List.length_cons] at hsize
  rw [← size] at hsize
  refine ⟨by omega, by omega, ?_⟩
  have hslice := s.slice_of_cells as (⟨Byte.openBrace, .code⟩ :: (ds ++ [⟨Byte.closeBrace, .code⟩]))
    r (by rw [h]; simp)
  rwa [List.length_cons, List.length_append, List.length_singleton] at hslice

/-- Braces at the start of a slice. -/
theorem of_slice {i : Nat} {r : List Cell} (hj : j ≤ s.size)
    (h : s.slice i j = ⟨Byte.openBrace, .code⟩ :: (ds ++ ⟨Byte.closeBrace, .code⟩ :: r)) :
    Encloses s i (i + ds.length + 2) ds ∧ i + ds.length + 2 ≤ j ∧
      s.slice (i + ds.length + 2) j = r := by
  obtain ⟨hlt, -⟩ := slice_uncons hj h
  have hsplit : s.slice i j =
      ⟨Byte.openBrace, .code⟩ :: (ds ++ [⟨Byte.closeBrace, .code⟩]) ++ r := by simpa using h
  obtain ⟨h1, h2, h3⟩ := slice_split (Nat.le_of_lt hlt) hj hsplit
  simp only [List.length_cons, List.length_append, List.length_nil] at h1 h2 h3
  exact ⟨⟨by omega, by omega, h2⟩, h1, h3⟩

/-- Braces around cells that are led by an `apiKey` open a configuration. -/
theorem leads (h : Encloses s o j ds) (hd : Opens ds) : s.opensConfiguration o = true := by
  obtain ⟨u, m, r, hu, hm, hd, hr⟩ := hd
  obtain ⟨a, colon, hfirst, -⟩ := h.firstField hu hm hd hr
  exact (opensConfiguration_iff h.opening.1).2 ⟨_, _, hfirst⟩

/-- The first field between braces whose cells read their key from the environment has a value that
begins with `process.`. -/
theorem reads (h : Encloses s o j ds) (hd : Reads ds) : ∃ key colon, FirstField s o key colon ∧
    s.slice key.value (key.value + 8) = codeCells (.ofString "process.") := by
  obtain ⟨u, m, v, r, hu, hm, hv, hd⟩ := hd
  obtain ⟨a, colon, hfirst, hlt, hs⟩ := h.firstField hu hm hd (head?_value_ne hv)
  rw [List.append_assoc] at hs
  have hsize := h.stop_le
  obtain ⟨h1, htrivia, hs⟩ := slice_split (Nat.le_of_lt hlt) hsize hs
  rw [List.append_assoc] at hs
  obtain ⟨h2, hprocess, -⟩ := slice_split h1 hsize hs
  refine ⟨_, _, hfirst, ?_⟩
  have hvalue : s.skipTrivia (colon + 1) = colon + 1 + v.length := by
    refine skipTrivia_eq (Nat.le_add_right _ _) ((triviaRun_iff (by omega)).2 (by rwa [htrivia])) ?_
    rw [List.length_map] at hprocess
    have hp : s.codeByte? (colon + 1 + v.length) = some 0x70 :=
      codeByte?_of_codeCells (u := .ofString "process.") hprocess (k := 0) (by decide)
    rw [isTrivia_of_codeByte? hp]
    rfl
  rw [hvalue]
  exact hprocess

end Encloses

/-! ## Configurations that are nested already -/

/-- Spans that follow each other still do so when some are left out. -/
theorem Follow.sublist {α : Type} {span : α → Span} {i j : Nat} {as bs : List α}
    (hs : bs.Sublist as) (h : Follow span i j as) : Follow span i j bs := by
  induction hs generalizing i with
  | slnil => exact h
  | cons a _ ih =>
    cases h with
    | cons h1 h2 h3 => exact (ih h3).of_le (Nat.le_trans h1 h2)
  | cons_cons a _ ih =>
    cases h with
    | cons h1 h2 h3 => exact .cons h1 h2 (ih h3)

namespace Held

variable {t body : Text} {x : Span} {p : Pass}

/-- A change lies inside the configuration with all that it puts in, or puts nothing in there. -/
theorem change_cases (h : Held t body x) {c : Change} (hc : c.Made t) :
    (x.start < c.start ∧ c.kept.stop < x.stop ∧
      ∀ q ∈ c.patches, x.start < q.span.stop ∧ q.span.start < x.stop) ∨
    ¬ (x.start < c.start ∧ c.kept.stop < x.stop) ∧
      ∀ q ∈ c.patches, ¬ (x.start < q.span.stop ∧ q.span.start < x.stop) := by
  cases hc with
  | @flat e colon indent hf hi =>
    have ho := hf.order
    rw [patches_flat]
    simp only [FlatEntry.change, List.forall_mem_cons, List.not_mem_nil, false_imp_iff,
      implies_true, and_true]
    rcases h.flat_cases hf with hc | hc | hc | hc <;> omega
  | @env e colon value stop indent he hi =>
    have ho := he.order
    rw [patches_env]
    simp only [EnvEntry.change, List.forall_mem_cons, List.not_mem_nil, false_imp_iff,
      implies_true, and_true]
    rcases h.env_cases he with hc | hc | hc <;> omega
  | @gap i j lead indent hg hi =>
    have hle := hg.le
    rw [patches_gap]
    simp only [Change.gap, List.forall_mem_cons, List.not_mem_nil, false_imp_iff,
      implies_true, and_true]
    rcases h.gap_cases hg with hc | hc | hc <;> omega

/-- What a pass puts into the configuration are whole changes. -/
theorem within_changes (h : Held t body x) (ht : t.WellFormed) (p : Pass) :
    ∃ cs, (∀ c ∈ cs, c ∈ p.changes t) ∧ Follow Change.span (x.start + 1) (x.stop - 1) cs ∧
      x.within (p.patches t) = cs.flatMap Change.patches := by
  obtain ⟨h1, h2, -⟩ := h.closing_at
  have hfollow := p.follow_changes ht
  have hmade := p.made_changes ht
  rw [Pass.patches, Span.within, List.filter_filter]
  generalize p.changes t = cs at *
  refine ⟨cs.filter fun c => x.start < c.start ∧ c.kept.stop < x.stop,
    fun c hc => (List.mem_filter.1 hc).1, ?_, ?_⟩
  · have hin : ∀ c ∈ cs.filter fun c => x.start < c.start ∧ c.kept.stop < x.stop,
        x.start < c.start ∧ c.kept.stop < x.stop :=
      fun c hc => of_decide_eq_true (List.mem_filter.1 hc).2
    refine ((hfollow.sublist List.filter_sublist).to_stop (Nat.zero_le _) fun c hc => ?_).of_start
      (by omega) fun c hc => (hin c hc).1
    have := (hin c hc).2
    rw [Change.span_stop]
    omega
  · clear hfollow
    induction cs with
    | nil => rfl
    | cons c cs ih =>
      rw [List.flatMap_cons, List.filter_append, ih fun c' hc => hmade c' (by simp [hc])]
      rcases h.change_cases (hmade c List.mem_cons_self) with ⟨h3, h4, h5⟩ | ⟨h3, h4⟩
      · rw [List.filter_cons_of_pos (by simp [h3, h4]), List.flatMap_cons, List.filter_eq_self.2]
        intro q hq
        simpa [and_comm] using h5 q hq
      · rw [List.filter_cons_of_neg (by simpa using h3), List.filter_eq_nil_iff.2, List.nil_append]
        intro q hq
        have := h4 q hq
        simp only [Bool.and_eq_true, Bool.not_eq_true', decide_eq_true_eq, decide_eq_false_iff_not]
        omega

/-- What a pass leaves of the configuration are braces again, and what stands between them is
balanced. -/
theorem encloses_output (h : Held t body x) (ht : t.WellFormed) (p : Pass) :
    Follow Patch.span (x.start + 1) (x.stop - 1) (x.within (p.patches t)) ∧
    Encloses (ofText (p.output t)) (p.place t x).start (p.place t x).stop
      (t.mended (x.stop - 1) (x.start + 1) (x.within (p.patches t))) ∧
    closers (t.mended (x.stop - 1) (x.start + 1) (x.within (p.patches t))) 0 = some 0 := by
  obtain ⟨h1, h2, hclose⟩ := h.closing_at
  obtain ⟨hopen, -, hend⟩ := closing?_spec hclose
  obtain ⟨cs, hcs, hf, hwithin⟩ := h.within_changes ht p
  have hmade := fun c hc => p.made_changes ht c (hcs c hc)
  obtain ⟨hweave, hfollow⟩ := weave_eq_mended hf fun c hc => (hmade c hc).fits ht
  rw [← hwithin] at hweave hfollow
  obtain ⟨hslice, h3, h4⟩ := p.slice_place ht (by omega) h2 (h.clear ht p)
  refine ⟨hfollow, ⟨h3, by rwa [size_ofText], ?_⟩, ?_⟩
  · have hfirst : Follow Patch.span x.start (x.start + 1) [] := .nil (Nat.le_succ _)
    have hlast : Follow Patch.span (x.stop - 1) x.stop [] := .nil (Nat.sub_le _ _)
    have hparts := mended_append (t := t) hfirst (hfollow.append hlast)
    rw [mended_append hfollow hlast, List.append_nil, List.nil_append] at hparts
    rw [hslice, hparts, mended_nil, mended_nil,
      slice_eq_cons _ (Nat.lt_succ_self _) (codeByte?_eq_some.1 hopen), slice_self,
      slice_eq_cons _ (show x.stop - 1 < x.stop by omega) (codeByte?_eq_some.1 hend),
      Nat.sub_add_cancel (by omega), slice_self]
    rfl
  · rw [← hweave, closers_weave hf fun c hc => (hmade c hc).balanced]
    exact closers_of_closing? hclose

end Held

/-- Where a pass leaves the position `n`, behind all that it puts in there. -/
def Pass.offset (p : Pass) (t : Text) (n : Nat) : Nat :=
  ((ofText t).patched n 0 ((p.patches t).filter fun q => q.span.stop ≤ n)).length

theorem Pass.place_start (p : Pass) (t : Text) (x : Span) :
    (p.place t x).start = p.offset t x.start := rfl

/-- A zone ends before its brace is closed. -/
theorem Zone.le_closing {t : Text} {o colon z c : Nat} {key : Key} (hz : Zone t o key colon z)
    (hc : (ofText t).closing? o = some c) : z ≤ c := by
  obtain ⟨-, hlt, hclose⟩ := closing?_spec hc
  refine Nat.le_of_not_lt fun h => ?_
  exact (hz.not_code (Nat.le_of_lt hlt) h).2.1 hclose

section
variable {t : Text} {o : Nat}

/-- The configuration behind the brace. -/
theorem Nested.held (h : Nested t o) : ∃ x body, x.start = o ∧ Held t body x := by
  obtain ⟨c, hc⟩ := Option.isSome_iff_exists.1 h.closed
  obtain ⟨-, hlt, hclose⟩ := closing?_spec hc
  have hsize := lt_size_of_codeByte? hclose
  obtain ⟨hcells, hclosing⟩ := closing?_bytes hc
  have hlen : ((ofText t).bytes ⟨o, c + 1⟩).length = c + 1 - o :=
    length_bytes (x := ⟨o, c + 1⟩) (by dsimp only; omega) hsize
  refine ⟨⟨o, c + 1⟩, _, rfl, h.key, hcells, ?_, ?_⟩
  · dsimp only
    omega
  · rw [hclosing, hlen]
    congr 1
    omega

/-- A nested configuration stays one under every pass. -/
theorem Nested.output (h : Nested t o) (ht : t.WellFormed) (p : Pass) :
    Nested (p.output t) (p.offset t o) := by
  obtain ⟨x, body, rfl, hx⟩ := h.held
  obtain ⟨h1, h2, hclose⟩ := hx.closing_at
  obtain ⟨hfollow, hencl, hbalanced⟩ := hx.encloses_output ht p
  obtain ⟨key, colon, hfirst⟩ := (opensConfiguration_iff (closing?_spec hclose).1).1 h.leads
  refine ⟨hx.key_output ht p, ?_, hencl.leads ?_⟩
  · rw [← p.place_start, hencl.closing hbalanced]
    rfl
  · refine hfirst.opens_mended hfollow (hfirst.zone.le_closing hclose) (by omega) fun q hq => ?_
    obtain ⟨hm, -⟩ := Span.mem_within.1 hq
    exact ⟨p.made_patches ht q hm, p.led_patches t q hm⟩

/-- An `apiKey` that is read from the environment stays so under every pass. -/
theorem Pinned.output (h : Pinned t o) (ht : t.WellFormed) (p : Pass) :
    Pinned (p.output t) (p.offset t o) := by
  refine ⟨h.toNested.output ht p, ?_⟩
  obtain ⟨x, body, rfl, hx⟩ := h.held
  obtain ⟨h1, h2, hclose⟩ := hx.closing_at
  obtain ⟨hfollow, hencl, -⟩ := hx.encloses_output ht p
  obtain ⟨key, colon, hfirst, hreads⟩ := h.reads
  have hbehind := (hfirst.zone_reads hreads).le_closing hclose
  refine hencl.reads (hfirst.reads_mended hreads hfollow hbehind (by omega) fun q hq => ?_)
  obtain ⟨hm, -⟩ := Span.mem_within.1 hq
  exact ⟨p.made_patches ht q hm, p.led_patches t q hm⟩

end

/-! ## Configurations that a pass nests -/

section
variable {t : Text} {p : Pass}

/-- What a pass leaves around what a change keeps. -/
theorem Pass.cells_around {c : Change} (ht : t.WellFormed) (hc : c ∈ p.changes t)
    (hk : c.kept.start < c.kept.stop) (htail : c.tail ≠ []) : ∃ as r,
      (t.mended c.start 0 as ++ c.headCells t).length = p.offset t c.kept.start ∧
      (ofText (p.output t)).cells.toList = t.mended c.start 0 as ++ c.headCells t ++
        ((ofText t).slice c.kept.start c.kept.stop ++ (c.tailCells ++ r)) := by
  have hfits := (p.made_changes ht c hc).fits ht
  obtain ⟨as, bs, hp, ha, hb⟩ := Pass.patches_around ht hc htail
  obtain ⟨-, -, hbefore⟩ := Pass.parts_around hfits.start_le hk hp ha hb
  refine ⟨as, t.mended t.length c.kept.stop bs, ?_, ?_⟩
  · rw [← mended_around hfits.start_le ha, ← hbefore, ← List.length_map Cell.byte, map_byte_mended]
    rfl
  · have htailCells : Patch.cells t ⟨⟨c.kept.stop, c.kept.stop⟩, c.tail⟩ = c.tailCells := by
      rw [Patch.cells]
      dsimp only
      rw [hfits.stop_code]
      exact (after_cells_plain hfits.tail_plain none).2
    have hfollow := (p.cells_output ht).2
    rw [hp] at hfollow
    rw [(p.cells_output ht).1, hp, mended_append ha hfollow.of_append.2, mended_cons, mended_cons,
      htailCells, slice_self, List.nil_append, List.append_assoc, List.append_assoc]
    rfl

/-- A flat entry has its configuration between braces. -/
theorem Source.IsFlat.encloses {s : Source} {e : FlatEntry} {colon : Nat} (h : s.IsFlat e colon) :
    Encloses s e.body.start e.body.stop (s.slice (e.body.start + 1) (e.body.stop - 1)) := by
  have hencl := Encloses.of_closing h.closing
  rwa [Nat.sub_add_cancel h.stop_pos] at hencl

/-- The configuration of a flat entry begins with the field `apiKey`. -/
theorem Source.IsFlat.opens {t : Text} {e : FlatEntry} {colon : Nat}
    (h : (ofText t).IsFlat e colon) :
    Opens ((ofText t).slice (e.body.start + 1) (e.body.stop - 1)) := by
  obtain ⟨key, colon', hfirst⟩ :=
    (opensConfiguration_iff (closing?_spec h.closing).1).1 h.leads
  exact hfirst.opens (hfirst.zone.le_closing h.closing)
    (Nat.le_trans (Nat.sub_le _ _) h.encloses.stop_le)

/-- The configuration of a flat entry that a pass nests. -/
theorem Pass.nested_flat {f : FlatEntry} (ht : t.WellFormed) (hf : f ∈ p.flats t) :
    Nested (p.output t) (p.offset t f.body.start) := by
  obtain ⟨-, -, -, hslice⟩ := Pass.keyAt_body ht hf
  obtain ⟨indent, colon, -, -, hflat⟩ := Pass.change_of_mem_flats ht hf
  have hheld := Pass.held_body ht hf
  obtain ⟨h1, h2, hclosing⟩ := hheld.closing_at
  have hencl : Encloses (ofText (p.output t)) (p.place t f.body).start (p.place t f.body).stop _ :=
    ⟨by omega, by rwa [size_ofText], hslice.trans hflat.encloses.slice_eq⟩
  refine ⟨hheld.key, ?_, hencl.leads hflat.opens⟩
  rw [← p.place_start, hclosing]
  rfl

/-- What stands between the braces of a configuration written out for a variable. -/
def envFields (t : Text) (e : EnvEntry) : List Cell :=
  codeCells (.ofString " " ++ apiKeyField ++ .ofString ": " ++ environment) ++
    ((ofText t).slice e.var.start e.var.stop ++ codeCells (.ofString " "))

theorem reads_envFields (t : Text) (e : EnvEntry) : Reads (envFields t e) := by
  refine ⟨codeCells (.ofString " "), codeCells apiKeyField ++ [] ++ codeCells [Byte.colon],
    codeCells (.ofString " "), codeCells (.ofString "env.") ++
      ((ofText t).slice e.var.start e.var.stop ++ codeCells (.ofString " ")), by decide,
    ⟨[], List.forall_mem_nil _, rfl⟩, by decide, ?_⟩
  rw [envFields, show Text.ofString " " ++ apiKeyField ++ .ofString ": " ++ environment =
    .ofString " " ++ (apiKeyField ++ [Byte.colon] ++ (.ofString " " ++ (.ofString "process." ++
      .ofString "env."))) by decide]
  simp only [codeCells, List.map_append, List.append_assoc, List.nil_append]

/-- There is no brace among what is written out for a variable. -/
theorem closers_envFields {e : EnvEntry} {colon value stop : Nat}
    (h : (ofText t).IsEnv e colon value stop) : closers (envFields t e) 0 = some 0 := by
  have ho := h.order
  have hvar : NoBrace t e.var :=
    (noBrace_env h).mono (by simp only [EnvEntry.span]; omega) (Nat.le_refl _)
  exact ((neutral_codeCells (by decide)).append (hvar.neutral.append
    (neutral_codeCells (by decide)))) 0

/-- The configuration that a pass writes out for a variable of the environment. -/
theorem Pass.pinned_env {e : EnvEntry} (ht : t.WellFormed) (he : Hit.env e ∈ p.hits (ofText t)) :
    ∃ o, o + 22 = p.offset t e.var.start ∧ Pinned (p.output t) o := by
  obtain ⟨colon, value, stop, henv⟩ := (finds_hits p (ofText t)).2.2 _ he
  have hi := isIndent_indentOf (ofText t) e.name.start
  have hc : e.change (ofText t) ((ofText t).indentOf e.name.start) ∈ p.changes t :=
    List.mem_flatMap.2 ⟨_, he, List.mem_singleton.2 rfl⟩
  generalize (ofText t).indentOf e.name.start = indent at hi hc
  have ho := henv.order
  obtain ⟨as, r, hlen, hcells⟩ := Pass.cells_around ht hc (show e.var.start < e.var.stop by omega)
    (List.cons_ne_nil _ _)
  rw [headCells_env henv hi] at hlen hcells
  -- The new text in parts: up to the key, the key with the brace, the fields, and the rest.
  have hparts : (ofText (p.output t)).cells.toList =
      t.mended e.name.start 0 as ++ codeCells (((ofText t).bytes e.name).lower ++
          .ofString ": \x7b\n" ++ indent ++ .ofString "  ") ++
        (codeCells (keyText nestedKey [] [Byte.space]) ++
          (envFields t e ++ (⟨Byte.closeBrace, .code⟩ :: (codeCells (back indent) ++ r)))) := by
    rw [hcells, envFields, show keyText nestedKey [] [Byte.space] =
      nestedKey ++ .ofString ": " ++ [Byte.openBrace] by decide]
    simp only [Change.tailCells, EnvEntry.change, front_eq,
      show Text.ofString "\x7b " = [Byte.openBrace] ++ .ofString " " by decide,
      show Text.ofString " \x7d" = .ofString " " ++ [Byte.closeBrace] by decide, codeCells,
      List.map_append, List.map_cons, List.map_nil, List.append_assoc, List.cons_append,
      List.nil_append]
  generalize hlead : t.mended e.name.start 0 as ++ codeCells (((ofText t).bytes e.name).lower ++
    .ofString ": \x7b\n" ++ indent ++ .ofString "  ") = lead at hparts
  have hkey : KeyAt (p.output t) nestedKey lead.length [] [Byte.space] := by
    refine keyAt_of_cells hparts (by decide) ?_
    rw [← hlead]
    exact ends_spaces _ _
  have hencl : Encloses (ofText (p.output t)) (lead.length + 9)
      (lead.length + 9 + (envFields t e).length + 2) (envFields t e) := by
    rw [show keyText nestedKey [] [Byte.space] = .ofString "default: " ++ [Byte.openBrace] by
        decide, codeCells, List.map_append, List.append_assoc, ← List.append_assoc lead] at hparts
    have hbraces := Encloses.of_cells hparts
    rwa [List.length_append, List.length_map] at hbraces
  refine ⟨lead.length + 9, ?_, ⟨⟨_, rfl, hkey⟩, ?_, hencl.leads (reads_envFields t e).opens⟩,
    hencl.reads (reads_envFields t e)⟩
  · refine Eq.trans ?_ hlen
    rw [← hlead]
    simp only [EnvEntry.change, front_eq, List.length_append, List.length_map]
    have hkeyLen : nestedKey.length + (Text.ofString ": ").length = 9 := by decide
    have hfields : (Text.ofString "\x7b ").length + apiKeyField.length +
      (Text.ofString ": ").length + environment.length = 22 := by decide
    omega
  · rw [hencl.closing (closers_envFields henv)]
    rfl

end

/-! ## Where configurations land -/

section
variable {t : Text} {p : Pass} {n m : Nat}

/-- The byte at position `n` comes through a pass. -/
structure Pass.Keeps (p : Pass) (t : Text) (n : Nat) : Prop where
  lt : n < t.length
  apart : ∀ q ∈ p.patches t, q.span.stop ≤ n ∨ n < q.span.start

/-- The offset of a position is the length of what a pass makes of the text before it. -/
theorem Pass.offset_eq (p : Pass) (t : Text) (n : Nat) : p.offset t n =
    (t.mended n 0 ((p.patches t).filter fun q => q.span.stop ≤ n)).length := by
  rw [← List.length_map Cell.byte, map_byte_mended]
  rfl

/-- What a patch puts in is part of the patched text. -/
theorem length_le_mended {i j : Nat} {q : Patch} {qs : List Patch} (hq : q ∈ qs) :
    q.text.length ≤ (t.mended j i qs).length := by
  induction qs generalizing i with
  | nil => cases hq
  | cons r qs ih =>
    rw [mended_cons, List.length_append, List.length_append]
    rcases List.mem_cons.1 hq with rfl | hq
    · rw [Patch.cells, length_cells]
      omega
    · have := ih (i := r.span.stop) hq
      omega

/-- Behind a byte that comes through a pass there is at least this byte and all that the pass puts
in behind it. -/
theorem Pass.offset_lt (ht : t.WellFormed) (hn : p.Keeps t n) (hlt : n < m) :
    p.offset t n < p.offset t m ∧ ∀ q ∈ p.patches t, n < q.span.start → q.span.stop ≤ m →
      p.offset t n + q.text.length < p.offset t m := by
  have hbefore : Follow Patch.span 0 m ((p.patches t).filter fun q => q.span.stop ≤ m) :=
    ((p.cells_output ht).2.sublist List.filter_sublist).to_stop (Nat.zero_le m)
      fun q hq => of_decide_eq_true (List.mem_filter.1 hq).2
  have hapart : ∀ q ∈ (p.patches t).filter fun q => q.span.stop ≤ m,
      ¬ q.span.stop ≤ n → n < q.span.start :=
    fun q hq hstop => (hn.apart q (List.mem_filter.1 hq).1).resolve_left hstop
  obtain ⟨hsplit, hfirst, hsecond⟩ := hbefore.filter (f := fun q => q.span.stop ≤ n) (j := n)
    (Nat.zero_le n) (Nat.le_of_lt hlt) (fun q _ h => of_decide_eq_true h)
    (fun q hq h => Nat.le_of_lt (hapart q hq (of_decide_eq_false h)))
    (fun a b h1 h2 h3 h4 => by
      simp only [decide_eq_false_iff_not] at h1 ⊢
      omega)
  have hsame : ((p.patches t).filter fun q => q.span.stop ≤ m).filter (fun q => q.span.stop ≤ n) =
      (p.patches t).filter fun q => q.span.stop ≤ n := by
    rw [List.filter_filter]
    refine List.filter_congr fun q _ => ?_
    rw [Bool.and_eq_left_iff_imp]
    intro h
    simp only [decide_eq_true_eq] at h ⊢
    omega
  have hbehind : ∀ q ∈ ((p.patches t).filter fun q => q.span.stop ≤ m).filter
      (fun q => !decide (q.span.stop ≤ n)), n + 1 ≤ q.span.start := by
    intro q hq
    obtain ⟨hq, hstop⟩ := List.mem_filter.1 hq
    exact hapart q hq (by simpa using hstop)
  have hkept : Follow Patch.span n (n + 1) [] := .nil (Nat.le_succ n)
  have hone : ((ofText t).slice n (n + 1)).length = 1 := by
    have := hn.lt
    rw [length_slice _ (Nat.le_succ n) (by rw [size_ofText]; exact hn.lt)]
    omega
  have hparts := congrArg List.length (mended_append (t := t) hkept (hsecond.of_start hlt hbehind))
  have hwhole := congrArg List.length (mended_append (t := t) hfirst hsecond)
  rw [← hsplit, hsame, List.length_append, ← p.offset_eq, ← p.offset_eq] at hwhole
  rw [List.nil_append, List.length_append, mended_nil, hone] at hparts
  refine ⟨by omega, fun q hq h1 h2 => ?_⟩
  have hmem : q ∈ ((p.patches t).filter fun q => q.span.stop ≤ m).filter
      (fun q => !decide (q.span.stop ≤ n)) := by
    have hle := ((p.cells_output ht).2.bounds q hq).2.1
    rw [List.mem_filter, List.mem_filter]
    exact ⟨⟨hq, decide_eq_true h2⟩, by simp; omega⟩
  have := length_le_mended (t := t) (j := m) (i := n + 1) hmem
  omega

/-- A place from which the brace of a nested configuration comes: the brace itself, or the variable
for which the configuration is written out. -/
inductive Pass.Anchor (p : Pass) (t : Text) : Nat → Prop
  | nested {n : Nat} : Nested t n → Anchor p t n
  | flat {f : FlatEntry} : f ∈ p.flats t → Anchor p t f.body.start
  | env {e : EnvEntry} : Hit.env e ∈ p.hits (ofText t) → Anchor p t e.var.start

/-- Where a pass leaves the brace that comes from position `n`. -/
def Pass.landing (p : Pass) (t : Text) (n : Nat) : Nat :=
  p.offset t n - if (ofText t).codeByte? n = some Byte.openBrace then 0 else 22

/-- A brace lands where the pass leaves its position. -/
theorem Pass.landing_brace (h : (ofText t).codeByte? n = some Byte.openBrace) :
    p.landing t n = p.offset t n := by
  rw [landing, if_pos h, Nat.sub_zero]

theorem Nested.brace (h : Nested t n) : (ofText t).codeByte? n = some Byte.openBrace := by
  obtain ⟨c, hc⟩ := Option.isSome_iff_exists.1 h.closed
  exact (closing?_spec hc).1

/-- The configuration of a flat entry begins with a brace. -/
theorem Pass.brace_of_mem_flats {f : FlatEntry} (ht : t.WellFormed) (hf : f ∈ p.flats t) :
    (ofText t).codeByte? f.body.start = some Byte.openBrace := by
  obtain ⟨indent, colon, -, -, hflat⟩ := Pass.change_of_mem_flats ht hf
  exact (closing?_spec hflat.closing).1

/-- A variable begins with a byte of a word. -/
theorem Source.IsEnv.not_brace {e : EnvEntry} {colon value stop : Nat}
    (h : (ofText t).IsEnv e colon value stop) :
    (ofText t).codeByte? e.var.start ≠ some Byte.openBrace := by
  intro hb
  have := h.word.inWord_start
  rw [inWord_of_codeByte? hb (by decide)] at this
  cases this

/-- An entry read from the environment becomes a nested configuration that reads its key from
there. -/
theorem Pass.pinned_landing {e : EnvEntry} (ht : t.WellFormed)
    (he : Hit.env e ∈ p.hits (ofText t)) : Pinned (p.output t) (p.landing t e.var.start) := by
  obtain ⟨colon, value, stop, henv⟩ := (finds_hits p (ofText t)).2.2 _ he
  obtain ⟨o, ho, hpinned⟩ := Pass.pinned_env ht he
  rwa [Pass.landing, if_neg henv.not_brace, ← ho, Nat.add_sub_cancel]

/-- The first patch of an entry read from the environment. -/
theorem Pass.front_of_env {e : EnvEntry} (he : Hit.env e ∈ p.hits (ofText t)) :
    ∃ q ∈ p.patches t, q.span.stop = e.var.start ∧ 22 ≤ q.text.length := by
  refine ⟨_, List.mem_flatMap.2 ⟨_, List.mem_flatMap.2 ⟨_, he, List.mem_singleton.2 rfl⟩,
    List.mem_cons_self⟩, rfl, ?_⟩
  simp only [EnvEntry.change, List.length_append]
  have : (Text.ofString "\x7b ").length + apiKeyField.length +
    (Text.ofString ": ").length + environment.length = 22 := by decide
  omega

/-- What a change keeps comes through the pass. -/
theorem Pass.keeps_kept {c : Change} (ht : t.WellFormed) (hc : c ∈ p.changes t)
    (hk : c.kept.start < c.kept.stop) (htail : c.tail ≠ []) : p.Keeps t c.kept.start := by
  have hfits := (p.made_changes ht c hc).fits ht
  obtain ⟨as, bs, hp, ha, hb⟩ := Pass.patches_around ht hc htail
  obtain ⟨hcases, -⟩ := Pass.parts_around hfits.start_le hk hp ha hb
  refine ⟨Nat.lt_of_lt_of_le hk hfits.stop_le, fun q hq => ?_⟩
  exact (hcases q hq).imp_right (Nat.lt_of_lt_of_le hk)

namespace Pass.Anchor

/-- The byte at an anchor comes through the pass. -/
theorem keeps (h : p.Anchor t n) (ht : t.WellFormed) : p.Keeps t n := by
  cases h with
  | nested h =>
    obtain ⟨x, body, rfl, hx⟩ := h.held
    obtain ⟨h1, h2, -⟩ := hx.closing_at
    refine ⟨by omega, fun q hq => ?_⟩
    rcases hx.patch_cases (p.made_patches ht q hq) with hc | hc | hc <;> omega
  | flat hf =>
    obtain ⟨indent, colon, -, hc, hflat⟩ := Pass.change_of_mem_flats ht hf
    obtain ⟨-, -, -, h4, -⟩ := hflat.order
    exact Pass.keeps_kept ht hc (Nat.lt_of_succ_lt h4) (back_ne_nil indent)
  | env he =>
    obtain ⟨colon, value, stop, henv⟩ := (finds_hits p (ofText t)).2.2 _ he
    obtain ⟨-, -, -, -, h5, h6, -⟩ := henv.order
    exact Pass.keeps_kept (c := EnvEntry.change (ofText t) _ _) ht
      (List.mem_flatMap.2 ⟨_, he, List.mem_singleton.2 rfl⟩)
      (Nat.lt_of_lt_of_le h5 h6) (List.cons_ne_nil _ _)

/-- Behind each of its places a pass leaves a nested configuration. -/
theorem nested_landing (h : p.Anchor t n) (ht : t.WellFormed) :
    Nested (p.output t) (p.landing t n) := by
  cases h with
  | nested h =>
    rw [Pass.landing_brace h.brace]
    exact h.output ht p
  | flat hf =>
    rw [Pass.landing_brace (Pass.brace_of_mem_flats ht hf)]
    exact Pass.nested_flat ht hf
  | env he => exact (Pass.pinned_landing ht he).toNested

/-- Places in order land in order. -/
theorem landing_lt (hn : p.Anchor t n) (hm : p.Anchor t m) (ht : t.WellFormed) (hlt : n < m) :
    p.landing t n < p.landing t m := by
  have hkeeps := hn.keeps ht
  obtain ⟨h1, h2⟩ := Pass.offset_lt ht hkeeps hlt
  refine Nat.lt_of_le_of_lt (Nat.sub_le _ _) ?_
  cases hm with
  | nested h => rwa [Pass.landing_brace h.brace]
  | flat hf => rwa [Pass.landing_brace (Pass.brace_of_mem_flats ht hf)]
  | env he =>
    obtain ⟨colon, value, stop, henv⟩ := (finds_hits p (ofText t)).2.2 _ he
    obtain ⟨q, hq, hstop, hlen⟩ := Pass.front_of_env he
    -- The configuration is put in behind the earlier place.
    have hstart : n < q.span.start := (hkeeps.apart q hq).resolve_left (by omega)
    have := h2 q hq hstart (by omega)
    rw [Pass.landing, if_neg henv.not_brace]
    omega

end Pass.Anchor

/-! ## Counting configurations -/

/-- The positions `S` are places, from `i` on, of configurations that the changes `cs` nest, and `P`
holds of them. -/
def Places (cs : List Change) (i : Nat) (P : Nat → Prop) (S : Finset Nat) : Prop :=
  ∀ n ∈ S, i ≤ n ∧ P n ∧ ∃ c ∈ cs, c.tail ≠ [] ∧ c.kept.start = n

section
variable {cs : List Change} {c : Change} {i k : Nat} {P : Nat → Prop} {S : Finset Nat}

theorem Places.empty (cs : List Change) (i : Nat) (P : Nat → Prop) : Places cs i P ∅ :=
  fun n hn => absurd hn (Finset.notMem_empty n)

/-- The places among the changes behind one. -/
theorem Places.later (h : Places cs k P S) (hik : i ≤ k) : Places (c :: cs) i P S := by
  intro n hn
  obtain ⟨h1, h2, c', hc, h3⟩ := h n hn
  exact ⟨Nat.le_trans hik h1, h2, c', List.mem_cons_of_mem _ hc, h3⟩

/-- A change that nests a configuration before those of the others. -/
theorem Places.insert_kept (h : Places cs k P S) (hi : i ≤ c.kept.start) (hlt : c.kept.start < k)
    (hP : P c.kept.start) (htail : c.tail ≠ []) :
    (insert c.kept.start S).card = S.card + 1 ∧
      Places (c :: cs) i P (insert c.kept.start S) := by
  constructor
  · refine Finset.card_insert_of_notMem fun hm => ?_
    have := (h _ hm).1
    omega
  · intro n hn
    rcases Finset.mem_insert.1 hn with rfl | hn
    · exact ⟨hi, hP, c, List.mem_cons_self, htail, rfl⟩
    · exact h.later (by omega) n hn

end

/-- The places of the entries that changes nest, flat ones and those read from the environment. -/
theorem Tallied.places {f e i j : Nat} {cs : List Change} (h : Tallied t f e cs)
    (hf : Follow Change.span i j cs) : ∃ F E : Finset Nat, F.card = f ∧ E.card = e ∧
      Places cs i (fun n => (ofText t).codeByte? n = some Byte.openBrace) F ∧
      Places cs i (fun n => (ofText t).codeByte? n ≠ some Byte.openBrace) E := by
  induction h generalizing i with
  | nil => exact ⟨∅, ∅, rfl, rfl, Places.empty [] _ _, Places.empty [] _ _⟩
  | gap hg hi _ ih =>
    cases hf with
    | cons h1 h2 h3 =>
      obtain ⟨F, E, hF, hE, hFs, hEs⟩ := ih h3
      exact ⟨F, E, hF, hE, hFs.later (Nat.le_trans h1 h2), hEs.later (Nat.le_trans h1 h2)⟩
  | @flat f e colon entry indent cs hflat hi _ ih =>
    cases hf with
    | cons h1 h2 h3 =>
      obtain ⟨F, E, hF, hE, hFs, hEs⟩ := ih h3
      have ho := hflat.order
      rw [Change.span_start] at h1
      obtain ⟨hcard, hplaces⟩ := hFs.insert_kept (c := entry.change indent)
        (Nat.le_trans h1 (by simp only [FlatEntry.change]; omega))
        (by simp only [Change.span_stop, FlatEntry.change]; omega) (closing?_spec hflat.closing).1
        (back_ne_nil indent)
      exact ⟨_, E, hcard.trans (by rw [hF]), hE, hplaces, hEs.later (Nat.le_trans h1 h2)⟩
  | @env f e colon value stop entry indent cs henv hi _ ih =>
    cases hf with
    | cons h1 h2 h3 =>
      obtain ⟨F, E, hF, hE, hFs, hEs⟩ := ih h3
      have ho := henv.order
      rw [Change.span_start] at h1
      obtain ⟨hcard, hplaces⟩ := hEs.insert_kept (c := entry.change (ofText t) indent)
        (Nat.le_trans h1 (by simp only [EnvEntry.change]; omega))
        (by simp only [Change.span_stop, EnvEntry.change]; omega) henv.not_brace
        (List.cons_ne_nil _ _)
      exact ⟨F, _, hF, hcard.trans (by rw [hE]), hFs.later (Nat.le_trans h1 h2), hplaces⟩

/-- A change that puts something behind what it keeps comes from a flat entry, whose configuration
it keeps, or from an entry read from the environment, whose variable it keeps. -/
theorem Pass.place_cases {c : Change} (ht : t.WellFormed) (hc : c ∈ p.changes t)
    (htail : c.tail ≠ []) : (∃ f ∈ p.flats t, f.body.start = c.kept.start) ∨
      ∃ e, Hit.env e ∈ p.hits (ofText t) ∧ e.var.start = c.kept.start := by
  rcases p.mem_changes ht c hc with ⟨f, hf, colon, indent, -, -, rfl⟩ |
    ⟨e, he, colon, value, stop, indent, -, -, rfl⟩ | ⟨i, j, lead, indent, -, -, rfl⟩
  · exact .inl ⟨f, hf, rfl⟩
  · exact .inr ⟨e, he, rfl⟩
  · exact absurd rfl htail

/-- The places of the entries that a pass nests: the braces of the flat ones, and the variables of
those that are read from the environment. -/
theorem Pass.places (p : Pass) (ht : t.WellFormed) {f e : Nat} (h : Tallied t f e (p.changes t)) :
    ∃ F E : Finset Nat, F.card = f ∧ E.card = e ∧
      (∀ n ∈ F, ∃ f ∈ p.flats t, f.body.start = n) ∧
      ∀ n ∈ E, (ofText t).codeByte? n ≠ some Byte.openBrace ∧
        ∃ e, Hit.env e ∈ p.hits (ofText t) ∧ e.var.start = n := by
  obtain ⟨F, E, hF, hE, hFs, hEs⟩ := h.places (p.follow_changes ht)
  refine ⟨F, E, hF, hE, fun n hn => ?_, fun n hn => ?_⟩
  · obtain ⟨-, hbrace, c, hc, htail, rfl⟩ := hFs n hn
    refine (Pass.place_cases ht hc htail).resolve_right fun ⟨e, he, heq⟩ => ?_
    obtain ⟨colon, value, stop, henv⟩ := (finds_hits p (ofText t)).2.2 _ he
    exact henv.not_brace (heq ▸ hbrace)
  · obtain ⟨-, hbrace, c, hc, htail, rfl⟩ := hEs n hn
    refine ⟨hbrace, (Pass.place_cases ht hc htail).resolve_left fun ⟨f, hf, heq⟩ => ?_⟩
    exact hbrace (heq ▸ Pass.brace_of_mem_flats ht hf)

/-- Different places land at different braces. -/
theorem Pass.card_landing (ht : t.WellFormed) {S : Finset Nat} (hS : ∀ n ∈ S, p.Anchor t n) :
    (S.image (p.landing t)).card = S.card := by
  refine Finset.card_image_of_injOn fun a ha b hb hab => ?_
  rcases Nat.lt_trichotomy a b with hlt | heq | hlt
  · exact absurd hab (Nat.ne_of_lt ((hS a ha).landing_lt (hS b hb) ht hlt))
  · exact heq
  · exact absurd hab.symm (Nat.ne_of_lt ((hS b hb).landing_lt (hS a ha) ht hlt))

/-- The text has `k` nested configurations, and `j` that are read from the environment. -/
structure Stock (t : Text) (k j : Nat) : Prop where
  nested : ∃ A : Finset Nat, A.card = k ∧ ∀ n ∈ A, Nested t n
  pinned : ∃ B : Finset Nat, B.card = j ∧ ∀ n ∈ B, Pinned t n

theorem stock_zero (t : Text) : Stock t 0 0 :=
  ⟨⟨∅, rfl, fun n hn => absurd hn (Finset.notMem_empty n)⟩, ∅, rfl,
    fun n hn => absurd hn (Finset.notMem_empty n)⟩

/-- No flat entry is nested already. -/
theorem Nested.ne_flat (h : Nested t n) (ht : t.WellFormed) {f : FlatEntry} (hf : f ∈ p.flats t) :
    f.body.start ≠ n := by
  obtain ⟨x, body, rfl, hx⟩ := h.held
  obtain ⟨h1, -⟩ := hx.closing_at
  obtain ⟨indent, colon, -, -, hflat⟩ := Pass.change_of_mem_flats ht hf
  have ho := hflat.order
  rcases hx.flat_cases hflat with hc | hc | hc | hc <;> omega

/-- **A pass adds a nested configuration for every entry that it counts**, and takes none away. -/
theorem Pass.stock_output (p : Pass) (ht : t.WellFormed) {k j f e : Nat} (h : Stock t k j)
    (hf : Tallied t f e (p.changes t)) : Stock (p.output t) (k + (f + e)) (j + e) := by
  obtain ⟨⟨A, hA, hnested⟩, B, hB, hpinned⟩ := h
  obtain ⟨F, E, hF, hE, hflat, henv⟩ := p.places ht hf
  have hAF : Disjoint A F := by
    refine Finset.disjoint_left.2 fun n hn hn' => ?_
    obtain ⟨f, hf, heq⟩ := hflat n hn'
    exact (hnested n hn).ne_flat ht hf heq
  have hAFE : Disjoint (A ∪ F) E := by
    refine Finset.disjoint_left.2 fun n hn hn' => (henv n hn').1 ?_
    rcases Finset.mem_union.1 hn with hn | hn
    · exact (hnested n hn).brace
    · obtain ⟨f, hf, rfl⟩ := hflat n hn
      exact Pass.brace_of_mem_flats ht hf
  have hBE : Disjoint B E :=
    Finset.disjoint_left.2 fun n hn hn' => (henv n hn').1 (hpinned n hn).brace
  have hanchor : ∀ n ∈ A ∪ F ∪ E, p.Anchor t n := by
    intro n hn
    rcases Finset.mem_union.1 hn with hn | hn
    · rcases Finset.mem_union.1 hn with hn | hn
      · exact .nested (hnested n hn)
      · obtain ⟨f, hf, rfl⟩ := hflat n hn
        exact .flat hf
    · obtain ⟨-, e, he, rfl⟩ := henv n hn
      exact .env he
  have hanchor' : ∀ n ∈ B ∪ E, p.Anchor t n := by
    intro n hn
    rcases Finset.mem_union.1 hn with hn | hn
    · exact .nested (hpinned n hn).toNested
    · obtain ⟨-, e, he, rfl⟩ := henv n hn
      exact .env he
  refine ⟨⟨(A ∪ F ∪ E).image (p.landing t), ?_, ?_⟩, (B ∪ E).image (p.landing t), ?_, ?_⟩
  · rw [Pass.card_landing ht hanchor, Finset.card_union_of_disjoint hAFE,
      Finset.card_union_of_disjoint hAF, hA, hF, hE, Nat.add_assoc]
  · intro o ho
    obtain ⟨n, hn, rfl⟩ := Finset.mem_image.1 ho
    exact (hanchor n hn).nested_landing ht
  · rw [Pass.card_landing ht hanchor', Finset.card_union_of_disjoint hBE, hB, hE]
  · intro o ho
    obtain ⟨n, hn, rfl⟩ := Finset.mem_image.1 ho
    rcases Finset.mem_union.1 hn with hn | hn
    · rw [Pass.landing_brace (hpinned n hn).brace]
      exact (hpinned n hn).output ht p
    · obtain ⟨-, e, he, rfl⟩ := henv n hn
      exact Pass.pinned_landing ht he

/-- A run has a nested configuration for every entry that it counts. -/
theorem TalliedRun.stock {f e : Nat} {t u : Text} (h : TalliedRun f e t u) {k j : Nat}
    (hs : Stock t k j) : Stock u (k + (f + e)) (j + e) := by
  induction h generalizing k j with
  | nil => exact hs
  | @cons f e f' e' t u p ht htally _ ih =>
    have := ih (p.stock_output ht hs htally)
    rwa [show k + (f + e) + (f' + e') = k + (f + f' + (e + e')) by omega, Nat.add_assoc j] at this

end

end ProviderNest
