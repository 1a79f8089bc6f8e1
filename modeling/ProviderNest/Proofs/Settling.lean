import ProviderNest.Proofs.Interior
import ProviderNest.Proofs.Locality
import ProviderNest.Proofs.Migrated
import ProviderNest.Proofs.Tally

/-!
# What a second run finds

The pass over `providers` blocks rebuilds a block with a flat entry as a whole and goes on behind
it, so it does not look into the block. A block with a flat entry that lies further inside is left
as it is (`Source.Hidden`), unless it is itself one of the entries that are nested.

A second run finds exactly these blocks (`Text.Orderly.exists_block_output_iff`). What the first run
leaves is cut at a block of the new text: either the block begins among the cells that were kept,
and then it stood there before and the sweep found it, or it begins in a rebuilt body, and then one
of the old entries hid it.
-/

namespace ProviderNest

open LexState Source

/-- A block with a flat entry begins at position `i` inside a block that is rebuilt, and is not one
of the entries of that block that are nested. -/
def Source.Hidden (s : Source) (i : Nat) : Prop := ∃ b a b0, s.block? i = some b ∧
  s.flatEntriesOf b ≠ [] ∧ Hit.object a b0 ∈ Pass.providersBlock.hits s ∧
  b0.opening < i ∧ i < b0.closing ∧ ∀ f ∈ s.flatEntriesOf b0, f.name.start ≠ i

/-- An object in order: its entries close their braces, end in code and are not glued to a word
before them, and only trivia stands before the first. -/
structure Text.OrderlyAt (t : Text) (b : Braces) : Prop where
  closed : ∀ e ∈ (ofText t).entries (b.opening + 1) b.closing,
    ProviderNest.closers ((ofText t).slice e.start e.stop) 0 = some 0
  ends : ∀ e ∈ (ofText t).entries (b.opening + 1) b.closing, ¬ t.Dangles e.stop
  edge : ∀ e ∈ (ofText t).entries (b.opening + 1) b.closing, (ofText t).inWord (e.start - 1) = false
  front : ∀ e ∈ ((ofText t).entries (b.opening + 1) b.closing).head?,
    (ofText t).TriviaRun (b.opening + 1) e.start

instance (t : Text) (b : Braces) : Decidable (t.OrderlyAt b) :=
  let es := (ofText t).entries (b.opening + 1) b.closing
  decidable_of_iff ((∀ e ∈ es, ProviderNest.closers ((ofText t).slice e.start e.stop) 0 = some 0) ∧
      (∀ e ∈ es, ¬ t.Dangles e.stop) ∧ (∀ e ∈ es, (ofText t).inWord (e.start - 1) = false) ∧
      ∀ e ∈ es.head?, (ofText t).TriviaRun (b.opening + 1) e.start)
    ⟨fun h => ⟨h.1, h.2.1, h.2.2.1, h.2.2.2⟩, fun h => ⟨h.closed, h.ends, h.edge, h.front⟩⟩

/-! ## What a sweep passes over -/

/-- A sweep passes over a find only if it goes on behind it from an earlier one. -/
theorem sweep_covers {α : Type} {f : Nat → Option (List α × Nat)} {n i r k : Nat}
    {x : List α × Nat} (hk : f k = some x) (hi : i ≤ k) (hn : k < i + n) (hr : r ≤ k) :
    ∃ j found next, f j = some (found, next) ∧ j ≤ k ∧ (j = k ∨ k < next) ∧
      ∀ a ∈ found, a ∈ sweep f n i r := by
  induction n generalizing i r with
  | zero => omega
  | succ n ih =>
    rw [sweep]
    split
    · exact ih (by omega) (by omega) hr
    split
    · next found next hfound =>
      rcases Nat.lt_or_ge k next with hlt | hge
      · exact ⟨i, found, next, hfound, hi, .inr hlt, fun a ha => List.mem_append_left _ ha⟩
      rcases Nat.eq_or_lt_of_le hi with rfl | hlt
      · exact ⟨i, found, next, hfound, hi, .inl rfl, fun a ha => List.mem_append_left _ ha⟩
      obtain ⟨j, found', next', h1, h2, h3, h4⟩ := ih hlt (by omega) hge
      exact ⟨j, found', next', h1, h2, h3, fun a ha => List.mem_append_right _ (h4 a ha)⟩
    · next hnone =>
      rcases Nat.eq_or_lt_of_le hi with rfl | hlt
      · rw [hk] at hnone
        cases hnone
      · exact ih hlt (by omega) hr

section
variable {s : Source} {i k : Nat} {b : Braces}

/-- Where the block pass finds a block with a flat entry, it rebuilds the object and goes on behind
it. -/
theorem find?_providersBlock {f : List Hit × Nat} :
    Pass.providersBlock.find? s i = some f ↔ ∃ b, s.block? i = some b ∧ s.flatEntriesOf b ≠ [] ∧
      f = ([.object i b], b.closing + 1) := by
  obtain ⟨found, next⟩ := f
  rw [Pass.find?]
  simp only [Option.bind_eq_bind, Option.bind_eq_some_iff, objectHit?_eq_some, Prod.mk.injEq]

theorem lt_size_of_block? (h : s.block? i = some b) : i < s.size := by
  obtain ⟨key, colon, rfl, hkey, -⟩ := block?_eq_some.1 h
  exact Nat.lt_of_lt_of_le hkey.word.lt hkey.word.stop_le

theorem closing?_of_block? (h : s.block? i = some b) : s.closing? b.opening = some b.closing :=
  (introduces_of_block? h).1

/-- A block with a flat entry is rebuilt, or it begins inside one that is. -/
theorem exists_hit_of_block? (hb : s.block? k = some b) (hne : s.flatEntriesOf b ≠ []) :
    ∃ a b0, Hit.object a b0 ∈ Pass.providersBlock.hits s ∧ s.block? a = some b0 ∧ a ≤ k ∧
      (a = k ∨ k ≤ b0.closing) := by
  have hfind := find?_providersBlock.2 ⟨b, hb, hne, rfl⟩
  have hsize := lt_size_of_block? hb
  obtain ⟨a, found, next, hf, ha, hk, hmem⟩ :=
    sweep_covers (f := fun i => Pass.providersBlock.find? s i) (i := 0) (n := s.size)
      hfind (Nat.zero_le k) (by omega) (Nat.zero_le k)
  obtain ⟨b0, hb0, -, heq⟩ := find?_providersBlock.1 hf
  cases heq
  exact ⟨a, b0, hmem _ List.mem_cons_self, hb0, ha, hk.imp id Nat.le_of_lt_succ⟩

/-- A run of the pass nests nothing if there is no block with a flat entry. -/
theorem countEdits_providersBlock {t : Text} : countEdits (Pass.providersBlock.edits t) = 0 ↔
    ¬ ∃ i b, (ofText t).block? i = some b ∧ (ofText t).flatEntriesOf b ≠ [] := by
  constructor
  · rintro h ⟨i, b, hb, hne⟩
    obtain ⟨a, b0, hmem, -⟩ := exists_hit_of_block? hb hne
    rw [Pass.hits_of_count h] at hmem
    cases hmem
  · intro h
    have hnone : Pass.providersBlock.hits (ofText t) = [] := sweep_eq_nil fun k _ _ => by
      rw [Option.eq_none_iff_forall_ne_some]
      intro f hf
      obtain ⟨b, hb, hne, -⟩ := find?_providersBlock.1 hf
      exact h ⟨k, b, hb, hne⟩
    rw [Pass.edits, hnone]
    rfl

end

/-! ## The entries of an object in order -/

/-- The entries of an object follow each other up to its end. -/
theorem Source.Laid.follow {t : Text} {stop i : Nat} {es : List Span} (h : Laid t stop i es) :
    Follow (fun e => e) i stop es := by
  induction h with
  | nil h => exact .nil h
  | cons h _ ih => exact .cons h.le (Nat.le_of_lt h.lt) ih

/-- Of spans that follow each other only one contains a position. -/
theorem Follow.eq_of_mem {α : Type} {span : α → Span} {i j k : Nat} {as : List α}
    (h : Follow span i j as) {a b : α} (ha : a ∈ as) (hb : b ∈ as)
    (hka : (span a).start ≤ k ∧ k < (span a).stop) (hkb : (span b).start ≤ k ∧ k < (span b).stop) :
    a = b := by
  induction h with
  | nil => cases ha
  | @cons i j c as _ _ hrest ih =>
    rcases List.mem_cons.1 ha with rfl | hma <;> rcases List.mem_cons.1 hb with rfl | hmb
    · rfl
    · have := (hrest.bounds b hmb).1
      omega
    · have := (hrest.bounds a hma).1
      omega
    · exact ih hma hmb

/-- What is neither a blank nor a comma belongs to an entry. -/
theorem Source.Laid.exists_entry {t : Text} {stop i k : Nat} {es : List Span} {b : UInt8}
    (h : Laid t stop i es) (hi : i ≤ k) (hk : k < stop) (hb : t[k]? = some b)
    (hloose : ∀ c ∈ Text.loose, b ∉ String.utf8EncodeChar c) :
    ∃ e ∈ es, e.start ≤ k ∧ k < e.stop := by
  have hmem {i j : Nat} (hi : i ≤ k) (hk : k < j) : b ∈ (ofText t).bytes ⟨i, j⟩ := by
    have := getElem?_bytes (s := ofText t) (x := ⟨i, j⟩) (k := k - i) (by dsimp only; omega)
    rw [Nat.add_sub_cancel' hi, byte?_ofText, hb] at this
    exact List.mem_of_getElem? this
  induction h with
  | nil _ hgap => exact absurd (hmem hi hk) (hgap.not_mem hloose)
  | @cons i e es he _ ih =>
    rcases Nat.lt_or_ge k e.start with hlt | hge
    · exact absurd (hmem hi hlt) (he.gap.not_mem hloose)
    rcases Nat.lt_or_ge k e.stop with hlt | hge'
    · exact ⟨e, List.mem_cons_self, hge, hlt⟩
    · obtain ⟨x, hx, hxk⟩ := ih hge'
      exact ⟨x, List.mem_cons_of_mem _ hx, hxk⟩

section
variable {t : Text} {o c : Nat} {b : Braces}

/-- Behind an entry come blanks, and then a comma or the closing brace. -/
theorem behind_entry (ht : t.WellFormed) (h : (ofText t).closing? o = some c) :
    ∀ e ∈ (ofText t).entries (o + 1) c, ∃ y d r, (ofText t).slice e.stop t.length = y ++ d :: r ∧
      Text.MadeOf Text.blanks (y.map Cell.byte) ∧ (d = .comma ∨ d = ⟨Byte.closeBrace, .code⟩) := by
  intro e he
  obtain ⟨x, hx, hxe⟩ := List.mem_filterMap.1 he
  have hseg := isSegment_of_closing? ht h x hx
  have hlt := hseg.stop_lt
  obtain ⟨h1, h2, h3, h4, h5, -⟩ := trimBlank?_some hseg.le
    (by rw [size_ofText]; exact Nat.le_of_lt hlt) hxe
  obtain ⟨y, hy, hcell⟩ := hseg.ends
  rw [bytes_eq] at h5
  refine ⟨(ofText t).slice e.stop x.stop, ⟨y, .code⟩, (ofText t).slice (x.stop + 1) t.length, ?_,
    h5, hcell.imp (fun h => by rw [h]) fun h => by rw [h]⟩
  rw [← slice_append _ h3 (Nat.le_of_lt hlt), slice_eq_cons _ hlt (codeByte?_eq_some.1 hy)]

/-- The entries of an object in order can be written anew. -/
theorem Text.OrderlyAt.ready (h : t.OrderlyAt b) (ht : t.WellFormed)
    (hclose : (ofText t).closing? b.opening = some b.closing)
    (hb : (ofText t).Balanced (b.opening + 1) b.closing) :
    ∀ e ∈ (ofText t).entries (b.opening + 1) b.closing, t.Ready e := by
  intro e he
  obtain ⟨-, hlt, hcb⟩ := closing?_spec hclose
  exact
    { isEntry := (laid_entries ht hclose).isEntry e he
      level := piece_of_mem_entries hclose hb e he
      closed := h.closed e he
      comma := (level_anew ht Text.IsIndent.nil hclose hb h.ends e he).2
      edge := h.edge e he
      trimmed := trimmed_of_mem_entries hlt (Nat.le_of_lt (lt_size_of_codeByte? hcb)) e he
      behind := behind_entry ht hclose e he }

end

/-! ## The cells that a pass leaves -/

/-- The cells between the braces of a block that is rebuilt, where its key is at position `a`. -/
def Text.rebuiltCells (t : Text) (a : Nat) (b : Braces) : List Cell :=
  t.bodyCells ((ofText t).indentOf a ++ .ofString "  ") ((ofText t).indentOf a)
    ((ofText t).entries (b.opening + 1) b.closing)

/-- The cells from position `i` up to position `stop` with the changes of some hits woven in. -/
def Text.wovenCells (t : Text) (stop i : Nat) (hs : List Hit) : List Cell :=
  weave (ofText t).slice (Change.headCells t) Change.tailCells stop i
    (hs.flatMap fun h => h.changes (ofText t) ((ofText t).indentOf h.anchor))

/-- All hits are blocks. -/
def Source.AllBlocks (s : Source) (hs : List Hit) : Prop :=
  ∀ h ∈ hs, ∃ a b, h = .object a b ∧ s.block? a = some b

section
variable {t : Text} {i j a : Nat} {b : Braces} {hs : List Hit}

/-- The block pass hits blocks and nothing else. -/
theorem allBlocks_hits {s : Source} : s.AllBlocks (Pass.providersBlock.hits s) := by
  intro h hm
  obtain ⟨k, found, next, hk, hfound⟩ := mem_sweep hm
  obtain ⟨b, hb, -, heq⟩ := find?_providersBlock.1 hk
  cases heq
  exact ⟨k, b, List.mem_singleton.1 hfound, hb⟩

/-- A rebuilt block among the cells that a pass leaves. -/
theorem wovenCells_cons (ht : t.WellFormed) (hb : (ofText t).block? a = some b)
    (hs' : (ofText t).AllBlocks hs) (hf : Follow Hit.span i j (.object a b :: hs)) :
    t.wovenCells j i (.object a b :: hs) = (ofText t).slice i b.opening ++
      (⟨Byte.openBrace, .code⟩ :: (t.rebuiltCells a b ++
        ⟨Byte.closeBrace, .code⟩ :: t.wovenCells j (b.closing + 1) hs)) := by
  have hclose := closing?_of_block? hb
  obtain ⟨hopen, hlt, hcb⟩ := closing?_spec hclose
  cases hf with
  | cons h1 h2 hrest =>
    have hobject := follow_object (a := a) ht hclose
      ((ofText t).indentOf (Hit.object a b).anchor)
    have hfollow : Follow Change.span (b.closing + 1) j (hs.flatMap fun h =>
        h.changes (ofText t) ((ofText t).indentOf h.anchor)) := hrest.flatMap fun h hm => by
      obtain ⟨a', b', rfl, hb'⟩ := hs' h hm
      exact Hit.Valid.follow (h := .object a' b') ht (introduces_of_block? hb') _
    have hopening : i ≤ b.opening := h1
    rw [Text.wovenCells, List.flatMap_cons, weave_append (slice_append (ofText t))
        (hobject.of_le (Nat.le_succ_of_le hopening)) (hfollow.of_le (Nat.le_succ b.closing)),
      ← keep_weave (slice_append (ofText t)) (Nat.le_succ_of_le hopening) hobject,
      ← keep_weave (slice_append (ofText t)) (Nat.le_succ b.closing) hfollow]
    have hbody := weave_object (a := a) ht (isIndent_indentOf (ofText t) a) hclose
    rw [show (Hit.object a b).anchor = a from rfl, hbody, ← slice_append _ hopening (Nat.le_succ _),
      slice_eq_cons _ (Nat.lt_succ_self _) (codeByte?_eq_some.1 hopen), slice_self,
      slice_eq_cons _ (Nat.lt_succ_self _) (codeByte?_eq_some.1 hcb), slice_self]
    simp [Text.rebuiltCells, Text.wovenCells]

theorem Source.AllBlocks.of_cons {s : Source} {h : Hit} (hs' : s.AllBlocks (h :: hs)) :
    (∃ a b, h = .object a b ∧ s.block? a = some b) ∧ s.AllBlocks hs :=
  ⟨hs' h List.mem_cons_self, fun x hx => hs' x (List.mem_cons_of_mem _ hx)⟩

/-- What a pass leaves is renewed if each body is. -/
theorem renewed_wovenCells (ht : t.WellFormed) (hs' : (ofText t).AllBlocks hs)
    (hf : Follow Hit.span i j hs) (hr : ∀ a b, Hit.object a b ∈ hs →
      Renewal ((ofText t).slice (b.opening + 1) b.closing) (t.rebuiltCells a b)) :
    Renewed ((ofText t).slice i j) (t.wovenCells j i hs) := by
  induction hf with
  | nil => exact .refl _
  | @cons i j h hs h1 h2 h3 ih =>
    obtain ⟨⟨a, b, rfl, hb⟩, hrest⟩ := hs'.of_cons
    have hbody := hr a b List.mem_cons_self
    have ih := ih hrest fun a b hm => hr a b (List.mem_cons_of_mem _ hm)
    have hle : b.closing + 1 ≤ j := h3.le
    have hopening : i ≤ b.opening := h1
    have hclosing : b.opening ≤ b.closing + 1 := h2
    have hbraces := (Encloses.of_closing (closing?_of_block? hb)).slice_eq
    rw [wovenCells_cons ht hb hrest (.cons h1 h2 h3),
      ← slice_append _ hopening (Nat.le_trans hclosing hle), ← slice_append _ hclosing hle, hbraces,
      List.cons_append, List.append_assoc]
    exact (Renewed.refl _).append (.body hbody ih)

/-- A rebuilt block stands in what a pass leaves. -/
theorem wovenCells_of_mem (ht : t.WellFormed) (hs' : (ofText t).AllBlocks hs)
    (hf : Follow Hit.span i j hs) (hm : Hit.object a b ∈ hs) :
    ∃ xs ys, t.wovenCells j i hs =
      xs ++ (⟨Byte.openBrace, .code⟩ ::
        (t.rebuiltCells a b ++ ⟨Byte.closeBrace, .code⟩ :: ys)) := by
  induction hf with
  | nil => cases hm
  | @cons i j h hs h1 h2 h3 ih =>
    obtain ⟨⟨a', b', rfl, hb⟩, hrest⟩ := hs'.of_cons
    have hcells := wovenCells_cons ht hb hrest (.cons h1 h2 h3)
    rcases List.mem_cons.1 hm with heq | hm
    · cases heq
      exact ⟨_, _, hcells⟩
    · obtain ⟨xs, ys, hxs⟩ := ih hrest hm
      refine ⟨(ofText t).slice i b'.opening ++ (⟨Byte.openBrace, .code⟩ ::
        (t.rebuiltCells a' b' ++ ⟨Byte.closeBrace, .code⟩ :: xs)), ys, ?_⟩
      rw [hcells, show b'.closing + 1 = (Hit.object a' b').span.stop from rfl, hxs]
      simp

/-- **What a pass leaves is cut** where the text was cut, between two hits, or in a body that is
rebuilt. -/
theorem wovenCells_cut (ht : t.WellFormed) (hs' : (ofText t).AllBlocks hs)
    (hf : Follow Hit.span i j hs) (hj : j ≤ t.length) {us vs : List Cell}
    (h : t.wovenCells j i hs = us ++ vs) :
    (∃ k gs gs', hs = gs ++ gs' ∧ Follow Hit.span i k gs ∧ Follow Hit.span k j gs' ∧
      us = t.wovenCells k i gs ∧ vs = t.wovenCells j k gs') ∨
    ∃ a b ps qs xs ys, Hit.object a b ∈ hs ∧ t.rebuiltCells a b = ps ++ qs ∧
      us = xs ++ ⟨Byte.openBrace, .code⟩ :: ps ∧ vs = qs ++ ⟨Byte.closeBrace, .code⟩ :: ys := by
  induction hf generalizing us with
  | @nil i j hij =>
    obtain ⟨h1, h2, h3⟩ := slice_split hij (by rwa [size_ofText]) h
    exact .inl ⟨i + us.length, [], [], rfl, .nil (Nat.le_add_right _ _), .nil h1, h2.symm, h3.symm⟩
  | @cons i j g hs h1 h2 h3 ih =>
    obtain ⟨⟨a, b, rfl, hb⟩, hrest⟩ := hs'.of_cons
    have hle := h3.le
    have hopening : i ≤ b.opening := h1
    have hcells {k : Nat} (hk : k ≤ b.opening) :=
      wovenCells_cons ht hb hrest (Follow.cons (i := k) hk h2 h3)
    rw [hcells hopening] at h
    rcases append_cons_cut h with ⟨ms, hms, rfl⟩ | ⟨ms, rfl, hbody⟩
    · -- The cut is before the body.
      obtain ⟨h4, h5, h6⟩ := slice_split hopening
        (by rw [size_ofText]; exact Nat.le_trans (Nat.le_trans h2 hle) hj) hms
      refine .inl ⟨i + us.length, [], _, rfl, .nil (Nat.le_add_right _ _), .cons h4 h2 h3, h5.symm,
        ?_⟩
      rw [hcells h4, h6]
    rcases append_cons_cut hbody with ⟨ns, hns, rfl⟩ | ⟨ns, rfl, hbehind⟩
    · exact .inr ⟨a, b, ms, ns, _, _, List.mem_cons_self, hns, rfl, rfl⟩
    -- The cut is behind the body.
    rcases ih hrest hj hbehind with ⟨k, gs, gs', rfl, h4, h5, rfl, rfl⟩ |
      ⟨a', b', ps, qs, xs, ys, hm, hps, rfl, rfl⟩
    · refine .inl ⟨k, .object a b :: gs, gs', rfl, .cons h1 h2 h4, h5, ?_, rfl⟩
      rw [wovenCells_cons ht hb (fun x hx => hrest x (List.mem_append_left _ hx)) (.cons h1 h2 h4)]
      rfl
    · exact .inr ⟨a', b', ps, qs, _, ys, List.mem_cons_of_mem _ hm, hps,
        by rw [← List.cons_append, ← List.append_assoc, ← List.cons_append, ← List.append_assoc],
        rfl⟩

end

/-! ## A second run -/

section
variable {t : Text}

/-- There is a block with a flat entry if the cells have one. -/
theorem exists_block_iff : (∃ i b, (ofText t).block? i = some b ∧ (ofText t).flatEntriesOf b ≠ []) ↔
    ∃ ds, HasBlock (ofText t).cells.toList ds ∧ HasFlat ds := by
  have hall := slice_zero_size (ofText t)
  rw [size_ofText] at hall
  have hiff {ds : List Cell} : HasBlock (ofText t).cells.toList ds ↔
      ∃ k, 0 ≤ k ∧ k < t.length ∧ (k = 0 ∨ (ofText t).inWord (k - 1) = false) ∧
        BlockCells ((ofText t).slice k t.length) ds := by
    rw [← hall]
    exact hasBlock_slice_iff (Nat.zero_le _) (Nat.le_of_eq (size_ofText t).symm) (.inl rfl)
  constructor
  · rintro ⟨i, b, hb, hne⟩
    have hlt := lt_size_of_block? hb
    rw [size_ofText] at hlt
    obtain ⟨hedge, hblock⟩ := blockCells_of_block? hb
    exact ⟨_, hiff.2 ⟨i, Nat.zero_le i, hlt, hedge, hblock⟩,
      (flatEntriesOf_ne_nil_iff (closing?_of_block? hb)).1 hne⟩
  · rintro ⟨ds, hhas, hf⟩
    obtain ⟨i, -, hlt, hedge, hb⟩ := hiff.1 hhas
    obtain ⟨b, hblock, rfl⟩ := block?_of_blockCells (Nat.le_of_lt hlt) hedge hb
    exact ⟨i, b, hblock, (flatEntriesOf_ne_nil_iff (closing?_of_block? hblock)).2 hf⟩

/-- What is asked of a text: the brackets of every block are balanced, and the blocks that are
rebuilt are in order. -/
structure Text.Orderly (t : Text) : Prop where
  balanced : ∀ i b, (ofText t).block? i = some b → (ofText t).Balanced (b.opening + 1) b.closing
  orderly : ∀ a b, Hit.object a b ∈ Pass.providersBlock.hits (ofText t) → t.OrderlyAt b

variable {a k : Nat} {b b0 : Braces} {ds : List Cell}

/-- A block inside an object is hidden by one of the entries, unless its key is that of a flat
entry. -/
theorem hides_iff (ht : t.WellFormed) (hclose : (ofText t).closing? b0.opening = some b0.closing)
    (hb : (ofText t).block? k = some b) :
    (b0.opening < k ∧ k < b0.closing ∧ ∀ f ∈ (ofText t).flatEntriesOf b0, f.name.start ≠ k) ↔
      ∃ e ∈ (ofText t).entries (b0.opening + 1) b0.closing,
        t.Hides e k ((ofText t).slice (b.opening + 1) b.closing) := by
  obtain ⟨hedge, hblock⟩ := blockCells_of_block? hb
  have hlaid := laid_entries ht hclose
  constructor
  · rintro ⟨hlt, hlt', hname⟩
    have hcell := hblock.getElem? (by rw [size_ofText])
    obtain ⟨e, he, h1, h2⟩ := hlaid.exists_entry hlt hlt'
      (getElem?_of_codeByte? (codeByte?_eq_some.2 hcell)) (by decide)
    exact ⟨e, he, h1, h2, hedge, hblock,
      fun f hf => hname f (List.mem_filterMap.2 ⟨e, he, hf⟩)⟩
  · rintro ⟨e, he, hk⟩
    obtain ⟨h1, -, h2⟩ := hlaid.follow.bounds e he
    have hstart := hk.start_le
    have hstop := hk.lt
    refine ⟨by omega, by omega, fun f hflat heq => ?_⟩
    -- A flat entry with its key there would be this entry.
    obtain ⟨e', he', hf⟩ := List.mem_filterMap.1 hflat
    obtain ⟨⟨colon, hisFlat⟩, h3, h4, -⟩ := flatIn?_eq_some (hlaid.follow.bounds e' he').2.1 hf
    obtain ⟨h5, h6, h7, h8, -⟩ := hisFlat.order
    obtain rfl := hlaid.follow.eq_of_mem (k := k) he he' ⟨hstart, hstop⟩ ⟨by omega, by omega⟩
    exact hk.not_name f hf heq

namespace Text.Orderly

/-- In an orderly text every entry of an object that is rebuilt has what is asked of it. -/
theorem ready (h : t.Orderly) (ht : t.WellFormed)
    (hm : Hit.object a b ∈ Pass.providersBlock.hits (ofText t)) :
    ∀ e ∈ (ofText t).entries (b.opening + 1) b.closing, t.Ready e :=
  have hb := (mem_hits_providersBlock hm).1
  (h.orderly a b hm).ready ht (closing?_of_block? hb) (h.balanced a b hb)

/-- In an orderly text the new body of an object that is rebuilt can take the place of the old
one. -/
theorem renewal (h : t.Orderly) (ht : t.WellFormed)
    (hm : Hit.object a b ∈ Pass.providersBlock.hits (ofText t)) :
    Renewal ((ofText t).slice (b.opening + 1) b.closing) (t.rebuiltCells a b) := by
  have hb := (mem_hits_providersBlock hm).1
  have hclose := closing?_of_block? hb
  obtain ⟨-, hlt, hcb⟩ := closing?_spec hclose
  refine renewal_bodyCells ht (isIndent_indentOf _ _) hclose (h.balanced a b hb) (h.ready ht hm)
    fun e he => ⟨?_, ?_, (h.orderly a b hm).front e he⟩
  · exact ((laid_entries ht hclose).follow.bounds e (List.mem_of_mem_head? he)).1
  · exact (mem_entries (List.mem_of_mem_head? he) hlt (Nat.le_of_lt (lt_size_of_codeByte? hcb))).2

/-- **The hidden blocks** are those in the bodies that are rebuilt. -/
theorem exists_hidden_iff (h : t.Orderly) (ht : t.WellFormed) : (∃ i, (ofText t).Hidden i) ↔
    ∃ a b ds, Hit.object a b ∈ Pass.providersBlock.hits (ofText t) ∧
      HasBlock (t.rebuiltCells a b) ds ∧ HasFlat ds := by
  have hrebuilt {a : Nat} {b : Braces} {ds : List Cell}
      (hm : Hit.object a b ∈ Pass.providersBlock.hits (ofText t)) (hf : HasFlat ds) :
      HasBlock (t.rebuiltCells a b) ds ↔
        ∃ e ∈ (ofText t).entries (b.opening + 1) b.closing, ∃ k, t.Hides e k ds :=
    hasBlock_bodyCells_iff (Text.isIndent_deeper (isIndent_indentOf _ a)) (isIndent_indentOf _ a)
      (h.ready ht hm) hf
  constructor
  · rintro ⟨i, b, a, b0, hb, hne, hm, hbetween⟩
    have hf := (flatEntriesOf_ne_nil_iff (closing?_of_block? hb)).1 hne
    obtain ⟨e, he, hhides⟩ :=
      (hides_iff ht (closing?_of_block? (mem_hits_providersBlock hm).1) hb).1 hbetween
    exact ⟨a, b0, _, hm, (hrebuilt hm hf).2 ⟨e, he, i, hhides⟩, hf⟩
  · rintro ⟨a, b0, ds, hm, hhas, hf⟩
    obtain ⟨e, he, k, hk⟩ := (hrebuilt hm hf).1 hhas
    have hsize := (h.ready ht hm e he).stop_le
    have hlt := hk.lt
    obtain ⟨b, hb, rfl⟩ := block?_of_blockCells (by omega) hk.edge hk.block
    exact ⟨k, b, a, b0, hb, (flatEntriesOf_ne_nil_iff (closing?_of_block? hb)).2 hf, hm,
      (hides_iff ht (closing?_of_block? (mem_hits_providersBlock hm).1) hb).2 ⟨e, he, hk⟩⟩

end Text.Orderly

variable {gs gs' : List Hit}

/-- A block with a flat entry that begins in none of the bodies that are rebuilt is rebuilt. -/
theorem mem_of_kept (hhits : Pass.providersBlock.hits (ofText t) = gs ++ gs')
    (hf : Follow Hit.span 0 k gs) (hf' : Follow Hit.span k t.length gs')
    (hb : (ofText t).block? k = some b) (hne : (ofText t).flatEntriesOf b ≠ []) :
    Hit.object k b ∈ gs' := by
  obtain ⟨hedge, hblock⟩ := blockCells_of_block? hb
  have hword : (ofText t).inWord k = true := inWord_eq (hblock.getElem? (by rw [size_ofText]))
  obtain ⟨a, b0, hm, hb0, hak, hcover⟩ := exists_hit_of_block? hb hne
  rw [hhits, List.mem_append] at hm
  obtain ⟨key, colon, rfl, hkey, -, hopening, hclose⟩ := block?_eq_some.1 hb0
  obtain ⟨hbrace, hlt, -⟩ := closing?_spec hclose
  have h1 := hkey.word.lt
  have h2 := hkey.stop_le_colon
  have h3 := hkey.colon_lt_value
  have hbefore (hg : Hit.object key.name.start b0 ∈ gs) : b0.closing + 1 ≤ k := (hf.bounds _ hg).2.2
  rcases hkey.start_or_behind hak hword hedge with rfl | hbehind
  · obtain rfl : b = b0 := Option.some.inj (hb.symm.trans hb0)
    exact hm.resolve_left fun hg => by
      have := hbefore hg
      omega
  · -- It would begin behind the brace of a block that the sweep goes on behind.
    have hne' : b0.opening ≠ k := fun heq => by
      rw [← heq, inWord_of_codeByte? hbrace (by decide)] at hword
      cases hword
    have hle := hcover.resolve_left (by omega)
    rcases hm with hg | hg
    · have := hbefore hg
      omega
    · have : k ≤ b0.opening := (hf'.bounds _ hg).1
      omega

/-- The body of a block that is rebuilt, read from what the pass leaves. -/
theorem eq_rebuiltCells (ht : t.WellFormed) (hs : (ofText t).AllBlocks gs')
    (hf' : Follow Hit.span k t.length gs') (hm : Hit.object k b ∈ gs')
    (hb : BlockCells (t.wovenCells t.length k gs') ds) :
    ∃ a b', Hit.object a b' ∈ gs' ∧ ds = t.rebuiltCells a b' := by
  obtain ⟨a, b0, heq, hblock⟩ := hs _ hm
  cases heq
  obtain ⟨key, colon, rfl, hkey, -, hopening, -⟩ := block?_eq_some.1 hblock
  cases hf' with
  | nil => cases hm
  | @cons _ _ g gs' h1 h2 hrest =>
    -- The brace of the first hit is that of the block, or stands before it.
    obtain ⟨⟨a', b', rfl, hb'⟩, hs'⟩ := hs.of_cons
    have hle : b'.opening ≤ b.opening := by
      rcases List.mem_cons.1 hm with heq | hm
      · cases heq
        exact Nat.le_refl _
      · have : b'.closing + 1 ≤ b.opening := (hrest.bounds _ hm).1
        have : b'.opening ≤ b'.closing + 1 := h2
        omega
    have hinert : Inert ((ofText t).slice key.name.start b'.opening) := by
      have := inert_key hkey
      rw [← hopening, ← slice_append _ h1 hle] at this
      exact fun c hc => this c (List.mem_append_left _ hc)
    exact ⟨a', b', List.mem_cons_self, hb.eq_of_inert hinert
      (closers_bodyCells ht (isIndent_indentOf _ _) (closing?_of_block? hb'))
      (wovenCells_cons ht hb' hs' (.cons h1 h2 hrest))⟩

namespace Text.Orderly

/-- **A block that begins in none of the bodies that are rebuilt has no flat entry.** -/
theorem not_hasFlat_of_kept (h : t.Orderly) (ht : t.WellFormed)
    (hhits : Pass.providersBlock.hits (ofText t) = gs ++ gs') (hf : Follow Hit.span 0 k gs)
    (hf' : Follow Hit.span k t.length gs') (hd : Detached (t.wovenCells k 0 gs))
    (hb : BlockCells (t.wovenCells t.length k gs') ds) : ¬ HasFlat ds := by
  intro hflat
  have hk := hf'.le
  have hblocks := allBlocks_hits (s := ofText t)
  rw [hhits] at hblocks
  have hs : (ofText t).AllBlocks gs' := fun g hg => hblocks g (List.mem_append_right _ hg)
  have hr (a : Nat) (b : Braces) (hm : Hit.object a b ∈ gs ++ gs') := h.renewal ht (hhits ▸ hm)
  have hrenewed := renewed_wovenCells ht (fun g hg => hblocks g (List.mem_append_left _ hg)) hf
    fun a b hm => hr a b (List.mem_append_left _ hm)
  have hrenewed' := renewed_wovenCells ht hs hf' fun a b hm => hr a b (List.mem_append_right _ hm)
  -- The block was there before with a flat entry, so the pass has rebuilt it.
  obtain ⟨es, hbefore, hes⟩ := hrenewed'.blockCells hb hflat
  have hedge := (detached_slice (Nat.zero_le k) (by rwa [size_ofText]) (.inl rfl)).1
    (hrenewed.detached_iff.1 hd)
  obtain ⟨b, hblock, rfl⟩ := block?_of_blockCells hk hedge hbefore
  have hclose := closing?_of_block? hblock
  obtain ⟨-, hlt, hcb⟩ := closing?_spec hclose
  obtain ⟨hup, -⟩ := (h.balanced k b hblock).cells hlt (Nat.le_of_lt (lt_size_of_codeByte? hcb))
  have hm := mem_of_kept hhits hf hf' hblock
    ((flatEntriesOf_ne_nil_iff hclose).2 (hes.hasFlat hup hflat))
  obtain ⟨a, b', hm', rfl⟩ := eq_rebuiltCells ht hs hf' hm hb
  exact (hr a b' (List.mem_append_right _ hm')).not_hasFlat hflat

/-- **What a second run finds** are the blocks that the first one hides. -/
theorem exists_block_output_iff (h : t.Orderly) (ht : t.WellFormed) :
    (∃ i b, (ofText (Pass.providersBlock.output t)).block? i = some b ∧
      (ofText (Pass.providersBlock.output t)).flatEntriesOf b ≠ []) ↔ ∃ i, (ofText t).Hidden i := by
  have hblocks := allBlocks_hits (s := ofText t)
  obtain ⟨hf, -, -⟩ := finds_hits .providersBlock (ofText t)
  rw [size_ofText] at hf
  have hcells : (ofText (Pass.providersBlock.output t)).cells.toList =
      t.wovenCells t.length 0 (Pass.providersBlock.hits (ofText t)) :=
    (Pass.providersBlock.relex ht).1
  rw [exists_block_iff, h.exists_hidden_iff ht, hcells]
  constructor
  · rintro ⟨ds, ⟨as, bs, heq, has, hb⟩, hflat⟩
    rcases wovenCells_cut ht hblocks hf (Nat.le_refl _) heq with
      ⟨k, gs, gs', hhits, hg, hg', rfl, rfl⟩ | ⟨a, b, ps, qs, xs, ys, hm, hps, rfl, rfl⟩
    · exact absurd hflat (h.not_hasFlat_of_kept ht hhits hg hg' has hb)
    · have hclosers : (ProviderNest.closers qs 0).isSome = true :=
        isSome_closers_of_append (by rw [← hps, (h.renewal ht hm).new_closed]; rfl)
      refine ⟨a, b, ds, hm, ⟨ps, qs, hps, ?_, hb.within (.inr rfl) hclosers⟩, hflat⟩
      rw [← List.singleton_append, ← List.append_assoc] at has
      exact has.of_append
  · rintro ⟨a, b, ds, hm, hb, hflat⟩
    obtain ⟨xs, ys, hxs⟩ := wovenCells_of_mem ht hblocks hf hm
    have hd : Detached (xs ++ [⟨Byte.openBrace, .code⟩]) := detached_concat rfl
    have := (hb.append (⟨Byte.closeBrace, .code⟩ :: ys)).behind hd
    rw [List.append_assoc, List.singleton_append, ← hxs] at this
    exact ⟨ds, this, hflat⟩

end Text.Orderly

end

/-- **A second run of the pass over `providers` blocks.** The first run leaves no block with a flat
entry, and a second one nests nothing and leaves the text as it is, if and only if the text has no
block with a flat entry inside a block that the first run rebuilds, apart from the entries that are
nested. -/
theorem Pass.second_run_idle_iff (cs : List Char) (h : Text.Orderly (.ofChars cs)) :
    ∃ r r', Pass.providersBlock.apply (.ofChars cs) = .ok r ∧
      Pass.providersBlock.apply r.text = .ok r' ∧
      ((∀ i b, (ofText r.text).block? i = some b → (ofText r.text).flatEntriesOf b = []) ↔
        ¬ ∃ i, (ofText (.ofChars cs)).Hidden i) ∧
      ((countEdits r'.edits = 0 ∧ r'.text = r.text) ↔
        ¬ ∃ i, (ofText (.ofChars cs)).Hidden i) := by
  have ht := Text.wellFormed_ofChars cs
  generalize Text.ofChars cs = t at *
  have ht' := Pass.providersBlock.wellFormed_output ht
  refine ⟨_, _, Pass.providersBlock.apply_eq ht, Pass.providersBlock.apply_eq ht', ?_, ?_⟩
  · rw [← h.exists_block_output_iff ht]
    simp only [not_exists, not_and, ne_eq, not_not]
  · rw [← h.exists_block_output_iff ht, ← countEdits_providersBlock]
    exact ⟨fun h => h.1, fun h => ⟨h, Pass.providersBlock.output_of_count h⟩⟩

/-- A block with a flat entry, and in another entry of it a block with a flat entry. -/
def blockInBlock : List Char :=
  "providers: \x7b a: \x7b apiKey: 1 \x7d, x: \x7b providers: \x7b b: \x7b apiKey: 2 \x7d \x7d \x7d \x7d".toList

/-- The inner block is left by the first run, and the second one nests its entry. -/
theorem Pass.second_run_not_idle : Text.Orderly (.ofChars blockInBlock) ∧
    (ofText (.ofChars blockInBlock)).Hidden 36 ∧
    ∃ r r', Pass.providersBlock.apply (.ofChars blockInBlock) = .ok r ∧
      Pass.providersBlock.apply r.text = .ok r' ∧
      ¬ (∀ i b, (ofText r.text).block? i = some b → (ofText r.text).flatEntriesOf b = []) ∧
      ¬ (countEdits r'.edits = 0 ∧ r'.text = r.text) := by
  have hhits : Pass.providersBlock.hits (ofText (.ofChars blockInBlock)) =
      [.object 0 ⟨11, 70⟩] := by decide +kernel
  have hbalanced : ∀ i < 71, ∀ b ∈ (ofText (.ofChars blockInBlock)).block? i,
      (ofText (.ofChars blockInBlock)).Balanced (b.opening + 1) b.closing := by decide +kernel
  have hordered : Text.OrderlyAt (.ofChars blockInBlock) ⟨11, 70⟩ := by decide +kernel
  have horderly : Text.Orderly (.ofChars blockInBlock) := by
    refine ⟨fun i b hb => ?_, fun a b hm => ?_⟩
    · have hlt := lt_size_of_block? hb
      rw [size_ofText] at hlt
      exact hbalanced i hlt b hb
    · rw [hhits] at hm
      cases List.mem_singleton.1 hm
      exact hordered
  have hhidden : (ofText (.ofChars blockInBlock)).Hidden 36 :=
    ⟨⟨47, 66⟩, 0, ⟨11, 70⟩, by decide +kernel, by decide +kernel,
      by rw [hhits]; exact List.mem_cons_self, by decide, by decide, by decide +kernel⟩
  obtain ⟨r, r', h1, h2, h3, h4⟩ := Pass.second_run_idle_iff blockInBlock horderly
  exact ⟨horderly, hhidden, r, r', h1, h2, fun hnone => h3.1 hnone ⟨36, hhidden⟩,
    fun hidle => h4.1 hidle ⟨36, hhidden⟩⟩

end ProviderNest
