import ProviderNest.Proofs.Spelling

/-!
# Parts of a text under a pass

A change is one patch or two: its head takes the place of what stood before the part that is kept,
and its tail is put in behind it. A patch that does not cross the ends of a part of the text lies
before the part, within it or behind it, so the result of a pass is in three pieces
(`Pass.cells_parts`), and it can be said where the part stands afterwards (`Pass.place`) and what
is left of it (`Pass.remainder`).

The part that later modules follow is a key with white space around its colon and a brace behind it
(`KeyAt`). `KeyAt.clear` says that no pass breaks it: the only patch that touches it nests the entry
with this very key, and what it puts in begins with a colon and a brace again.
-/

namespace ProviderNest

open LexState Source

/-! ## Patches -/

/-- The replacement of a span by a text. -/
structure Patch where
  span : Span
  text : Text
  deriving DecidableEq, Repr

/-- The patches of a change. -/
def Change.patches (c : Change) : List Patch :=
  ⟨⟨c.start, c.kept.start⟩, c.head⟩ ::
    if c.tail = [] then [] else [⟨⟨c.kept.stop, c.kept.stop⟩, c.tail⟩]

/-- The list from position `i` up to position `stop` with the patches put in, where `keep` gives
what is kept between two positions. -/
def mend {α : Type} (keep : Nat → Nat → List α) (put : Patch → List α) (stop : Nat) :
    (i : Nat) → List Patch → List α
  | i, [] => keep i stop
  | i, q :: qs => keep i q.span.start ++ put q ++ mend keep put stop q.span.stop qs

section
variable {α : Type} {keep : Nat → Nat → List α} {put : Patch → List α} {i j k : Nat}

/-- What is kept up to a position joins what is mended from there on. -/
theorem keep_mend (hk : ∀ {i j k : Nat}, i ≤ j → j ≤ k → keep i j ++ keep j k = keep i k)
    {qs : List Patch} (hij : i ≤ j) (h : Follow Patch.span j k qs) :
    keep i j ++ mend keep put k j qs = mend keep put k i qs := by
  cases h with
  | nil h => exact hk hij h
  | cons h1 h2 h3 => simp only [mend, ← List.append_assoc, hk hij h1]

/-- Patches in two parts. -/
theorem mend_append (hk : ∀ {i j k : Nat}, i ≤ j → j ≤ k → keep i j ++ keep j k = keep i k)
    {ps qs : List Patch} (hp : Follow Patch.span i j ps) (hq : Follow Patch.span j k qs) :
    mend keep put k i (ps ++ qs) = mend keep put j i ps ++ mend keep put k j qs := by
  induction hp with
  | nil h => exact (keep_mend hk h hq).symm
  | cons h1 h2 _ ih => simp only [List.cons_append, mend, ih hq, List.append_assoc]

/-- Changes woven in are their patches put in. -/
theorem weave_eq_mend (hk : ∀ {i j k : Nat}, i ≤ j → j ≤ k → keep i j ++ keep j k = keep i k)
    (hnil : ∀ x, put ⟨x, []⟩ = []) {head tail : Change → List α} {cs : List Change}
    (hf : Follow Change.span i k cs) (hle : ∀ c ∈ cs, c.start ≤ c.kept.start ∧
      c.kept.start ≤ c.kept.stop)
    (hput : ∀ c ∈ cs, head c = put ⟨⟨c.start, c.kept.start⟩, c.head⟩ ∧
      tail c = put ⟨⟨c.kept.stop, c.kept.stop⟩, c.tail⟩) :
    weave keep head tail k i cs = mend keep put k i (cs.flatMap Change.patches) ∧
    Follow Patch.span i k (cs.flatMap Change.patches) := by
  induction hf with
  | nil h => exact ⟨rfl, .nil h⟩
  | @cons i k c cs h1 h2 h3 ih =>
    obtain ⟨ih1, ih2⟩ := ih (fun d hd => hle d (by simp [hd])) fun d hd => hput d (by simp [hd])
    obtain ⟨hh, ht⟩ := hput c (by simp)
    obtain ⟨h4, h5⟩ := hle c (by simp)
    rw [Change.span_stop] at ih1 ih2
    rw [Change.span_start] at h1
    rw [weave, ih1, hh, ht, List.flatMap_cons, Change.patches]
    split
    · next hn =>
      refine ⟨?_, .cons h1 h4 (ih2.of_le h5)⟩
      rw [hn, hnil, List.append_nil, List.cons_append, List.nil_append, mend]
      dsimp only
      rw [← keep_mend hk h5 ih2]
      simp only [List.append_assoc]
    · refine ⟨?_, .cons h1 h4 (.cons h5 (Nat.le_refl _) ih2)⟩
      simp only [List.cons_append, List.nil_append, mend, List.append_assoc]

/-- A list in order ends with the last of its spans. -/
theorem Follow.to_stop {β : Type} {span : β → Span} {as : List β} (h : Follow span i k as)
    (hij : i ≤ j) (hs : ∀ a ∈ as, (span a).stop ≤ j) : Follow span i j as := by
  induction h with
  | nil h => exact .nil hij
  | cons h1 h2 _ ih => exact .cons h1 h2 (ih (hs _ (by simp)) fun b hb => hs b (by simp [hb]))

/-- A list in order begins with the first of its spans. -/
theorem Follow.of_start {β : Type} {span : β → Span} {as : List β} (h : Follow span i k as)
    (hjk : j ≤ k) (hs : ∀ a ∈ as, j ≤ (span a).start) : Follow span j k as := by
  cases h with
  | nil => exact .nil hjk
  | cons h1 h2 h3 => exact .cons (hs _ (by simp)) h2 h3

/-- The first part of a list in order ends where the second begins. -/
theorem Follow.of_append {β : Type} {span : β → Span} {as bs : List β} {b : β}
    (h : Follow span i k (as ++ b :: bs)) :
    Follow span i (span b).start as ∧ Follow span (span b).start k (b :: bs) := by
  induction as generalizing i with
  | nil =>
    cases h with
    | cons h1 h2 h3 => exact ⟨.nil h1, .cons (Nat.le_refl _) h2 h3⟩
  | cons a as ih =>
    cases h with
    | cons h1 h2 h3 =>
      obtain ⟨h4, h5⟩ := ih h3
      exact ⟨.cons h1 h2 h4, h5⟩

/-- A list in order is cut at a position that no span of it crosses. -/
theorem Follow.filter {β : Type} {span : β → Span} {f : β → Bool} {as : List β}
    (h : Follow span i k as) (hij : i ≤ j) (hjk : j ≤ k)
    (h1 : ∀ a ∈ as, f a = true → (span a).stop ≤ j)
    (h2 : ∀ a ∈ as, f a = false → j ≤ (span a).start)
    (hmono : ∀ a b, f a = false → (span a).start ≤ (span a).stop →
      (span a).stop ≤ (span b).start → (span b).start ≤ (span b).stop → f b = false) :
    as = as.filter f ++ as.filter (fun a => !f a) ∧ Follow span i j (as.filter f) ∧
      Follow span j k (as.filter fun a => !f a) := by
  induction h with
  | nil h => exact ⟨rfl, .nil hij, .nil hjk⟩
  | @cons i k a as h3 h4 h5 ih =>
    cases hf : f a with
    | true =>
      have ih := ih (h1 a (by simp) hf) hjk (fun b hb => h1 b (by simp [hb]))
        fun b hb => h2 b (by simp [hb])
      rw [List.filter_cons_of_pos hf, List.filter_cons_of_neg (by simp [hf])]
      exact ⟨by rw [List.cons_append, ← ih.1], .cons h3 h4 ih.2.1, ih.2.2⟩
    | false =>
      have hrest : ∀ b ∈ as, f b = false := by
        intro b hb
        obtain ⟨h6, h7, -⟩ := h5.bounds b hb
        exact hmono a b hf h4 h6 h7
      have hnone : (a :: as).filter f = [] := by
        rw [List.filter_eq_nil_iff]
        intro b hb
        rcases List.mem_cons.1 hb with rfl | hb
        · simp [hf]
        · simp [hrest b hb]
      have hall : (a :: as).filter (fun a => !f a) = a :: as := by
        rw [List.filter_eq_self]
        intro b hb
        rcases List.mem_cons.1 hb with rfl | hb
        · simp [hf]
        · simp [hrest b hb]
      rw [hnone, hall]
      exact ⟨rfl, .nil hij, .cons (h2 a (by simp) hf) h4 h5⟩

end

/-- The patches that passes put in. -/
inductive Patch.Made (t : Text) : Patch → Prop
  | flatFront {e : FlatEntry} {colon : Nat} {indent : Text} :
      (ofText t).IsFlat e colon → indent.IsIndent →
      Made t ⟨⟨e.name.stop, e.body.start⟩, front indent⟩
  | flatBack {e : FlatEntry} {colon : Nat} {indent : Text} :
      (ofText t).IsFlat e colon → indent.IsIndent → Made t ⟨⟨e.body.stop, e.body.stop⟩, back indent⟩
  | envFront {e : EnvEntry} {colon value stop : Nat} {indent : Text} :
      (ofText t).IsEnv e colon value stop → indent.IsIndent →
      Made t ⟨⟨e.name.start, e.var.start⟩, (e.change (ofText t) indent).head⟩
  | envBack {e : EnvEntry} {colon value stop : Nat} {indent : Text} :
      (ofText t).IsEnv e colon value stop → indent.IsIndent →
      Made t ⟨⟨e.var.stop, e.var.stop⟩, .ofString " \x7d" ++ back indent⟩
  | gap {i j : Nat} {lead indent : Text} :
      IsGap t i j lead → indent.IsIndent → Made t ⟨⟨i, j⟩, lead ++ Byte.newline :: indent⟩

theorem back_ne_nil (indent : Text) : back indent ≠ [] := by
  rw [back, List.append_assoc]
  exact List.append_ne_nil_of_left_ne_nil (by decide) _

theorem patches_flat (e : FlatEntry) (indent : Text) : (e.change indent).patches =
    [⟨⟨e.name.stop, e.body.start⟩, front indent⟩, ⟨⟨e.body.stop, e.body.stop⟩, back indent⟩] := by
  have hne : (e.change indent).tail ≠ [] := back_ne_nil indent
  rw [Change.patches, if_neg hne]
  rfl

theorem patches_env (s : Source) (e : EnvEntry) (indent : Text) : (e.change s indent).patches =
    [⟨⟨e.name.start, e.var.start⟩, (e.change s indent).head⟩,
      ⟨⟨e.var.stop, e.var.stop⟩, .ofString " \x7d" ++ back indent⟩] := by
  have hne : (e.change s indent).tail ≠ [] :=
    List.append_ne_nil_of_right_ne_nil _ (back_ne_nil indent)
  rw [Change.patches, if_neg hne]
  rfl

theorem patches_gap (i j : Nat) (text : Text) :
    (Change.gap i j text).patches = [⟨⟨i, j⟩, text⟩] := by
  rw [Change.patches, if_pos (show (Change.gap i j text).tail = [] from rfl)]
  rfl

/-- The patches of the changes that passes make. -/
theorem Change.Made.patches {t : Text} {c : Change} (h : c.Made t) : ∀ q ∈ c.patches, q.Made t := by
  intro q hq
  cases h with
  | flat he hi =>
    rw [patches_flat] at hq
    rcases List.mem_cons.1 hq with rfl | hq
    · exact .flatFront he hi
    · obtain rfl := List.mem_singleton.1 hq
      exact .flatBack he hi
  | env he hi =>
    rw [patches_env] at hq
    rcases List.mem_cons.1 hq with rfl | hq
    · exact .envFront he hi
    · obtain rfl := List.mem_singleton.1 hq
      exact .envBack he hi
  | gap hg hi =>
    rw [patches_gap] at hq
    obtain rfl := List.mem_singleton.1 hq
    exact .gap hg hi

/-- The text from position `i` up to position `stop` with the patches put in. -/
def Source.patched (s : Source) (stop i : Nat) (qs : List Patch) : Text :=
  mend (fun i j => s.bytes ⟨i, j⟩) Patch.text stop i qs

/-- The cells of the text of a patch. -/
def Patch.cells (t : Text) (q : Patch) : List Cell := (t.stateAt q.span.start).cells q.text none

/-- The cells from position `i` up to position `stop` with the patches put in. -/
def Text.mended (t : Text) (stop i : Nat) (qs : List Patch) : List Cell :=
  mend (ofText t).slice (Patch.cells t) stop i qs

/-- Everything that a pass puts in, from left to right. -/
def Pass.patches (p : Pass) (t : Text) : List Patch := (p.changes t).flatMap Change.patches

section
variable {t : Text} {i j : Nat}

theorem mended_nil : t.mended j i [] = (ofText t).slice i j := rfl

theorem mended_cons (q : Patch) (qs : List Patch) : t.mended j i (q :: qs) =
    (ofText t).slice i q.span.start ++ q.cells t ++ t.mended j q.span.stop qs := rfl

/-- Patches in two parts, as cells. -/
theorem mended_append {k : Nat} {ps qs : List Patch} (hp : Follow Patch.span i j ps)
    (hq : Follow Patch.span j k qs) :
    t.mended k i (ps ++ qs) = t.mended j i ps ++ t.mended k j qs :=
  mend_append (slice_append _) hp hq

/-- The bytes of mended cells. -/
theorem map_byte_mended (qs : List Patch) :
    (t.mended j i qs).map Cell.byte = (ofText t).patched j i qs := by
  induction qs generalizing i with
  | nil => exact (bytes_eq _ ⟨i, j⟩).symm
  | cons q qs ih =>
    have hfront : ((ofText t).slice i q.span.start).map Cell.byte =
        (ofText t).bytes ⟨i, q.span.start⟩ := (bytes_eq _ ⟨i, q.span.start⟩).symm
    rw [mended_cons, List.map_append, List.map_append, ih, hfront, Patch.cells, map_byte_cells]
    rfl

/-- Changes carried out patch by patch. -/
theorem weave_eq_mended {cs : List Change} (hf : Follow Change.span i j cs)
    (hc : ∀ c ∈ cs, c.Fits t) :
    weave (ofText t).slice (Change.headCells t) Change.tailCells j i cs =
      t.mended j i (cs.flatMap Change.patches) ∧
    Follow Patch.span i j (cs.flatMap Change.patches) := by
  refine weave_eq_mend (slice_append _) (fun _ => rfl) hf
    (fun c hm => ⟨(hc c hm).start_le, (hc c hm).kept_le⟩) fun c hm => ⟨rfl, ?_⟩
  rw [Patch.cells]
  dsimp only
  rw [(hc c hm).stop_code]
  exact (after_cells_plain (hc c hm).tail_plain none).2.symm

/-- A pass leaves the text with its patches put in, and they come in order. -/
theorem Pass.cells_output (p : Pass) (ht : t.WellFormed) :
    (ofText (p.output t)).cells.toList = t.mended t.length 0 (p.patches t) ∧
    Follow Patch.span 0 t.length (p.patches t) := by
  rw [(p.relex ht).1]
  exact weave_eq_mended (p.follow_changes ht) fun c hc => (p.made_changes ht c hc).fits ht

/-- Every patch of a pass is one of those that passes put in. -/
theorem Pass.made_patches (p : Pass) (ht : t.WellFormed) : ∀ q ∈ p.patches t, q.Made t := by
  intro q hq
  obtain ⟨c, hc, hq⟩ := List.mem_flatMap.1 hq
  exact (p.made_changes ht c hc).patches q hq

/-! ## Before, within and behind a part -/

/-- The patches before a part. -/
def Span.before (x : Span) (qs : List Patch) : List Patch :=
  qs.filter fun q => q.span.stop ≤ x.start

/-- The patches within a part. -/
def Span.within (x : Span) (qs : List Patch) : List Patch :=
  (qs.filter fun q => !decide (q.span.stop ≤ x.start)).filter fun q => q.span.start < x.stop

/-- The patches behind a part. -/
def Span.behind (x : Span) (qs : List Patch) : List Patch :=
  (qs.filter fun q => !decide (q.span.stop ≤ x.start)).filter fun q =>
    !decide (q.span.start < x.stop)

/-- The patch does not cross the ends of a part. -/
def Patch.Clear (x : Span) (q : Patch) : Prop :=
  q.span.stop ≤ x.start ∨ x.stop ≤ q.span.start ∨ x.start ≤ q.span.start ∧ q.span.stop ≤ x.stop

theorem Span.mem_within {x : Span} {qs : List Patch} {q : Patch} :
    q ∈ x.within qs ↔ q ∈ qs ∧ x.start < q.span.stop ∧ q.span.start < x.stop := by
  simp only [within, List.mem_filter, Bool.not_eq_true', decide_eq_false_iff_not,
    decide_eq_true_eq, Nat.not_le, and_assoc]

/-- Patches that do not cross the ends of a part come before it, within it and behind it. -/
theorem follow_parts {x : Span} {qs : List Patch} {n : Nat} (h : Follow Patch.span 0 n qs)
    (hx : x.start ≤ x.stop) (hn : x.stop ≤ n) (hc : ∀ q ∈ qs, q.Clear x) :
    qs = x.before qs ++ (x.within qs ++ x.behind qs) ∧ Follow Patch.span 0 x.start (x.before qs) ∧
    Follow Patch.span x.start x.stop (x.within qs) ∧ Follow Patch.span x.stop n (x.behind qs) := by
  have hle := fun q hq => (h.bounds q hq).2.1
  obtain ⟨h1, h2, h3⟩ := h.filter (f := fun q => q.span.stop ≤ x.start) (j := x.start)
    (Nat.zero_le _) (by omega) (fun q _ hf => by simpa using hf)
    (fun q hq hf => by
      have := hle q hq
      rcases hc q hq with hc | hc | hc
      · simp [hc] at hf
      · omega
      · exact hc.1)
    (fun q r hf _ h4 h5 => by simp at hf ⊢; omega)
  obtain ⟨h4, h5, h6⟩ := h3.filter (f := fun q => q.span.start < x.stop) (j := x.stop) hx hn
    (fun q hq hf => by
      obtain ⟨hq, hs⟩ := List.mem_filter.1 hq
      simp at hf hs
      rcases hc q hq with hc | hc | hc <;> omega)
    (fun q _ hf => by simpa using hf) (fun q r hf h4 h5 _ => by simp at hf ⊢; omega)
  exact ⟨h1.trans (congrArg _ h4), h2, h5, h6⟩

/-- What a pass leaves of a part of a text. -/
def Pass.remainder (p : Pass) (t : Text) (x : Span) : Text :=
  (ofText t).patched x.stop x.start (x.within (p.patches t))

/-- Where a pass leaves a part of a text. -/
def Pass.place (p : Pass) (t : Text) (x : Span) : Span :=
  let start := ((ofText t).patched x.start 0 (x.before (p.patches t))).length
  ⟨start, start + (p.remainder t x).length⟩

/-- **The result of a pass in three parts**, for a part of the text that no patch crosses. -/
theorem Pass.cells_parts (p : Pass) (ht : t.WellFormed) {x : Span} (hx : x.start ≤ x.stop)
    (hn : x.stop ≤ t.length) (hc : ∀ q ∈ p.patches t, q.Clear x) :
    (ofText (p.output t)).cells.toList = t.mended x.start 0 (x.before (p.patches t)) ++
      (t.mended x.stop x.start (x.within (p.patches t)) ++
        t.mended t.length x.stop (x.behind (p.patches t))) := by
  obtain ⟨h1, h2⟩ := p.cells_output ht
  obtain ⟨h3, h4, h5, h6⟩ := follow_parts h2 hx hn hc
  rw [h1]
  conv => lhs; rw [h3]
  rw [mended_append h4 (h5.append h6), mended_append h5 h6]

/-- What stands at the place of a part, which is in the result. -/
theorem Pass.slice_place (p : Pass) (ht : t.WellFormed) {x : Span} (hx : x.start ≤ x.stop)
    (hn : x.stop ≤ t.length) (hc : ∀ q ∈ p.patches t, q.Clear x) :
    (ofText (p.output t)).slice (p.place t x).start (p.place t x).stop =
      t.mended x.stop x.start (x.within (p.patches t)) ∧
    (p.place t x).start ≤ (p.place t x).stop ∧ (p.place t x).stop ≤ (p.output t).length := by
  have hlen : ∀ {i j : Nat} (qs : List Patch),
      (t.mended j i qs).length = ((ofText t).patched j i qs).length := by
    intro i j qs
    rw [← map_byte_mended, List.length_map]
  have h1 : (t.mended x.start 0 (x.before (p.patches t))).length = (p.place t x).start := hlen _
  have h2 : (t.mended x.stop x.start (x.within (p.patches t))).length =
      (p.place t x).stop - (p.place t x).start :=
    (hlen _).trans (Nat.add_sub_cancel_left ..).symm
  have hle : (p.place t x).start ≤ (p.place t x).stop := Nat.le_add_right ..
  have hcells := p.cells_parts ht hx hn hc
  refine ⟨?_, hle, ?_⟩
  · rw [slice, hcells, List.drop_left' h1, List.take_left' h2]
  · have := congrArg List.length hcells
    rw [Array.length_toList, ← size, size_ofText, List.length_append, List.length_append] at this
    omega

/-- The bytes at the place of a part. -/
theorem Pass.bytes_place (p : Pass) (ht : t.WellFormed) {x : Span} (hx : x.start ≤ x.stop)
    (hn : x.stop ≤ t.length) (hc : ∀ q ∈ p.patches t, q.Clear x) :
    (ofText (p.output t)).bytes (p.place t x) = p.remainder t x := by
  rw [bytes_eq, (p.slice_place ht hx hn hc).1, map_byte_mended]
  rfl

end

/-! ## Keys with a brace behind them -/

/-- The byte between an object and its field. -/
abbrev Byte.dot : UInt8 := 0x2E

/-- A key with its colon and the brace that opens its value; `g` and `h` stand around the colon. -/
def keyText (w g h : Text) : Text := w ++ (g ++ (Byte.colon :: (h ++ [Byte.openBrace])))

/-- The key `w` stands at position `i` in code, with white space around its colon and a brace behind
it, and nothing before it makes it part of something longer. -/
structure KeyAt (t w : Text) (i : Nat) (g h : Text) : Prop where
  cells : (ofText t).slice i (i + (keyText w g h).length) = codeCells (keyText w g h)
  spaces : ∀ b ∈ g ++ h, Byte.isSpace b = true
  edge : i = 0 ∨ ∃ b, t[i - 1]? = some b ∧ Byte.isWord b = false ∧ b ≠ Byte.dot

/-- An entry read from the environment is read from word bytes and dots. -/
theorem Source.IsEnv.isWord_or_dot {t : Text} {e : EnvEntry} {colon value stop k : Nat}
    (he : (ofText t).IsEnv e colon value stop) (h1 : value ≤ k) (h2 : k < stop) :
    ∃ b, t[k]? = some b ∧ (Byte.isWord b = true ∨ b = Byte.dot) := by
  rcases Nat.lt_or_ge k e.var.start with hk | hk
  · have hall : ∀ b ∈ environment, Byte.isWord b = true ∨ b = Byte.dot := by decide
    have hslice := he.slice_value
    rw [he.start_eq] at hslice hk
    have hcode := codeByte?_of_codeCells hslice (k := k - value) (by omega)
    rw [Nat.add_sub_cancel' h1] at hcode
    exact ⟨_, getElem?_of_codeByte? hcode, hall _ (List.getElem_mem _)⟩
  · obtain ⟨b, hb, hbw⟩ := inWord_iff.1 (he.word.inside k hk h2)
    exact ⟨b, getElem?_of_codeByte? hb, .inl hbw⟩

/-- The keys that tell a migrated text. -/
def guardKeys : List Text := [nestedKey, providersKey]

theorem isWord_of_mem_guardKeys : ∀ w ∈ guardKeys, (∀ b ∈ w, Byte.isWord b = true) ∧ w ≠ [] ∧
    w ≠ .ofString "process" ∧ ∀ b ∈ w, ∀ c ∈ Text.loose, b ∉ String.utf8EncodeChar c := by
  decide

theorem length_keyText (w g h : Text) :
    (keyText w g h).length = w.length + g.length + 1 + h.length + 1 := by
  simp only [keyText, List.length_append, List.length_cons, List.length_nil]
  omega

/-- The cells of a key. -/
theorem codeCells_keyText (w g h : Text) : codeCells (keyText w g h) = codeCells w ++
    (codeCells g ++ ⟨Byte.colon, .code⟩ :: (codeCells h ++ [⟨Byte.openBrace, .code⟩])) := by
  simp only [keyText, codeCells, List.map_append, List.map_cons, List.map_nil]

namespace KeyAt

variable {t w g h : Text} {i k : Nat}

/-- The code of a key. -/
theorem codeByte? (hk : KeyAt t w i g h) (hlt : k < (keyText w g h).length) :
    (ofText t).codeByte? (i + k) = (keyText w g h)[k]? := by
  rw [codeByte?_of_codeCells hk.cells hlt, List.getElem?_eq_getElem hlt]

/-- The parts of a key: the word, white space, the colon, white space and the brace. -/
theorem parts (hk : KeyAt t w i g h) :
    (∀ k < w.length, (ofText t).codeByte? (i + k) = w[k]?) ∧
    (∀ k < g.length, (ofText t).codeByte? (i + w.length + k) = g[k]?) ∧
    (ofText t).codeByte? (i + w.length + g.length) = some Byte.colon ∧
    (∀ k < h.length, (ofText t).codeByte? (i + w.length + g.length + 1 + k) = h[k]?) ∧
    (ofText t).codeByte? (i + w.length + g.length + 1 + h.length) = some Byte.openBrace := by
  have hlen := length_keyText w g h
  refine ⟨fun k hlt => ?_, fun k hlt => ?_, ?_, fun k hlt => ?_, ?_⟩
  · rw [hk.codeByte? (by omega), keyText, List.getElem?_append_left hlt]
  · rw [Nat.add_assoc, hk.codeByte? (by omega), keyText, List.getElem?_append_right (by omega),
      Nat.add_sub_cancel_left, List.getElem?_append_left hlt]
  · rw [Nat.add_assoc, hk.codeByte? (by omega), keyText, List.getElem?_append_right (by omega),
      Nat.add_sub_cancel_left, List.getElem?_append_right (Nat.le_refl _), Nat.sub_self]
    rfl
  · rw [show i + w.length + g.length + 1 + k = i + (w.length + (g.length + (k + 1))) by omega,
      hk.codeByte? (by omega), keyText, List.getElem?_append_right (by omega),
      Nat.add_sub_cancel_left, List.getElem?_append_right (by omega), Nat.add_sub_cancel_left,
      List.getElem?_cons_succ, List.getElem?_append_left hlt]
  · rw [show i + w.length + g.length + 1 + h.length =
        i + (w.length + (g.length + (h.length + 1))) by omega,
      hk.codeByte? (by omega), keyText, List.getElem?_append_right (by omega),
      Nat.add_sub_cancel_left, List.getElem?_append_right (by omega), Nat.add_sub_cancel_left,
      List.getElem?_cons_succ, List.getElem?_append_right (Nat.le_refl _), Nat.sub_self]
    rfl

/-- What stands at a position of a key. -/
theorem inside (hk : KeyAt t w i g h) (h1 : i ≤ k)
    (h2 : k ≤ i + w.length + g.length + 1 + h.length) : ∃ b, (ofText t).codeByte? k = some b ∧
      (k < i + w.length ∧ b ∈ w ∨ i + w.length ≤ k ∧ Byte.isSpace b = true ∨
        k = i + w.length + g.length ∧ b = Byte.colon ∨
        k = i + w.length + g.length + 1 + h.length ∧ b = Byte.openBrace) := by
  obtain ⟨p1, p2, p3, p4, p5⟩ := hk.parts
  rcases Nat.lt_or_ge k (i + w.length) with hw | hw
  · have := p1 (k - i) (by omega)
    rw [Nat.add_sub_cancel' h1, List.getElem?_eq_getElem (by omega)] at this
    exact ⟨_, this, .inl ⟨hw, List.getElem_mem _⟩⟩
  rcases Nat.lt_trichotomy k (i + w.length + g.length) with hg | hg | hg
  · have := p2 (k - (i + w.length)) (by omega)
    rw [Nat.add_sub_cancel' hw, List.getElem?_eq_getElem (by omega)] at this
    exact ⟨_, this, .inr (.inl ⟨hw, hk.spaces _ (List.mem_append_left _ (List.getElem_mem _))⟩)⟩
  · subst hg
    exact ⟨_, p3, .inr (.inr (.inl ⟨rfl, rfl⟩))⟩
  rcases Nat.eq_or_lt_of_le h2 with hh | hh
  · subst hh
    exact ⟨_, p5, .inr (.inr (.inr ⟨rfl, rfl⟩))⟩
  · have := p4 (k - (i + w.length + g.length + 1)) (by omega)
    rw [Nat.add_sub_cancel' hg, List.getElem?_eq_getElem (by omega)] at this
    exact ⟨_, this, .inr (.inl ⟨hw, hk.spaces _ (List.mem_append_right _ (List.getElem_mem _))⟩)⟩

/-- What a key has in its code at a position, other than word bytes. -/
theorem not_word (hk : KeyAt t w i g h) (hw : w ∈ guardKeys) (h1 : i ≤ k)
    (h2 : k ≤ i + w.length + g.length + 1 + h.length) {b : UInt8}
    (hb : (ofText t).codeByte? k = some b) (hn : Byte.isWord b = false) :
    i + w.length ≤ k ∧ Byte.isSpace b = true ∨ k = i + w.length + g.length ∧ b = Byte.colon ∨
      k = i + w.length + g.length + 1 + h.length ∧ b = Byte.openBrace := by
  obtain ⟨c, hc, hor⟩ := hk.inside h1 h2
  rw [hb] at hc
  cases hc
  refine hor.resolve_left fun hm => ?_
  rw [(isWord_of_mem_guardKeys w hw).1 b hm.2] at hn
  cases hn

/-- The end of a key. -/
theorem le_size (hk : KeyAt t w i g h) : i + (keyText w g h).length ≤ (ofText t).size := by
  obtain ⟨-, -, -, -, p5⟩ := hk.parts
  have := lt_size_of_codeByte? p5
  rw [length_keyText]
  omega

/-- The cells of the word of a key. -/
theorem slice_name (hk : KeyAt t w i g h) :
    (ofText t).slice i (i + w.length) = codeCells w := by
  have := slice_split (Nat.le_add_right ..) hk.le_size (hk.cells.trans (codeCells_keyText w g h))
  rw [List.length_map] at this
  exact this.2.1

/-- No word goes on where a key begins. -/
theorem not_inWord (hk : KeyAt t w i g h) : i = 0 ∨ (ofText t).inWord (i - 1) = false := by
  refine hk.edge.imp_right fun ⟨b, hb, hn, _⟩ => ?_
  rw [← Bool.not_eq_true]
  intro hin
  obtain ⟨c, hc, hcw⟩ := inWord_iff.1 hin
  rw [getElem?_of_codeByte? hc] at hb
  cases hb
  rw [hcw] at hn
  cases hn

/-- The key as a key. -/
theorem isKey (hk : KeyAt t w i g h) (hw : w ∈ guardKeys) :
    (ofText t).IsKey ⟨⟨i, i + w.length⟩, i + w.length + g.length + 1 + h.length⟩
      (i + w.length + g.length) := by
  obtain ⟨hword, hne, -⟩ := isWord_of_mem_guardKeys w hw
  have hg := isTrivia_codeCells fun b hb => hk.spaces b (List.mem_append_left h hb)
  have hh := isTrivia_codeCells fun b hb => hk.spaces b (List.mem_append_right g hb)
  have hs := hk.cells.trans (codeCells_keyText w g h)
  have := (isKey_of_slice (Nat.le_add_right ..) hk.le_size hs hne hword hg hh (by decide)
    (by decide) hk.not_inWord).1
  rwa [List.length_map, List.length_map] at this

/-- Another key comes before the key and its value does, too, or it comes behind the brace, or it is
the same key. -/
theorem apart (hk : KeyAt t w i g h) (hw : w ∈ guardKeys) {key : Key} {colon : Nat}
    (hkey : (ofText t).IsKey key colon) : key.value ≤ i ∨
      i + w.length + g.length + 1 + h.length < key.name.start ∨
      key.name = ⟨i, i + w.length⟩ ∧ key.value = i + w.length + g.length + 1 + h.length := by
  have hself := hk.isKey hw
  obtain ⟨-, -, -, -, hopen⟩ := hk.parts
  rcases Nat.lt_or_ge colon i with h1 | h1
  · refine .inl (Nat.le_of_not_lt fun h2 => ?_)
    have := hkey.trivia_behind i h1 h2
    rw [hself.word.isTrivia_start] at this
    cases this
  rcases Nat.lt_or_ge (i + w.length + g.length + 1 + h.length) colon with h2 | h2
  · refine .inr (.inl (Nat.lt_of_not_le fun h3 => ?_))
    rcases Nat.lt_or_ge (i + w.length + g.length + 1 + h.length) key.name.stop with h4 | h4
    · exact codeByte?_ne_of_inWord (hkey.word.inside _ h3 h4) (by decide) hopen
    · exact codeByte?_ne_of_isTrivia (hkey.trivia_before _ h4 h2) (by decide) hopen
  · have heq : colon = i + w.length + g.length := by
      rcases hk.not_word hw h1 h2 hkey.colon_code (by decide) with hs | hs | hs
      · exact absurd hs.2 (by decide)
      · exact hs.1
      · exact absurd hs.2 (by decide)
    subst heq
    obtain rfl := hkey.eq_of_colon hself
    exact .inr (.inr ⟨rfl, rfl⟩)

/-- No brace closes inside a key. -/
theorem close_apart (hk : KeyAt t w i g h) (hw : w ∈ guardKeys) {c : Nat}
    (hc : (ofText t).codeByte? c = some Byte.closeBrace) :
    c < i ∨ i + w.length + g.length + 1 + h.length < c := by
  rcases Nat.lt_or_ge c i with h1 | h1
  · exact .inl h1
  refine .inr (Nat.lt_of_not_le fun h2 => ?_)
  rcases hk.not_word hw h1 h2 hc (by decide) with hs | hs | hs <;> exact absurd hs.2 (by decide)

/-- An entry read from the environment does not reach into a key. -/
theorem env_apart (hk : KeyAt t w i g h) (hw : w ∈ guardKeys) {e : EnvEntry}
    {colon value stop : Nat} (he : (ofText t).IsEnv e colon value stop) :
    e.var.stop ≤ i ∨ i + w.length + g.length + 1 + h.length < e.name.start := by
  obtain ⟨h1, h2, h3, h4, h5, h6, h7⟩ := he.order
  obtain ⟨x, hx1, hx2, hx3⟩ := isWord_iff.1 he.process
  rcases hk.apart hw he.key with ha | ha | ⟨-, ha⟩
  · refine .inl (Nat.le_of_not_lt fun hlt => ?_)
    dsimp only at ha
    rcases Nat.eq_or_lt_of_le ha with heq | hlt'
    · have hself := (hk.isKey hw).word
      have hlt1 := hself.lt
      have hlt2 := hx2.lt
      have hsame : (⟨i, i + w.length⟩ : Span) = x :=
        hself.eq_of_mem hx2 (k := i) (Nat.le_refl _) hlt1 (by omega) (by omega)
      have hbytes : (ofText t).bytes ⟨i, i + w.length⟩ = w := by
        rw [bytes_eq, hk.slice_name, map_byte_codeCells]
      rw [hsame, hx3] at hbytes
      exact (isWord_of_mem_guardKeys w hw).2.2.1 hbytes.symm
    -- The byte before the key would be part of what the entry is read from.
    have hle : i ≤ stop := by
      have := he.stop_eq
      split at this <;> omega
    obtain ⟨b, hb, hor⟩ := he.isWord_or_dot (k := i - 1) (by omega) (by omega)
    obtain ⟨c, hc, hn, hd⟩ := hk.edge.resolve_left (by omega)
    rw [hb] at hc
    cases hc
    rcases hor with hor | hor
    · rw [hor] at hn
      cases hn
    · exact hd hor
  · exact .inr ha
  · dsimp only at ha
    have hopen := hk.parts.2.2.2.2
    rw [← ha, ← hx1] at hopen
    exact absurd hopen (codeByte?_ne_of_inWord hx2.inWord_start (by decide))

/-- A gap between entries does not reach into a key. -/
theorem gap_apart (hk : KeyAt t w i g h) (hw : w ∈ guardKeys) {a b : Nat} {lead : Text}
    (hg : IsGap t a b lead) : b ≤ i ∨ i + w.length + g.length + 1 + h.length < a := by
  have hself := hk.isKey hw
  have hpos : i < i + w.length := hself.word.lt
  obtain ⟨p1, -, -, -, p5⟩ := hk.parts
  rcases Nat.lt_or_ge i b with h1 | h1
  case inr => exact .inl h1
  refine .inr (Nat.lt_of_not_le fun h2 => ?_)
  -- Neither the first byte of the word nor the brace is among blanks and commas.
  have hfirst : i < a := by
    refine Nat.lt_of_not_le fun h3 => ?_
    have hb := p1 0 (by omega)
    rw [Nat.add_zero, List.getElem?_eq_getElem (by omega)] at hb
    obtain ⟨ds, hd, hbytes⟩ := hg.loose
    have hin := mem_bytes (x := ⟨a, b⟩) hb h3 h1
    rw [hbytes] at hin
    obtain ⟨d, hdm, hbd⟩ := List.mem_flatMap.1 hin
    exact (isWord_of_mem_guardKeys w hw).2.2.2 _ (List.getElem_mem _) d (hd d hdm) hbd
  have hlast : b ≤ i + w.length + g.length + 1 + h.length := by
    refine Nat.le_of_not_lt fun h3 => ?_
    exact (hg.loose.soft _ (mem_bytes p5 h2 h3)).no_bracket (by decide)
  rcases hg.divides with ⟨h0, ho⟩ | ⟨c, hc1, hc2, hc⟩ | hc
  · rcases hk.not_word hw (by omega) (by omega) ho (by decide) with hs | hs | hs
    · exact absurd hs.2 (by decide)
    · exact absurd hs.2 (by decide)
    · omega
  · rcases hk.not_word hw (by omega) (by omega) hc (by decide) with hs | hs | hs <;>
      exact absurd hs.2 (by decide)
  · rcases hk.close_apart hw hc with h3 | h3 <;> omega

/-- **No pass breaks a key.** A patch comes before a key or behind its brace, or it nests the entry
with this key. -/
theorem clear (hk : KeyAt t w i g h) (hw : w ∈ guardKeys) {q : Patch} (hq : q.Made t) :
    q.span.stop ≤ i ∨ i + (keyText w g h).length ≤ q.span.start ∨
      (∃ e colon, (ofText t).IsFlat e colon ∧ e.name = ⟨i, i + w.length⟩) ∧
      ∃ indent : Text, indent.IsIndent ∧
        q = ⟨⟨i + w.length, i + w.length + g.length + 1 + h.length⟩, front indent⟩ := by
  have hlen := length_keyText w g h
  cases hq with
  | @flatFront e colon indent he hi =>
    have ho := he.order
    rcases hk.apart hw he.key with ha | ha | ⟨ha, hb⟩
    · exact .inl ha
    · refine .inr (.inl ?_)
      dsimp only at ha ⊢
      omega
    · refine .inr (.inr ⟨⟨e, colon, he, ha⟩, indent, hi, ?_⟩)
      dsimp only at ha hb
      rw [ha, hb]
  | @flatBack e colon indent he hi =>
    have ho := he.order
    obtain ⟨-, -, hclose⟩ := closing?_spec he.closing
    dsimp only
    rcases hk.close_apart hw hclose with ha | ha <;> omega
  | envFront he hi =>
    have ho := he.order
    dsimp only
    rcases hk.env_apart hw he with ha | ha <;> omega
  | envBack he hi =>
    have ho := he.order
    dsimp only
    rcases hk.env_apart hw he with ha | ha <;> omega
  | gap hg hi =>
    dsimp only
    rcases hk.gap_apart hw hg with ha | ha <;> omega

end KeyAt

section
variable {t : Text} {i j : Nat}

/-- The last cell has neither a word byte nor a dot. -/
def Ends (cs : List Cell) : Prop :=
  ∀ c ∈ cs.getLast?, Byte.isWord c.byte = false ∧ c.byte ≠ Byte.dot

theorem Ends.append {cs ds : List Cell} (hd : Ends ds) (hc : ds = [] → Ends cs) :
    Ends (cs ++ ds) := by
  intro c hm
  rw [List.getLast?_append] at hm
  cases hl : ds.getLast? with
  | some d =>
    rw [hl, Option.some_or] at hm
    obtain rfl := Option.some.inj hm
    exact hd _ hl
  | none =>
    rw [hl, Option.none_or] at hm
    exact hc (List.getLast?_eq_none_iff.1 hl) c hm

/-- What a patch puts in ends with neither a word byte nor a dot, unless something is kept
behind it. -/
theorem Patch.Made.ends {q : Patch} (h : q.Made t) : q.text ≠ [] ∧ (Ends (q.cells t) ∨
    ∃ e colon value stop, (ofText t).IsEnv e colon value stop ∧ q.span.stop = e.var.start) := by
  have hlast : ∀ {u v : Text} {s : LexState}, v ≠ [] → (∀ b ∈ v.getLast?, Byte.isWord b = false ∧
      b ≠ Byte.dot) → u ++ v ≠ [] ∧ Ends (s.cells (u ++ v) none) := by
    intro u v s hv hb
    refine ⟨List.append_ne_nil_of_right_ne_nil _ hv, fun c hc => ?_⟩
    have hbyte := congrArg (Option.map Cell.byte) (Option.mem_def.1 hc)
    rw [← List.getLast?_map, map_byte_cells, List.getLast?_append] at hbyte
    refine hb c.byte ?_
    cases hl : v.getLast? with
    | none => exact absurd (List.getLast?_eq_none_iff.1 hl) hv
    | some x =>
      rw [hl] at hbyte
      exact hbyte
  cases h with
  | @flatFront e colon indent he hi =>
    have := hlast (u := .ofString ": \x7b\n" ++ indent ++ .ofString "  " ++ nestedKey)
      (v := .ofString ": ") (s := t.stateAt e.name.stop) (by decide) (by decide)
    exact ⟨this.1, .inl this.2⟩
  | @flatBack e colon indent he hi =>
    have := hlast (u := .ofString ",\n" ++ indent) (v := .ofString "\x7d")
      (s := t.stateAt e.body.stop) (by decide) (by decide)
    exact ⟨this.1, .inl this.2⟩
  | @envFront e colon value stop indent he hi =>
    exact ⟨List.append_ne_nil_of_right_ne_nil _ (by decide), .inr ⟨e, colon, value, stop, he, rfl⟩⟩
  | @envBack e colon value stop indent he hi =>
    have := hlast (u := .ofString " \x7d" ++ (.ofString ",\n" ++ indent)) (v := .ofString "\x7d")
      (s := t.stateAt e.var.stop) (by decide) (by decide)
    rw [List.append_assoc] at this
    exact ⟨this.1, .inl this.2⟩
  | @gap i j lead indent hg hi =>
    have hv : ∀ b ∈ (Byte.newline :: indent).getLast?, Byte.isWord b = false ∧ b ≠ Byte.dot := by
      intro b hb
      rcases List.mem_cons.1 (List.mem_of_getLast? hb) with rfl | hb
      · decide
      · rcases hi b hb with rfl | rfl <;> decide
    have := hlast (u := lead) (s := t.stateAt i) (List.cons_ne_nil _ _) hv
    exact ⟨this.1, .inl this.2⟩

/-- What is put in before a position and kept there ends with neither a word byte nor a dot, if
what was there does. -/
theorem ends_mended {k : Nat} {qs : List Patch} (hi : i ≤ t.length)
    (hedge : i = 0 ∨ ∃ b, t[i - 1]? = some b ∧ Byte.isWord b = false ∧ b ≠ Byte.dot)
    (hf : Follow Patch.span k i qs)
    (hq : ∀ q ∈ qs, q.text ≠ [] ∧ (Ends (q.cells t) ∨ q.span.stop < i)) :
    Ends (t.mended i k qs) := by
  induction hf with
  | @nil k i hki =>
    rw [mended_nil]
    intro c hc
    rcases Nat.eq_or_lt_of_le hki with rfl | hlt
    · rw [slice_self] at hc
      cases hc
    · obtain ⟨b, hb, hok⟩ := hedge.resolve_left (by omega)
      rw [List.getLast?_eq_getElem?, length_slice _ hki (by rw [size_ofText]; exact hi),
        getElem?_slice _ (by omega), show k + (i - k - 1) = i - 1 by omega, Option.mem_def] at hc
      rw [← byte?_ofText, byte?, hc] at hb
      obtain rfl : c.byte = b := Option.some.inj hb
      exact hok
  | @cons k i q qs h1 h2 h3 ih =>
    have ih := ih hi hedge fun r hr => hq r (by simp [hr])
    obtain ⟨hne, hor⟩ := hq q (by simp)
    have hcells : ∀ r ∈ q :: qs, r.cells t ≠ [] := by
      intro r hr hnil
      have := congrArg (List.map Cell.byte) hnil
      rw [Patch.cells, map_byte_cells] at this
      exact (hq r hr).1 this
    rw [mended_cons]
    refine ih.append fun hnil => ?_
    -- Nothing is kept or put in behind the patch, so it is the last thing before the position.
    have hstop : ¬ q.span.stop < i := by
      intro hlt
      cases qs with
      | nil =>
        rw [mended_nil] at hnil
        have := congrArg List.length hnil
        rw [length_slice _ (Nat.le_of_lt hlt) (by rw [size_ofText]; exact hi)] at this
        simp only [List.length_nil] at this
        omega
      | cons r qs =>
        rw [mended_cons] at hnil
        obtain ⟨h4, -⟩ := List.append_eq_nil_iff.1 hnil
        exact hcells r (by simp) (List.append_eq_nil_iff.1 h4).2
    exact (hor.resolve_right hstop).append fun h => absurd h (hcells q (by simp))

/-- What is left before a key ends with neither a word byte nor a dot. -/
theorem KeyAt.ends_before {w g h : Text} (hk : KeyAt t w i g h) (hw : w ∈ guardKeys)
    {qs : List Patch} (hm : ∀ q ∈ qs, q.Made t) (hf : Follow Patch.span 0 i qs) :
    Ends (t.mended i 0 qs) := by
  have hsize := lt_size_of_codeByte? hk.parts.2.2.2.2
  rw [size_ofText] at hsize
  refine ends_mended (by omega) hk.edge hf fun q hq => ?_
  obtain ⟨hne, hor⟩ := (hm q hq).ends
  refine ⟨hne, hor.imp id ?_⟩
  rintro ⟨e, colon, value, stop, he, hstop⟩
  have ho := he.order
  have hle := (hf.bounds q hq).2.2
  rcases hk.env_apart hw he with ha | ha <;> omega

/-- A key that stands among cells of code. -/
theorem keyAt_of_cells {w g h : Text} {cs r : List Cell}
    (hcells : (ofText t).cells.toList = cs ++ (codeCells (keyText w g h) ++ r))
    (hs : ∀ b ∈ g ++ h, Byte.isSpace b = true) (he : Ends cs) : KeyAt t w cs.length g h where
  cells := by
    rw [slice, hcells, List.drop_left, Nat.add_sub_cancel_left, List.take_left' (List.length_map _)]
  spaces := hs
  edge := by
    cases hl : cs.getLast? with
    | none =>
      rw [List.getLast?_eq_none_iff] at hl
      exact .inl (by rw [hl]; rfl)
    | some c =>
      refine .inr ⟨c.byte, ?_, he c hl⟩
      rw [List.getLast?_eq_getElem?] at hl
      rw [← byte?_ofText, byte?, ← Array.getElem?_toList, hcells,
        List.getElem?_append_left (List.getElem?_eq_some_iff.1 hl).1, hl]
      rfl

/-! ## The body of an entry that is nested -/

/-- The flat entries that a layout nests. -/
theorem change_mem_layout {s : Source} {f : FlatEntry} {es : List Span} {inner indent lead : Text}
    {close : Nat} (h : f ∈ es.filterMap s.flatIn?) :
    f.change inner ∈ s.layout inner indent close lead i es := by
  induction es generalizing i lead with
  | nil => cases h
  | cons e es ih =>
    obtain ⟨x, hx, hf⟩ := List.mem_filterMap.1 h
    rw [layout]
    refine List.mem_cons_of_mem _ (List.mem_append.2 ?_)
    rcases List.mem_cons.1 hx with rfl | hx
    · rw [hf]
      exact .inl (List.mem_singleton.2 rfl)
    · exact .inr (ih (List.mem_filterMap.2 ⟨x, hx, hf⟩))

/-- The flat entries that a pass nests are changed by it. -/
theorem Pass.change_of_mem_flats {p : Pass} {f : FlatEntry} (ht : t.WellFormed)
    (hf : f ∈ p.flats t) : ∃ (indent : Text) (colon : Nat), indent.IsIndent ∧
      f.change indent ∈ p.changes t ∧ (ofText t).IsFlat f colon := by
  obtain ⟨x, hx, hfx⟩ := List.mem_flatMap.1 hf
  have hindent := isIndent_indentOf (ofText t) x.anchor
  have hv := (finds_hits p (ofText t)).2.2 x hx
  cases x with
  | flat e =>
    obtain rfl := List.mem_singleton.1 hfx
    obtain ⟨colon, hflat⟩ := hv
    exact ⟨_, colon, hindent, List.mem_flatMap.2 ⟨_, hx, List.mem_singleton.2 rfl⟩, hflat⟩
  | env e => cases hfx
  | object a b =>
    obtain ⟨colon, hflat⟩ := (nests_object (a := a) ht hv.1 Text.IsIndent.nil).isFlat f hfx
    exact ⟨_, colon, Text.isIndent_deeper hindent,
      List.mem_flatMap.2 ⟨_, hx, change_mem_layout hfx⟩, hflat⟩

/-- The patches around what a change keeps. -/
theorem Pass.patches_around {p : Pass} {c : Change} (ht : t.WellFormed) (hc : c ∈ p.changes t)
    (htail : c.tail ≠ []) : ∃ as bs, p.patches t = as ++ ⟨⟨c.start, c.kept.start⟩, c.head⟩ ::
        ⟨⟨c.kept.stop, c.kept.stop⟩, c.tail⟩ :: bs ∧
      Follow Patch.span 0 c.start as ∧ Follow Patch.span c.kept.stop t.length bs := by
  obtain ⟨as, bs, hsplit⟩ := List.append_of_mem hc
  have hpatches : p.patches t = as.flatMap Change.patches ++ ⟨⟨c.start, c.kept.start⟩, c.head⟩ ::
      ⟨⟨c.kept.stop, c.kept.stop⟩, c.tail⟩ :: bs.flatMap Change.patches := by
    rw [Pass.patches, hsplit, List.flatMap_append, List.flatMap_cons, Change.patches, if_neg htail]
    rfl
  have hfollow := (p.cells_output ht).2
  rw [hpatches] at hfollow
  obtain ⟨h1, h2⟩ := hfollow.of_append
  refine ⟨_, _, hpatches, h1, ?_⟩
  cases h2 with
  | cons h3 h4 h5 =>
    cases h5 with
    | cons h6 h7 h8 => exact h8

/-- No patch of a pass lies within what a change keeps. -/
theorem Pass.parts_around {p : Pass} {c : Change} {as bs : List Patch}
    (hs : c.start ≤ c.kept.start) (hk : c.kept.start < c.kept.stop)
    (hp : p.patches t = as ++ ⟨⟨c.start, c.kept.start⟩, c.head⟩ ::
      ⟨⟨c.kept.stop, c.kept.stop⟩, c.tail⟩ :: bs)
    (ha : Follow Patch.span 0 c.start as) (hb : Follow Patch.span c.kept.stop t.length bs) :
    (∀ q ∈ p.patches t, q.span.stop ≤ c.kept.start ∨ c.kept.stop ≤ q.span.start) ∧
      c.kept.within (p.patches t) = [] ∧
      c.kept.before (p.patches t) = as ++ [⟨⟨c.start, c.kept.start⟩, c.head⟩] := by
  have hab := ha.bounds
  have hbb := hb.bounds
  have hcases : ∀ q ∈ p.patches t, q.span.stop ≤ c.kept.start ∨ c.kept.stop ≤ q.span.start := by
    intro q hq
    rw [hp] at hq
    rcases List.mem_append.1 hq with hq | hq
    · have := hab q hq
      exact .inl (by omega)
    rcases List.mem_cons.1 hq with rfl | hq
    · exact .inl (Nat.le_refl _)
    rcases List.mem_cons.1 hq with rfl | hq
    · exact .inr (Nat.le_refl _)
    · exact .inr (hbb q hq).1
  refine ⟨hcases, ?_, ?_⟩
  · rw [List.eq_nil_iff_forall_not_mem]
    intro q hq
    obtain ⟨hq, h5, h6⟩ := Span.mem_within.1 hq
    rcases hcases q hq with h | h <;> omega
  · have hbs : ∀ q ∈ bs, ¬ q.span.stop ≤ c.kept.start := by
      intro q hq
      have := hbb q hq
      omega
    have has : ∀ q ∈ as, q.span.stop ≤ c.kept.start := by
      intro q hq
      have := hab q hq
      omega
    rw [Span.before, hp, List.filter_append, List.filter_cons_of_pos (by simp),
      List.filter_cons_of_neg (by simp; omega),
      List.filter_eq_self.2 (fun q hq => by simpa using has q hq),
      List.filter_eq_nil_iff.2 (fun q hq => by simpa using hbs q hq)]

/-- No patch reaches across an end of what a change keeps. -/
theorem Pass.clear_around {p : Pass} {c : Change} (h : ∀ q ∈ p.patches t,
    q.span.stop ≤ c.kept.start ∨ c.kept.stop ≤ q.span.start) : ∀ q ∈ p.patches t, q.Clear c.kept :=
  fun q hq => (h q hq).imp_right .inl

/-- What a pass leaves before what a change keeps. -/
theorem mended_around {c : Change} {as : List Patch} (hs : c.start ≤ c.kept.start)
    (ha : Follow Patch.span 0 c.start as) :
    t.mended c.kept.start 0 (as ++ [⟨⟨c.start, c.kept.start⟩, c.head⟩]) =
      t.mended c.start 0 as ++ c.headCells t := by
  have hfollow : Follow Patch.span c.start c.kept.start [⟨⟨c.start, c.kept.start⟩, c.head⟩] :=
    .cons (Nat.le_refl _) hs (.nil (Nat.le_refl _))
  rw [mended_append ha hfollow, mended_cons, mended_nil]
  simp only [slice_self, List.nil_append, List.append_nil]
  rfl

/-- Two spaces are no part of a word. -/
theorem ends_spaces (cs : List Cell) (u : Text) : Ends (cs ++ codeCells (u ++ .ofString "  ")) := by
  intro c hc
  rw [codeCells, List.map_append, ← List.append_assoc, List.getLast?_append] at hc
  obtain rfl : (⟨Byte.space, .code⟩ : Cell) = c := Option.some.inj hc
  decide

theorem front_eq (indent : Text) : front indent =
    .ofString ": \x7b\n" ++ indent ++ .ofString "  " ++ (nestedKey ++ .ofString ": ") := by
  rw [front, List.append_assoc]

/-- **The body of an entry that a pass nests stands behind the key `default`**, as it was. -/
theorem Pass.keyAt_body {p : Pass} {f : FlatEntry} (ht : t.WellFormed) (hf : f ∈ p.flats t) :
    ∃ i, i + 9 = (p.place t f.body).start ∧ KeyAt (p.output t) nestedKey i [] [Byte.space] ∧
      (ofText (p.output t)).slice (p.place t f.body).start (p.place t f.body).stop =
        (ofText t).slice f.body.start f.body.stop := by
  obtain ⟨indent, colon, hi, hc, hflat⟩ := Pass.change_of_mem_flats ht hf
  obtain ⟨as, bs, hp, ha, hb⟩ := Pass.patches_around ht hc (back_ne_nil indent)
  obtain ⟨h1, h2, h3, h4, h5⟩ := hflat.order
  have hle : f.name.stop ≤ f.body.start := by omega
  obtain ⟨hcases, hwithin, hbefore⟩ :=
    Pass.parts_around hle (show f.body.start < f.body.stop by omega) hp ha hb
  have hclear := Pass.clear_around hcases
  obtain ⟨hopen, -⟩ := closing?_spec hflat.closing
  rw [size_ofText] at h5
  have hcells := p.cells_parts ht (x := f.body) (by omega) h5 hclear
  have hslice := (p.slice_place ht (x := f.body) (by omega) h5 hclear).1
  have hlead : t.mended f.body.start 0 (f.body.before (p.patches t)) =
      t.mended f.name.stop 0 as ++ codeCells (front indent) := by
    rw [← headCells_flat hflat hi, show f.body.before (p.patches t) = _ from hbefore]
    exact mended_around hle ha
  rw [show f.body.within (p.patches t) = [] from hwithin] at hcells hslice
  refine ⟨(t.mended f.name.stop 0 as ++
    codeCells (.ofString ": \x7b\n" ++ indent ++ .ofString "  ")).length, ?_, ?_, hslice⟩
  · have hlen := congrArg List.length hlead
    rw [← List.length_map Cell.byte, map_byte_mended] at hlen
    show _ = ((ofText t).patched f.body.start 0 (f.body.before (p.patches t))).length
    rw [hlen, front_eq]
    simp only [codeCells, List.length_append, List.length_map]
    have : (nestedKey ++ Text.ofString ": ").length = 9 := by decide
    rw [List.length_append] at this
    omega
  · refine keyAt_of_cells (r := (ofText t).slice (f.body.start + 1) f.body.stop ++
      t.mended t.length f.body.stop (f.body.behind (p.patches t))) ?_ (by decide) (ends_spaces _ _)
    have hbrace : keyText nestedKey [] [Byte.space] =
        nestedKey ++ .ofString ": " ++ [Byte.openBrace] := by decide
    rw [hcells, hlead, mended_nil, slice_eq_cons _ (by omega) (codeByte?_eq_some.1 hopen),
      front_eq, hbrace]
    simp only [codeCells, List.map_append, List.map_cons, List.map_nil, List.append_assoc,
      List.cons_append, List.nil_append]

end

end ProviderNest
