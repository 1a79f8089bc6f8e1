import ProviderNest.Proofs.Changes

/-!
# Reading the result of a pass

What a pass leaves is read by the automaton again, and nothing may slip into another lexical kind
on the way. `relex` says that nothing does: every part that is kept has the cells it had before,
and the state behind the last byte is the one it was. It is proved for all changes that fit
(`Change.Fits`): the text put in leads to code, what is kept begins and ends in code, and no two
bytes that meet at a seam can open or close a comment together.

Every change of a pass is one of three (`Change.Made`): a flat entry or an entry read from the
environment takes the nested shape, or a gap between the entries of an object is laid out. Each of
them fits.
-/

namespace ProviderNest

open LexState Source

/-! ## Changes that fit -/

/-- A change after which the rest of the text is read as before. -/
structure Change.Fits (t : Text) (c : Change) : Prop where
  start_le : c.start ≤ c.kept.start
  kept_le : c.kept.start ≤ c.kept.stop
  stop_le : c.kept.stop ≤ t.length
  head_calm : ∃ b, c.head.head? = some b ∧ Calm (some b)
  head_solid : Solid c.head
  head_whole : c.head.WellFormed
  leads : ∀ next, (t.stateAt c.start).after c.head next = .code
  seam : Calm t[c.start]? ∨ Solid (t.take c.start)
  kept_code : t.stateAt c.kept.start = .code
  kept_solid : c.kept.start < c.kept.stop → Solid (t.take c.kept.stop)
  stop_code : t.stateAt c.kept.stop = .code
  tail_plain : ∀ b ∈ c.tail, Plain b
  tail_whole : c.tail.WellFormed
  starts : Text.Starts (t.drop c.start)
  kept_starts : Text.Starts (t.drop c.kept.start)
  stops : Text.Starts (t.drop c.kept.stop)

section
variable {t : Text} {i j : Nat}

/-- A part of a solid text that reaches its end is solid. -/
theorem solid_bytes (hij : i ≤ j) (h : Solid (t.take j)) : Solid ((ofText t).bytes ⟨i, j⟩) := by
  have ht : t.take j = t.take i ++ (ofText t).bytes ⟨i, j⟩ := by
    rw [bytes_eq, map_byte_slice, ← List.take_add, Nat.add_sub_cancel' hij]
  intro b hb
  refine h b ?_
  rw [ht, List.getLast?_append, hb]
  rfl

/-- A part that is kept is read as before, whatever follows it now, unless a seam is in doubt. -/
theorem read_kept {x : Span} {n : Option UInt8} (hx : x.start ≤ x.stop) (hs : x.stop ≤ t.length)
    (h : Calm n ∧ Calm t[x.stop]? ∨ Solid (t.take x.stop) ∨ x.start = x.stop) :
    (t.stateAt x.start).cells ((ofText t).bytes x) n = (ofText t).slice x.start x.stop ∧
    (t.stateAt x.start).after ((ofText t).bytes x) n = t.stateAt x.stop := by
  have halike : Alike ((ofText t).bytes x) n t[x.stop]? := by
    rcases h with h | h | h
    · exact .inr (.inl h)
    · exact .inr (.inr (solid_bytes hx h))
    · refine .inr (.inr fun b hb => ?_)
      rw [bytes_eq, h, slice_self] at hb
      cases hb
  obtain ⟨h1, h2⟩ := after_cells_alike halike (t.stateAt x.start)
  obtain ⟨h3, h4⟩ := read_slice t hx hs
  rw [List.head?_drop, ← map_byte_slice, ← bytes_eq] at h3 h4
  rw [h1, h2]
  exact ⟨h3, h4⟩

/-- The code cells of a text. -/
abbrev codeCells (u : Text) : List Cell := u.map (Cell.mk · .code)

/-- Plain bytes in code are read as code. -/
theorem slice_plain {x : Span} (hx : x.start ≤ x.stop) (hs : x.stop ≤ t.length)
    (hc : t.stateAt x.start = .code) (hp : ∀ b ∈ (ofText t).bytes x, Plain b) :
    (ofText t).slice x.start x.stop = codeCells ((ofText t).bytes x) := by
  obtain ⟨h, -⟩ := read_slice t hx hs
  rw [hc, ← map_byte_slice, ← bytes_eq] at h
  rw [← h]
  exact (after_cells_plain hp _).2

/-- The cells of the head of a change. -/
def Change.headCells (t : Text) (c : Change) : List Cell := (t.stateAt c.start).cells c.head none

/-- The cells of the tail of a change. -/
def Change.tailCells (c : Change) : List Cell := codeCells c.tail

/-- **The result of changes that fit is read like the text.** What is kept has the cells it had,
and the state behind the result is the state behind the text. -/
theorem relex {cs : List Change} (hf : Follow Change.span i t.length cs)
    (hc : ∀ c ∈ cs, c.Fits t) :
    (t.stateAt i).cells ((ofText t).changed t.length i cs) none =
      weave (ofText t).slice (Change.headCells t) Change.tailCells t.length i cs ∧
    (t.stateAt i).after ((ofText t).changed t.length i cs) none = t.stateAt t.length := by
  generalize hn : t.length = n at hf
  induction hf with
  | nil h =>
    subst hn
    exact read_kept (t := t) (x := ⟨_, t.length⟩) (n := none) h (Nat.le_refl _)
      (.inl ⟨by decide, by simp [Calm]⟩)
  | @cons i n c cs h1 h2 h3 ih =>
    have hfit := hc c (by simp)
    rw [Change.span_start] at h1
    obtain ⟨ih1, ih2⟩ := ih (fun d hd => hc d (by simp [hd])) hn
    have hk := hfit.kept_le
    have hs := hfit.start_le
    have hsz := hfit.stop_le
    obtain ⟨b, hb, hcalm⟩ := hfit.head_calm
    rw [Change.span_stop, hfit.stop_code] at ih1 ih2
    have hchanged : (ofText t).changed n i (c :: cs) = (ofText t).bytes ⟨i, c.start⟩ ++ (c.head ++
        ((ofText t).bytes c.kept ++ (c.tail ++ (ofText t).changed n c.kept.stop cs))) := by
      simp [changed, weave]
    generalize (ofText t).changed n c.kept.stop cs = rest at hchanged ih1 ih2
    rw [hchanged]
    -- The kept part in front, up to the seam with the head.
    obtain ⟨a1, a2⟩ := read_kept (t := t) (x := ⟨i, c.start⟩) (n := some b) h1
      (show c.start ≤ t.length by omega) (hfit.seam.imp (⟨hcalm, ·⟩) .inl)
    dsimp only at a1 a2
    -- The head, which is solid and leads to code.
    obtain ⟨-, b2⟩ := after_cells_alike (m := ((ofText t).bytes c.kept ++ (c.tail ++ rest)).head?)
      (n := none) (.inr (.inr hfit.head_solid)) (t.stateAt c.start)
    -- The part that is kept behind the head.
    obtain ⟨c1, c2⟩ := read_kept (n := (c.tail ++ rest).head?) hk hsz
      (by rcases Nat.eq_or_lt_of_le hk with h | h
          · exact .inr (.inr h)
          · exact .inr (.inl (hfit.kept_solid h)))
    rw [hfit.kept_code] at c1 c2
    rw [hfit.stop_code] at c2
    obtain ⟨d1, d2⟩ := after_cells_plain hfit.tail_plain rest.head?
    have hh : (c.head ++ ((ofText t).bytes c.kept ++ (c.tail ++ rest))).head? = some b := by
      rw [List.head?_append, hb, Option.some_or]
    simp only [cells_append _ _ _ none, after_append _ _ _ none, Option.or_none, hh, a1, a2, b2,
      hfit.leads, c1, c2, d1, d2, ih1, ih2]
    exact ⟨by simp [weave, Change.headCells, Change.tailCells], trivial⟩

/-- A part of a text of whole characters between two characters is made of whole characters. -/
theorem wellFormed_bytes (ht : t.WellFormed) (hij : i ≤ j) (hi : Text.Starts (t.drop i))
    (hj : Text.Starts (t.drop j)) : Text.WellFormed ((ofText t).bytes ⟨i, j⟩) := by
  have h1 : Text.WellFormed (t.take i ++ t.drop i) := by rwa [List.take_append_drop]
  have h2 := (h1.of_append hi).2
  rw [drop_eq_bytes_append hij] at h2
  exact (h2.of_append hj).1

/-- Changes that fit leave a text of whole characters. -/
theorem wellFormed_changed {cs : List Change} (ht : t.WellFormed)
    (hf : Follow Change.span i t.length cs) (hc : ∀ c ∈ cs, c.Fits t)
    (hi : Text.Starts (t.drop i)) : Text.WellFormed ((ofText t).changed t.length i cs) := by
  generalize hn : t.length = n at hf
  induction hf with
  | nil h =>
    subst hn
    exact wellFormed_bytes ht h hi (by rw [List.drop_length]; exact Text.WellFormed.nil.starts)
  | @cons i n c cs h1 h2 h3 ih =>
    have hfit := hc c (by simp)
    have hrest := ih (fun d hd => hc d (by simp [hd])) hfit.stops hn
    rw [changed, weave]
    refine .append (.append (.append (.append ?_ hfit.head_whole) ?_) hfit.tail_whole) hrest
    · exact wellFormed_bytes ht h1 hi hfit.starts
    · exact wellFormed_bytes ht hfit.kept_le hfit.kept_starts hfit.stops

end

/-! ## What the passes put in -/

namespace Text

/-- A byte that opens nothing and cannot be part of a comment's opening or closing. -/
def Quiet (b : UInt8) : Prop := Plain b ∧ b ≠ Byte.star

instance (b : UInt8) : Decidable (Quiet b) := inferInstanceAs (Decidable (_ ∧ _))

/-- An indentation: spaces and tabs. -/
def IsIndent (u : Text) : Prop := ∀ b ∈ u, b = Byte.space ∨ b = Byte.tab

section
variable {u v : Text} {b : UInt8}

theorem Quiet.calm (h : Quiet b) : Calm (some b) := by
  refine ⟨fun hb => h.1.2 (Option.some.inj hb), fun hb => h.2 (Option.some.inj hb)⟩

theorem solid_of_quiet (h : ∀ b ∈ u, Quiet b) : Solid u := by
  intro b hb
  have := h b (List.mem_of_getLast? hb)
  exact ⟨this.1.2, this.2⟩

theorem wellFormed_of_ascii (h : ∀ b ∈ u, b < 0x80) : WellFormed u := by
  induction u with
  | nil => exact .nil
  | cons b u ih =>
    have hb := h b (by simp)
    refine @WellFormed.char b [] u (not_continuation_of_ascii hb) ?_ (fun x hx => nomatch hx)
      (ih fun x hx => h x (by simp [hx]))
    simp [trailing, hb]

/-- A word byte is quiet. -/
theorem quiet_of_isWord (h : Byte.isWord b = true) : Quiet b := by
  refine ⟨⟨?_, ?_⟩, ?_⟩
  · rw [← Bool.not_eq_true]
    intro hq
    simp only [Kind.isQuote, Bool.or_eq_true, beq_iff_eq] at hq
    rcases hq with (rfl | rfl) | rfl <;> exact absurd h (by decide)
  · rintro rfl
    exact absurd h (by decide)
  · rintro rfl
    exact absurd h (by decide)

theorem IsIndent.nil : IsIndent [] := fun _ hb => nomatch hb

theorem IsIndent.quiet (h : IsIndent u) (hb : b ∈ u) : Quiet b ∧ b < 0x80 := by
  rcases h b hb with rfl | rfl <;> decide

theorem IsIndent.wellFormed (h : IsIndent u) : WellFormed u :=
  wellFormed_of_ascii fun _ hb => (h.quiet hb).2

theorem IsIndent.append (hu : IsIndent u) (hv : IsIndent v) : IsIndent (u ++ v) := by
  intro b hb
  rcases List.mem_append.1 hb with h | h
  · exact hu b h
  · exact hv b h

theorem isIndent_deeper (hu : IsIndent u) : IsIndent (u ++ ofString "  ") :=
  hu.append fun b hb => .inl (by revert hb; revert b; decide)

/-- What is put in before a configuration is quiet. -/
theorem quiet_front (hu : IsIndent u) (hb : b ∈ front u) : Quiet b ∧ b < 0x80 := by
  have hkey : ∀ b ∈ ofString ": \x7b\n" ++ ofString "  " ++ nestedKey ++ ofString ": ",
      Quiet b ∧ b < 0x80 := by decide
  simp only [front, List.mem_append] at hb hkey
  rcases hb with (((hb | hb) | hb) | hb) | hb
  · exact hkey b (.inl (.inl (.inl hb)))
  · exact hu.quiet hb
  · exact hkey b (.inl (.inl (.inr hb)))
  · exact hkey b (.inl (.inr hb))
  · exact hkey b (.inr hb)

/-- What is put in behind a configuration is quiet. -/
theorem quiet_back (hu : IsIndent u) (hb : b ∈ back u) : Quiet b ∧ b < 0x80 := by
  have hends : ∀ b ∈ ofString ",\n" ++ ofString "\x7d", Quiet b ∧ b < 0x80 := by decide
  simp only [back, List.mem_append] at hb hends
  rcases hb with (hb | hb) | hb
  · exact hends b (.inl hb)
  · exact hu.quiet hb
  · exact hends b (.inr hb)

end

end Text

/-- A gap of an object, from `i` up to `j`, that is laid out behind `lead`: behind the brace
nothing leads, and behind an entry a comma does. -/
structure IsGap (t : Text) (i j : Nat) (lead : Text) : Prop where
  le : i ≤ j
  stop_lt : j < t.length
  loose : Text.MadeOf Text.loose ((ofText t).bytes ⟨i, j⟩)
  opens : (lead = [] ∧ 0 < i ∧ (ofText t).codeByte? (i - 1) = some Byte.openBrace) ∨
    (lead = [Byte.comma] ∧ (t.stateAt i).Settles ∧ Calm t[i]?)
  divides : (0 < i ∧ (ofText t).codeByte? (i - 1) = some Byte.openBrace) ∨
    (∃ c, i ≤ c ∧ c < j ∧ (ofText t).codeByte? c = some Byte.comma) ∨
    (ofText t).codeByte? j = some Byte.closeBrace
  starts : Text.Starts (t.drop i)
  stops : Text.Starts (t.drop j)
  code : t.stateAt j = .code
  fresh : Text.Fresh (t.drop j)

/-- An indentation is blank. -/
theorem Text.IsIndent.madeOf {u : Text} (h : u.IsIndent) : u.MadeOf blanks := by
  induction u with
  | nil => exact .nil
  | cons b u ih =>
    have hu := ih fun x hx => h x (by simp [hx])
    rcases h b (by simp) with rfl | rfl
    · exact MadeOf.append (MadeOf.char (c := ' ') (by decide)) hu
    · exact MadeOf.append (MadeOf.char (c := '\t') (by decide)) hu

/-- A line break with an indentation is blank. -/
theorem Text.IsIndent.madeOf_line {u : Text} (h : u.IsIndent) :
    MadeOf blanks (Byte.newline :: u) :=
  MadeOf.append (MadeOf.char (c := '\n') (by decide)) h.madeOf

/-- What is put into a gap is made of blanks and commas like what stood there. -/
theorem IsGap.madeOf {t lead indent : Text} {i j : Nat} (h : IsGap t i j lead)
    (hi : indent.IsIndent) : (lead ++ Byte.newline :: indent).MadeOf Text.loose := by
  have hline := hi.madeOf_line.loose
  rcases h.opens with ⟨rfl, -⟩ | ⟨rfl, -⟩
  · exact hline
  · exact Text.MadeOf.append (Text.MadeOf.char (c := ',') (by decide)) hline

/-- The changes that passes make. -/
inductive Change.Made (t : Text) : Change → Prop
  | flat {e : FlatEntry} {colon : Nat} {indent : Text} :
      (ofText t).IsFlat e colon → indent.IsIndent → Made t (e.change indent)
  | env {e : EnvEntry} {colon value stop : Nat} {indent : Text} :
      (ofText t).IsEnv e colon value stop → indent.IsIndent → Made t (e.change (ofText t) indent)
  | gap {i j : Nat} {lead indent : Text} :
      IsGap t i j lead → indent.IsIndent → Made t (.gap i j (lead ++ Byte.newline :: indent))

section
variable {t : Text} {i : Nat} {b : UInt8}

/-- A text that ends behind a quiet byte is solid. -/
theorem solid_take_succ (hb : t[i]? = some b) (h : Text.Quiet b) : Solid (t.take (i + 1)) := by
  intro x hx
  rw [List.take_add_one, hb, List.getLast?_append] at hx
  cases hx
  exact ⟨h.1.2, h.2⟩

/-- Behind a quiet byte of code a text is solid, and there is code. -/
theorem solid_of_codeByte? (hb : (ofText t).codeByte? (i - 1) = some b) (hi : 0 < i)
    (h : Text.Quiet b) : Solid (t.take i) ∧ t.stateAt i = .code := by
  have h1 := solid_take_succ (getElem?_of_codeByte? hb) h
  have h2 := stateAt_succ hb
  rw [Nat.sub_add_cancel hi] at h1 h2
  exact ⟨h1, h2⟩

/-- Behind a word a text is solid, and there is code. -/
theorem solid_of_isWord {w : Span} (hw : (ofText t).IsWord w) :
    Solid (t.take w.stop) ∧ t.stateAt w.stop = .code := by
  have hlt := hw.lt
  obtain ⟨b, hb, hbw⟩ := inWord_iff.1 hw.inWord_last
  exact solid_of_codeByte? hb (by omega) (Text.quiet_of_isWord hbw)

/-- A word begins in code, with a quiet byte. -/
theorem code_of_isWord {w : Span} (hw : (ofText t).IsWord w) :
    t.stateAt w.start = .code ∧ Calm t[w.start]? := by
  obtain ⟨b, hb, hbw⟩ := inWord_iff.1 hw.inWord_start
  refine ⟨stateAt_of_codeByte? hb ?_, ?_⟩
  · rintro rfl
    exact absurd hbw (by decide)
  · rw [getElem?_of_codeByte? hb]
    exact (Text.quiet_of_isWord hbw).calm

/-- The head of a change that is quiet and put into code leads to code. -/
theorem after_quiet {u : Text} (hs : t.stateAt i = .code) (hu : ∀ b ∈ u, Text.Quiet b)
    (next : Option UInt8) : (t.stateAt i).after u next = .code := by
  rw [hs]
  exact (after_cells_plain (fun b hb => (hu b hb).1) next).1

/-- The cells of a quiet head that is put into code. -/
theorem headCells_of_quiet {c : Change} (hs : t.stateAt c.start = .code)
    (hq : ∀ b ∈ c.head, Text.Quiet b) : c.headCells t = codeCells c.head := by
  rw [Change.headCells, hs, (after_cells_plain (fun b hb => (hq b hb).1) none).2]

/-- The cells that come before the configuration of a flat entry. -/
theorem headCells_flat {e : FlatEntry} {colon : Nat} {indent : Text}
    (h : (ofText t).IsFlat e colon) (hi : indent.IsIndent) :
    (e.change indent).headCells t = codeCells (front indent) :=
  headCells_of_quiet (solid_of_isWord (w := e.name) h.key.word).2 fun _ hb =>
    (Text.quiet_front hi hb).1

theorem starts_of_isBoundary (ht : t.WellFormed) (hi : i ≤ t.length)
    (h : (ofText t).isBoundary i = true) : Text.Starts (t.drop i) :=
  (isBoundary_iff ht hi).1 h

/-- The nested shape of a flat entry fits. -/
theorem fits_flat {e : FlatEntry} {colon : Nat} {indent : Text} (ht : t.WellFormed)
    (h : (ofText t).IsFlat e colon) (hi : indent.IsIndent) : (e.change indent).Fits t := by
  obtain ⟨h1, h2, h3, h4, h5⟩ := h.order
  obtain ⟨h6, -, h7⟩ := closing?_spec h.closing
  rw [size_ofText] at h5
  have hword := solid_of_isWord h.key.word
  have hback := solid_of_codeByte? h7 (by omega) (by decide)
  have hopen := isBoundary_of_ascii (getElem?_of_codeByte? h6) (by decide)
  have hclose := isBoundary_succ_of_ascii ht (getElem?_of_codeByte? h7) (by decide)
  rw [Nat.sub_add_cancel (by omega)] at hclose
  have hfront := fun b hb => (Text.quiet_front (b := b) hi hb).1
  refine
    { start_le := by simp only [FlatEntry.change]; omega
      kept_le := by simp only [FlatEntry.change]; omega
      stop_le := h5
      head_calm := ⟨Byte.colon, rfl, by decide⟩
      head_solid := Text.solid_of_quiet hfront
      head_whole := Text.wellFormed_of_ascii fun b hb => (Text.quiet_front hi hb).2
      leads := after_quiet hword.2 hfront
      seam := .inr hword.1
      kept_code := stateAt_of_codeByte? h6 (by decide)
      kept_solid := fun _ => hback.1
      stop_code := hback.2
      tail_plain := fun b hb => (Text.quiet_back hi hb).1.1
      tail_whole := Text.wellFormed_of_ascii fun b hb => (Text.quiet_back hi hb).2
      starts := starts_of_isBoundary ht (by simp only [FlatEntry.change]; omega)
        (isBoundary_stop h.key.word)
      kept_starts := starts_of_isBoundary ht (by simp only [FlatEntry.change]; omega) hopen
      stops := starts_of_isBoundary ht h5 hclose }

/-- The bytes of a word. -/
theorem isWord_bytes {w : Span} (hw : (ofText t).IsWord w) :
    ∀ b ∈ (ofText t).bytes w, Byte.isWord b = true := by
  intro b hb
  obtain ⟨k, hk⟩ := List.mem_iff_getElem?.1 hb
  have hlt := (List.getElem?_eq_some_iff.1 hk).1
  rw [length_bytes (Nat.le_of_lt hw.lt) hw.stop_le] at hlt
  rw [getElem?_bytes (by omega)] at hk
  obtain ⟨x, hx, hxw⟩ := inWord_iff.1 (hw.inside (w.start + k) (by omega) (by omega))
  rw [byte?_of_codeByte? hx] at hk
  cases hk
  exact hxw

/-- The bytes that come before the variable in the nested shape of an entry read from the
environment. -/
theorem quiet_head_env {e : EnvEntry} {colon value stop : Nat} {indent : Text}
    (h : (ofText t).IsEnv e colon value stop) (hi : indent.IsIndent) :
    ∀ b ∈ (e.change (ofText t) indent).head, Text.Quiet b := by
  intro b hb
  have hrest : ∀ b ∈ Text.ofString "\x7b " ++ apiKeyField ++ Text.ofString ": " ++ environment,
      Text.Quiet b := by decide
  simp only [EnvEntry.change, List.mem_append] at hb hrest
  rcases hb with ((((hb | hb) | hb) | hb) | hb) | hb
  · exact Text.quiet_of_isWord (Text.lower_isWord (isWord_bytes h.key.word) b hb)
  · exact (Text.quiet_front hi hb).1
  · exact hrest b (.inl (.inl (.inl hb)))
  · exact hrest b (.inl (.inl (.inr hb)))
  · exact hrest b (.inl (.inr hb))
  · exact hrest b (.inr hb)

/-- The cells that come before the variable of an entry read from the environment. -/
theorem headCells_env {e : EnvEntry} {colon value stop : Nat} {indent : Text}
    (h : (ofText t).IsEnv e colon value stop) (hi : indent.IsIndent) :
    (e.change (ofText t) indent).headCells t = codeCells (e.change (ofText t) indent).head :=
  headCells_of_quiet (code_of_isWord (w := e.name) h.key.word).1 (quiet_head_env h hi)

/-- Behind the variable of an entry read from the environment a text is solid, and there is
code. -/
theorem solid_of_isEnv {e : EnvEntry} {colon value stop : Nat}
    (h : (ofText t).IsEnv e colon value stop) :
    Solid (t.take e.var.stop) ∧ t.stateAt e.var.stop = .code := by
  rw [h.stop_eq]
  split
  · next ha =>
    rw [isAsserted, Bool.and_eq_true, beq_iff_eq] at ha
    exact solid_of_codeByte? (i := stop + 1) ha.1 (Nat.succ_pos _) (by decide)
  · exact solid_of_isWord h.word

namespace Source.IsEnv

variable {e : EnvEntry} {colon value stop : Nat}

/-- A text can be cut before the value of an entry read from the environment. -/
theorem isBoundary_value (ht : t.WellFormed) (h : (ofText t).IsEnv e colon value stop) :
    (ofText t).isBoundary value = true := by
  obtain ⟨w, hw1, hw2, -⟩ := isWord_iff.1 h.process
  rw [← hw1]
  exact isBoundary_start ht hw2

/-- The value of an entry read from the environment is spelled out in code. -/
theorem slice_value (h : (ofText t).IsEnv e colon value stop) :
    (ofText t).slice value e.var.start = codeCells environment := by
  obtain ⟨-, -, -, h4, h5, h6, h7⟩ := h.order
  have hlen : environment.length = 12 := by decide
  obtain ⟨w, hw1, hw2, -⟩ := isWord_iff.1 h.process
  have hcode := (code_of_isWord hw2).1
  rw [hw1] at hcode
  have hbytes : (ofText t).bytes ⟨value, e.var.start⟩ = environment := by
    rw [h.start_eq]
    exact bytes_of_spellsAt h.spelled (by omega)
  have hplain : ∀ b ∈ (ofText t).bytes ⟨value, e.var.start⟩, Plain b := by
    rw [hbytes]
    decide
  rw [size_ofText] at h7
  have := slice_plain (x := ⟨value, e.var.start⟩) (by dsimp only; omega) (by dsimp only; omega)
    hcode hplain
  rwa [hbytes] at this

end Source.IsEnv

/-- The nested shape of an entry read from the environment fits. -/
theorem fits_env {e : EnvEntry} {colon value stop : Nat} {indent : Text} (ht : t.WellFormed)
    (h : (ofText t).IsEnv e colon value stop) (hi : indent.IsIndent) :
    (e.change (ofText t) indent).Fits t := by
  obtain ⟨h1, h2, h3, h4, h5, h6, h7⟩ := h.order
  rw [size_ofText] at h7
  have hname := code_of_isWord h.key.word
  have hvar := code_of_isWord h.word
  have hback := solid_of_isEnv h
  have hquiet := quiet_head_env h hi
  have hne : (ofText t).bytes e.name ≠ [] := by
    intro hnil
    have := length_bytes (s := ofText t) (Nat.le_of_lt h1) h.key.word.stop_le
    rw [hnil] at this
    simp only [List.length_nil] at this
    omega
  obtain ⟨x, r, hx⟩ := List.exists_cons_of_ne_nil (Text.lower_ne_nil hne)
  have htail : ∀ b ∈ (e.change (ofText t) indent).tail, Text.Quiet b ∧ b < 0x80 := by
    intro b hb
    rcases List.mem_append.1 hb with hb | hb
    · exact (show ∀ b ∈ Text.ofString " \x7d", Text.Quiet b ∧ b < 0x80 by decide) b hb
    · exact Text.quiet_back hi hb
  have hstart := starts_of_isBoundary ht (by omega) (isBoundary_start (w := e.name) ht h.key.word)
  have hwhole : Text.WellFormed ((ofText t).bytes e.name) :=
    wellFormed_bytes ht (Nat.le_of_lt h1) hstart
      (starts_of_isBoundary (i := e.name.stop) ht (by omega) (isBoundary_stop h.key.word))
  have hfront := Text.wellFormed_of_ascii fun b hb => (Text.quiet_front (b := b) hi hb).2
  refine
    { start_le := by simp only [EnvEntry.change]; omega
      kept_le := by simp only [EnvEntry.change]; omega
      stop_le := h7
      head_calm :=
        ⟨x, by simp [EnvEntry.change, hx], (hquiet x (by simp [EnvEntry.change, hx])).calm⟩
      head_solid := Text.solid_of_quiet hquiet
      head_whole := ?_
      leads := after_quiet hname.1 hquiet
      seam := .inl hname.2
      kept_code := hvar.1
      kept_solid := fun _ => hback.1
      stop_code := hback.2
      tail_plain := fun b hb => (htail b hb).1.1
      tail_whole := Text.wellFormed_of_ascii fun b hb => (htail b hb).2
      starts := hstart
      kept_starts := starts_of_isBoundary ht (by simp only [EnvEntry.change]; omega)
        (isBoundary_start (w := ⟨e.var.start, stop⟩) ht h.word)
      stops := starts_of_isBoundary ht h7 (h.isBoundary_stop ht) }
  refine .append (.append (.append (.append (.append hwhole.lower hfront) ?_) ?_) ?_) ?_
  all_goals exact Text.wellFormed_of_ascii (by decide)

/-- The text that lays out a gap. -/
theorem quiet_gap {j : Nat} {lead indent : Text} (h : IsGap t i j lead) (hi : indent.IsIndent) :
    ∀ b ∈ lead ++ Byte.newline :: indent, Text.Quiet b ∧ b < 0x80 := by
  intro b hb
  rcases List.mem_append.1 hb with hb | hb
  · rcases h.opens with ⟨rfl, -⟩ | ⟨rfl, -⟩
    · cases hb
    · obtain rfl := List.mem_singleton.1 hb
      decide
  · rcases List.mem_cons.1 hb with rfl | hb
    · decide
    · exact hi.quiet hb

/-- The layout of a gap fits. -/
theorem fits_gap {j : Nat} {lead indent : Text} (h : IsGap t i j lead) (hi : indent.IsIndent) :
    (Change.gap i j (lead ++ Byte.newline :: indent)).Fits t := by
  have hquiet := quiet_gap h hi
  refine
    { start_le := h.le
      kept_le := Nat.le_refl _
      stop_le := Nat.le_of_lt h.stop_lt
      head_calm := ?_
      head_solid := Text.solid_of_quiet fun b hb => (hquiet b hb).1
      head_whole := Text.wellFormed_of_ascii fun b hb => (hquiet b hb).2
      leads := ?_
      seam := ?_
      kept_code := h.code
      kept_solid := fun hlt => absurd hlt (Nat.lt_irrefl _)
      stop_code := h.code
      tail_plain := fun b hb => nomatch hb
      tail_whole := .nil
      starts := h.starts
      kept_starts := h.stops
      stops := h.stops }
  · rcases h.opens with ⟨rfl, -⟩ | ⟨rfl, -⟩
    · exact ⟨Byte.newline, rfl, by decide⟩
    · exact ⟨Byte.comma, rfl, by decide⟩
  · intro next
    rcases h.opens with ⟨rfl, h0, hb⟩ | ⟨rfl, hs, -⟩
    · exact after_quiet (solid_of_codeByte? hb h0 (by decide)).2 (fun b hb => (hquiet b hb).1) next
    · show (t.stateAt i).after ([Byte.comma, Byte.newline] ++ indent) next = .code
      rw [after_append, hs]
      exact (after_cells_plain (fun b hb => (hi.quiet hb).1.1) next).1
  · rcases h.opens with ⟨rfl, h0, hb⟩ | ⟨rfl, -, hc⟩
    · exact .inr (solid_of_codeByte? hb h0 (by decide)).1
    · exact .inl hc

/-- Every change that a pass makes fits. -/
theorem Change.Made.fits {c : Change} (ht : t.WellFormed) (h : c.Made t) : c.Fits t := by
  cases h with
  | flat h hi => exact fits_flat ht h hi
  | env h hi => exact fits_env ht h hi
  | gap h hi => exact fits_gap h hi

/-- Changes that nest the flat entries `fs`, in this order, and lay out gaps between them. -/
inductive Nests (t : Text) : (fs : List FlatEntry) → List Change → Prop
  | nil : Nests t [] []
  | gap {fs : List FlatEntry} {cs : List Change} {i j : Nat} {lead indent : Text} :
      IsGap t i j lead → indent.IsIndent → Nests t fs cs →
      Nests t fs (.gap i j (lead ++ Byte.newline :: indent) :: cs)
  | flat {fs : List FlatEntry} {cs : List Change} {e : FlatEntry} {colon : Nat} {indent : Text} :
      (ofText t).IsFlat e colon → indent.IsIndent → Nests t fs cs →
      Nests t (e :: fs) (e.change indent :: cs)

namespace Nests

variable {fs gs : List FlatEntry} {cs ds : List Change}

theorem append (h : Nests t fs cs) (h' : Nests t gs ds) : Nests t (fs ++ gs) (cs ++ ds) := by
  induction h with
  | nil => exact h'
  | gap hg hi _ ih => exact .gap hg hi ih
  | flat hf hi _ ih => exact .flat hf hi ih

/-- A change among those that nest flat entries nests one of them, or it lays out a gap. -/
theorem mem (h : Nests t fs cs) : ∀ c ∈ cs,
    (∃ f ∈ fs, ∃ (colon : Nat) (indent : Text), (ofText t).IsFlat f colon ∧ indent.IsIndent ∧
      c = f.change indent) ∨
    ∃ (i j : Nat) (lead indent : Text), IsGap t i j lead ∧ indent.IsIndent ∧
      c = .gap i j (lead ++ Byte.newline :: indent) := by
  induction h with
  | nil => exact fun c hc => nomatch hc
  | gap hg hi _ ih =>
    intro c hc
    rcases List.mem_cons.1 hc with rfl | hc
    · exact .inr ⟨_, _, _, _, hg, hi, rfl⟩
    · exact ih c hc
  | flat hf hi _ ih =>
    intro c hc
    rcases List.mem_cons.1 hc with rfl | hc
    · exact .inl ⟨_, List.mem_cons_self, _, _, hf, hi, rfl⟩
    · rcases ih c hc with ⟨f, hm, hrest⟩ | hrest
      · exact .inl ⟨f, List.mem_cons_of_mem _ hm, hrest⟩
      · exact .inr hrest

theorem isFlat (h : Nests t fs cs) : ∀ f ∈ fs, ∃ colon, (ofText t).IsFlat f colon := by
  induction h with
  | nil => exact fun f hf => nomatch hf
  | gap _ _ _ ih => exact ih
  | flat hf _ _ ih =>
    intro f hm
    rcases List.mem_cons.1 hm with rfl | hm
    · exact ⟨_, hf⟩
    · exact ih f hm

end Nests

/-- The brace that closes an object ends its last gap. -/
theorem isGap_close {close : Nat} {lead : Text} (hle : i ≤ close)
    (hloose : Text.MadeOf Text.loose ((ofText t).bytes ⟨i, close⟩))
    (hclose : (ofText t).codeByte? close = some Byte.closeBrace)
    (hlead : (lead = [] ∧ 0 < i ∧ (ofText t).codeByte? (i - 1) = some Byte.openBrace) ∨
      (lead = [Byte.comma] ∧ (t.stateAt i).Settles ∧ Calm t[i]?))
    (hs : Text.Starts (t.drop i)) : IsGap t i close lead := by
  have hb := getElem?_of_codeByte? hclose
  refine ⟨hle, ?_, hloose, hlead, .inr (.inr hclose), hs, ?_, ?_, ?_⟩
  · simpa using lt_size_of_codeByte? hclose
  · intro x hx
    rw [List.head?_drop, hb] at hx
    cases hx
    decide
  · exact stateAt_of_codeByte? hclose (by decide)
  · rintro c hc ⟨r, hr⟩
    have hne : ∀ c ∈ Text.loose, ∃ x ∈ (String.utf8EncodeChar c).head?, x ≠ Byte.closeBrace := by
      decide
    obtain ⟨x, hx, hxne⟩ := hne c hc
    have : (t.drop close).head? = some Byte.closeBrace := by rw [List.head?_drop, hb]
    rw [← hr, List.head?_append, Option.mem_def.1 hx, Option.some_or] at this
    exact hxne (Option.some.inj this)

/-- Laying out an object nests its flat entries. -/
theorem nests_layout {close : Nat} {es : List Span} {inner indent lead : Text}
    (h : Laid t close i es)
    (hclose : (ofText t).codeByte? close = some Byte.closeBrace)
    (hlead : (lead = [] ∧ 0 < i ∧ (ofText t).codeByte? (i - 1) = some Byte.openBrace) ∨
      (lead = [Byte.comma] ∧ (t.stateAt i).Settles ∧ Calm t[i]?))
    (hs : Text.Starts (t.drop i)) (hin : inner.IsIndent) (hi : indent.IsIndent) :
    Nests t (es.filterMap (ofText t).flatIn?) ((ofText t).layout inner indent close lead i es) := by
  induction h generalizing lead with
  | nil hle hloose => exact .gap (isGap_close hle hloose hclose hlead hs) hi .nil
  | @cons i e es he _ ih =>
    have := he.lt
    have := he.stop_le
    have hrest := ih (.inr ⟨rfl, he.behind, he.calm⟩) he.stops
    refine .gap ⟨he.le, by omega, he.gap, hlead, he.led.imp id .inl, hs, he.starts, he.before,
      he.fresh⟩ hin ?_
    cases hf : (ofText t).flatIn? e with
    | none =>
      rw [List.filterMap_cons_none hf]
      exact hrest
    | some f =>
      rw [List.filterMap_cons_some hf]
      obtain ⟨⟨colon, hflat⟩, -⟩ := flatIn?_eq_some (Nat.le_of_lt he.lt) hf
      exact .flat hflat hin hrest

theorem isIndent_indentOf (s : Source) (i : Nat) : (s.indentOf i).IsIndent :=
  fun _ hb => mem_indentOf hb

/-- Rebuilding closed braces nests their flat entries. -/
theorem nests_object {b : Braces} {a : Nat} {indent : Text} (ht : t.WellFormed)
    (h : (ofText t).closing? b.opening = some b.closing) (hi : indent.IsIndent) :
    Nests t ((ofText t).flatEntriesOf b) ((Hit.object a b).changes (ofText t) indent) := by
  obtain ⟨ho, -, hclose⟩ := closing?_spec h
  have hstart := wellFormed_drop_succ ht (getElem?_of_codeByte? ho) (by decide)
  exact nests_layout (laid_entries ht h) hclose (.inl ⟨rfl, Nat.succ_pos _, ho⟩) hstart.starts
    (Text.isIndent_deeper hi) hi

variable (p : Pass)

/-- The flat entries that a pass nests. -/
def Pass.flats (t : Text) : List FlatEntry := (p.hits (ofText t)).flatMap (Hit.flats (ofText t))

/-- What a pass changes: it nests flat entries and entries read from the environment, and it lays
out gaps. -/
theorem Pass.mem_changes (ht : t.WellFormed) : ∀ c ∈ p.changes t,
    (∃ f ∈ p.flats t, ∃ (colon : Nat) (indent : Text), (ofText t).IsFlat f colon ∧
      indent.IsIndent ∧ c = f.change indent) ∨
    (∃ e, Hit.env e ∈ p.hits (ofText t) ∧ ∃ (colon value stop : Nat) (indent : Text),
      (ofText t).IsEnv e colon value stop ∧ indent.IsIndent ∧ c = e.change (ofText t) indent) ∨
    ∃ (i j : Nat) (lead indent : Text), IsGap t i j lead ∧ indent.IsIndent ∧
      c = .gap i j (lead ++ Byte.newline :: indent) := by
  intro c hc
  obtain ⟨h, hm, hc⟩ := List.mem_flatMap.1 hc
  have hindent := isIndent_indentOf (ofText t) h.anchor
  have hv := (finds_hits p (ofText t)).2.2 h hm
  cases h with
  | flat e =>
    obtain ⟨colon, hf⟩ := hv
    refine .inl ⟨e, List.mem_flatMap.2 ⟨_, hm, List.mem_singleton.2 rfl⟩, ?_⟩
    exact ⟨colon, _, hf, hindent, List.mem_singleton.1 hc⟩
  | env e =>
    obtain ⟨colon, value, stop, hf⟩ := hv
    exact .inr (.inl ⟨e, hm, colon, value, stop, _, hf, hindent, List.mem_singleton.1 hc⟩)
  | object a b =>
    rcases (nests_object ht hv.1 hindent).mem c hc with ⟨f, hf, hrest⟩ | hrest
    · exact .inl ⟨f, List.mem_flatMap.2 ⟨_, hm, hf⟩, hrest⟩
    · exact .inr (.inr hrest)

/-- Every change of a pass is one of those that passes make. -/
theorem Pass.made_changes (ht : t.WellFormed) : ∀ c ∈ p.changes t, c.Made t := by
  intro c hc
  rcases p.mem_changes ht c hc with ⟨f, -, colon, indent, hf, hi, rfl⟩ |
    ⟨e, -, colon, value, stop, indent, he, hi, rfl⟩ | ⟨i, j, lead, indent, hg, hi, rfl⟩
  · exact .flat hf hi
  · exact .env he hi
  · exact .gap hg hi

/-- Only one pass looks for entries read from the environment. -/
theorem Pass.not_env {p : Pass} {s : Source} {e : EnvEntry} (hp : p ≠ .envAssignment) :
    Hit.env e ∉ p.hits s := by
  intro h
  obtain ⟨k, found, next, hk, hm⟩ := mem_sweep h
  have hobject : ∀ {b : Braces}, s.objectHit? k b = some (found, next) → False := by
    intro b hb
    obtain ⟨-, rfl, -⟩ := objectHit?_eq_some.1 hb
    cases List.mem_singleton.1 hm
  cases p with
  | simpleInline =>
    obtain ⟨e, -, heq⟩ := Option.map_eq_some_iff.1 hk
    cases heq
    cases List.mem_singleton.1 hm
  | providersBlock =>
    obtain ⟨b, -, hb⟩ := Option.bind_eq_some_iff.1 hk
    exact hobject hb
  | envAssignment => exact hp rfl
  | returnLiteral =>
    obtain ⟨b, -, hb⟩ := Option.bind_eq_some_iff.1 hk
    exact hobject hb
  | constLiteral =>
    obtain ⟨b, -, heq⟩ := Option.map_eq_some_iff.1 hk
    cases heq
    obtain ⟨k', found', next', hk', hm'⟩ := mem_sweep hm
    simp only [Option.bind_eq_bind, Option.bind_eq_some_iff, Option.guard_eq_some',
      exists_const] at hk'
    obtain ⟨b', -, -, hb'⟩ := hk'
    obtain ⟨-, rfl, -⟩ := objectHit?_eq_some.1 hb'
    cases List.mem_singleton.1 hm'

/-- The changes of a pass that does not look into the environment nest its flat entries. -/
theorem Pass.nests_changes (ht : t.WellFormed) (hp : p ≠ .envAssignment) :
    Nests t (p.flats t) (p.changes t) := by
  have hv := (finds_hits p (ofText t)).2.2
  have hne : ∀ e, Hit.env e ∉ p.hits (ofText t) := fun e => Pass.not_env hp
  rw [flats, changes]
  generalize p.hits (ofText t) = hs at hv hne
  induction hs with
  | nil => exact .nil
  | cons h hs ih =>
    have ih := ih (fun h hm => hv h (by simp [hm])) fun e hm => hne e (by simp [hm])
    have hindent := isIndent_indentOf (ofText t) h.anchor
    have hvh := hv h (by simp)
    refine Nests.append ?_ ih
    cases h with
    | flat e =>
      obtain ⟨colon, hf⟩ := hvh
      exact .flat hf hindent .nil
    | env e => exact absurd (by simp) (hne e)
    | object a b => exact nests_object ht hvh.1 hindent

/-- The flat entries in an object come in order. -/
theorem follow_flats {close : Nat} {es : List Span} (h : Laid t close i es) :
    Follow FlatEntry.span i close (es.filterMap (ofText t).flatIn?) := by
  induction h with
  | nil h => exact .nil h
  | @cons i e es he hrest ih =>
    have h1 := he.le
    have h2 := he.lt
    cases hf : (ofText t).flatIn? e with
    | none =>
      rw [List.filterMap_cons_none hf]
      exact ih.of_le (by omega)
    | some f =>
      rw [List.filterMap_cons_some hf]
      obtain ⟨⟨colon, hflat⟩, h3, h4, -⟩ := flatIn?_eq_some (Nat.le_of_lt he.lt) hf
      have ho := hflat.order
      refine .cons ?_ ?_ (ih.of_le h4)
      · simp only [FlatEntry.span]
        omega
      · simp only [FlatEntry.span]
        omega

/-- The flat entries that a pass nests come in order. -/
theorem Pass.follow_flats (ht : t.WellFormed) :
    Follow FlatEntry.span 0 t.length (p.flats t) := by
  obtain ⟨h1, -, h3⟩ := finds_hits p (ofText t)
  rw [size_ofText] at h1
  refine h1.flatMap fun h hm => ?_
  have hv := h3 h hm
  cases h with
  | flat e =>
    obtain ⟨colon, hf⟩ := hv
    have ho := hf.order
    refine .cons (Nat.le_refl _) ?_ (.nil (Nat.le_refl _))
    simp only [FlatEntry.span]
    omega
  | env e =>
    obtain ⟨colon, value, stop, hf⟩ := hv
    have ho := hf.order
    refine .nil ?_
    simp only [Hit.span, EnvEntry.span]
    omega
  | object a b =>
    have hl := ProviderNest.follow_flats (laid_entries ht hv.1)
    exact (hl.of_le (Nat.le_succ _)).to_le (Nat.le_succ _)

/-- A pass leaves a text of whole characters. -/
theorem Pass.wellFormed_output (ht : t.WellFormed) : (p.output t).WellFormed :=
  wellFormed_changed ht (p.follow_changes ht) (fun c hc => (p.made_changes ht c hc).fits ht)
    (by rw [List.drop_zero]; exact ht.starts)

/-- **What a pass leaves is read like the text it works on.** -/
theorem Pass.relex (ht : t.WellFormed) :
    (ofText (p.output t)).cells.toList =
      weave (ofText t).slice (Change.headCells t) Change.tailCells t.length 0 (p.changes t) ∧
    code.after (p.output t) none = code.after t none := by
  have := ProviderNest.relex (p.follow_changes ht)
    (fun c hc => (p.made_changes ht c hc).fits ht)
  rw [toList_ofText]
  simpa [Text.stateAt, output] using this

end

end ProviderNest
