import ProviderNest.Proofs.Relexing

/-!
# A pass loses no code

The substance of a text is what is left of it without comments, blank characters and commas
(`Text.substance`). A pass lays out what it rewrites in its own way, but it keeps the substance:
nothing is lost, doubled or moved, and what is put in is the nested shape and nothing else.
`Pass.substance_apply` says so for every pass and every text, with the result read on its own.

The substance of a text in two parts is that of the parts, as long as no character is cut
(`substanceFrom_append`). So it is enough to know the substance of each part that a change replaces
or puts in.
-/

namespace ProviderNest

open LexState Source

/-! ## Substance -/

/-- The length of the blank character with which a text begins, or 0. -/
def Text.blankLength (t : Text) : Nat :=
  match blankForms.find? fun form => form.isPrefixOf t with
  | some form => form.length
  | none => 0

/-- What is left of cells without comments, blank characters and commas, where the first `n` cells
belong to a blank character. -/
def substanceFrom : (n : Nat) → List Cell → Text
  | _, [] => []
  | n + 1, _ :: r => substanceFrom n r
  | 0, c :: r =>
    match Text.blankLength ((c :: r).map Cell.byte) with
    | w + 1 => substanceFrom w r
    | 0 =>
      if c.kind = .comment ∨ c.byte = Byte.comma then substanceFrom 0 r
      else c.byte :: substanceFrom 0 r

/-- What is left of a span without comments, blank characters and commas. -/
def Source.substance (s : Source) (x : Span) : Text := substanceFrom 0 (s.slice x.start x.stop)

/-- What is left of a text without comments, blank characters and commas. -/
def Text.substance (t : Text) : Text := (ofText t).substance ⟨0, t.length⟩

/-- A text in parts: `part` gives what is there between two positions, and `f` what stands for each
of the parts `xs`. -/
def inParts {α : Type} (part : Span → Text) (span : α → Span) (f : α → Text) (stop : Nat) :
    (i : Nat) → (xs : List α) → Text
  | i, [] => part ⟨i, stop⟩
  | i, x :: xs => part ⟨i, (span x).start⟩ ++ f x ++ inParts part span f stop (span x).stop xs

section
variable {u v : Text}

/-- A blank character is measured if and only if one begins the text. -/
theorem blankLength_spec (t : Text) :
    (∃ c ∈ Text.blanks, String.utf8EncodeChar c <+: t ∧
      Text.blankLength t = (String.utf8EncodeChar c).length) ∨
    (Text.blankLength t = 0 ∧ ∀ c ∈ Text.blanks, ¬ String.utf8EncodeChar c <+: t) := by
  unfold Text.blankLength
  split
  · next form hf =>
    have hp := List.find?_some hf
    obtain ⟨c, hc, rfl⟩ := List.mem_map.1 (List.mem_of_find?_eq_some hf)
    exact .inl ⟨c, hc, List.isPrefixOf_iff_prefix.1 hp, rfl⟩
  · next hn =>
    refine .inr ⟨rfl, fun c hc hp => ?_⟩
    have := List.find?_eq_none.1 hn _ (List.mem_map_of_mem hc)
    exact this (List.isPrefixOf_iff_prefix.2 hp)

/-- The blank character that begins a text is the one that is measured. -/
theorem blankLength_eq {c : Char} {t : Text} (hc : c ∈ Text.blanks)
    (hp : String.utf8EncodeChar c <+: t) :
    Text.blankLength t = (String.utf8EncodeChar c).length := by
  rcases blankLength_spec t with ⟨d, hd, hpd, hl⟩ | ⟨-, hn⟩
  · obtain rfl := Text.eq_of_prefix_loose (List.mem_cons_of_mem _ hc) (List.mem_cons_of_mem _ hd)
      hp hpd
    exact hl
  · exact absurd hp (hn c hc)

/-- The blank character at the start of a text does not reach into what begins with a character. -/
theorem blankLength_append (hu : u ≠ []) (hv : Text.Starts v) :
    Text.blankLength (u ++ v) = Text.blankLength u := by
  rcases blankLength_spec u with ⟨c, hc, hp, hl⟩ | ⟨hz, hn⟩
  · rw [hl, blankLength_eq hc (hp.trans (List.prefix_append u v))]
  · rcases blankLength_spec (u ++ v) with ⟨c, hc, hp, -⟩ | ⟨hz', -⟩
    · exact absurd (Text.loose_prefix_append (List.mem_cons_of_mem _ hc) hu hv hp) (hn c hc)
    · rw [hz, hz']

theorem blankLength_le (t : Text) : Text.blankLength t ≤ t.length := by
  rcases blankLength_spec t with ⟨c, -, hp, hl⟩ | ⟨hz, -⟩
  · rw [hl]
    exact hp.length_le
  · rw [hz]
    exact Nat.zero_le _

/-- The substance of cells in two parts, the second of which begins with a character. -/
theorem substanceFrom_append {n : Nat} {cs ds : List Cell} (hn : n ≤ cs.length)
    (hd : Text.Starts (ds.map Cell.byte)) :
    substanceFrom n (cs ++ ds) = substanceFrom n cs ++ substanceFrom 0 ds := by
  induction cs generalizing n with
  | nil =>
    obtain rfl : n = 0 := by simpa using hn
    rfl
  | cons c cs ih =>
    cases n with
    | succ n => exact ih (by simpa using hn)
    | zero =>
      have hb := blankLength_append (u := (c :: cs).map Cell.byte) (by simp) hd
      have hl := blankLength_le ((c :: cs).map Cell.byte)
      rw [← List.map_append] at hb
      rw [List.cons_append, substanceFrom, ← List.cons_append, hb, substanceFrom]
      split
      · next w hw =>
        rw [hw] at hl
        exact ih (by simpa using hl)
      · split
        · exact ih (Nat.zero_le _)
        · rw [ih (Nat.zero_le _)]
          rfl

/-- Comments and white space have no substance. -/
theorem substanceFrom_trivia {n : Nat} {cs : List Cell}
    (h : ∀ c ∈ cs, c.kind = .comment ∨ Byte.isSpace c.byte = true) : substanceFrom n cs = [] := by
  induction cs generalizing n with
  | nil => cases n <;> rfl
  | cons c cs ih =>
    have ih' (n : Nat) : substanceFrom n cs = [] := ih fun d hd => h d (by simp [hd])
    cases n with
    | succ n => exact ih' n
    | zero =>
      rw [substanceFrom]
      split
      · exact ih' _
      · next hw =>
        rcases h c (by simp) with hk | hs
        · rw [if_pos (.inl hk)]
          exact ih' 0
        · exfalso
          have hmem : ∃ d ∈ Text.blanks, String.utf8EncodeChar d = [c.byte] := by
            simp only [Byte.isSpace, Bool.or_eq_true, beq_iff_eq] at hs
            refine ⟨Char.ofNat c.byte.toNat, ?_⟩
            rcases hs with (((hs | hs) | hs) | hs) | hs <;> (rw [hs]; decide)
          obtain ⟨d, hd, hbyte⟩ := hmem
          rw [blankLength_eq hd (by rw [hbyte, List.map_cons]; exact ⟨_, rfl⟩), hbyte] at hw
          cases hw

/-- The cells of a character that is dropped. -/
theorem substanceFrom_drop {n : Nat} {cs ds : List Cell} (h : cs.length = n) :
    substanceFrom n (cs ++ ds) = substanceFrom 0 ds := by
  induction cs generalizing n with
  | nil =>
    subst h
    rfl
  | cons c cs ih =>
    subst h
    exact ih rfl

/-- Blanks and commas have no substance. -/
theorem substanceFrom_loose {cs : List Cell} (h : Text.MadeOf Text.loose (cs.map Cell.byte)) :
    substanceFrom 0 cs = [] := by
  obtain ⟨ds, hd, hb⟩ := h
  induction ds generalizing cs with
  | nil =>
    obtain rfl : cs = [] := by simpa [Text.ofChars] using hb
    rfl
  | cons d ds ih =>
    rw [Text.ofChars, List.flatMap_cons, List.map_eq_append_iff] at hb
    obtain ⟨as, bs, rfl, ha, hb⟩ := hb
    have ih' := ih (fun x hx => hd x (by simp [hx])) hb
    obtain ⟨x, xs, hx, -⟩ := Text.encode_shape d
    obtain ⟨a, as, rfl⟩ := List.exists_cons_of_ne_nil (l := as)
      (by rintro rfl; rw [hx] at ha; cases ha)
    rw [List.cons_append, substanceFrom, ← List.cons_append, List.map_append, ha]
    rcases List.mem_cons.1 (hd d (by simp)) with rfl | hdb
    · have hnil : as = [] := by
        have := congrArg List.length ha
        simpa [show (String.utf8EncodeChar ',').length = 1 by decide] using this
      have hbyte : a.byte = Byte.comma := by
        have := congrArg List.head? ha
        simpa [show (String.utf8EncodeChar ',').head? = some Byte.comma by decide] using this
      have hzero : Text.blankLength (String.utf8EncodeChar ',' ++ bs.map Cell.byte) = 0 := by
        rcases blankLength_spec (String.utf8EncodeChar ',' ++ bs.map Cell.byte) with
          ⟨e, he, ⟨r, hr⟩, -⟩ | ⟨hz, -⟩
        · have hne : ∀ e ∈ Text.blanks, (String.utf8EncodeChar e).head? ≠ some Byte.comma ∧
              String.utf8EncodeChar e ≠ [] := by decide
          obtain ⟨h1, h2⟩ := hne e he
          obtain ⟨y, ys, hy⟩ := List.exists_cons_of_ne_nil h2
          have := congrArg List.head? hr
          rw [hy] at this h1
          simp [show String.utf8EncodeChar ',' = [Byte.comma] by decide] at this h1
          exact absurd this h1
        · exact hz
      rw [hzero, hnil]
      simp only [hbyte, or_true, if_true]
      exact ih'
    · have hlen := congrArg List.length ha
      rw [blankLength_eq hdb (List.prefix_append _ _), ← hlen, List.length_map, List.length_cons]
      dsimp only
      rw [substanceFrom_drop rfl]
      exact ih'

end

/-! ## The parts of a text -/

section
variable {t : Text} {i j k : Nat}

/-- The bytes of a part begin with a character if the text does there. -/
theorem starts_slice (h : Text.Starts (t.drop i)) :
    Text.Starts (((ofText t).slice i j).map Cell.byte) := by
  rw [map_byte_slice]
  intro b hb
  refine h b ?_
  cases hn : j - i with
  | zero => rw [hn, List.take_zero] at hb; cases hb
  | succ n =>
    rw [hn] at hb
    cases hd : t.drop i with
    | nil => rw [hd] at hb; cases hb
    | cons x r => rw [hd] at hb; simpa using hb

/-- The substance of a span that is cut before a character. -/
theorem substance_append (hij : i ≤ j) (hjk : j ≤ k) (h : Text.Starts (t.drop j)) :
    (ofText t).substance ⟨i, j⟩ ++ (ofText t).substance ⟨j, k⟩ = (ofText t).substance ⟨i, k⟩ := by
  rw [substance, substance, substance, ← slice_append _ hij hjk,
    substanceFrom_append (Nat.zero_le _) (starts_slice h)]

/-- Trivia has no substance. -/
theorem substance_trivia (h : (ofText t).TriviaRun i j) : (ofText t).substance ⟨i, j⟩ = [] := by
  refine substanceFrom_trivia fun c hc => ?_
  obtain ⟨n, h1, h2, hn⟩ := (mem_slice_iff _).1 hc
  obtain ⟨d, hd, hor⟩ := isTrivia_iff.1 (h n h1 h2)
  rw [hd] at hn
  cases hn
  exact hor.imp id And.right

/-- Blanks and commas have no substance, of whatever kind they are. -/
theorem substance_loose (h : Text.MadeOf Text.loose ((ofText t).bytes ⟨i, j⟩)) :
    (ofText t).substance ⟨i, j⟩ = [] :=
  substanceFrom_loose (by rwa [← bytes_eq (ofText t) ⟨i, j⟩])

/-- The substance of plain bytes that stand in code. -/
def plainSubstance (u : Text) : Text := substanceFrom 0 (codeCells u)

theorem plainSubstance_append {u v : Text} (hv : Text.Starts v) :
    plainSubstance (u ++ v) = plainSubstance u ++ plainSubstance v := by
  rw [plainSubstance, codeCells, List.map_append, substanceFrom_append (Nat.zero_le _)]
  · rfl
  · simpa [Function.comp_def] using hv

theorem plainSubstance_indent {u : Text} (hu : u.IsIndent) : plainSubstance u = [] := by
  refine substanceFrom_trivia fun c hc => .inr ?_
  obtain ⟨b, hb, rfl⟩ := List.mem_map.1 hc
  rcases hu b hb with rfl | rfl <;> decide

/-- A plain text is read as code. -/
theorem substance_of_plain {u : Text} (h : ∀ b ∈ u, Plain b) : u.substance = plainSubstance u := by
  rw [Text.substance, substance, plainSubstance]
  have := slice_zero_size (ofText u)
  rw [size_ofText, toList_ofText, (after_cells_plain h none).2] at this
  rw [this]

/-- The substance of what is put in before a configuration. -/
theorem plainSubstance_front {indent : Text} (hi : indent.IsIndent) :
    plainSubstance (front indent) = .ofString ":\x7bdefault:" := by
  have h : front indent = .ofString ": \x7b\n" ++ (indent ++ .ofString "  default: ") := by
    simp [front, show Text.ofString "  default: " =
      Text.ofString "  " ++ nestedKey ++ Text.ofString ": " by decide]
  have hw : Text.WellFormed (.ofString "  default: ") := Text.wellFormed_ofChars _
  rw [h, plainSubstance_append (hi.wellFormed.append hw).starts, plainSubstance_append hw.starts,
    plainSubstance_indent hi]
  decide

/-- The substance of what is put in behind a configuration. -/
theorem plainSubstance_back {indent : Text} (hi : indent.IsIndent) :
    plainSubstance (back indent) = .ofString "\x7d" := by
  have hw : Text.WellFormed (.ofString "\x7d") := Text.wellFormed_ofChars _
  rw [back, plainSubstance_append hw.starts, plainSubstance_append hi.wellFormed.starts,
    plainSubstance_indent hi]
  decide

/-- The substance between the name and the body of a flat entry: a colon. -/
theorem substance_colon {key : Key} {colon : Nat} (ht : t.WellFormed)
    (h : (ofText t).IsKey key colon) :
    (ofText t).substance ⟨key.name.stop, key.value⟩ = [Byte.colon] := by
  have hb := getElem?_of_codeByte? h.colon_code
  have hlt := lt_size_of_codeByte? h.colon_code
  have h1 := h.stop_le_colon
  have h2 := h.colon_lt_value
  rw [size_ofText] at hlt
  have hcolon : (ofText t).substance ⟨colon, colon + 1⟩ = [Byte.colon] := by
    rw [substance]
    dsimp only
    rw [slice_eq_cons _ (Nat.lt_succ_self _) (codeByte?_eq_some.1 h.colon_code), slice_self]
    decide
  rw [← substance_append h1 (Nat.le_of_lt h2)
      (starts_of_isBoundary ht (Nat.le_of_lt hlt) (isBoundary_of_ascii hb (by decide))),
    ← substance_append (Nat.le_succ colon) h2 (wellFormed_drop_succ ht hb (by decide)).starts,
    substance_trivia h.trivia_before, substance_trivia h.trivia_behind, hcolon]
  rfl

/-- The substance of the cells that changes put in, put together. -/
theorem substance_weave {cs : List Change} (ht : t.WellFormed)
    (hf : Follow Change.span i t.length cs) (hc : ∀ c ∈ cs, c.Fits t) :
    substanceFrom 0 (weave (ofText t).slice (Change.headCells t) Change.tailCells t.length i cs) =
      weave (fun i j => (ofText t).substance ⟨i, j⟩) (fun c => substanceFrom 0 (c.headCells t))
        (fun c => plainSubstance c.tail) t.length i cs := by
  generalize hn : t.length = n at hf
  induction hf with
  | nil h => rfl
  | @cons i n c cs h1 h2 h3 ih =>
    have hfit := hc c (by simp)
    have hc' : ∀ d ∈ cs, d.Fits t := fun d hd => hc d (by simp [hd])
    have ih := ih hc' hn
    rw [Change.span_stop] at ih h3
    -- Each of the parts is made of whole characters, so none of them begins inside one.
    have hrest := wellFormed_changed ht (hn ▸ h3) hc' hfit.stops
    have hrelex := relex (hn ▸ h3) hc'
    have hbytes :
        (weave (ofText t).slice (Change.headCells t) Change.tailCells n c.kept.stop cs).map
          Cell.byte = (ofText t).changed t.length c.kept.stop cs := by
      rw [← hn, ← hrelex.1, map_byte_cells]
    have htail : (c.tailCells).map Cell.byte = c.tail := by
      simp [Change.tailCells, Function.comp_def]
    have hhead : (c.headCells t).map Cell.byte = c.head := map_byte_cells _ _ _
    have hkept : ((ofText t).slice c.kept.start c.kept.stop).map Cell.byte =
        (ofText t).bytes c.kept :=
      (bytes_eq _ _).symm
    have w1 := hfit.tail_whole.append hrest
    have w2 := (wellFormed_bytes ht hfit.kept_le hfit.kept_starts hfit.stops).append w1
    have w3 := hfit.head_whole.append w2
    simp only [weave, List.append_assoc]
    rw [substanceFrom_append (Nat.zero_le _), substanceFrom_append (Nat.zero_le _),
      substanceFrom_append (Nat.zero_le _), substanceFrom_append (Nat.zero_le _), ih]
    · rfl
    · rw [hbytes]
      exact hrest.starts
    · rw [List.map_append, hbytes, htail]
      exact w1.starts
    · rw [List.map_append, List.map_append, hbytes, htail, hkept]
      exact w2.starts
    · rw [List.map_append, List.map_append, List.map_append, hbytes, htail, hkept, hhead]
      exact w3.starts

/-! ## What each change does to the substance -/

/-- The nested shape of a flat entry opens with a brace and the key `default`. -/
theorem substance_head_flat {e : FlatEntry} {colon : Nat} {indent : Text}
    (h : (ofText t).IsFlat e colon) (hi : indent.IsIndent) :
    substanceFrom 0 ((e.change indent).headCells t) = .ofString ":\x7bdefault:" := by
  rw [headCells_flat h hi]
  exact plainSubstance_front hi

/-- The layout of a gap has no substance. -/
theorem substance_head_gap {lead indent : Text} (h : IsGap t i j lead) (hi : indent.IsIndent) :
    substanceFrom 0 ((Change.gap i j (lead ++ Byte.newline :: indent)).headCells t) = [] := by
  apply substanceFrom_loose
  rw [Change.headCells, map_byte_cells, Change.gap]
  exact h.madeOf hi

/-- The nested shape of an entry read from the environment opens with its name in lower case. -/
theorem substance_head_env {e : EnvEntry} {colon value stop : Nat} {indent : Text}
    (h : (ofText t).IsEnv e colon value stop) (hi : indent.IsIndent) :
    substanceFrom 0 ((e.change (ofText t) indent).headCells t) =
      ((ofText t).bytes e.name).lower.substance ++
        .ofString ":\x7bdefault:\x7bapiKey:process.env." := by
  have hlower : ∀ b ∈ ((ofText t).bytes e.name).lower, Plain b := fun b hb =>
    (Text.quiet_of_isWord (Text.lower_isWord (isWord_bytes h.key.word) b hb)).1
  have hhead : (e.change (ofText t) indent).head = ((ofText t).bytes e.name).lower ++
      (front indent ++ .ofString "\x7b apiKey: process.env.") := by
    simp [EnvEntry.change, show Text.ofString "\x7b apiKey: process.env." = Text.ofString "\x7b " ++
      apiKeyField ++ Text.ofString ": " ++ environment by decide]
  have hrest : Text.WellFormed (.ofString "\x7b apiKey: process.env.") := Text.wellFormed_ofChars _
  have hfront : Text.WellFormed (front indent) :=
    Text.wellFormed_of_ascii fun b hb => (Text.quiet_front hi hb).2
  rw [headCells_env h hi, hhead,
    ← plainSubstance, plainSubstance_append (hfront.append hrest).starts,
    plainSubstance_append hrest.starts,
    plainSubstance_front hi, substance_of_plain hlower,
    show plainSubstance (.ofString "\x7b apiKey: process.env.") =
      .ofString "\x7bapiKey:process.env." by decide]
  rfl

/-- The nested shape of an entry read from the environment closes with two braces. -/
theorem substance_tail_env {e : EnvEntry} {indent : Text} (hi : indent.IsIndent) :
    plainSubstance (e.change (ofText t) indent).tail = .ofString "\x7d\x7d" := by
  have hback : Text.WellFormed (back indent) :=
    Text.wellFormed_of_ascii fun b hb => (Text.quiet_back hi hb).2
  rw [EnvEntry.change, plainSubstance_append hback.starts, plainSubstance_back hi]
  decide

/-- The substance of an entry read from the environment. -/
theorem substance_env {e : EnvEntry} {colon value stop : Nat} (ht : t.WellFormed)
    (h : (ofText t).IsEnv e colon value stop) :
    (ofText t).substance e.span = (ofText t).substance e.name ++ .ofString ":process.env." ++
      (ofText t).substance e.var := by
  obtain ⟨h1, h2, h3, h4, h5, h6, h7⟩ := h.order
  rw [size_ofText] at h7
  have hname : (ofText t).isBoundary e.name.stop = true := isBoundary_stop (w := e.name) h.key.word
  have hvar : (ofText t).isBoundary e.var.start = true :=
    isBoundary_start (w := ⟨e.var.start, stop⟩) ht h.word
  have hvalue := h.isBoundary_value ht
  have hkey : (ofText t).substance ⟨value, e.var.start⟩ = .ofString "process.env." := by
    rw [substance, h.slice_value]
    decide
  have hcolon := substance_colon ht h.key
  dsimp only at hcolon
  rw [EnvEntry.span, ← substance_append (j := e.name.stop) (by omega) (by omega)
      (starts_of_isBoundary ht (by omega) hname),
    ← substance_append (i := e.name.stop) (j := value) (by omega) (by omega)
      (starts_of_isBoundary ht (by omega) hvalue),
    ← substance_append (i := value) (j := e.var.start) (by omega) (by omega)
      (starts_of_isBoundary ht (by omega) hvar), hkey, hcolon]
  simp [show Text.ofString ":process.env." = Byte.colon :: Text.ofString "process.env." by decide]

/-! ## The substance of the result -/

section
variable {α : Type} {span : α → Span} {f : α → Text} {xs : List α}

/-- The substance up to a character joins the substance in parts from there on. -/
theorem substance_inParts (hij : i ≤ j) (hj : Text.Starts (t.drop j)) (h : Follow span j k xs) :
    (ofText t).substance ⟨i, j⟩ ++ inParts (ofText t).substance span f k j xs =
      inParts (ofText t).substance span f k i xs := by
  cases h with
  | nil h => exact substance_append hij h hj
  | cons h1 h2 h3 => simp only [inParts, ← List.append_assoc, substance_append hij h1 hj]

theorem inParts_congr {part : Span → Text} {g : α → Text} (h : ∀ x ∈ xs, f x = g x) :
    inParts part span f k i xs = inParts part span g k i xs := by
  induction xs generalizing i with
  | nil => rfl
  | cons x xs ih => rw [inParts, inParts, h x (by simp), ih fun y hy => h y (by simp [hy])]

/-- The substance of a span in parts. -/
theorem inParts_self (h : Follow span i k xs)
    (hx : ∀ x ∈ xs, Text.Starts (t.drop (span x).start) ∧ Text.Starts (t.drop (span x).stop)) :
    inParts (ofText t).substance span (fun x => (ofText t).substance (span x)) k i xs =
      (ofText t).substance ⟨i, k⟩ := by
  induction h with
  | nil => rfl
  | @cons i k x xs h1 h2 h3 ih =>
    obtain ⟨hs1, hs2⟩ := hx x (by simp)
    rw [inParts, ih fun y hy => hx y (by simp [hy]), List.append_assoc,
      substance_append h2 h3.le hs2, substance_append h1 (by have := h3.le; omega) hs1]

end

/-- The bodies of flat entries come in order if their changes do. -/
theorem Nests.follow {fs : List FlatEntry} {cs : List Change} (h : Nests t fs cs)
    (hc : Follow Change.span i k cs) : Follow FlatEntry.body i k fs := by
  induction h generalizing i with
  | nil =>
    cases hc with
    | nil h => exact .nil h
  | gap hg _ _ ih =>
    cases hc with
    | cons h1 h2 h3 => exact (ih h3).of_le (Nat.le_trans h1 h2)
  | flat hf _ _ ih =>
    cases hc with
    | cons h1 h2 h3 =>
      have ho := hf.order
      rw [Change.span_start, FlatEntry.change] at h1
      dsimp only at h1
      exact .cons (by omega) (by omega) (ih h3)

/-- Changes that nest flat entries put a brace and the key `default` before each body and a brace
behind it, and change nothing else. -/
theorem weave_nests {fs : List FlatEntry} {cs : List Change} (ht : t.WellFormed) (h : Nests t fs cs)
    (hc : Follow Change.span i k cs) :
    weave (fun i j => (ofText t).substance ⟨i, j⟩) (fun c => substanceFrom 0 (c.headCells t))
        (fun c => plainSubstance c.tail) k i cs =
      inParts (ofText t).substance FlatEntry.body (fun f => .ofString "\x7bdefault:" ++
        (ofText t).substance f.body ++ .ofString "\x7d") k i fs := by
  induction h generalizing i with
  | nil => rfl
  | @gap fs cs a b lead indent hg hi hrest ih =>
    cases hc with
    | cons h1 h2 h3 =>
      simp only [Change.gap, Change.span_start, Change.span_stop] at h1 h2 h3
      have hself : (ofText t).substance ⟨b, b⟩ = [] := by
        rw [substance, slice_self]
        rfl
      rw [weave, substance_head_gap hg hi]
      simp only [Change.gap, hself, show plainSubstance [] = [] from rfl, List.append_nil]
      rw [ih h3, ← substance_inParts (j := b) (Nat.le_trans h1 h2) hg.stops (hrest.follow h3),
        ← substance_append h1 h2 hg.starts, substance_loose hg.loose, List.append_nil]
  | @flat fs cs e colon indent hf hi hrest ih =>
    cases hc with
    | cons h1 h2 h3 =>
      simp only [FlatEntry.change, Change.span_start, Change.span_stop] at h1 h2 h3
      have hfit := fits_flat ht hf hi
      have ho := hf.order
      have hcolon := substance_colon ht hf.key
      dsimp only at hcolon
      rw [weave, substance_head_flat hf hi, inParts]
      simp only [FlatEntry.change, plainSubstance_back hi]
      rw [ih h3, ← substance_append (j := e.name.stop) (k := e.body.start) h1 (by omega)
        hfit.starts, hcolon]
      simp [show Text.ofString ":\x7bdefault:" =
        Byte.colon :: Text.ofString "\x7bdefault:" by decide]

/-- Changes that nest entries read from the environment replace each by its nested shape, and
change nothing else. -/
theorem weave_env {es : List EnvEntry} {g : EnvEntry → Text}
    (he : ∀ e ∈ es, ∃ colon value stop, (ofText t).IsEnv e colon value stop)
    (hg : ∀ e ∈ es, (g e).IsIndent) :
    weave (fun i j => (ofText t).substance ⟨i, j⟩) (fun c => substanceFrom 0 (c.headCells t))
        (fun c => plainSubstance c.tail) k i (es.map fun e => e.change (ofText t) (g e)) =
      inParts (ofText t).substance EnvEntry.span (fun e =>
        ((ofText t).bytes e.name).lower.substance ++
          .ofString ":\x7bdefault:\x7bapiKey:process.env." ++ (ofText t).substance e.var ++
          .ofString "\x7d\x7d") k i es := by
  induction es generalizing i with
  | nil => rfl
  | cons e es ih =>
    obtain ⟨colon, value, stop, h⟩ := he e (by simp)
    have hi := hg e (by simp)
    rw [List.map_cons, weave, substance_head_env h hi, substance_tail_env hi, inParts]
    simp only [EnvEntry.change, EnvEntry.span] at ih ⊢
    rw [ih (fun e hm => he e (by simp [hm])) fun e hm => hg e (by simp [hm])]
    simp only [List.append_assoc]

end

/-- The flat entries `fs` of a text take the nested shape in `out`, and nothing else changes: the
substance of `out` is that of the text with a brace and the key `default` put in before each body,
and a brace behind it. -/
structure FlatNested (t out : Text) (fs : List FlatEntry) : Prop where
  found : ∀ f ∈ fs, Source.flatEntry? (ofText t) f.name.start = some f
  follow : Follow FlatEntry.span 0 t.length fs
  before : t.substance =
    inParts (ofText t).substance FlatEntry.body (fun f => (ofText t).substance f.body) t.length 0 fs
  behind : out.substance =
    inParts (ofText t).substance FlatEntry.body (fun f => .ofString "\x7bdefault:" ++
      (ofText t).substance f.body ++ .ofString "\x7d") t.length 0 fs

/-- The entries `es` of a text that are read from the environment take the nested shape in `out`,
with their names in lower case, and nothing else changes. -/
structure EnvNested (t out : Text) (es : List EnvEntry) : Prop where
  found : ∀ e ∈ es, Source.envEntry? (ofText t) e.name.start = some e
  follow : Follow EnvEntry.span 0 t.length es
  before : t.substance =
    inParts (ofText t).substance EnvEntry.span (fun e => (ofText t).substance e.name ++
      .ofString ":process.env." ++ (ofText t).substance e.var) t.length 0 es
  behind : out.substance =
    inParts (ofText t).substance EnvEntry.span (fun e =>
      ((ofText t).bytes e.name).lower.substance ++
        .ofString ":\x7bdefault:\x7bapiKey:process.env." ++ (ofText t).substance e.var ++
        .ofString "\x7d\x7d") t.length 0 es

section
variable {t : Text}

/-- The substance of what a pass leaves. -/
theorem Pass.substance_output (p : Pass) (ht : t.WellFormed) : (p.output t).substance =
    weave (fun i j => (ofText t).substance ⟨i, j⟩) (fun c => substanceFrom 0 (c.headCells t))
      (fun c => plainSubstance c.tail) t.length 0 (p.changes t) := by
  have hfit := fun c hc => (p.made_changes ht c hc).fits ht
  rw [← substance_weave ht (p.follow_changes ht) hfit, ← (p.relex ht).1, Text.substance, substance]
  have := slice_zero_size (ofText (p.output t))
  rw [size_ofText] at this
  rw [this]

/-- The number of entries that a pass nests is the number of its flat entries. -/
theorem Pass.countEdits_edits (p : Pass) (hp : p ≠ .envAssignment) :
    countEdits (p.edits t) = (p.flats t).length := by
  have hne : ∀ e, Hit.env e ∉ p.hits (ofText t) := fun e => Pass.not_env hp
  rw [edits, flats]
  generalize p.hits (ofText t) = hs at hne
  induction hs with
  | nil => rfl
  | cons h hs ih =>
    have ih := ih fun e hm => hne e (by simp [hm])
    rw [List.map_cons, countEdits, List.foldr_cons, ← countEdits, ih, List.flatMap_cons,
      List.length_append]
    cases h with
    | flat e => rfl
    | env e => exact absurd (by simp) (hne e)
    | object a b => rfl

/-- A pass nests flat entries and changes nothing else. -/
theorem Pass.flatNested (p : Pass) (ht : t.WellFormed) (hp : p ≠ .envAssignment) :
    FlatNested t (p.output t) (p.flats t) := by
  have hn := p.nests_changes ht hp
  have hfollow := hn.follow (p.follow_changes ht)
  have hflat : ∀ f ∈ p.flats t, ∃ colon, (ofText t).IsFlat f colon := hn.isFlat
  refine ⟨fun f hf => flatEntry?_eq_some.2 ⟨rfl, hflat f hf⟩, p.follow_flats ht, ?_, ?_⟩
  · refine (inParts_self hfollow fun f hf => ?_).symm
    obtain ⟨colon, h⟩ := hflat f hf
    have hfit := fits_flat ht h Text.IsIndent.nil
    exact ⟨hfit.kept_starts, hfit.stops⟩
  · rw [p.substance_output ht, weave_nests ht hn (p.follow_changes ht)]

/-- The hits of the pass that looks into the environment. -/
theorem exists_envEntries (s : Source) :
    ∃ es : List EnvEntry, Pass.envAssignment.hits s = es.map Hit.env := by
  have hall : ∀ h ∈ Pass.envAssignment.hits s, ∃ e, h = .env e := by
    intro h hm
    obtain ⟨k, found, next, hk, hm⟩ := mem_sweep hm
    obtain ⟨e, -, heq⟩ := Option.map_eq_some_iff.1 hk
    cases heq
    exact ⟨e, List.mem_singleton.1 hm⟩
  generalize Pass.envAssignment.hits s = hs at hall
  induction hs with
  | nil => exact ⟨[], rfl⟩
  | cons h hs ih =>
    obtain ⟨es, rfl⟩ := ih fun h hm => hall h (by simp [hm])
    obtain ⟨e, rfl⟩ := hall h (by simp)
    exact ⟨e :: es, rfl⟩

/-- The pass that looks into the environment nests what it finds there and changes nothing else. -/
theorem exists_envNested (ht : t.WellFormed) : ∃ es,
    es.length = countEdits (Pass.envAssignment.edits t) ∧
    EnvNested t (Pass.envAssignment.output t) es := by
  obtain ⟨es, hes⟩ := exists_envEntries (ofText t)
  obtain ⟨h1, -, h3⟩ := finds_hits .envAssignment (ofText t)
  rw [hes] at h1 h3
  have hvalid : ∀ e ∈ es, ∃ colon value stop, (ofText t).IsEnv e colon value stop :=
    fun e he => h3 (.env e) (List.mem_map_of_mem he)
  have hfollow : Follow EnvEntry.span 0 t.length es := by
    rw [size_ofText] at h1
    exact h1.of_map
  have hchanges : Pass.envAssignment.changes t =
      es.map fun e => e.change (ofText t) ((ofText t).indentOf e.name.start) := by
    rw [Pass.changes, hes, List.flatMap_map]
    exact (List.map_eq_flatMap ..).symm
  refine ⟨es, ?_, fun e he => envEntry?_eq_some.2 ⟨rfl, hvalid e he⟩, hfollow, ?_, ?_⟩
  · rw [Pass.edits, hes]
    clear hes h1 h3 hvalid hfollow hchanges
    induction es with
    | nil => rfl
    | cons e es ih =>
      simp only [List.map_cons, countEdits, List.foldr_cons, List.length_cons, Hit.count] at ih ⊢
      omega
  · have hsub : ∀ e ∈ es, (ofText t).substance e.name ++ .ofString ":process.env." ++
        (ofText t).substance e.var = (ofText t).substance e.span := by
      intro e he
      obtain ⟨colon, value, stop, h⟩ := hvalid e he
      exact (substance_env ht h).symm
    rw [inParts_congr hsub]
    refine (inParts_self hfollow fun e he => ?_).symm
    obtain ⟨colon, value, stop, h⟩ := hvalid e he
    have hfit := fits_env ht h Text.IsIndent.nil
    exact ⟨hfit.starts, hfit.stops⟩
  · rw [Pass.substance_output _ ht, hchanges]
    exact weave_env hvalid fun e _ => isIndent_indentOf _ _

/-- **A pass loses no code.** No pass fails, and each keeps the substance of every text, read on its
own before and behind the pass, but for the nested shape of as many entries as the pass counts. -/
theorem Pass.substance_apply (cs : List Char) (p : Pass) : ∃ r, p.apply (.ofChars cs) = .ok r ∧
    match p with
    | .envAssignment => ∃ es, es.length = countEdits r.edits ∧ EnvNested (.ofChars cs) r.text es
    | _ => ∃ fs, fs.length = countEdits r.edits ∧ FlatNested (.ofChars cs) r.text fs := by
  have ht := Text.wellFormed_ofChars cs
  refine ⟨_, p.apply_eq ht, ?_⟩
  have hflat (hp : p ≠ .envAssignment) : ∃ fs, fs.length = countEdits (p.edits (.ofChars cs)) ∧
      FlatNested (.ofChars cs) (p.output (.ofChars cs)) fs :=
    ⟨p.flats _, (p.countEdits_edits hp).symm, p.flatNested ht hp⟩
  cases p with
  | envAssignment => exact exists_envNested ht
  | simpleInline => exact hflat nofun
  | providersBlock => exact hflat nofun
  | returnLiteral => exact hflat nofun
  | constLiteral => exact hflat nofun

end

end ProviderNest
