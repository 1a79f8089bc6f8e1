import ProviderNest.Proofs.Rebuilding

/-!
# The commas of a rebuilt object

A line of a rebuilt object ends with a comma, whatever its entry ends with or consists of. So the
comma may be swallowed by a comment that runs to the end of the line, and an entry that is nothing
but a comment becomes an empty element. `rebuild_commas_iff` says that nothing else goes wrong: in
an object with balanced brackets every comma that is put in divides, with something in front of it,
if and only if each entry ends in code and holds more than trivia.

Even an object whose own commas are in order need not meet that: a comment behind an entry and
before its comma runs to the end of the line (`rebuild_commas_swallowed`).
-/

namespace ProviderNest

open LexState Source

/-- The positions of the commas of lines that follow each other from position `i` on. A line ends
with its comma and a newline. -/
def commas : (i : Nat) → List Text → List Nat
  | _, [] => []
  | i, u :: us => (i + u.length - 2) :: commas (i + u.length) us

/-- The comma at position `p` is code and ends a segment of the body that is more than trivia. -/
def Source.Separates (s : Source) (start stop p : Nat) : Prop :=
  s.codeByte? p = some Byte.comma ∧
    ∃ x ∈ s.segments start stop, x.stop = p ∧ ¬ s.TriviaRun x.start x.stop

/-- The line of an entry in a rebuilt object. -/
def Source.lineOf (s : Source) (inner : Text) (e : Span) : Text :=
  inner ++ s.changed e.stop e.start ((s.flatIn? e).toList.map (FlatEntry.change inner)) ++
    .ofString ",\n"

/-! ## Segments by their ends -/

/-- No span of pieces begins before the first of them. -/
theorem le_of_mem_spansFrom {ps : List (List Cell)} {i : Nat} {x : Span} (hx : x ∈ spansFrom i ps) :
    i ≤ x.start ∧ x.start ≤ x.stop := by
  induction ps generalizing i with
  | nil => cases hx
  | cons p ps ih =>
    rcases List.mem_cons.1 hx with rfl | hx
    · exact ⟨Nat.le_refl _, Nat.le_add_right _ _⟩
    · obtain ⟨h1, h2⟩ := ih hx
      exact ⟨by omega, h2⟩

/-- The spans of pieces are told apart by their ends. -/
theorem eq_of_mem_spansFrom {ps : List (List Cell)} {i : Nat} {x y : Span}
    (hx : x ∈ spansFrom i ps) (hy : y ∈ spansFrom i ps) (h : x.stop = y.stop) : x = y := by
  induction ps generalizing i with
  | nil => cases hx
  | cons p ps ih =>
    rcases List.mem_cons.1 hx with rfl | hx' <;> rcases List.mem_cons.1 hy with rfl | hy'
    · rfl
    · have := le_of_mem_spansFrom hy'
      dsimp only at h
      omega
    · have := le_of_mem_spansFrom hx'
      dsimp only at h
      omega
    · exact ih hx' hy'

/-! ## Lines and their commas -/

/-- A rebuilt object is written in lines. -/
theorem rebuild_eq_lines {t indent : Text} {b : Braces} (ht : t.WellFormed)
    (h : (ofText t).closing? b.opening = some b.closing) :
    (ofText t).rebuild b indent = .ok (.ofString "\x7b\n" ++
      (((ofText t).entries (b.opening + 1) b.closing).map
        ((ofText t).lineOf (indent ++ .ofString "  "))).flatten ++ indent ++ .ofString "\x7d") := by
  have hline : ∀ e ∈ (ofText t).entries (b.opening + 1) b.closing, (do
      return indent ++ .ofString "  " ++ (← (ofText t).rebuildEntry (indent ++ .ofString "  ") e) ++
        Text.ofString ",\n" : Except Fault Text) =
      .ok ((ofText t).lineOf (indent ++ .ofString "  ") e) := by
    intro e he
    obtain ⟨i, hi⟩ := (laid_entries ht h).isEntry e he
    rw [rebuildEntry_eq ht _ hi]
    rfl
  unfold rebuild
  simp only [bind, Except.bind] at hline ⊢
  rw [cutEntries_eq ht h]
  dsimp only
  rw [mapM_eq_ok hline]
  rfl

section
variable {t inner indent : Text} {s' : Source} {e : Span} {es : List Span} {i j : Nat}

/-- The bytes of an entry that is written anew. -/
theorem map_byte_anew :
    ((ofText t).anew inner e).map Cell.byte = (ofText t).changed e.stop e.start
      (((ofText t).flatIn? e).toList.map (FlatEntry.change inner)) := by
  unfold Source.anew
  cases hf : (ofText t).flatIn? e with
  | none =>
    rw [Option.toList_none, List.map_nil, changed_nil, bytes_eq]
  | some f =>
    simp only [List.map_append, map_byte_codeCells, changed, weave, FlatEntry.change, bytes_eq,
      Option.toList_some, List.map_cons, List.map_nil, List.append_assoc]

theorem length_lineOf :
    ((ofText t).lineOf inner e).length = inner.length + ((ofText t).anew inner e).length + 2 := by
  rw [lineOf, ← map_byte_anew, List.length_append, List.length_append, List.length_map]
  rfl

/-- The cells of a line up to its comma, the comma, and the cells behind it. -/
theorem slice_bodyCells (hij : i ≤ j) (hj : j ≤ s'.size)
    (h : s'.slice i j = t.bodyCells inner indent (e :: es)) :
    ∃ p, p + 2 = i + 1 + (inner.length + ((ofText t).anew inner e).length + 2) ∧ i ≤ p ∧ p < j ∧
      s'.slice i p = codeCells (Byte.newline :: inner) ++ (ofText t).anew inner e ∧
      s'.cells[p]? = some ⟨Byte.comma, t.commaKind e.stop⟩ ∧
      s'.slice (p + 1) j = t.bodyCells inner indent es := by
  rw [Text.bodyCells, ← List.append_assoc] at h
  obtain ⟨h1, h2, h3⟩ := slice_split hij hj h
  obtain ⟨h4, h5, h6⟩ := slice_uncons hj h3
  refine ⟨_, ?_, Nat.le_add_right _ _, h4, h2, h5, h6⟩
  rw [List.length_append, List.length_map, List.length_cons]
  omega

/-- The cells of the commas that are put in. -/
theorem cells_commas (hij : i ≤ j) (hj : j ≤ s'.size)
    (h : s'.slice i j = t.bodyCells inner indent es) :
    List.Forall₂ (fun p e => s'.cells[p]? = some ⟨Byte.comma, t.commaKind e.stop⟩)
      (commas (i + 1) (es.map ((ofText t).lineOf inner))) es := by
  induction es generalizing i with
  | nil => exact .nil
  | cons e es ih =>
    obtain ⟨p, hp, h1, h2, -, h3, h4⟩ := slice_bodyCells hij hj h
    have hrest := ih h2 h4
    rw [List.map_cons, commas, length_lineOf]
    rw [← hp, Nat.add_sub_cancel]
    exact .cons h3 (by rwa [show p + 2 = p + 1 + 1 from rfl])

/-- The segments that the commas end, where all of them divide. -/
theorem segments_commas (hin : inner.IsIndent) (hij : i ≤ j) (hj : j ≤ s'.size)
    (hlevel : ∀ e ∈ es, Piece 0 ((ofText t).anew inner e) ∧ t.commaKind e.stop = .code)
    (h : s'.slice i j = t.bodyCells inner indent es) :
    List.Forall₂ (fun p e => ∃ x ∈ s'.segments i j, x.stop = p ∧ x.start ≤ x.stop ∧
      s'.slice x.start x.stop = codeCells (Byte.newline :: inner) ++ (ofText t).anew inner e)
      (commas (i + 1) (es.map ((ofText t).lineOf inner))) es := by
  rw [segments_eq hij hj, h]
  induction es generalizing i with
  | nil => exact .nil
  | cons e es ih =>
    obtain ⟨p, hp, h1, h2, h3, -, h4⟩ := slice_bodyCells hij hj h
    have hrest := ih h2 (fun e he => hlevel e (List.mem_cons_of_mem _ he)) h4
    obtain ⟨hpiece, hkind⟩ := hlevel e List.mem_cons_self
    have hspans : spansFrom i (divide 0 (t.bodyCells inner indent (e :: es))) =
        ⟨i, p⟩ :: spansFrom (p + 1) (divide 0 (t.bodyCells inner indent es)) := by
      have hlen := congrArg List.length h3
      rw [length_slice s' h1 (by omega)] at hlen
      rw [Text.bodyCells, hkind, ← List.append_assoc,
        divide_piece ((inert_line hin).piece.append hpiece), spansFrom, ← hlen,
        Nat.add_sub_cancel' h1]
    rw [List.map_cons, commas, length_lineOf, ← hp, Nat.add_sub_cancel,
      hspans]
    refine .cons ⟨⟨i, p⟩, List.mem_cons_self, rfl, h1, h3⟩ ?_
    refine hrest.imp fun q e' hq => ?_
    obtain ⟨x, hx, hstop⟩ := hq
    exact ⟨x, List.mem_cons_of_mem _ hx, hstop⟩

/-- A comma behind an entry is code if and only if the entry does not dangle. -/
theorem commaKind_eq_code (he : IsEntry t i e) :
    t.commaKind e.stop = .code ↔ ¬ t.Dangles e.stop := by
  constructor
  · intro h hd
    have hexp := stateAt_expects t e.stop
    rw [Text.commaKind] at h
    rw [Text.Dangles] at hd
    generalize t.stateAt e.stop = st at *
    cases st with
    | code | opening | block | closing => exact hd
    | line => cases h
    | quoted q =>
      rw [LexState.step, if_neg (by decide)] at h
      split at h
      · cases h
      · rw [if_neg (by rintro ⟨h, -⟩; exact absurd h (by decide))] at h
        cases h
    | escaped q => cases h
  · intro hd
    rw [Text.commaKind, he.code_of_not_dangles hd]
    rfl

/-- A line is more than trivia if its entry was. -/
theorem triviaRun_line {x : Span} (hin : inner.IsIndent) (he : IsEntry t i e)
    (hx : x.stop ≤ s'.size)
    (h : s'.slice x.start x.stop = codeCells (Byte.newline :: inner) ++ (ofText t).anew inner e) :
    s'.TriviaRun x.start x.stop ↔ (ofText t).TriviaRun e.start e.stop := by
  have hle := Nat.le_of_lt he.lt
  have hsize : e.stop ≤ (ofText t).size := by
    rw [size_ofText]
    exact he.stop_le
  rw [triviaRun_iff hx, h, List.forall_mem_append, and_iff_right (isTrivia_line hin)]
  cases hf : (ofText t).flatIn? e with
  | none => rw [anew_of_none hf, triviaRun_iff hsize]
  | some f =>
    -- The name of a flat entry is not trivia, here and there.
    obtain ⟨⟨colon, hflat⟩, h1, h2, -⟩ := flatIn?_eq_some hle hf
    obtain ⟨h3, h4, h5, h6, h7⟩ := hflat.order
    have hname := hflat.key.word.isTrivia_start
    constructor
    · intro h
      rw [anew_of_some hf, List.forall_mem_append] at h
      have := (triviaRun_iff (Nat.le_trans hflat.key.word.stop_le (Nat.le_refl _))).2 h.1
        f.name.start h1 h3
      rw [hname] at this
      cases this
    · intro h
      rw [h f.name.start h1 (by omega)] at hname
      cases hname

/-- **When the commas of a body of lines divide it.** All of them end a segment that is more than
trivia if and only if each entry ends in code and is more than trivia. -/
theorem separates_commas_iff (hin : inner.IsIndent) (hij : i ≤ j) (hj : j ≤ s'.size)
    (hes : ∀ e ∈ es, ∃ k, IsEntry t k e) (hlevel : ∀ e ∈ es, Piece 0 ((ofText t).anew inner e))
    (h : s'.slice i j = t.bodyCells inner indent es) :
    (∀ p ∈ commas (i + 1) (es.map ((ofText t).lineOf inner)), s'.Separates i j p) ↔
      ∀ e ∈ es, ¬ t.Dangles e.stop ∧ ¬ (ofText t).TriviaRun e.start e.stop := by
  have hkinds := cells_commas hij hj h
  have hkind : ∀ e ∈ es, t.commaKind e.stop = .code ↔ ¬ t.Dangles e.stop := fun e he =>
    (hes e he).elim fun k hk => commaKind_eq_code hk
  have hsegments (hends : ∀ e ∈ es, ¬ t.Dangles e.stop) :=
    segments_commas hin hij hj (fun e he => ⟨hlevel e he, (hkind e he).2 (hends e he)⟩) h
  constructor
  · intro hsep
    have hends : ∀ e ∈ es, ¬ t.Dangles e.stop := by
      intro e he
      obtain ⟨p, hp, hcell⟩ := exists_of_forall₂ hkinds.flip he
      have hcode := codeByte?_eq_some.1 (hsep p hp).1
      rw [hcell] at hcode
      exact (hkind e he).1 (congrArg Cell.kind (Option.some.inj hcode))
    intro e he
    refine ⟨hends e he, ?_⟩
    obtain ⟨p, hp, x, hx, rfl, h1, h2⟩ := exists_of_forall₂ (hsegments hends).flip he
    obtain ⟨k, hk⟩ := hes e he
    obtain ⟨-, y, hy, hxy, htrivia⟩ := hsep _ hp
    rw [segments_eq hij hj] at hx hy
    obtain rfl := eq_of_mem_spansFrom hy hx hxy
    rw [← segments_eq hij hj] at hy
    rwa [← triviaRun_line hin hk (mem_segments hij hj hy).2.1 h2]
  · intro hall p hp
    obtain ⟨e, he, x, hx, rfl, h1, h2⟩ := exists_of_forall₂ (hsegments fun e he => (hall e he).1) hp
    obtain ⟨k, hk⟩ := hes e he
    obtain ⟨e', he', hcell⟩ := exists_of_forall₂ hkinds hp
    rw [(hkind e' he').2 (hall e' he').1] at hcell
    refine ⟨codeByte?_eq_some.2 hcell, x, hx, rfl, ?_⟩
    rw [triviaRun_line hin hk (mem_segments hij hj hx).2.1 h2]
    exact (hall e he).2

end

/-- **When the commas of a rebuilt object divide it.** A line of an object that is rebuilt is the
indentation, the entry and a comma. If the brackets of the object are balanced, each of these commas
is code and ends a segment that is more than trivia if and only if each entry ends in code and is
more than trivia. -/
theorem Source.rebuild_commas_iff (cs : List Char) (b : Braces) (a : Nat) (indent : Text)
    (hi : indent.IsIndent)
    (hclose : (ofText (.ofChars cs)).closing? b.opening = some b.closing)
    (hbalanced : (ofText (.ofChars cs)).Balanced (b.opening + 1) b.closing) :
    ∃ lines out,
      List.Forall₂ (fun e line => ∃ r, line = indent ++ .ofString "  " ++ r ++ .ofString ",\n" ∧
        (ofText (.ofChars cs)).rebuildEntry (indent ++ .ofString "  ") e = .ok r)
        ((ofText (.ofChars cs)).entries (b.opening + 1) b.closing) lines ∧
      (Hit.object a b).nested (ofText (.ofChars cs)) indent = .ok out ∧
      out = .ofString "\x7b\n" ++ lines.flatten ++ indent ++ .ofString "\x7d" ∧
      (ofText (Text.replace (.ofChars cs) b.span out)).closing? b.opening =
        some (b.opening + out.length - 1) ∧
      ((∀ p ∈ commas (b.opening + 2) lines,
          (ofText (Text.replace (.ofChars cs) b.span out)).Separates (b.opening + 1)
            (b.opening + out.length - 1) p) ↔
        ∀ e ∈ (ofText (.ofChars cs)).entries (b.opening + 1) b.closing,
          ¬ Text.Dangles (.ofChars cs) e.stop ∧
            ¬ (ofText (.ofChars cs)).TriviaRun e.start e.stop) := by
  have ht := Text.wellFormed_ofChars cs
  generalize Text.ofChars cs = t at *
  obtain ⟨out, hout, hencl, hnew⟩ := rebuild_encloses ht hi hclose
  have hin := Text.isIndent_deeper hi
  have hstop := hencl.stop_eq
  have hsize := hencl.stop_le
  have hcells := hencl.inner
  have hentry := (laid_entries ht hclose).isEntry
  have hline := fun e he => (hentry e he).elim fun i hi =>
    rebuildEntry_eq ht (indent ++ Text.ofString "  ") hi
  have hlevel := fun e he => (hentry e he).elim fun i hi => piece_anew hin (Nat.le_of_lt hi.lt)
    hi.stop_le (piece_of_mem_entries hclose hbalanced e he)
  have hsep := separates_commas_iff hin (show b.opening + 1 ≤ b.opening + out.length - 1 by omega)
    (by omega) hentry hlevel hcells
  refine ⟨((ofText t).entries (b.opening + 1) b.closing).map
    ((ofText t).lineOf (indent ++ .ofString "  ")), out, ?_, hout, ?_, hnew, hsep⟩
  · rw [List.forall₂_map_right_iff, List.forall₂_same]
    exact fun e he => ⟨_, rfl, hline e he⟩
  · exact Except.ok.inj (hout.symm.trans (rebuild_eq_lines ht hclose))

/-- Two providers with a comment between the first and its comma. -/
def trailedObject : List Char :=
  "providers: \x7b a: \x7b apiKey: 1 \x7d // c\n, b: \x7b apiKey: 2 \x7d \x7d".toList

/-- A comma swallowed: each segment of the object is more than trivia, but the comma behind the
first entry of the rebuilt object becomes part of the comment in which that entry ends. -/
theorem Source.rebuild_commas_swallowed :
    (ofText (.ofChars trailedObject)).closing? 11 = some 54 ∧
    (ofText (.ofChars trailedObject)).Balanced 12 54 ∧
    (∀ x ∈ (ofText (.ofChars trailedObject)).segments 12 54,
      ¬ (ofText (.ofChars trailedObject)).TriviaRun x.start x.stop) ∧
    ∃ lines out, (Hit.object 0 ⟨11, 54⟩).nested (ofText (.ofChars trailedObject)) [] = .ok out ∧
      out = Text.ofString "\x7b\n" ++ lines.flatten ++ [] ++ Text.ofString "\x7d" ∧
      ¬ ∀ p ∈ commas 13 lines,
        (ofText (Text.replace (.ofChars trailedObject) ⟨11, 55⟩ out)).Separates 12
          (11 + out.length - 1) p := by
  have hclose : (ofText (.ofChars trailedObject)).closing? 11 = some 54 := by decide +kernel
  have hbalanced : (ofText (.ofChars trailedObject)).Balanced 12 54 :=
    ⟨by decide +kernel, by decide +kernel⟩
  refine ⟨hclose, hbalanced, ?_, ?_⟩
  · rw [show (ofText (.ofChars trailedObject)).segments 12 54 = [⟨12, 35⟩, ⟨36, 54⟩] by
      decide +kernel]
    simp only [List.forall_mem_cons, List.not_mem_nil, false_imp_iff, implies_true, and_true]
    exact ⟨fun h => absurd (h 13 (by decide) (by decide)) (by decide +kernel),
      fun h => absurd (h 37 (by decide) (by decide)) (by decide +kernel)⟩
  · obtain ⟨lines, out, -, h1, h2, -, h3⟩ := Source.rebuild_commas_iff trailedObject ⟨11, 54⟩ 0 []
      .nil hclose hbalanced
    refine ⟨lines, out, h1, h2, fun h => ?_⟩
    have hdangles := (h3.1 h ⟨13, 34⟩ (by decide +kernel)).1
    exact absurd hdangles (by decide +kernel)

end ProviderNest
