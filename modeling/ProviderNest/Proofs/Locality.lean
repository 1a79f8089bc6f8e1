import ProviderNest.Proofs.Window

/-!
# Statements are nested one by one

A text that ends in code with none of its braces open is complete (`Text.Complete`): behind a
semicolon and a newline a new statement begins. The two parts of `a ++ ";\n" ++ b`, where `a` is
complete, are windows of the whole, so every pass finds in the whole what it finds in the parts
(`Pass.hits_join`) and leaves what it leaves of the parts (`Pass.output_join`). A complete text
stays complete, so the same is true of passes one after the other, in any number and in any order
(`Pipeline.run_statements`).
-/

namespace ProviderNest

open LexState Source

/-! ## Sweeps in parts -/

section
variable {α : Type} {find : Nat → Option (List α × Nat)}

/-- Where a sweep is past the position at which it goes on, that position makes no difference. -/
theorem sweep_of_le {n i r : Nat} (hr : r ≤ i) : sweep find n i r = sweep find n i i := by
  induction n generalizing i r with
  | zero => rfl
  | succ n ih =>
    rw [sweep, sweep, if_neg (by omega), if_neg (Nat.lt_irrefl i)]
    split
    · rfl
    · rw [ih (show r ≤ i + 1 by omega), ih (Nat.le_succ i)]

/-- A sweep in two parts, where nothing that is found reaches from the first into the second. -/
theorem sweep_add {n m i r : Nat} (hr : r ≤ i + n)
    (hf : ∀ k found next, k < i + n → find k = some (found, next) → next ≤ i + n) :
    sweep find (n + m) i r = sweep find n i r ++ sweep find m (i + n) (i + n) := by
  induction n generalizing i r with
  | zero =>
    rw [Nat.zero_add]
    exact sweep_of_le hr
  | succ n ih =>
    rw [show i + (n + 1) = i + 1 + n by omega] at hr hf ⊢
    rw [show n + 1 + m = n + m + 1 by omega, sweep, sweep]
    split
    · exact ih hr hf
    split
    · next found next hfind =>
      rw [ih (hf i found next (by omega) hfind) hf, List.append_assoc]
    · exact ih hr hf

/-- A sweep past positions at which nothing is found. -/
theorem sweep_eq_nil {n i r : Nat} (hf : ∀ k, i ≤ k → k < i + n → find k = none) :
    sweep find n i r = [] := by
  induction n generalizing i with
  | zero => rfl
  | succ n ih =>
    have ih := ih (i := i + 1) fun k h1 h2 => hf k (by omega) (by omega)
    rw [sweep, hf i (Nat.le_refl i) (by omega)]
    split <;> exact ih

end

/-- A pass finds nothing where no word begins. -/
theorem Pass.find?_eq_none {s : Source} {i : Nat} (h : s.inWord i = false) (p : Pass) :
    p.find? s i = none := by
  have hword : s.word? i = none := by
    rw [word?, h]
    rfl
  have hkey : s.key? i = none := by
    rw [key?, hword]
    rfl
  have his (u : Text) : s.isWord i u = false := by
    rw [isWord, hword]
    rfl
  cases p with
  | simpleInline =>
    rw [find?, flatEntry?, hkey]
    rfl
  | providersBlock =>
    rw [find?, block?, his]
    rfl
  | envAssignment =>
    rw [find?, envEntry?, hkey]
    rfl
  | returnLiteral =>
    rw [find?, returned?, his]
    rfl
  | constLiteral =>
    rw [find?, declared?, his]
    rfl

/-! ## What a pass does in a window -/

/-- Changes in order stay so further on. -/
theorem Follow.shift {i j : Nat} {cs : List Change} (o : Nat) (h : Follow Change.span i j cs) :
    Follow Change.span (o + i) (o + j) (cs.map (Change.shift o)) := by
  induction h with
  | nil h => exact .nil (by omega)
  | cons h1 h2 _ ih => exact .cons (Nat.add_le_add_left h1 o) (Nat.add_le_add_left h2 o) ih

namespace Window

variable {s w : Source} {o : Nat} {t u : Text}

/-- A sweep over a part finds what it finds in the part on its own. -/
theorem hits (h : Window s w o) (p : Pass) :
    ProviderNest.sweep (p.find? s) w.size o o = (p.hits w).map (Hit.shift o) := by
  show ProviderNest.sweep (p.find? s) w.size (o + 0) (o + 0) =
    (ProviderNest.sweep (p.find? w) w.size 0 0).map (Hit.shift o)
  exact sweep fun k _ hk => h.find? (by omega) p

/-- A hit of a part nests as many entries as on its own. -/
theorem count (h : Window s w o) {hit : Hit} (hv : hit.Valid w) :
    (hit.shift o).count s = hit.count w := by
  cases hit with
  | flat e => rfl
  | env e => rfl
  | object a b =>
    obtain ⟨-, h1, h2⟩ := closing?_spec hv.1
    have hsize := lt_size_of_codeByte? h2
    rw [Hit.shift, Hit.count, Hit.count, h.flatEntriesOf h1 (Nat.le_of_lt hsize), List.length_map]

/-- The changes of a pass in a part are those of the part on its own. -/
theorem pass_changes (h : Window (ofText t) (ofText u) o) (hu : u.WellFormed) (p : Pass) :
    ((p.hits (ofText u)).map (Hit.shift o)).flatMap
        (fun x => x.changes (ofText t) ((ofText t).indentOf x.anchor)) =
      (p.changes u).map (Change.shift o) := by
  have hvalid := (finds_hits p (ofText u)).2.2
  rw [Pass.changes, List.flatMap_map, List.map_flatMap, List.flatMap_def, List.flatMap_def]
  refine congrArg List.flatten (List.map_congr_left fun x hx => ?_)
  obtain ⟨w, hw, hword⟩ := ((hvalid x hx).boundaries hu).2.2
  have hanchor : (x.shift o).anchor = o + x.anchor := by cases x <;> rfl
  have hle : x.anchor ≤ (ofText u).size := by
    have h1 := hword.lt
    have h2 := hword.stop_le
    omega
  rw [hanchor, h.indentOf hle, h.changes (hvalid x hx)]

end Window

/-! ## Two statements -/

/-- What divides two statements. -/
def Text.ender : Text := .ofString ";\n"

/-- The text ends in code, and every brace in it has its closing brace. -/
structure Text.Complete (a : Text) : Prop where
  state : code.after a none = code
  closed : (ofText a).Closed


section
variable {a b : Text}

/-- Two statements in one text. -/
def Text.join (a b : Text) : Text := a ++ ender ++ b

/-- A complete text is one behind which a semicolon is code. -/
theorem Text.complete_iff : a.Complete ↔
    (ofText (a ++ ender)).isCode a.length = true ∧ (ofText a).Closed := by
  have hat : (a ++ ender)[a.length]? = some Byte.semicolon := by
    rw [List.getElem?_append_right (Nat.le_refl _), Nat.sub_self]
    rfl
  have hstate : (a ++ ender).stateAt a.length = code.after a none := by
    rw [Text.stateAt, List.take_left, List.drop_left]
    exact (after_cells_alike (.inr (.inl ⟨by decide, by decide⟩)) code).1
  have hcode : (ofText (a ++ ender)).isCode a.length = true ↔ code.after a none = code := by
    rw [← hstate]
    constructor
    · intro h
      obtain ⟨c, hc⟩ := Option.isSome_iff_exists.1 h
      have hbyte := getElem?_of_codeByte? hc
      rw [hat] at hbyte
      cases hbyte
      exact stateAt_of_codeByte? hc (by decide)
    · intro h
      have hcell := (read_cell hat).1
      rw [h, step_code (by decide)] at hcell
      rw [isCode, codeByte?_eq_some.2 hcell]
      rfl
  exact ⟨fun h => ⟨hcode.2 h.state, h.closed⟩, fun h => ⟨hcode.1 h.1, h.2⟩⟩

/-- Two statements are read one by one. -/
theorem cells_join (ha : a.Complete) : (ofText (a.join b)).cells.toList =
    (ofText a).cells.toList ++ (codeCells Text.ender ++ (ofText b).cells.toList) := by
  have hcalm : Alike a (some Byte.semicolon) none := .inr (.inl ⟨by decide, by decide⟩)
  obtain ⟨h1, h2⟩ := after_cells_alike hcalm code
  obtain ⟨h3, h4⟩ := after_cells_plain (t := Text.ender) (by decide) b.head?
  rw [toList_ofText, toList_ofText, toList_ofText, Text.join, List.append_assoc, cells_append,
    show ((Text.ender ++ b).head?.or none) = some Byte.semicolon from rfl, h1, h2, ha.state,
    cells_append, Option.or_none, h3, h4]

theorem length_join : (a.join b).length = a.length + 2 + b.length := by
  rw [Text.join, List.length_append, List.length_append]
  rfl

/-- The cells of two statements by position. -/
theorem getElem?_join (ha : a.Complete) (i : Nat) :
    (i < a.length → (ofText (a.join b)).cells[i]? = (ofText a).cells[i]?) ∧
    (ofText (a.join b)).cells[a.length]? = some ⟨Byte.semicolon, .code⟩ ∧
    (ofText (a.join b)).cells[a.length + 1]? = some ⟨Byte.newline, .code⟩ ∧
    (ofText (a.join b)).cells[a.length + 2 + i]? = (ofText b).cells[i]? := by
  have hlen : (ofText a).cells.toList.length = a.length := by
    rw [Array.length_toList]
    exact size_ofText a
  have hright (k : Nat) : (ofText (a.join b)).cells[a.length + k]? =
      (codeCells Text.ender ++ (ofText b).cells.toList)[k]? := by
    rw [← Array.getElem?_toList, cells_join ha, ← hlen, List.getElem?_append_right (by omega),
      Nat.add_sub_cancel_left]
  refine ⟨fun hi => ?_, hright 0, hright 1, ?_⟩
  · rw [← Array.getElem?_toList, cells_join ha, List.getElem?_append_left (by omega),
      Array.getElem?_toList]
  · rw [Nat.add_assoc, hright, Nat.add_comm 2, List.getElem?_append_right (Nat.le_add_left 2 i),
      ← Array.getElem?_toList]
    rfl

/-- The first of two statements stands on its own. -/
theorem window_first (ha : a.Complete) : Window (ofText (a.join b)) (ofText a) 0 where
  size_le := by
    rw [size_ofText, size_ofText, length_join]
    omega
  cells i hi := by
    rw [Nat.zero_add]
    exact (getElem?_join ha i).1 (by rwa [size_ofText] at hi)
  behind := by
    rw [Nat.zero_add, size_ofText]
    exact .inr (getElem?_join ha 0).2.1
  before := .inl rfl
  outside _ := rfl
  closed := .inr ha.closed

/-- The second of two statements stands on its own. -/
theorem window_second (ha : a.Complete) :
    Window (ofText (a.join b)) (ofText b) (a.length + 2) where
  size_le := Nat.le_of_eq (by rw [size_ofText, size_ofText, length_join])
  cells i _ := (getElem?_join ha i).2.2.2
  behind := by
    refine .inl ?_
    rw [(getElem?_join ha _).2.2.2, getElem?_size]
  before := .inr ⟨Nat.le_add_left 2 _, (getElem?_join ha 0).2.1, (getElem?_join ha 0).2.2.1⟩
  outside d := by
    -- Every brace of the first statement is closed in it, so none is open behind it.
    have hslice : (ofText (a.join b)).slice 0 (a.length + 2) =
        (ofText a).cells.toList ++ codeCells Text.ender := by
      have hlen : ((ofText a).cells.toList ++ codeCells Text.ender).length = a.length + 2 := by
        rw [List.length_append, Array.length_toList, ← Source.size, size_ofText]
        rfl
      rw [Source.slice, cells_join ha, ← List.append_assoc, List.drop_zero, Nat.sub_zero,
        List.take_left' hlen]
    refine enclosingBelow_eq_none (by rw [size_ofText, length_join]; omega) ?_
    obtain ⟨k, hk⟩ := Option.isSome_iff_exists.1 (closed_iff.1 ha.closed)
    rw [hslice, closers_append, neutral_codeCells (by decide) d, Option.bind_some, closers_add hk]
    rfl
  closed := by
    refine .inl ?_
    rw [size_ofText, size_ofText, length_join]

/-! ## Passes on two statements -/

/-- **A pass finds in two statements what it finds in each of them.** -/
theorem Pass.hits_join (ha : a.Complete) (p : Pass) : p.hits (ofText (a.join b)) =
    (p.hits (ofText a)).map (Hit.shift 0) ++
      (p.hits (ofText b)).map (Hit.shift (a.length + 2)) := by
  have hfirst := window_first (b := b) ha
  have hsecond := window_second (b := b) ha
  have hnext : ∀ k found next, k < 0 + a.length →
      p.find? (ofText (a.join b)) k = some (found, next) → next ≤ 0 + a.length := by
    intro k found next hk hf
    rw [← Nat.zero_add k, hfirst.find? (by rw [size_ofText]; omega)] at hf
    obtain ⟨⟨found', next'⟩, hfind, heq⟩ := Option.map_eq_some_iff.1 hf
    cases heq
    have := (finds_of_find? hfind).2.1
    rw [size_ofText] at this
    show 0 + next' ≤ _
    omega
  have hnone : ∀ k, a.length ≤ k → k < a.length + 2 → p.find? (ofText (a.join b)) k = none := by
    intro k h1 h2
    obtain ⟨-, hs, hn, -⟩ := getElem?_join (b := b) ha 0
    refine Pass.find?_eq_none ?_ p
    rcases Nat.eq_or_lt_of_le h1 with rfl | h1
    · rw [inWord, codeByte?_eq_some.2 hs]
      rfl
    · rw [show k = a.length + 1 by omega, inWord, codeByte?_eq_some.2 hn]
      rfl
  have hgap : sweep (p.find? (ofText (a.join b))) 2 a.length a.length = [] :=
    sweep_eq_nil hnone
  have h1 := hfirst.hits p
  have h2 := hsecond.hits p
  rw [size_ofText] at h1 h2
  rw [Pass.hits, size_ofText, length_join, Nat.add_assoc, sweep_add (Nat.zero_le _) hnext, h1,
    Nat.zero_add, sweep_add (Nat.le_add_right _ _), hgap, h2, List.nil_append]
  intro k found next hk hf
  rcases Nat.lt_or_ge k a.length with hlt | hge
  · have := hnext k found next (by omega) hf
    omega
  · rw [hnone k hge hk] at hf
    cases hf

/-- **A pass leaves of two statements what it leaves of each of them.** -/
theorem Pass.output_join (ha : a.Complete) (hwa : a.WellFormed) (hwb : b.WellFormed) (p : Pass) :
    p.output (a.join b) = (p.output a).join (p.output b) := by
  have hfirst := window_first (b := b) ha
  have hsecond := window_second (b := b) ha
  have hchanges : p.changes (a.join b) = (p.changes a).map (Change.shift 0) ++
      (p.changes b).map (Change.shift (a.length + 2)) := by
    rw [Pass.changes, p.hits_join ha, List.flatMap_append, hfirst.pass_changes hwa,
      hsecond.pass_changes hwb]
  have hfa := (p.follow_changes hwa).shift 0
  have hfb := (p.follow_changes hwb).shift (a.length + 2)
  have hender : (ofText (a.join b)).bytes ⟨a.length, a.length + 2⟩ = Text.ender := by
    rw [bytes_eq, map_byte_slice, Text.join, List.append_assoc, List.drop_left,
      Nat.add_sub_cancel_left]
    exact List.take_left' rfl
  rw [Nat.zero_add, Nat.zero_add] at hfa
  rw [Nat.add_zero] at hfb
  rw [Pass.output, hchanges, length_join, changed_append hfa (hfb.of_le (Nat.le_add_right _ 2)),
    ← bytes_changed (Nat.le_add_right a.length 2) hfb, hender]
  have h1 := hfirst.changed (n := a.length) (i := 0) (Nat.le_of_eq (size_ofText _).symm)
    (p.follow_changes hwa)
  have h2 := hsecond.changed (n := b.length) (i := 0) (Nat.le_of_eq (size_ofText _).symm)
    (p.follow_changes hwb)
  rw [Nat.zero_add] at h1
  rw [Nat.add_zero] at h2
  rw [h1, h2, Text.join, List.append_assoc]
  rfl

/-- A pass nests in two statements as many entries as in both of them together. -/
theorem Pass.count_join (ha : a.Complete) (p : Pass) : countEdits (p.edits (a.join b)) =
    countEdits (p.edits a) + countEdits (p.edits b) := by
  have hsum (t : Text) :
      countEdits (p.edits t) = ((p.hits (ofText t)).map (Hit.count (ofText t))).sum := by
    rw [Pass.edits]
    induction p.hits (ofText t) with
    | nil => rfl
    | cons h hs ih =>
      simp only [List.map_cons, countEdits, List.foldr_cons, List.sum_cons] at ih ⊢
      rw [ih]
  have hshift {u : Text} {o : Nat} (h : Window (ofText (a.join b)) (ofText u) o) :
      ((p.hits (ofText u)).map (Hit.shift o)).map (Hit.count (ofText (a.join b))) =
        (p.hits (ofText u)).map (Hit.count (ofText u)) := by
    rw [List.map_map]
    exact List.map_congr_left fun x hx => h.count ((finds_hits p (ofText u)).2.2 x hx)
  rw [hsum, hsum, hsum, p.hits_join ha, List.map_append, hshift (window_first ha),
    hshift (window_second ha), List.sum_append]

/-- A complete text stays complete. -/
theorem Pass.complete_output (ha : a.Complete) (hwa : a.WellFormed) (p : Pass) :
    (p.output a).Complete where
  state := (p.relex hwa).2.trans ha.state
  closed := p.closed_output hwa ha.closed

theorem Text.WellFormed.join (ha : a.WellFormed) (hb : b.WellFormed) : (a.join b).WellFormed :=
  (ha.append (wellFormed_of_ascii (by decide))).append hb

/-- Passes one after the other on two statements. -/
theorem runPasses_join (ha : a.Complete) (hwa : a.WellFormed) (hwb : b.WellFormed)
    (ps : List Pass) : ∃ m ma mb, runPasses ps (a.join b) = .ok m ∧ runPasses ps a = .ok ma ∧
      runPasses ps b = .ok mb ∧ m.text = ma.text.join mb.text ∧
      m.stages.map Stage.pass = ps ∧ ma.stages.map Stage.pass = ps ∧
      mb.stages.map Stage.pass = ps ∧ m.stages.map Stage.count =
        List.zipWith (· + ·) (ma.stages.map Stage.count) (mb.stages.map Stage.count) := by
  induction ps generalizing a b with
  | nil => exact ⟨_, _, _, rfl, rfl, rfl, rfl, rfl, rfl, rfl, rfl⟩
  | cons p ps ih =>
    obtain ⟨m, ma, mb, h1, h2, h3, h4, h5, h6, h7, h8⟩ := ih (p.complete_output ha hwa)
      (p.wellFormed_output hwa) (p.wellFormed_output hwb)
    rw [← p.output_join ha hwa hwb] at h1
    refine ⟨_, _, _, runPasses_cons (hwa.join hwb) h1, runPasses_cons hwa h2,
      runPasses_cons hwb h3, h4, ?_, ?_, ?_, ?_⟩
    · rw [List.map_cons, h5]
    · rw [List.map_cons, h6]
    · rw [List.map_cons, h7]
    · simp only [List.map_cons, List.zipWith_cons_cons, h8, Stage.count, p.count_join ha]

end

/-- **Statements do not influence each other.** If a semicolon behind the first text is code and
every brace in the code of that text is closed in it, then a pipeline, of whatever passes, leaves of
the two texts with `;` and a newline between them what it leaves of each on its own, and each pass
counts as many entries as in both together. -/
theorem Pipeline.run_statements (p : Pipeline) (as bs : List Char)
    (hcode : (ofText (.ofChars as ++ .ofString ";\n")).isCode (Text.ofChars as).length = true)
    (hclosed : ∀ i, (ofText (.ofChars as)).codeByte? i = some Byte.openBrace →
      ((ofText (.ofChars as)).closing? i).isSome) :
    ∃ m ma mb, p.run (.ofChars as ++ .ofString ";\n" ++ .ofChars bs) = .ok m ∧
      p.run (.ofChars as) = .ok ma ∧ p.run (.ofChars bs) = .ok mb ∧
      m.text = ma.text ++ .ofString ";\n" ++ mb.text ∧ m.stages.map Stage.pass = p.passes ∧
      ma.stages.map Stage.pass = p.passes ∧ mb.stages.map Stage.pass = p.passes ∧
      m.stages.map Stage.count =
        List.zipWith (· + ·) (ma.stages.map Stage.count) (mb.stages.map Stage.count) :=
  runPasses_join (Text.complete_iff.2 ⟨hcode, hclosed⟩) (Text.wellFormed_ofChars as)
    (Text.wellFormed_ofChars bs) p.passes

/-- A block and an entry read from the environment, one statement each. -/
theorem Pipeline.run_block_then_env : ∃ m ma mb,
    Pipeline.batch.run (.ofChars "providers: \x7b a: \x7b apiKey: 1 \x7d \x7d".toList ++
      .ofString ";\n" ++ .ofChars "b: process.env.B".toList) = .ok m ∧
    Pipeline.batch.run (.ofChars "providers: \x7b a: \x7b apiKey: 1 \x7d \x7d".toList) = .ok ma ∧
    Pipeline.batch.run (.ofChars "b: process.env.B".toList) = .ok mb ∧
    m.text = ma.text ++ .ofString ";\n" ++ mb.text ∧
    m.stages.map Stage.count =
      List.zipWith (· + ·) (ma.stages.map Stage.count) (mb.stages.map Stage.count) := by
  obtain ⟨m, ma, mb, h1, h2, h3, h4, -, -, -, h8⟩ := Pipeline.run_statements .batch
    "providers: \x7b a: \x7b apiKey: 1 \x7d \x7d".toList "b: process.env.B".toList
    (by decide +kernel) (closed_iff.2 (by decide +kernel))
  exact ⟨m, ma, mb, h1, h2, h3, h4, h8⟩

end ProviderNest
