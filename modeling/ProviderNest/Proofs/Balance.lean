import ProviderNest.Proofs.Relexing

/-!
# Braces and passes

Read from right to left, the braces of some code take up closing braces: `closers cs d` is the
number of closing braces that are left for what comes before `cs`, where `d` are left by what comes
behind it, and there is none if a brace in `cs` finds no closing brace behind it. This is the way
in which a text in parts is judged part by part (`closers_append`).

A text is closed if every opening brace of its code has its closing brace (`Source.Closed`);
`closed_iff` says so with `closers`. What passes put in is balanced with what they keep, so every
pass leaves the count as it was (`Pass.closers_output`), and a closed text stays closed.
-/

namespace ProviderNest

open LexState Source

/-- The closing braces left before a cell, where `k` are left behind it. -/
def Cell.closers (c : Cell) (k : Nat) : Option Nat :=
  if c = ⟨Byte.openBrace, .code⟩ then if k = 0 then none else some (k - 1)
  else if c = ⟨Byte.closeBrace, .code⟩ then some (k + 1)
  else some k

/-- The closing braces left before some cells, where `d` are left behind them. -/
def closers : List Cell → (d : Nat) → Option Nat
  | [], d => some d
  | c :: cs, d => (closers cs d).bind c.closers

/-- Every opening brace of the code has its closing brace. -/
def Source.Closed (s : Source) : Prop :=
  ∀ i, s.codeByte? i = some Byte.openBrace → (s.closing? i).isSome

section
variable {cs ds : List Cell} {d k : Nat}

/-- The closing braces left before two runs of cells are those that the first run leaves, where the
second is read first. -/
theorem closers_append : closers (cs ++ ds) d = (closers ds d).bind (closers cs) := by
  induction cs with
  | nil => exact (Option.bind_fun_some _).symm
  | cons c cs ih =>
    rw [List.cons_append, closers, ih, Option.bind_assoc]
    rfl

/-- More closing braces behind some cells leave more before them. -/
theorem closers_add (h : closers cs 0 = some k) : closers cs d = some (k + d) := by
  induction cs generalizing k with
  | nil =>
    cases h
    rw [closers, Nat.zero_add]
  | cons c cs ih =>
    rw [closers] at h ⊢
    obtain ⟨m, hm, hc⟩ := Option.bind_eq_some_iff.1 h
    rw [ih hm, Option.bind_some]
    unfold Cell.closers at hc ⊢
    split at hc
    · split at hc
      case isTrue => cases hc
      cases hc
      rw [if_pos (by assumption), if_neg (by omega)]
      congr 1
      omega
    · split at hc
      · cases hc
        rw [if_neg (by assumption), if_pos (by assumption)]
        congr 1
        omega
      · cases hc
        rw [if_neg (by assumption), if_neg (by assumption)]

/-- The cells take up and leave the same number of closing braces. -/
def Neutral (cs : List Cell) : Prop := ∀ k, closers cs k = some k

/-- Neutral cells behind neutral cells are neutral. -/
theorem Neutral.append (hc : Neutral cs) (hd : Neutral ds) : Neutral (cs ++ ds) := by
  intro k
  rw [closers_append, hd k, Option.bind_some, hc k]

/-- Neutral cells before others leave as many closing braces as those others. -/
theorem Neutral.closers (h : Neutral cs) : ProviderNest.closers (cs ++ ds) d =
    ProviderNest.closers ds d := by
  rw [closers_append]
  cases ProviderNest.closers ds d with
  | none => rfl
  | some k => exact h k

/-- Braces with all that is between them are neutral. -/
theorem neutral_braces (h : closers ds 0 = some 0) :
    Neutral (⟨Byte.openBrace, .code⟩ :: (ds ++ [⟨Byte.closeBrace, .code⟩])) := by
  intro k
  have hds := closers_add (d := k + 1) h
  rw [Nat.zero_add] at hds
  have hclose : closers [⟨Byte.closeBrace, .code⟩] k = some (k + 1) := rfl
  rw [ProviderNest.closers, closers_append, hclose, Option.bind_some, hds]
  rfl

/-- Cells without a brace in code are neutral. -/
theorem neutral_of_no_braces (h : ∀ c ∈ cs, c.kind = .code →
    c.byte ≠ Byte.openBrace ∧ c.byte ≠ Byte.closeBrace) : Neutral cs := by
  intro k
  induction cs with
  | nil => rfl
  | cons c cs ih =>
    rw [ProviderNest.closers, ih fun x hx => h x (by simp [hx]), Option.bind_some, Cell.closers,
      if_neg, if_neg]
    · rintro rfl
      exact (h _ List.mem_cons_self rfl).2 rfl
    · rintro rfl
      exact (h _ List.mem_cons_self rfl).1 rfl

end

namespace Source

section
variable {s : Source} {i : Nat}

/-- The closing braces left by the cell at a position. -/
theorem closers_slice {j d : Nat} {c : Cell} (hij : i < j) (hc : s.cells[i]? = some c) :
    closers (s.slice i j) d = (closers (s.slice (i + 1) j) d).bind c.closers := by
  rw [slice_eq_cons s hij hc, closers]

/-- A search that ends at a closing brace has met as many closing braces as it had to match. -/
theorem closers_closingFrom {n depth c : Nat} (h : s.closingFrom n i depth = some c) (d : Nat) :
    closers (s.slice i c) d = some (d + depth) := by
  induction n generalizing i depth with
  | zero => cases h
  | succ n ih =>
    have hstep : ∀ {depth'}, s.closingFrom n (i + 1) depth' = some c →
        ∃ x, s.cells[i]? = some x ∧ closers (s.slice i c) d = x.closers (d + depth') := by
      intro depth' h'
      obtain ⟨h1, h2, h3⟩ := closingFrom_spec h'
      have hlt := lt_size_of_codeByte? h3
      obtain ⟨x, hx⟩ := s.exists_cell (i := i) (by omega)
      exact ⟨x, hx, by rw [closers_slice h1 hx, ih h', Option.bind_some]⟩
    unfold closingFrom at h
    split at h
    · next ho =>
      obtain ⟨x, hx, hcl⟩ := hstep h
      rw [codeByte?_eq_some, hx] at ho
      cases ho
      rw [hcl, Cell.closers, if_pos rfl, if_neg (by omega)]
      rfl
    split at h
    · next hno hc =>
      cases depth with
      | zero =>
        cases h
        rw [slice_self]
        rfl
      | succ depth =>
        obtain ⟨x, hx, hcl⟩ := hstep h
        rw [codeByte?_eq_some, hx] at hc
        cases hc
        rw [hcl, Cell.closers, if_neg (by decide), if_pos rfl]
        rfl
    · next hno hnc =>
      obtain ⟨x, hx, hcl⟩ := hstep h
      rw [codeByte?_eq_some, hx] at hno hnc
      rw [hcl, Cell.closers, if_neg (by simpa using hno), if_neg (by simpa using hnc)]

/-- What is between closed braces is balanced. -/
theorem closers_of_closing? {o c : Nat} (h : s.closing? o = some c) :
    closers (s.slice (o + 1) c) 0 = some 0 := by
  obtain ⟨ho, -, -⟩ := closing?_spec h
  rw [closing?, if_pos ho] at h
  exact closers_closingFrom h 0

/-- Closed braces with all that is between them are neutral. -/
theorem neutral_of_closing? {o c : Nat} (h : s.closing? o = some c) :
    Neutral (s.slice o (c + 1)) := by
  obtain ⟨ho, hoc, hc⟩ := closing?_spec h
  rw [slice_eq_cons s (Nat.lt_succ_of_lt hoc) (codeByte?_eq_some.1 ho),
    ← slice_append s (show o + 1 ≤ c from hoc) (Nat.le_succ c),
    slice_eq_cons s (Nat.lt_succ_self c) (codeByte?_eq_some.1 hc), slice_self]
  exact neutral_braces (closers_of_closing? h)

/-- A search up to a position finds its closing brace if and only if enough of them are left. -/
theorem isSome_closingFrom {n j k : Nat} (hn : i + n = j) (hj : j ≤ s.size)
    (hk : closers (s.slice i j) 0 = some k) (depth : Nat) :
    (s.closingFrom n i depth).isSome ↔ depth < k := by
  induction n generalizing i k depth with
  | zero =>
    obtain rfl : i = j := by omega
    rw [slice_self] at hk
    cases hk
    simp [closingFrom]
  | succ n ih =>
    obtain ⟨x, hx⟩ := s.exists_cell (i := i) (by omega)
    rw [closers_slice (by omega) hx] at hk
    obtain ⟨m, hm, hc⟩ := Option.bind_eq_some_iff.1 hk
    have ih := fun depth => ih (i := i + 1) (by omega) hm depth
    unfold closingFrom
    simp only [codeByte?_eq_some, hx, Option.some.injEq]
    unfold Cell.closers at hc
    split at hc
    · next ho =>
      split at hc
      case isTrue => cases hc
      cases hc
      rw [if_pos ho, ih]
      omega
    · next ho =>
      rw [if_neg ho]
      split at hc
      · next hcl =>
        cases hc
        rw [if_pos hcl]
        cases depth with
        | zero => simp
        | succ depth =>
          dsimp only
          rw [ih]
          omega
      · next hcl =>
        cases hc
        rw [if_neg hcl, ih]

/-- Closed braces that open inside others close there, too. -/
theorem closing?_lt {o c o' c' : Nat} (h : s.closing? o = some c) (h' : s.closing? o' = some c')
    (h1 : o < o') (h2 : o' < c) : c' < c := by
  obtain ⟨ho, -, hc⟩ := closing?_spec h
  obtain ⟨ho', -, -⟩ := closing?_spec h'
  rw [closing?, if_pos ho] at h
  rw [closing?, if_pos ho'] at h'
  have hsize := lt_size_of_codeByte? hc
  have hk := closers_closingFrom h 0
  rw [← slice_append s h1 (Nat.le_of_lt h2), closers_append] at hk
  obtain ⟨k, hk, -⟩ := Option.bind_eq_some_iff.1 hk
  rw [closers_slice h2 (codeByte?_eq_some.1 ho')] at hk
  obtain ⟨m, hm, hmk⟩ := Option.bind_eq_some_iff.1 hk
  rw [Cell.closers, if_pos rfl] at hmk
  split at hmk
  case isTrue => cases hmk
  have hfound := (isSome_closingFrom (n := c - (o' + 1)) (by omega) (Nat.le_of_lt hsize) hm 0).2
    (by omega)
  obtain ⟨d, hd⟩ := Option.isSome_iff_exists.1 hfound
  obtain ⟨-, h3, -⟩ := closingFrom_spec hd
  have := closingFrom_steps hd (m := s.size - (o' + 1)) (by omega)
  rw [h'] at this
  cases this
  omega

/-- What is behind any position of a closed text is closed. -/
theorem Closed.isSome_closers (h : s.Closed) (hi : i ≤ s.size) :
    (closers (s.slice i s.size) 0).isSome := by
  generalize hn : s.size - i = n
  induction n generalizing i with
  | zero =>
    obtain rfl : i = s.size := by omega
    rw [slice_self]
    rfl
  | succ n ih =>
    obtain ⟨x, hx⟩ := s.exists_cell (i := i) (by omega)
    obtain ⟨k, hk⟩ := Option.isSome_iff_exists.1 (ih (i := i + 1) (by omega) (by omega))
    rw [closers_slice (by omega) hx, hk, Option.bind_some, Cell.closers]
    split
    · next ho =>
      have hbrace : s.codeByte? i = some Byte.openBrace := by rw [codeByte?_eq_some, hx, ho]
      have := h i hbrace
      rw [closing?, if_pos hbrace, isSome_closingFrom (by omega) (Nat.le_refl _) hk] at this
      rw [if_neg (by omega)]
      rfl
    split <;> rfl

/-- A text is closed if and only if its braces are all taken up. -/
theorem closed_iff : s.Closed ↔ (closers s.cells.toList 0).isSome := by
  rw [← slice_zero_size]
  refine ⟨fun h => h.isSome_closers (Nat.zero_le _), fun h i hi => ?_⟩
  have hlt := lt_size_of_codeByte? hi
  obtain ⟨k, hk⟩ := Option.isSome_iff_exists.1 h
  rw [← slice_append s (Nat.zero_le i) (Nat.le_of_lt hlt), closers_append] at hk
  obtain ⟨m, hm, -⟩ := Option.bind_eq_some_iff.1 hk
  rw [closers_slice hlt (codeByte?_eq_some.1 hi)] at hm
  obtain ⟨j, hj, hc⟩ := Option.bind_eq_some_iff.1 hm
  rw [closing?, if_pos hi, isSome_closingFrom (by omega) (Nat.le_refl _) hj]
  rw [Cell.closers, if_pos rfl] at hc
  split at hc
  case isTrue => cases hc
  omega

/-- No brace is open before a position if those before it are all taken up. -/
theorem enclosingBelow_eq_none {d : Nat} (hi : i ≤ s.size)
    (h : (closers (s.slice 0 i) d).isSome) : s.enclosingBelow i d = none := by
  induction i generalizing d with
  | zero => rfl
  | succ i ih =>
    obtain ⟨x, hx⟩ := s.exists_cell (i := i) (by omega)
    rw [← slice_append s (Nat.zero_le i) (Nat.le_succ i), closers_append,
      closers_slice (Nat.lt_succ_self i) hx, slice_self, closers, Option.bind_some] at h
    unfold enclosingBelow
    simp only [codeByte?_eq_some, hx, Option.some.injEq]
    unfold Cell.closers at h
    split at h
    · next ho =>
      rw [if_neg (by rw [ho]; decide), if_pos ho]
      cases d with
      | zero => cases h
      | succ d => exact ih (by omega) h
    · next ho =>
      split at h
      · next hc =>
        rw [if_pos hc]
        exact ih (by omega) h
      · next hc =>
        rw [if_neg hc, if_neg ho]
        exact ih (by omega) h

end

end Source

section
variable {t : Text}

/-! ## What has no bracket -/

/-- No bracket of any kind stands in the code of a part. -/
def NoBracket (t : Text) (x : Span) : Prop := ∀ k, x.start ≤ k → k < x.stop →
  ∀ b, (ofText t).codeByte? k = some b → b ∉ Text.brackets

/-- No brace stands in the code of a part. -/
def NoBrace (t : Text) (x : Span) : Prop := ∀ k, x.start ≤ k → k < x.stop →
  (ofText t).codeByte? k ≠ some Byte.openBrace ∧ (ofText t).codeByte? k ≠ some Byte.closeBrace

theorem NoBracket.noBrace {x : Span} (h : NoBracket t x) : NoBrace t x :=
  fun k h1 h2 => ⟨fun hb => h k h1 h2 _ hb (by decide), fun hb => h k h1 h2 _ hb (by decide)⟩

theorem NoBracket.mono {x y : Span} (h : NoBracket t x) (h1 : x.start ≤ y.start)
    (h2 : y.stop ≤ x.stop) : NoBracket t y :=
  fun k h3 h4 => h k (by omega) (by omega)

/-- Neither white space nor word bytes are brackets. -/
theorem not_bracket {b : UInt8} (h : Byte.isSpace b = true ∨ Byte.isWord b = true) :
    b ∉ Text.brackets := by
  intro hb
  have hall : ∀ c ∈ Text.brackets, Byte.isSpace c = false ∧ Byte.isWord c = false := by decide
  obtain ⟨h1, h2⟩ := hall b hb
  rw [h1, h2] at h
  rcases h with h | h <;> cases h

/-- A word has no bracket. -/
theorem noBracket_word {w : Span} (h : (ofText t).IsWord w) : NoBracket t w := by
  intro k h1 h2 c hc
  obtain ⟨b, hb, hbw⟩ := inWord_iff.1 (h.inside k h1 h2)
  rw [hb] at hc
  cases hc
  exact not_bracket (.inr hbw)

/-- From the start of a key up to its value there is no bracket. -/
theorem noBracket_key {key : Key} {colon : Nat} (h : (ofText t).IsKey key colon) :
    NoBracket t ⟨key.name.start, key.value⟩ := by
  intro k h1 h2 b hb
  dsimp only at h1 h2
  rcases Nat.lt_or_ge k key.name.stop with h3 | h3
  · exact noBracket_word h.word k h1 h3 b hb
  by_cases hk : k = colon
  · rw [hk, h.colon_code] at hb
    cases hb
    decide
  · have htrivia : (ofText t).isTrivia k = true := by
      rcases Nat.lt_or_ge k colon with h4 | h4
      · exact h.trivia_before k h3 h4
      · exact h.trivia_behind k (by omega) h2
    rw [isTrivia_of_codeByte? hb] at htrivia
    exact not_bracket (.inl htrivia)

/-- An entry read from the environment has no bracket: it is made of words, trivia, a colon, dots
and perhaps an exclamation mark. -/
theorem noBracket_env {e : EnvEntry} {colon value stop : Nat}
    (h : (ofText t).IsEnv e colon value stop) : NoBracket t e.span := by
  obtain ⟨h1, h2, h3, h4, h5, h6, h7⟩ := h.order
  intro k hk1 hk2 b hb
  rcases Nat.lt_or_ge k value with h8 | h8
  · exact noBracket_key h.key k hk1 h8 b hb
  rcases Nat.lt_or_ge k e.var.start with h9 | h9
  · have hcell := getElem?_slice (ofText t) (i := value) (j := e.var.start) (k := k - value)
      (by omega)
    rw [h.slice_value, Nat.add_sub_cancel' h8, codeByte?_eq_some.1 hb, List.getElem?_map] at hcell
    obtain ⟨c, hc, hcb⟩ := Option.map_eq_some_iff.1 hcell
    cases hcb
    have hall : ∀ b ∈ environment, b ∉ Text.brackets := by decide
    exact hall b (List.mem_of_getElem? hc)
  rcases Nat.lt_or_ge k stop with h10 | h10
  · exact noBracket_word h.word k h9 h10 b hb
  · have hstop := h.stop_eq
    have : k < e.var.stop := hk2
    split at hstop
    · next ha =>
      rw [isAsserted, Bool.and_eq_true, beq_iff_eq] at ha
      obtain rfl : k = stop := by omega
      rw [ha.1] at hb
      cases hb
      decide
    · omega

/-- A gap has no bracket: it is made of blanks and commas. -/
theorem noBracket_gap {i j : Nat} {lead : Text} (h : IsGap t i j lead) : NoBracket t ⟨i, j⟩ :=
  fun _ h1 h2 b hb => (h.loose.soft b (mem_bytes hb h1 h2)).no_bracket

/-- From the start of a key up to its value there is no brace. -/
theorem noBrace_key {key : Key} {colon : Nat} (h : (ofText t).IsKey key colon) :
    NoBrace t ⟨key.name.start, key.value⟩ :=
  (noBracket_key h).noBrace

theorem noBrace_env {e : EnvEntry} {colon value stop : Nat}
    (h : (ofText t).IsEnv e colon value stop) : NoBrace t e.span :=
  (noBracket_env h).noBrace

theorem noBrace_gap {i j : Nat} {lead : Text} (h : IsGap t i j lead) : NoBrace t ⟨i, j⟩ :=
  (noBracket_gap h).noBrace

/-- The cells of a part without a brace in code. -/
theorem NoBrace.cells {x : Span} (h : NoBrace t x) : ∀ c ∈ (ofText t).slice x.start x.stop,
    c.kind = .code → c.byte ≠ Byte.openBrace ∧ c.byte ≠ Byte.closeBrace := by
  intro c hc hk
  obtain ⟨n, h1, h2, hn⟩ := (mem_slice_iff _).1 hc
  have := h n h1 h2
  rw [ne_eq, ne_eq, codeByte?_eq_some, codeByte?_eq_some, hn] at this
  obtain ⟨b, kind⟩ := c
  cases hk
  exact ⟨fun hb => this.1 (by rw [← hb]), fun hb => this.2 (by rw [← hb])⟩

/-- A part without a brace in code is neutral. -/
theorem NoBrace.neutral {x : Span} (h : NoBrace t x) : Neutral ((ofText t).slice x.start x.stop) :=
  neutral_of_no_braces h.cells

theorem NoBrace.mono {x y : Span} (h : NoBrace t x) (h1 : x.start ≤ y.start)
    (h2 : y.stop ≤ x.stop) : NoBrace t y :=
  fun k h3 h4 => h k (by omega) (by omega)

end

/-! ## Changes keep the count -/

section
variable {t : Text}

/-- Code without a brace is neutral. -/
theorem neutral_codeCells {u : Text} (h : ∀ b ∈ u, b ≠ Byte.openBrace ∧ b ≠ Byte.closeBrace) :
    Neutral (codeCells u) := by
  refine neutral_of_no_braces fun c hc _ => ?_
  obtain ⟨b, hb, rfl⟩ := List.mem_map.1 hc
  exact h b hb

/-- An indentation is neutral. -/
theorem neutral_indent {indent : Text} (hi : indent.IsIndent) : Neutral (codeCells indent) := by
  refine neutral_codeCells fun b hb => ?_
  rcases hi b hb with rfl | rfl <;> decide

/-- What comes before a configuration takes up one closing brace. -/
theorem closers_front {indent : Text} (hi : indent.IsIndent) (k : Nat) :
    closers (codeCells (front indent)) (k + 1) = some k := by
  have h : codeCells (front indent) = codeCells (.ofString ": \x7b\n") ++
      (codeCells indent ++ codeCells (.ofString "  " ++ nestedKey ++ .ofString ": ")) := by
    simp [front, codeCells]
  have hrest : Neutral (codeCells indent ++
      codeCells (.ofString "  " ++ nestedKey ++ .ofString ": ")) :=
    (neutral_indent hi).append (neutral_codeCells (by decide))
  rw [h, closers_append, hrest]
  rfl

/-- What comes behind a configuration leaves one closing brace. -/
theorem closers_back {indent : Text} (hi : indent.IsIndent) (k : Nat) :
    closers (codeCells (back indent)) k = some (k + 1) := by
  have h : codeCells (back indent) =
      codeCells (.ofString ",\n") ++ codeCells indent ++ codeCells (.ofString "\x7d") := by
    simp [back, codeCells]
  have hrest : Neutral (codeCells (.ofString ",\n") ++ codeCells indent) :=
    (neutral_codeCells (by decide)).append (neutral_indent hi)
  rw [h, closers_append]
  exact hrest (k + 1)

/-- A change that keeps the count of closing braces: what it puts in and keeps is as neutral as
what stood there. -/
def Change.Balanced (t : Text) (c : Change) : Prop :=
  Neutral (c.headCells t ++ (ofText t).slice c.kept.start c.kept.stop ++ c.tailCells) ∧
    Neutral ((ofText t).slice c.start c.kept.stop)

/-- The configuration of a flat entry is neutral. -/
theorem Source.IsFlat.neutral_body {s : Source} {e : FlatEntry} {colon : Nat}
    (h : s.IsFlat e colon) : Neutral (s.slice e.body.start e.body.stop) := by
  have hbody := neutral_of_closing? h.closing
  rwa [Nat.sub_add_cancel h.stop_pos] at hbody

/-- The change that nests a flat entry is balanced: it puts a pair of braces around the object. -/
theorem balanced_flat {e : FlatEntry} {colon : Nat} {indent : Text}
    (h : (ofText t).IsFlat e colon) (hi : indent.IsIndent) : (e.change indent).Balanced t := by
  have ho := h.order
  have hbody := h.neutral_body
  constructor
  · intro k
    have htail : closers (e.change indent).tailCells k = some (k + 1) := closers_back hi k
    have hkept : closers ((ofText t).slice (e.change indent).kept.start (e.change indent).kept.stop)
        (k + 1) = some (k + 1) := hbody (k + 1)
    rw [closers_append, htail, Option.bind_some, closers_append, hkept, Option.bind_some,
      headCells_flat h hi, closers_front hi]
  · show Neutral ((ofText t).slice e.name.stop e.body.stop)
    rw [← slice_append _ (show e.name.stop ≤ e.body.start by omega) (by omega)]
    have hcolon := (noBrace_key h.key).mono (y := ⟨e.name.stop, e.body.start⟩) (Nat.le_of_lt ho.1)
      (Nat.le_refl _)
    exact hcolon.neutral.append hbody

/-- The change that lays out a gap is balanced: there is no brace in a gap, before or after. -/
theorem balanced_gap {i j : Nat} {lead indent : Text} (h : IsGap t i j lead)
    (hi : indent.IsIndent) : (Change.gap i j (lead ++ Byte.newline :: indent)).Balanced t := by
  constructor
  · have hnil : (ofText t).slice j j = [] := slice_self _ _
    simp only [Change.tailCells, Change.gap, hnil, List.map_nil, List.append_nil]
    refine neutral_of_no_braces fun c hc _ => ?_
    have hm : c.byte ∈ lead ++ Byte.newline :: indent := by
      rw [← map_byte_cells (t.stateAt i) (lead ++ Byte.newline :: indent) none]
      exact List.mem_map_of_mem hc
    rcases List.mem_append.1 hm with hm | hm
    · rcases h.opens with ⟨rfl, -⟩ | ⟨rfl, -⟩
      · cases hm
      · rw [List.mem_singleton.1 hm]
        decide
    · rcases List.mem_cons.1 hm with hm | hm
      · rw [hm]
        decide
      · rcases hi _ hm with hm | hm <;> (rw [hm]; decide)
  · exact (noBrace_gap h).neutral

/-- The change that nests an entry read from the environment is balanced: it puts in two pairs of
braces, and there was none. -/
theorem balanced_env {e : EnvEntry} {colon value stop : Nat} {indent : Text}
    (h : (ofText t).IsEnv e colon value stop) (hi : indent.IsIndent) :
    (e.change (ofText t) indent).Balanced t := by
  obtain ⟨h1, h2, h3, h4, h5, h6, h7⟩ := h.order
  have hlower : Neutral (codeCells ((ofText t).bytes e.name).lower) := by
    refine neutral_codeCells fun b hb => ?_
    have := Text.lower_isWord (isWord_bytes h.key.word) b hb
    constructor <;>
    · rintro rfl
      exact absurd this (by decide)
  have hcells : (e.change (ofText t) indent).headCells t =
      codeCells ((ofText t).bytes e.name).lower ++ (codeCells (front indent) ++
        codeCells (.ofString "\x7b " ++ apiKeyField ++ .ofString ": " ++ environment)) := by
    rw [headCells_env h hi]
    simp [EnvEntry.change, codeCells]
  have hkey (k : Nat) : closers (codeCells
      (.ofString "\x7b " ++ apiKeyField ++ .ofString ": " ++ environment)) (k + 2) =
        some (k + 1) := by
    rfl
  constructor
  · intro k
    have htail : closers (e.change (ofText t) indent).tailCells k = some (k + 2) := by
      have : (e.change (ofText t) indent).tailCells =
          codeCells (.ofString " \x7d") ++ codeCells (back indent) := by
        simp [Change.tailCells, EnvEntry.change, codeCells]
      rw [this, closers_append, closers_back hi]
      rfl
    have hkept : closers ((ofText t).slice (e.change (ofText t) indent).kept.start
        (e.change (ofText t) indent).kept.stop) (k + 2) = some (k + 2) :=
      ((noBrace_env h).mono (y := e.var) (by simp only [EnvEntry.span]; omega)
        (Nat.le_refl _)).neutral (k + 2)
    rw [closers_append, htail, Option.bind_some, closers_append, hkept, Option.bind_some, hcells,
      hlower.closers, closers_append, hkey, Option.bind_some, closers_front hi]
  · exact (noBrace_env h).neutral

/-- Every change that a pass makes is balanced. -/
theorem Change.Made.balanced {c : Change} (h : c.Made t) : c.Balanced t := by
  cases h with
  | flat h hi => exact balanced_flat h hi
  | env h hi => exact balanced_env h hi
  | gap h hi => exact balanced_gap h hi

/-- Balanced changes leave as many closing braces as there were. -/
theorem closers_weave {i n d : Nat} {cs : List Change} (hf : Follow Change.span i n cs)
    (hc : ∀ c ∈ cs, c.Balanced t) :
    closers (weave (ofText t).slice (Change.headCells t) Change.tailCells n i cs) d =
      closers ((ofText t).slice i n) d := by
  induction hf with
  | nil => rfl
  | @cons i n c cs h1 h2 h3 ih =>
    obtain ⟨hb1, hb2⟩ := hc c (by simp)
    have ih := ih fun x hx => hc x (by simp [hx])
    rw [Change.span_stop] at ih h3 h2
    rw [Change.span_start] at h1 h2
    have hle := h3.le
    have hw : weave (ofText t).slice (Change.headCells t) Change.tailCells n i (c :: cs) =
        (ofText t).slice i c.start ++ ((c.headCells t ++
          (ofText t).slice c.kept.start c.kept.stop ++ c.tailCells) ++
          weave (ofText t).slice (Change.headCells t) Change.tailCells n c.kept.stop cs) := by
      simp [weave]
    rw [hw, closers_append, hb1.closers, ih, ← hb2.closers, ← closers_append,
      slice_append _ h2 hle, slice_append _ h1 (by omega)]

/-- A pass leaves as many closing braces as there were. -/
theorem Pass.closers_output (p : Pass) (ht : t.WellFormed) (d : Nat) :
    closers (ofText (p.output t)).cells.toList d = closers (ofText t).cells.toList d := by
  rw [(p.relex ht).1, closers_weave (p.follow_changes ht)
    fun c hc => (p.made_changes ht c hc).balanced, ← slice_zero_size, size_ofText]

/-- **A closed text stays closed.** -/
theorem Pass.closed_output (p : Pass) (ht : t.WellFormed) (h : (ofText t).Closed) :
    (ofText (p.output t)).Closed := by
  rw [closed_iff, p.closers_output ht, ← closed_iff]
  exact h

end

end ProviderNest
