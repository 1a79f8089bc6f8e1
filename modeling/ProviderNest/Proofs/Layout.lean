import ProviderNest.Entry.Object
import ProviderNest.Proofs.Recognition

/-!
# How the entries of an object are laid out

An object is divided at the commas of its code, and its entries are the segments without the blank
characters at their ends. `Source.laid_entries` says what that leaves between the entries: blanks
and commas, and nothing else. An entry begins in code (`Source.IsEntry`), but it need not end in
code: a comment that ends with its line may be the last thing in it. What holds at its end is that
a comma and a newline lead back to code (`LexState.Settles`), since a literal in backticks or a
comment without an end (`LexState.Stuck`) would have swallowed the blanks, and the comma or the
brace behind them.
-/

namespace ProviderNest

namespace Text

/-- The text is made of characters among `cs`. -/
def MadeOf (cs : List Char) (u : Text) : Prop := ∃ ds, (∀ d ∈ ds, d ∈ cs) ∧ u = ofChars ds

/-- The characters that may stand between the entries of an object: blanks and commas. -/
def loose : List Char := ',' :: blanks

/-- The text begins with neither a blank nor a comma. -/
def Fresh (u : Text) : Prop := ∀ c ∈ loose, ¬ String.utf8EncodeChar c <+: u

section
variable {cs : List Char} {u v : Text}

theorem MadeOf.nil : MadeOf cs [] := ⟨[], by simp, rfl⟩

/-- Two texts made of some characters make one that is made of them. -/
theorem MadeOf.append (hu : MadeOf cs u) (hv : MadeOf cs v) : MadeOf cs (u ++ v) := by
  obtain ⟨ds, hd, rfl⟩ := hu
  obtain ⟨es, he, rfl⟩ := hv
  refine ⟨ds ++ es, fun d h => ?_, by simp [ofChars]⟩
  rcases List.mem_append.1 h with h | h
  · exact hd d h
  · exact he d h

theorem MadeOf.char {c : Char} (h : c ∈ cs) : MadeOf cs (String.utf8EncodeChar c) :=
  ⟨[c], by simpa using h, by simp [ofChars]⟩

/-- What is made of blanks is made of blanks and commas. -/
theorem MadeOf.loose (h : MadeOf blanks u) : MadeOf loose u := by
  obtain ⟨ds, hd, rfl⟩ := h
  exact ⟨ds, fun d h => List.mem_cons_of_mem _ (hd d h), rfl⟩

/-- What is made of characters is well-formed. -/
theorem MadeOf.wellFormed (h : MadeOf cs u) : WellFormed u := by
  obtain ⟨ds, -, rfl⟩ := h
  exact wellFormed_ofChars ds

/-- Behind whole characters a well-formed text goes on with whole characters. -/
theorem WellFormed.of_madeOf (h : MadeOf cs u) (hw : WellFormed (u ++ v)) : WellFormed v := by
  obtain ⟨ds, -, rfl⟩ := h
  induction ds with
  | nil => exact hw
  | cons d ds ih =>
    rw [ofChars, List.flatMap_cons, List.append_assoc] at hw
    exact ih (hw.of_encode d)

/-- Only the first byte of a blank character or a comma is not a continuation byte. -/
theorem continuation_of_mem_loose : ∀ c ∈ loose, ∀ b ∈ (String.utf8EncodeChar c).tail,
    Byte.isContinuation b = true := by
  decide

/-- A text begins with one blank character or comma at most. -/
theorem eq_of_prefix_loose {c d : Char} (hc : c ∈ loose) (hd : d ∈ loose)
    (hcu : String.utf8EncodeChar c <+: u) (hdu : String.utf8EncodeChar d <+: u) : c = d := by
  have hfree : ∀ c ∈ loose, ∀ d ∈ loose,
      String.utf8EncodeChar c <+: String.utf8EncodeChar d → c = d := by decide
  rcases List.prefix_or_prefix_of_prefix hcu hdu with h | h
  · exact hfree c hc d hd h
  · exact (hfree d hd c hc h).symm

/-- A blank character or a comma at the start of a text does not reach into what begins with a
character. -/
theorem loose_prefix_append {c : Char} (hc : c ∈ loose) (hu : u ≠ []) (hv : Starts v)
    (h : String.utf8EncodeChar c <+: u ++ v) : String.utf8EncodeChar c <+: u := by
  rcases List.prefix_or_prefix_of_prefix h (List.prefix_append u v) with hp | ⟨w, hw⟩
  · exact hp
  cases w with
  | nil => exact ⟨[], by rw [← hw, List.append_nil, List.append_nil]⟩
  | cons x w =>
    -- The first byte of `v` would be a byte inside the character.
    obtain ⟨y, u, rfl⟩ := List.exists_cons_of_ne_nil hu
    have hx := continuation_of_mem_loose c hc x (by rw [← hw]; simp)
    rw [← hw, List.prefix_append_right_inj] at h
    obtain ⟨r, rfl⟩ := h
    rw [hv x rfl] at hx
    cases hx

/-- A prefix of a fresh text is fresh. -/
theorem Fresh.mono (h : Fresh u) (hv : v <+: u) : Fresh v :=
  fun c hc hp => h c hc (hp.trans hv)

/-- A text begins with neither a blank nor a comma if a part of it does so that ends where another
character begins. -/
theorem Fresh.append (h : Fresh u) (hu : u ≠ []) (hv : Starts v) : Fresh (u ++ v) :=
  fun c hc hp => h c hc (loose_prefix_append hc hu hv hp)

/-- Characters among blanks and commas are told from what is behind them and begins with none of
them. -/
theorem append_inj_of_madeOf {r s : Text} (hcs : ∀ c ∈ cs, c ∈ loose) (hu : MadeOf cs u)
    (hv : MadeOf cs v) (hr : ∀ c ∈ cs, ¬ String.utf8EncodeChar c <+: r)
    (hs : ∀ c ∈ cs, ¬ String.utf8EncodeChar c <+: s) (h : u ++ r = v ++ s) : u = v ∧ r = s := by
  obtain ⟨ds, hd, rfl⟩ := hu
  obtain ⟨es, he, rfl⟩ := hv
  have hcons : ∀ (c : Char) (cs : List Char) (w : Text), ofChars (c :: cs) ++ w =
      String.utf8EncodeChar c ++ (ofChars cs ++ w) := by
    intro c cs w
    rw [ofChars, List.flatMap_cons, List.append_assoc]
    rfl
  induction ds generalizing es with
  | nil =>
    cases es with
    | nil => exact ⟨rfl, h⟩
    | cons e es => exact absurd ⟨_, ((hcons e es s).symm.trans h.symm)⟩ (hr e (he e (by simp)))
  | cons d ds ih =>
    rw [hcons] at h
    cases es with
    | nil => exact absurd ⟨_, h⟩ (hs d (hd d (by simp)))
    | cons e es =>
      rw [hcons] at h
      obtain rfl : d = e := eq_of_prefix_loose (hcs d (hd d (by simp))) (hcs e (he e (by simp)))
        ⟨_, h⟩ (List.prefix_append _ _)
      obtain ⟨h1, h2⟩ := ih (fun x hx => hd x (by simp [hx])) es (fun x hx => he x (by simp [hx]))
        (List.append_cancel_left h)
      exact ⟨congrArg (String.utf8EncodeChar d ++ ·) h1, h2⟩

/-- Blanks and commas are told from what is behind them. -/
theorem append_inj_of_loose {r s : Text} (hu : MadeOf loose u) (hv : MadeOf loose v)
    (hr : Fresh r) (hs : Fresh s) (h : u ++ r = v ++ s) : u = v ∧ r = s :=
  append_inj_of_madeOf (fun _ hc => hc) hu hv hr hs h

/-- The brackets that open or close a part of a text. -/
def brackets : List UInt8 :=
  [Byte.openBrace, Byte.closeBrace, Byte.openBracket, Byte.closeBracket, Byte.openParen,
   Byte.closeParen]

/-- A byte that changes no state of the automaton but that of a literal's escape, and no depth. -/
structure Soft (b : UInt8) : Prop where
  plain : LexState.Plain b
  ne_star : b ≠ Byte.star
  ne_backslash : b ≠ Byte.backslash
  no_bracket : b ∉ brackets

/-- The bytes of blanks and commas are soft. -/
theorem soft_of_mem_loose {c : Char} {b : UInt8} (hc : c ∈ loose)
    (hb : b ∈ String.utf8EncodeChar c) : Soft b := by
  have h : ∀ c ∈ loose, ∀ b ∈ String.utf8EncodeChar c,
      (LexState.Plain b ∧ b ≠ Byte.star) ∧ b ≠ Byte.backslash ∧ b ∉ brackets := by decide
  obtain ⟨⟨h1, h2⟩, h3, h4⟩ := h c hc b hb
  exact ⟨h1, h2, h3, h4⟩

theorem MadeOf.soft (h : MadeOf Text.loose u) : ∀ b ∈ u, Soft b := by
  obtain ⟨ds, hd, rfl⟩ := h
  intro b hb
  obtain ⟨d, hds, hbd⟩ := List.mem_flatMap.1 hb
  exact soft_of_mem_loose (hd d hds) hbd

end

end Text

namespace Source

section
variable {s : Source}

/-- The bytes of a span in two parts. -/
theorem bytes_append {i j k : Nat} (hij : i ≤ j) (hjk : j ≤ k) :
    s.bytes ⟨i, j⟩ ++ s.bytes ⟨j, k⟩ = s.bytes ⟨i, k⟩ := by
  simp only [bytes_eq, ← List.map_append, slice_append s hij hjk]

theorem bytes_self (i : Nat) : s.bytes ⟨i, i⟩ = [] := by
  rw [bytes_eq, slice_self]
  rfl

/-- What is spelled at a position is the bytes there. -/
theorem bytes_of_spellsAt {i : Nat} {w : Text} (h : s.spellsAt i w = true)
    (hs : i + w.length ≤ s.size) : s.bytes ⟨i, i + w.length⟩ = w := by
  rw [← spells_iff (Nat.le_add_right _ _) hs, spells, Bool.and_eq_true]
  exact ⟨by simp, h⟩

theorem length_pos_of_mem_blankForms : ∀ form ∈ Text.blankForms, 0 < form.length := by
  decide

/-- A blank character that is searched for. -/
theorem blank_of_find? {p : Text → Bool} {form : Text} (h : Text.blankForms.find? p = some form) :
    p form = true ∧ Text.MadeOf Text.blanks form := by
  obtain ⟨c, hc, rfl⟩ := List.mem_map.1 (List.mem_of_find?_eq_some h)
  exact ⟨List.find?_some h, .char hc⟩

/-- The blank character that `blankAt` measures. -/
theorem blankAt_spec {i stop : Nat} (hs : stop ≤ s.size) (h : s.blankAt i stop ≠ 0) :
    i + s.blankAt i stop ≤ stop ∧
    Text.MadeOf Text.blanks (s.bytes ⟨i, i + s.blankAt i stop⟩) := by
  unfold blankAt at h ⊢
  split at h
  · next form hf =>
    obtain ⟨hp, hblank⟩ := blank_of_find? hf
    simp only [Bool.and_eq_true, decide_eq_true_eq] at hp
    refine ⟨hp.1, ?_⟩
    rwa [bytes_of_spellsAt hp.2 (by omega)]
  · exact absurd rfl h

/-- No blank character begins where `blankAt` measures none. -/
theorem spellsAt_of_blankAt {i stop : Nat} (h : s.blankAt i stop = 0) {form : Text}
    (hf : form ∈ Text.blankForms) (hl : i + form.length ≤ stop) : s.spellsAt i form = false := by
  unfold blankAt at h
  split at h
  · next form' hf' =>
    have := length_pos_of_mem_blankForms form' (List.mem_of_find?_eq_some hf')
    omega
  · next hn =>
    have := List.find?_eq_none.1 hn form hf
    simpa [hl] using this

/-- The blank character that `blankBefore` measures. -/
theorem blankBefore_spec (start : Nat) {i : Nat} (hs : i ≤ s.size) (h : s.blankBefore start i ≠ 0) :
    start + s.blankBefore start i ≤ i ∧
    Text.MadeOf Text.blanks (s.bytes ⟨i - s.blankBefore start i, i⟩) := by
  unfold blankBefore at h ⊢
  split at h
  · next form hf =>
    obtain ⟨hp, hblank⟩ := blank_of_find? hf
    simp only [Bool.and_eq_true, decide_eq_true_eq] at hp
    refine ⟨hp.1, ?_⟩
    have := bytes_of_spellsAt hp.2 (by omega)
    rw [Nat.sub_add_cancel (by omega)] at this
    rwa [this]
  · exact absurd rfl h

/-- Trimming at the start takes blank characters off, until none begins. -/
theorem trimBlankStart_spec {stop n i : Nat} (hs : stop ≤ s.size) (hi : i ≤ stop)
    (hn : stop - i ≤ n) :
    i ≤ s.trimBlankStart stop n i ∧ s.trimBlankStart stop n i ≤ stop ∧
    Text.MadeOf Text.blanks (s.bytes ⟨i, s.trimBlankStart stop n i⟩) ∧
    s.blankAt (s.trimBlankStart stop n i) stop = 0 := by
  induction n generalizing i with
  | zero =>
    rw [trimBlankStart, bytes_self]
    refine ⟨Nat.le_refl i, hi, .nil, ?_⟩
    apply Classical.byContradiction
    intro h
    have := (blankAt_spec hs h).1
    omega
  | succ n ih =>
    rw [trimBlankStart]
    split
    · next h => exact ⟨Nat.le_refl i, hi, by rw [bytes_self]; exact .nil, h⟩
    · next w hw =>
      obtain ⟨h1, h2⟩ := blankAt_spec (i := i) hs (by omega)
      rw [hw] at h1 h2
      obtain ⟨h3, h4, h5, h6⟩ := ih (i := i + (w + 1)) (by omega) (by omega)
      refine ⟨by omega, h4, ?_, h6⟩
      rw [← bytes_append (j := i + (w + 1)) (by omega) h3]
      exact h2.append h5

/-- Trimming at the end takes blank characters off, until none ends. -/
theorem trimBlankStop_spec (start : Nat) {n i : Nat} (hs : i ≤ s.size) (hi : start ≤ i)
    (hn : i - start ≤ n) :
    start ≤ s.trimBlankStop start n i ∧ s.trimBlankStop start n i ≤ i ∧
    Text.MadeOf Text.blanks (s.bytes ⟨s.trimBlankStop start n i, i⟩) := by
  induction n generalizing i with
  | zero =>
    rw [trimBlankStop, bytes_self]
    exact ⟨hi, Nat.le_refl i, .nil⟩
  | succ n ih =>
    rw [trimBlankStop]
    split
    · exact ⟨hi, Nat.le_refl i, by rw [bytes_self]; exact .nil⟩
    · next w hw =>
      obtain ⟨h1, h2⟩ := blankBefore_spec start hs (by omega)
      rw [hw] at h1 h2
      obtain ⟨h3, h4, h5⟩ := ih (i := i - (w + 1)) (by omega) (by omega) (by omega)
      refine ⟨h3, by omega, ?_⟩
      rw [← bytes_append (j := i - (w + 1)) h4 (by omega)]
      exact h5.append h2

/-- A span without the blank characters at its ends. -/
theorem trimBlank?_some {x e : Span} (hx : x.start ≤ x.stop) (hs : x.stop ≤ s.size)
    (h : s.trimBlank? x = some e) :
    x.start ≤ e.start ∧ e.start < e.stop ∧ e.stop ≤ x.stop ∧
    Text.MadeOf Text.blanks (s.bytes ⟨x.start, e.start⟩) ∧
    Text.MadeOf Text.blanks (s.bytes ⟨e.stop, x.stop⟩) ∧ s.blankAt e.start x.stop = 0 := by
  unfold trimBlank? at h
  extract_lets start stop at h
  obtain ⟨h1, h2, h3, h4⟩ := trimBlankStart_spec (i := x.start) hs hx (Nat.le_refl _)
  obtain ⟨h5, h6, h7⟩ := trimBlankStop_spec start hs h2 (Nat.le_refl _)
  split at h
  case isFalse => cases h
  next hlt =>
  cases h
  exact ⟨h1, hlt, h6, h3, h7, h4⟩

/-- A span of which trimming leaves nothing is blank. -/
theorem trimBlank?_none {x : Span} (hx : x.start ≤ x.stop) (hs : x.stop ≤ s.size)
    (h : s.trimBlank? x = none) : Text.MadeOf Text.blanks (s.bytes x) := by
  unfold trimBlank? at h
  extract_lets start stop at h
  obtain ⟨h1, h2, h3, -⟩ := trimBlankStart_spec (i := x.start) hs hx (Nat.le_refl _)
  obtain ⟨h5, h6, h7⟩ := trimBlankStop_spec start hs h2 (Nat.le_refl _)
  split at h
  case isTrue => cases h
  next hlt =>
  have he : s.trimBlankStop start (x.stop - start) x.stop = start :=
    Nat.le_antisymm (Nat.le_of_not_lt hlt) h5
  rw [he] at h7
  have := h3.append h7
  rwa [bytes_append h1 h2] at this

end

end Source

namespace LexState

/-- Behind a comma and a newline there is code. -/
def Settles (st : LexState) : Prop := ∀ next, st.after [Byte.comma, Byte.newline] next = code

/-- Inside a literal in backticks, or a comment that does not end with its line. -/
def Stuck (st : LexState) : Prop :=
  st = opening ∨ st = block ∨ st = quoted Byte.backtick ∨ st = escaped Byte.backtick

/-- In each state a comma and a newline lead to code, unless the state is a literal or a comment
that reaches over the end of a line. -/
theorem settles_or_stuck (st : LexState) : st.Settles ∨ st.Stuck := by
  cases st with
  | code => exact .inl fun next => by rfl
  | quoted q =>
    by_cases hq : q = Byte.backtick
    · exact .inr (.inr (.inr (.inl (by rw [hq]))))
    · refine .inl fun next => ?_
      simp only [after_cons, after_nil]
      grind [step, show Kind.isQuote Byte.newline = false by decide]
  | escaped q =>
    by_cases hq : q = Byte.backtick
    · exact .inr (.inr (.inr (.inr (by rw [hq]))))
    · refine .inl fun next => ?_
      simp only [after_cons, after_nil]
      grind [step, show Kind.isQuote Byte.newline = false by decide]
  | line => exact .inl fun next => by rfl
  | opening => exact .inr (.inl rfl)
  | block => exact .inr (.inr (.inl rfl))
  | closing => exact .inl fun next => by rfl

/-- A soft byte does not lead out of a literal or comment that reaches over the end of a line. -/
theorem Stuck.step {st : LexState} {b : UInt8} (h : st.Stuck) (hb : Text.Soft b)
    (next : Option UInt8) : (st.step b next).2.Stuck := by
  obtain ⟨⟨hq, -⟩, hs, hb, -⟩ := hb
  have hb' : b ≠ Byte.backtick := by rintro rfl; exact absurd hq (by decide)
  rcases h with rfl | rfl | rfl | rfl <;> simp [LexState.step, hs, hb, hb', Stuck]

/-- No soft bytes lead out of a literal or comment that reaches over the end of a line. -/
theorem Stuck.after {st : LexState} {u : Text} (h : st.Stuck) (hu : ∀ b ∈ u, Text.Soft b)
    (next : Option UInt8) : (st.after u next).Stuck := by
  induction u generalizing st with
  | nil => exact h
  | cons b r ih =>
    rw [after_cons]
    exact ih (h.step (hu b (by simp)) _) fun x hx => hu x (by simp [hx])

end LexState

open LexState

namespace Source

/-- Segments that divide the positions from a start on: each but the last ends at a comma in code,
and a comma inside one comes behind a bracket. -/
inductive Divides (s : Source) (stop : Nat) : Nat → List Span → Prop
  | last {start : Nat} : start ≤ stop →
      (∀ k, start ≤ k → k < stop → s.codeByte? k = some Byte.comma →
        ∃ j, start ≤ j ∧ j < k ∧ s.depthStep j ≠ 0) →
      Divides s stop start [⟨start, stop⟩]
  | comma {start c : Nat} {rest : List Span} : start ≤ c → s.codeByte? c = some Byte.comma →
      (∀ k, start ≤ k → k < c → s.codeByte? k = some Byte.comma →
        ∃ j, start ≤ j ∧ j < k ∧ s.depthStep j ≠ 0) →
      Divides s stop (c + 1) rest → Divides s stop start (⟨start, c⟩ :: rest)

/-- The segments from a position on divide the rest of a body, if in the segment that is open there
every comma comes behind a bracket, and so does the position where the depth is not 0. -/
theorem segmentsFrom_divides {s : Source} {n i start : Nat} {depth : Int} (h : start ≤ i)
    (hd : depth ≠ 0 → ∃ j, start ≤ j ∧ j < i ∧ s.depthStep j ≠ 0)
    (hc : ∀ k, start ≤ k → k < i → s.codeByte? k = some Byte.comma →
      ∃ j, start ≤ j ∧ j < k ∧ s.depthStep j ≠ 0) :
    s.Divides (i + n) start (s.segmentsFrom n i start depth) := by
  induction n generalizing i start depth with
  | zero => exact .last h hc
  | succ n ih =>
    rw [segmentsFrom]
    split
    · next hi =>
      refine .comma h hi.1 hc ?_
      rw [show i + (n + 1) = i + 1 + n by omega]
      exact ih (Nat.le_refl _) (fun h => absurd rfl h) fun k h1 h2 => absurd h2 (by omega)
    · next hi =>
      rw [show i + (n + 1) = i + 1 + n by omega]
      refine ih (by omega) (fun hd' => ?_) fun k h1 h2 hk => ?_
      · by_cases h0 : depth = 0
        · exact ⟨i, h, by omega, by simpa [h0] using hd'⟩
        · obtain ⟨j, h1, h2, h3⟩ := hd h0
          exact ⟨j, h1, by omega, h3⟩
      · rcases Nat.lt_or_ge k i with hki | hki
        · exact hc k h1 hki hk
        · obtain rfl : k = i := by omega
          exact hd fun h0 => hi ⟨hk, h0⟩

/-- The segments of a body divide it. -/
theorem segments_divides {s : Source} {start stop : Nat} (h : start ≤ stop) :
    s.Divides stop start (s.segments start stop) := by
  rw [segments, if_pos h]
  have := @segmentsFrom_divides s (stop - start) start start 0 (Nat.le_refl start)
    (fun h => absurd rfl h) fun k h1 h2 => absurd h2 (by omega)
  rwa [Nat.add_sub_cancel' h] at this

theorem Divides.le {s : Source} {stop start : Nat} {segs : List Span}
    (h : s.Divides stop start segs) : start ≤ stop := by
  induction h with
  | last h => exact h
  | comma h _ _ _ ih => omega

/-- The segments of a body lie in it. -/
theorem Divides.bounds {s : Source} {stop start : Nat} {segs : List Span}
    (h : s.Divides stop start segs) : ∀ x ∈ segs, x.start ≤ x.stop ∧ x.stop ≤ stop := by
  induction h with
  | last h =>
    intro x hx
    obtain rfl := List.mem_singleton.1 hx
    exact ⟨h, Nat.le_refl _⟩
  | comma h _ _ hrest ih =>
    intro x hx
    rcases List.mem_cons.1 hx with rfl | hx
    · exact ⟨h, by have := hrest.le; dsimp only; omega⟩
    · exact ih x hx

/-- The entries of a body are not empty and lie in it. -/
theorem mem_entries {s : Source} {stop start : Nat} {x : Span} (hx : x ∈ s.entries start stop)
    (h : start ≤ stop) (hs : stop ≤ s.size) : x.start < x.stop ∧ x.stop ≤ stop := by
  obtain ⟨y, hy, hyx⟩ := List.mem_filterMap.1 hx
  obtain ⟨h1, h2⟩ := (segments_divides h).bounds y hy
  obtain ⟨-, h3, h4, -⟩ := trimBlank?_some h1 (by omega) hyx
  exact ⟨h3, by omega⟩

section
variable {t : Text}

/-- Reading on from a position leads to the state at another. -/
theorem after_bytes {i j : Nat} (hij : i ≤ j) (hj : j ≤ t.length) :
    (t.stateAt i).after ((ofText t).bytes ⟨i, j⟩) t[j]? = t.stateAt j := by
  rw [bytes_eq, map_byte_slice, ← List.head?_drop]
  exact (read_slice t hij hj).2

/-- A text from a position on begins with the bytes up to another. -/
theorem drop_eq_bytes_append {i j : Nat} (hij : i ≤ j) :
    t.drop i = (ofText t).bytes ⟨i, j⟩ ++ t.drop j := by
  have h := List.take_append_drop (j - i) (t.drop i)
  rw [List.drop_drop, Nat.add_sub_cancel' hij] at h
  rw [bytes_eq, map_byte_slice]
  exact h.symm

/-- Code goes on past blanks and commas. -/
theorem stateAt_of_loose {i j : Nat} (hij : i ≤ j) (hj : j ≤ t.length) (hi : t.stateAt i = .code)
    (h : Text.MadeOf Text.loose ((ofText t).bytes ⟨i, j⟩)) : t.stateAt j = .code := by
  rw [← after_bytes hij hj, hi]
  exact (after_cells_plain (fun b hb => (h.soft b hb).plain) _).1

/-- Before blanks that lead to code, a comma and a newline lead to code. -/
theorem settles_of_loose {i j : Nat} (hij : i ≤ j) (hj : j ≤ t.length) (hs : t.stateAt j = .code)
    (h : Text.MadeOf Text.loose ((ofText t).bytes ⟨i, j⟩)) : (t.stateAt i).Settles := by
  refine (settles_or_stuck _).resolve_right fun hst => ?_
  have := hst.after (fun b hb => h.soft b hb) t[j]?
  rw [after_bytes hij hj, hs] at this
  rcases this with h | h | h | h <;> cases h

/-- No bracket stands among blanks and commas. -/
theorem depthStep_of_loose {i j k : Nat} (hik : i ≤ k) (hkj : k < j)
    (h : Text.MadeOf Text.loose ((ofText t).bytes ⟨i, j⟩)) : (ofText t).depthStep k = 0 := by
  unfold depthStep
  split
  · rfl
  next b hb =>
  have := (h.soft b (mem_bytes hb hik hkj)).no_bracket
  simp only [Text.brackets, List.mem_cons, List.not_mem_nil, or_false, not_or] at this
  rw [if_neg (by rintro (h | h | h) <;> simp_all), if_neg (by rintro (h | h | h) <;> simp_all)]

/-- Neither a blank nor a comma begins with the second byte of a comment's opening or closing. -/
theorem calm_of_mem_loose : ∀ c ∈ Text.loose, Calm (String.utf8EncodeChar c).head? := by
  decide

/-- What begins with blanks and commas, or with something calm, is calm. -/
theorem calm_of_loose {i j : Nat} (hij : i ≤ j) (hj : Calm t[j]?)
    (h : Text.MadeOf Text.loose ((ofText t).bytes ⟨i, j⟩)) : Calm t[i]? := by
  rw [← List.head?_drop, drop_eq_bytes_append hij, List.head?_append, List.head?_drop]
  obtain ⟨ds, hd, hb⟩ := h
  rw [hb]
  cases ds with
  | nil => exact hj
  | cons d ds =>
    have := calm_of_mem_loose d (hd d (by simp))
    obtain ⟨x, r, hx, -⟩ := Text.encode_shape d
    simp only [Text.ofChars, List.flatMap_cons, hx, List.cons_append, List.head?_cons,
      Option.some_or] at this ⊢
    exact this

/-- An entry of an object, where the part behind the entry before it, or behind the brace, begins
at position `i`. -/
structure IsEntry (t : Text) (i : Nat) (e : Span) : Prop where
  le : i ≤ e.start
  lt : e.start < e.stop
  stop_le : e.stop ≤ t.length
  gap : Text.MadeOf Text.loose ((ofText t).bytes ⟨i, e.start⟩)
  led : (0 < i ∧ (ofText t).codeByte? (i - 1) = some Byte.openBrace) ∨
    ∃ c, i ≤ c ∧ c < e.start ∧ (ofText t).codeByte? c = some Byte.comma
  before : t.stateAt e.start = .code
  behind : (t.stateAt e.stop).Settles
  starts : Text.Starts (t.drop e.start)
  stops : Text.Starts (t.drop e.stop)
  calm : Calm t[e.stop]?
  fresh : Text.Fresh (t.drop e.start)

/-- Entries that follow each other with nothing but blanks and commas between them, up to the end
of their object. -/
inductive Laid (t : Text) (stop : Nat) : Nat → List Span → Prop
  | nil {i : Nat} :
      i ≤ stop → Text.MadeOf Text.loose ((ofText t).bytes ⟨i, stop⟩) → Laid t stop i []
  | cons {i : Nat} {e : Span} {es : List Span} :
      IsEntry t i e → Laid t stop e.stop es → Laid t stop i (e :: es)

theorem Laid.isEntry {stop i : Nat} {es : List Span} (h : Laid t stop i es) :
    ∀ e ∈ es, ∃ i, IsEntry t i e := by
  induction h with
  | nil => exact fun e he => nomatch he
  | cons h _ ih =>
    intro e he
    rcases List.mem_cons.1 he with rfl | he
    · exact ⟨_, h⟩
    · exact ih e he

/-- A segment of an object: it begins in code, behind a brace or a comma, and ends before one. -/
structure IsSegment (t : Text) (x : Span) : Prop where
  le : x.start ≤ x.stop
  whole : Text.WellFormed (t.drop x.start)
  code : t.stateAt x.start = .code
  ends : ∃ b, (ofText t).codeByte? x.stop = some b ∧ (b = Byte.comma ∨ b = Byte.closeBrace)
  commas : ∀ k, x.start ≤ k → k < x.stop → (ofText t).codeByte? k = some Byte.comma →
    ∃ j, x.start ≤ j ∧ j < k ∧ (ofText t).depthStep j ≠ 0

namespace IsSegment

variable {x e : Span} {i : Nat}

/-- The byte behind a segment. -/
theorem stop_byte (hx : IsSegment t x) : ∃ b, t[x.stop]? = some b ∧ b < 0x80 ∧ Calm (some b) := by
  obtain ⟨b, hb, hor⟩ := hx.ends
  refine ⟨b, getElem?_of_codeByte? hb, ?_⟩
  rcases hor with rfl | rfl <;> decide

theorem stop_lt (hx : IsSegment t x) : x.stop < t.length := by
  obtain ⟨b, hb, -⟩ := hx.ends
  simpa using lt_size_of_codeByte? hb

/-- A segment ends in code, where a comma or a brace stands behind it. -/
theorem stop_code (hx : IsSegment t x) : t.stateAt x.stop = .code := by
  obtain ⟨b, hb, hor⟩ := hx.ends
  refine stateAt_of_codeByte? hb ?_
  rcases hor with rfl | rfl <;> decide

/-- A segment can be cut out of its text. -/
theorem check_eq (ht : t.WellFormed) (hx : IsSegment t x) : (ofText t).check x = .ok x := by
  obtain ⟨b, hb, ha, -⟩ := hx.stop_byte
  have := hx.stop_lt
  have := hx.le
  exact (cut_eq hx.le (by rw [size_ofText]; omega)
    ((isBoundary_iff ht (by omega)).2 hx.whole.starts) (isBoundary_of_ascii hb ha)).1

/-- No comma in code and no blank character stands at the start of what trimming leaves. -/
theorem fresh (hx : IsSegment t x) (hs : t.stateAt e.start = .code)
    (h : (ofText t).trimBlank? x = some e) : Text.Fresh (t.drop e.start) := by
  have hsz := hx.stop_lt
  obtain ⟨h1, h2, h3, h4, -, h6⟩ := trimBlank?_some hx.le (by rw [size_ofText]; omega) h
  intro c hcl hp
  have hat (k : Nat) (hk : k < (String.utf8EncodeChar c).length) :
      t[e.start + k]? = (String.utf8EncodeChar c)[k]? := by
    obtain ⟨r, hr⟩ := hp
    rw [← List.getElem?_drop, ← hr, List.getElem?_append_left hk]
  rcases List.mem_cons.1 hcl with rfl | hcb
  · have hcomma : (ofText t).codeByte? e.start = some Byte.comma :=
      codeByte?_of_plain hs (hat 0 (by decide)) (by decide)
    obtain ⟨j, hj1, hj2, hj3⟩ := hx.commas _ h1 (by omega) hcomma
    exact hj3 (depthStep_of_loose hj1 hj2 h4.loose)
  · rcases Nat.lt_or_ge x.stop (e.start + (String.utf8EncodeChar c).length) with hl | hl
    · -- The character would reach over the ASCII byte at the end of the segment.
      obtain ⟨b, hb, ha, -⟩ := hx.stop_byte
      have hk := hat (x.stop - e.start) (by omega)
      rw [Nat.add_sub_cancel' (by omega), hb] at hk
      have hm : b ∈ (String.utf8EncodeChar c).tail := by
        apply List.mem_of_getElem? (i := x.stop - e.start - 1)
        rw [List.getElem?_tail, Nat.sub_add_cancel (by omega)]
        exact hk.symm
      have := Text.continuation_of_mem_loose c hcl b hm
      rw [not_continuation_of_ascii ha] at this
      cases this
    · have := spellsAt_of_blankAt h6 (List.mem_map_of_mem hcb) hl
      rw [← Bool.not_eq_true, spellsAt_iff] at this
      exact this fun k hk => by rw [byte?_ofText]; exact hat k hk

/-- What trimming leaves of a segment is an entry. -/
theorem isEntry (hx : IsSegment t x) (hi : i ≤ x.start)
    (hgap : Text.MadeOf Text.loose ((ofText t).bytes ⟨i, x.start⟩))
    (hled : (0 < i ∧ (ofText t).codeByte? (i - 1) = some Byte.openBrace) ∨
      ∃ c, i ≤ c ∧ c < x.start ∧ (ofText t).codeByte? c = some Byte.comma)
    (h : (ofText t).trimBlank? x = some e) : IsEntry t i e := by
  have hsz := hx.stop_lt
  obtain ⟨b, hb, ha, hn⟩ := hx.stop_byte
  obtain ⟨h1, h2, h3, h4, h5, -⟩ := trimBlank?_some hx.le (by rw [size_ofText]; omega) h
  have hcode := stateAt_of_loose h1 (by omega) hx.code h4.loose
  refine ⟨by omega, h2, by omega, ?_, ?_, hcode, ?_, ?_, ?_, ?_, hx.fresh hcode h⟩
  · have := hgap.append h4.loose
    rwa [bytes_append hi h1] at this
  · rcases hled with hl | ⟨c, hc1, hc2, hc3⟩
    · exact .inl hl
    · exact .inr ⟨c, hc1, by omega, hc3⟩
  · exact settles_of_loose h3 (by omega) hx.stop_code h5.loose
  · have hw := hx.whole
    rw [drop_eq_bytes_append h1] at hw
    exact (hw.of_madeOf h4).starts
  · intro y hy
    rw [drop_eq_bytes_append h3, List.head?_append] at hy
    cases hu : ((ofText t).bytes ⟨e.stop, x.stop⟩).head? with
    | some z =>
      rw [hu, Option.some_or] at hy
      cases hy
      exact h5.wellFormed.starts y hu
    | none =>
      rw [hu, Option.none_or, List.head?_drop, hb] at hy
      cases hy
      exact not_continuation_of_ascii ha
  · exact calm_of_loose h3 (by rw [hb]; exact hn) h5.loose

end IsSegment

/-- A text behind an ASCII byte is made of whole characters. -/
theorem wellFormed_drop_succ {i : Nat} {b : UInt8} (ht : t.WellFormed) (hb : t[i]? = some b)
    (ha : b < 0x80) : Text.WellFormed (t.drop (i + 1)) := by
  obtain ⟨hi, -⟩ := List.getElem?_eq_some_iff.1 hb
  have hs := (isBoundary_iff ht hi).1 (isBoundary_succ_of_ascii ht hb ha)
  have hw : Text.WellFormed (t.take (i + 1) ++ t.drop (i + 1)) := by rwa [List.take_append_drop]
  exact (hw.of_append hs).2

/-- The segments of an object. -/
theorem Divides.isSegment {stop start : Nat} {segs : List Span} (ht : t.WellFormed)
    (h : (ofText t).Divides stop start segs)
    (hstop : (ofText t).codeByte? stop = some Byte.closeBrace)
    (hw : Text.WellFormed (t.drop start)) (hs : t.stateAt start = .code) :
    ∀ x ∈ segs, IsSegment t x := by
  induction h with
  | last h hc =>
    intro x hx
    obtain rfl := List.mem_singleton.1 hx
    exact ⟨h, hw, hs, ⟨_, hstop, .inr rfl⟩, hc⟩
  | @comma start c rest h hb hc hrest ih =>
    intro x hx
    rcases List.mem_cons.1 hx with rfl | hx
    · exact ⟨h, hw, hs, ⟨_, hb, .inl rfl⟩, hc⟩
    · have hb' : t[c]? = some Byte.comma := getElem?_of_codeByte? hb
      exact ih (wellFormed_drop_succ ht hb' (by decide)) (stateAt_succ hb) x hx

/-- The segments of an object, less the blanks at their ends, are laid out one after the other. -/
theorem Divides.laid {stop start i : Nat} {segs : List Span}
    (h : (ofText t).Divides stop start segs) (hx : ∀ x ∈ segs, IsSegment t x) (hi : i ≤ start)
    (hgap : Text.MadeOf Text.loose ((ofText t).bytes ⟨i, start⟩))
    (hled : (0 < i ∧ (ofText t).codeByte? (i - 1) = some Byte.openBrace) ∨
      ∃ c, i ≤ c ∧ c < start ∧ (ofText t).codeByte? c = some Byte.comma) :
    Laid t stop i (segs.filterMap (ofText t).trimBlank?) := by
  induction h generalizing i with
  | @last start h hc =>
    have hseg := hx ⟨start, stop⟩ (by simp)
    have hsz := hseg.stop_lt
    cases he : (ofText t).trimBlank? ⟨start, stop⟩ with
    | none =>
      have hb := (trimBlank?_none hseg.le (by rw [size_ofText]; exact Nat.le_of_lt hsz) he).loose
      rw [List.filterMap_cons_none he]
      refine .nil (by omega) ?_
      rw [← bytes_append hi h]
      exact hgap.append hb
    | some e =>
      obtain ⟨-, -, h3, -, h5, -⟩ :=
        trimBlank?_some hseg.le (by rw [size_ofText]; exact Nat.le_of_lt hsz) he
      rw [List.filterMap_cons_some he]
      exact .cons (hseg.isEntry hi hgap hled he) (.nil h3 h5.loose)
  | @comma start c rest h hb hc hrest ih =>
    have hseg := hx ⟨start, c⟩ (by simp)
    have hsz := hseg.stop_lt
    have hcomma : Text.MadeOf Text.loose ((ofText t).bytes ⟨c, c + 1⟩) := by
      rw [show (ofText t).bytes ⟨c, c + 1⟩ = String.utf8EncodeChar ',' from ?_]
      · exact .char (by decide)
      · rw [bytes_eq, slice_eq_cons _ (Nat.lt_succ_self c) (codeByte?_eq_some.1 hb), slice_self]
        rfl
    have hrest' : ∀ x ∈ rest, IsSegment t x := fun x h => hx x (List.mem_cons_of_mem _ h)
    cases he : (ofText t).trimBlank? ⟨start, c⟩ with
    | none =>
      have hbl := (trimBlank?_none hseg.le (by rw [size_ofText]; exact Nat.le_of_lt hsz) he).loose
      rw [List.filterMap_cons_none he]
      refine ih hrest' (by omega) ?_ (.inr ⟨c, by omega, by omega, hb⟩)
      rw [← bytes_append hi (by omega : start ≤ c + 1), ← bytes_append h (Nat.le_succ c)]
      exact hgap.append (hbl.append hcomma)
    | some e =>
      obtain ⟨-, -, h3, -, h5, -⟩ :=
        trimBlank?_some hseg.le (by rw [size_ofText]; exact Nat.le_of_lt hsz) he
      dsimp only at h3 h5
      rw [List.filterMap_cons_some he]
      refine .cons (hseg.isEntry hi hgap hled he)
        (ih hrest' (by omega) ?_ (.inr ⟨c, h3, by omega, hb⟩))
      rw [← bytes_append h3 (Nat.le_succ c)]
      exact h5.loose.append hcomma

/-- A list is gone through without a fault if no element gives one. -/
theorem mapM_eq_ok {ε α β : Type} {f : α → Except ε β} {g : α → β} {xs : List α}
    (h : ∀ x ∈ xs, f x = .ok (g x)) : xs.mapM f = .ok (xs.map g) := by
  induction xs with
  | nil => rfl
  | cons x xs ih =>
    rw [List.mapM_cons, h x (by simp), ih fun y hy => h y (by simp [hy])]
    rfl

variable {o c : Nat}

/-- The segments of an object between closed braces begin behind a brace or a comma, and end before
one. -/
theorem isSegment_of_closing? (ht : t.WellFormed) (h : (ofText t).closing? o = some c) :
    ∀ x ∈ (ofText t).segments (o + 1) c, IsSegment t x := by
  obtain ⟨ho, hoc, hc⟩ := closing?_spec h
  have ho' : t[o]? = some Byte.openBrace := getElem?_of_codeByte? ho
  exact (segments_divides hoc).isSegment ht hc (wellFormed_drop_succ ht ho' (by decide))
    (stateAt_succ ho)

/-- **The entries of an object.** Between the braces and the entries of an object, and between one
entry and the next, stand blanks and commas only. -/
theorem laid_entries (ht : t.WellFormed) (h : (ofText t).closing? o = some c) :
    Laid t c (o + 1) ((ofText t).entries (o + 1) c) := by
  obtain ⟨ho, hoc, -⟩ := closing?_spec h
  refine (segments_divides hoc).laid (isSegment_of_closing? ht h) (Nat.le_refl _) ?_
    (.inl ⟨Nat.succ_pos o, ho⟩)
  rw [bytes_self]
  exact .nil

/-- The entries of an object can be cut out of a text of whole characters. -/
theorem cutEntries_eq (ht : t.WellFormed) (h : (ofText t).closing? o = some c) :
    (ofText t).cutEntries (o + 1) c = .ok ((ofText t).entries (o + 1) c) := by
  have hx := isSegment_of_closing? ht h
  obtain ⟨-, -, hc⟩ := closing?_spec h
  rw [cutEntries, if_neg (Nat.not_lt.2 (Nat.le_of_lt (lt_size_of_codeByte? hc))),
    mapM_eq_ok fun x h => (hx x h).check_eq ht, List.map_id']
  rfl

/-- A flat entry that makes up an object's entry: trivia stands around it. -/
theorem flatIn?_eq_some {s : Source} {e : Span} {f : FlatEntry} (he : e.start ≤ e.stop)
    (h : s.flatIn? e = some f) : (∃ colon, s.IsFlat f colon) ∧ e.start ≤ f.name.start ∧
    f.body.stop ≤ e.stop ∧ s.TriviaRun e.start f.name.start ∧ s.TriviaRun f.body.stop e.stop := by
  rw [flatIn?, Option.filter_eq_some_iff] at h
  obtain ⟨hf, hstop⟩ := h
  obtain ⟨hstart, hflat⟩ := flatEntry?_eq_some.1 hf
  have hstop : f.body.stop = s.trimTrivia e.start e.stop := by
    simpa [FlatEntry.span] using hstop
  obtain ⟨-, h2, h3, -⟩ := trimTrivia_spec s he
  rw [hstart, hstop]
  exact ⟨hflat, le_skipTrivia s _, h2, triviaRun_skipTrivia s _, h3⟩

end

end Source
end ProviderNest
