import Mathlib.Data.Option.Basic
import ProviderNest.Entry.Environment
import ProviderNest.Proofs.Characters
import ProviderNest.Proofs.Lexing

/-!
# What is recognised, and where

For every function that looks for something in a source text, one statement that says what it
found: a walk stops at the first position that fails its test, a word is a maximal run of word
bytes (`Source.IsWord`), a key is a word with a colon and nothing but trivia around it
(`Source.IsKey`), and the flat and the environment entries are such keys (`Source.IsFlat`,
`Source.IsEnv`). Later proofs use these statements and not the functions.

The last part is about the positions at which a text of whole characters can be cut: next to an
ASCII byte, and at both ends of a word.
-/

namespace ProviderNest.Source

/-! ## Walks -/

/-- A walk upwards passes over positions that pass the test and stops at the first that does not,
or when its steps are used up. -/
theorem forward_spec (p : Nat → Bool) (n i : Nat) :
    i ≤ forward p n i ∧ forward p n i ≤ i + n ∧
    (∀ k, i ≤ k → k < forward p n i → p k = true) ∧
    (forward p n i < i + n → p (forward p n i) = false) := by
  induction n generalizing i with
  | zero =>
    exact ⟨Nat.le_refl i, Nat.le_refl i, fun k h1 h2 => absurd h2 (by simp [forward]; omega),
      fun h => absurd h (by simp [forward])⟩
  | succ n ih =>
    rw [forward]
    split
    · next hp =>
      obtain ⟨h1, h2, h3, h4⟩ := ih (i + 1)
      refine ⟨by omega, by omega, fun k hk hk' => ?_, fun h => h4 (by omega)⟩
      rcases Nat.eq_or_lt_of_le hk with rfl | hk
      · exact hp
      · exact h3 k hk hk'
    · next hp =>
      exact ⟨Nat.le_refl i, by omega, fun k h1 h2 => absurd h2 (by omega),
        fun _ => by simpa using hp⟩

/-- A walk upwards is decided by what it passes over and what stops it. -/
theorem forward_eq {p : Nat → Bool} {n i j : Nat} (hij : i ≤ j) (hj : j ≤ i + n)
    (hp : ∀ k, i ≤ k → k < j → p k = true) (hs : j < i + n → p j = false) :
    forward p n i = j := by
  obtain ⟨h1, h2, h3, h4⟩ := forward_spec p n i
  rcases Nat.lt_trichotomy (forward p n i) j with h | h | h
  · have := hp _ h1 h
    rw [h4 (by omega)] at this
    cases this
  · exact h
  · have := h3 j hij h
    rw [hs (by omega)] at this
    cases this

/-- A walk downwards passes over positions that pass the test and stops below the first that does
not, or when its steps are used up. -/
theorem backward_spec (p : Nat → Bool) {n i : Nat} (hn : n ≤ i) :
    i - n ≤ backward p n i ∧ backward p n i ≤ i ∧
    (∀ k, backward p n i ≤ k → k < i → p k = true) ∧
    (i - n < backward p n i → p (backward p n i - 1) = false) := by
  induction n generalizing i with
  | zero =>
    exact ⟨Nat.le_refl i, Nat.le_refl i, fun k h1 h2 => absurd h1 (by simp [backward]; omega),
      fun h => absurd h (by simp [backward])⟩
  | succ n ih =>
    rw [backward]
    split
    · next hp =>
      obtain ⟨h1, h2, h3, h4⟩ := ih (i := i - 1) (by omega)
      refine ⟨by omega, by omega, fun k hk hk' => ?_, fun h => h4 (by omega)⟩
      rcases Nat.lt_or_ge k (i - 1) with hk' | hk'
      · exact h3 k hk hk'
      · rw [show k = i - 1 by omega]
        exact hp
    · next hp =>
      exact ⟨by omega, Nat.le_refl i, fun k h1 h2 => absurd h1 (by omega),
        fun _ => by simpa using hp⟩

/-- A walk downwards is decided by what it passes over and what stops it. -/
theorem backward_eq {p : Nat → Bool} {n i j : Nat} (hn : n ≤ i) (hij : j ≤ i) (hj : i - n ≤ j)
    (hp : ∀ k, j ≤ k → k < i → p k = true) (hs : i - n < j → p (j - 1) = false) :
    backward p n i = j := by
  obtain ⟨h1, h2, h3, h4⟩ := backward_spec p hn
  rcases Nat.lt_trichotomy (backward p n i) j with h | h | h
  · have := h3 (j - 1) (by omega) (by omega)
    rw [hs (by omega)] at this
    cases this
  · exact h
  · have := hp (backward p n i - 1) (by omega) (by omega)
    rw [h4 (by omega)] at this
    cases this

section
variable {s : Source} {i : Nat}

/-! ## Trivia -/

/-- There is no trivia behind the text. -/
theorem isTrivia_of_size_le (h : s.size ≤ i) : s.isTrivia i = false := by
  rw [isTrivia, Array.getElem?_eq_none h]

/-- A byte of code other than white space is not trivia. -/
theorem isTrivia_of_codeByte? {b : UInt8} (h : s.codeByte? i = some b) :
    s.isTrivia i = Byte.isSpace b := by
  rw [isTrivia, codeByte?_eq_some.1 h]

/-- Trivia is a comment, or white space in code. -/
theorem isTrivia_iff : s.isTrivia i = true ↔
    ∃ c, s.cells[i]? = some c ∧
      (c.kind = .comment ∨ c.kind = .code ∧ Byte.isSpace c.byte = true) := by
  unfold isTrivia
  split
  · next h => simp [h]
  · next h => simp [h]
  · next h1 h2 =>
    refine ⟨fun h => (nomatch h), ?_⟩
    rintro ⟨⟨b, k⟩, hc, rfl | ⟨rfl, hb⟩⟩
    · exact absurd hc (h1 b)
    · exact absurd hc (h2 b)

/-- The positions from `i` up to and without `j` are trivia. -/
def TriviaRun (s : Source) (i j : Nat) : Prop := ∀ k, i ≤ k → k < j → s.isTrivia k = true

instance (s : Source) (i j : Nat) : Decidable (s.TriviaRun i j) :=
  decidable_of_iff (∀ k < j, i ≤ k → s.isTrivia k = true)
    ⟨fun h k hk hk' => h k hk' hk, fun h k hk hk' => h k hk' hk⟩

theorem le_skipTrivia (s : Source) (i : Nat) : i ≤ s.skipTrivia i :=
  (forward_spec s.isTrivia _ i).1

/-- Skipping passes over trivia. -/
theorem triviaRun_skipTrivia (s : Source) (i : Nat) : s.TriviaRun i (s.skipTrivia i) :=
  (forward_spec s.isTrivia _ i).2.2.1

/-- Skipping stops at something else. -/
theorem isTrivia_skipTrivia (s : Source) (i : Nat) : s.isTrivia (s.skipTrivia i) = false := by
  obtain ⟨h1, h2, -, h4⟩ := forward_spec s.isTrivia (s.size - i) i
  rcases Nat.lt_or_ge (s.skipTrivia i) s.size with h | h
  · exact h4 (by rw [skipTrivia] at h; omega)
  · exact isTrivia_of_size_le h

theorem skipTrivia_le_size (h : i ≤ s.size) : s.skipTrivia i ≤ s.size := by
  have := (forward_spec s.isTrivia (s.size - i) i).2.1
  rw [skipTrivia]
  omega

/-- Skipping is decided by what it passes over and what stops it. -/
theorem skipTrivia_eq {j : Nat} (hij : i ≤ j) (hr : s.TriviaRun i j) (hs : s.isTrivia j = false) :
    s.skipTrivia i = j := by
  rcases Nat.lt_trichotomy (s.skipTrivia i) j with h | h | h
  · have := hr _ (le_skipTrivia s i) h
    rw [isTrivia_skipTrivia] at this
    cases this
  · exact h
  · have := triviaRun_skipTrivia s i j hij h
    rw [hs] at this
    cases this

/-- Trimming takes trivia off the end, as far as it goes. -/
theorem trimTrivia_spec (s : Source) {start stop : Nat} (h : start ≤ stop) :
    start ≤ s.trimTrivia start stop ∧ s.trimTrivia start stop ≤ stop ∧
    s.TriviaRun (s.trimTrivia start stop) stop ∧
    (start < s.trimTrivia start stop → s.isTrivia (s.trimTrivia start stop - 1) = false) := by
  obtain ⟨h1, h2, h3, h4⟩ := backward_spec s.isTrivia (n := stop - start) (i := stop) (by omega)
  exact ⟨by rw [trimTrivia]; omega, h2, h3, fun h => h4 (by rw [trimTrivia] at h; omega)⟩

/-! ## Words -/

theorem inWord_iff : s.inWord i = true ↔ ∃ b, s.codeByte? i = some b ∧ Byte.isWord b = true := by
  simp [inWord, Option.any_eq_true]

theorem inWord_of_size_le (h : s.size ≤ i) : s.inWord i = false := by
  rw [inWord, codeByte?, Array.getElem?_eq_none h]
  rfl

/-- White space is no part of a word. -/
theorem isWord_of_isSpace {b : UInt8} (h : Byte.isSpace b = true) : Byte.isWord b = false := by
  simp only [Byte.isSpace, Bool.or_eq_true, beq_iff_eq] at h
  rcases h with (((rfl | rfl) | rfl) | rfl) | rfl <;> decide

/-- What is part of a word is no trivia. -/
theorem isTrivia_of_inWord (h : s.inWord i = true) : s.isTrivia i = false := by
  obtain ⟨b, hb, hword⟩ := inWord_iff.1 h
  rw [isTrivia_of_codeByte? hb, ← Bool.not_eq_true]
  intro hspace
  rw [isWord_of_isSpace hspace] at hword
  cases hword

/-- Trivia is no part of a word. -/
theorem inWord_of_isTrivia (h : s.isTrivia i = true) : s.inWord i = false := by
  rw [← Bool.not_eq_true]
  intro hword
  rw [isTrivia_of_inWord hword] at h
  cases h

/-- The only code in trivia is white space. -/
theorem codeByte?_ne_of_isTrivia {b : UInt8} (h : s.isTrivia i = true)
    (hb : Byte.isSpace b = false) : s.codeByte? i ≠ some b := by
  intro hc
  rw [isTrivia_of_codeByte? hc, hb] at h
  cases h

/-- Code that is no word byte is no part of a word. -/
theorem inWord_of_codeByte? {b : UInt8} (h : s.codeByte? i = some b)
    (hb : Byte.isWord b = false) : s.inWord i = false := by
  rw [inWord, h]
  exact hb

/-- The only code in a word is word bytes. -/
theorem codeByte?_ne_of_inWord {b : UInt8} (h : s.inWord i = true) (hb : Byte.isWord b = false) :
    s.codeByte? i ≠ some b := by
  intro hc
  rw [inWord_of_codeByte? hc hb] at h
  cases h

/-- No word goes on behind trivia. -/
theorem TriviaRun.edge {j : Nat} (h : s.TriviaRun i j) (hij : i ≤ j)
    (hi : i = 0 ∨ s.inWord (i - 1) = false) : j = 0 ∨ s.inWord (j - 1) = false := by
  rcases Nat.eq_or_lt_of_le hij with rfl | hlt
  · exact hi
  · exact .inr (inWord_of_isTrivia (h (j - 1) (by omega) (by omega)))

/-- No word goes on before trivia. -/
theorem TriviaRun.not_inWord {j : Nat} (h : s.TriviaRun i j) (hij : i ≤ j)
    (hj : s.inWord j = false) : s.inWord i = false := by
  rcases Nat.eq_or_lt_of_le hij with rfl | hlt
  · exact hj
  · exact inWord_of_isTrivia (h i (Nat.le_refl i) hlt)

/-- A word: a run of word bytes in code that goes on neither before nor behind. -/
structure IsWord (s : Source) (w : Span) : Prop where
  lt : w.start < w.stop
  inside : ∀ k, w.start ≤ k → k < w.stop → s.inWord k = true
  before : w.start = 0 ∨ s.inWord (w.start - 1) = false
  behind : s.inWord w.stop = false

/-- The first byte of a word. -/
theorem IsWord.inWord_start {w : Span} (h : s.IsWord w) : s.inWord w.start = true :=
  h.inside _ (Nat.le_refl _) h.lt

/-- The last byte of a word. -/
theorem IsWord.inWord_last {w : Span} (h : s.IsWord w) : s.inWord (w.stop - 1) = true :=
  h.inside _ (Nat.le_sub_one_of_lt h.lt) (Nat.sub_one_lt_of_lt h.lt)

/-- A word begins with no trivia. -/
theorem IsWord.isTrivia_start {w : Span} (h : s.IsWord w) : s.isTrivia w.start = false :=
  isTrivia_of_inWord h.inWord_start

/-- What `word?` finds. -/
theorem word?_eq_some {w : Span} : s.word? i = some w ↔ w.start = i ∧ s.IsWord w := by
  obtain ⟨h1, h2, h3, h4⟩ := forward_spec s.inWord (s.size - i) i
  have hstop : s.inWord (forward s.inWord (s.size - i) i) = false := by
    rcases Nat.lt_or_ge (forward s.inWord (s.size - i) i) s.size with h | h
    · exact h4 (by omega)
    · exact inWord_of_size_le h
  unfold word?
  constructor
  · intro h
    split at h
    case isFalse => cases h
    next hc =>
    cases h
    simp only [Bool.and_eq_true, Bool.not_eq_true', Bool.and_eq_false_iff,
      bne_eq_false_iff_eq] at hc
    refine ⟨rfl, ?_, h3, hc.2, hstop⟩
    rcases Nat.eq_or_lt_of_le h1 with h | h
    · rw [← h, hc.1] at hstop
      cases hstop
    · exact h
  · rintro ⟨rfl, hw⟩
    rw [if_pos]
    · congr 2
      refine forward_eq (Nat.le_of_lt hw.lt) ?_ hw.inside fun _ => hw.behind
      obtain ⟨b, hb, -⟩ := inWord_iff.1 hw.inWord_last
      have := lt_size_of_codeByte? hb
      omega
    · simp only [Bool.and_eq_true, Bool.not_eq_true', Bool.and_eq_false_iff, bne_eq_false_iff_eq]
      exact ⟨hw.inWord_start, hw.before⟩

/-! ## Spelling -/

/-- The bytes of a span inside the text. -/
theorem getElem?_bytes {x : Span} {k : Nat} (hk : x.start + k < x.stop) :
    (s.bytes x)[k]? = s.byte? (x.start + k) := by
  rw [bytes_eq, List.getElem?_map, getElem?_slice s hk, byte?]

/-- A byte of code in a span is among its bytes. -/
theorem mem_bytes {x : Span} {k : Nat} {b : UInt8} (hb : s.codeByte? k = some b)
    (h1 : x.start ≤ k) (h2 : k < x.stop) : b ∈ s.bytes x := by
  apply List.mem_of_getElem? (i := k - x.start)
  rw [getElem?_bytes (by omega), Nat.add_sub_cancel' h1]
  exact byte?_of_codeByte? hb

theorem length_bytes {x : Span} (h : x.start ≤ x.stop) (hs : x.stop ≤ s.size) :
    (s.bytes x).length = x.stop - x.start := by
  rw [bytes_eq, List.length_map, length_slice s h hs]

/-- The text at a position begins with `w` if its bytes are those of `w`. -/
theorem spellsAt_iff {w : Text} :
    s.spellsAt i w = true ↔ ∀ k < w.length, s.byte? (i + k) = w[k]? := by
  induction w generalizing i with
  | nil => simp [spellsAt]
  | cons b w ih =>
    rw [spellsAt, Bool.and_eq_true, beq_iff_eq, ih]
    constructor
    · rintro ⟨h0, h⟩ k hk
      cases k with
      | zero => exact h0
      | succ k =>
        rw [show i + (k + 1) = i + 1 + k by omega]
        exact h k (by simpa using hk)
    · intro h
      refine ⟨h 0 (by simp), fun k hk => ?_⟩
      rw [show i + 1 + k = i + (k + 1) by omega]
      exact h (k + 1) (by simpa using hk)

/-- A span inside the text is spelled like its bytes and no other way. -/
theorem spells_iff {x : Span} {w : Text} (h : x.start ≤ x.stop) (hs : x.stop ≤ s.size) :
    s.spells x w = true ↔ s.bytes x = w := by
  have hl := length_bytes h hs
  rw [spells, Bool.and_eq_true, beq_iff_eq, spellsAt_iff]
  constructor
  · rintro ⟨h1, h2⟩
    apply List.ext_getElem?
    intro k
    rcases Nat.lt_or_ge k w.length with hk | hk
    · rw [getElem?_bytes (by omega), h2 k hk]
    · rw [List.getElem?_eq_none (by omega), List.getElem?_eq_none hk]
  · rintro rfl
    exact ⟨hl.symm, fun k hk => (getElem?_bytes (by omega)).symm⟩

/-- A word ends inside the text. -/
theorem IsWord.stop_le {w : Span} (h : s.IsWord w) : w.stop ≤ s.size := by
  have hlt := h.lt
  obtain ⟨b, hb, -⟩ := inWord_iff.1 h.inWord_last
  have := lt_size_of_codeByte? hb
  omega

/-- A word is spelled like its bytes and no other way. -/
theorem IsWord.spells_iff {w : Span} {u : Text} (h : s.IsWord w) :
    s.spells w u = true ↔ s.bytes w = u :=
  Source.spells_iff (Nat.le_of_lt h.lt) h.stop_le

theorem IsWord.spells_eq_false_iff {w : Span} {u : Text} (h : s.IsWord w) :
    s.spells w u = false ↔ s.bytes w ≠ u := by
  rw [← Bool.not_eq_true, h.spells_iff]

/-- Two words that share a position are the same. -/
theorem IsWord.eq_of_mem {v w : Span} {k : Nat} (hv : s.IsWord v) (hw : s.IsWord w)
    (h1 : v.start ≤ k) (h2 : k < v.stop) (h3 : w.start ≤ k) (h4 : k < w.stop) : v = w := by
  have hstart : v.start = w.start := by
    rcases Nat.lt_trichotomy v.start w.start with h | h | h
    · rcases hw.before with h0 | h0
      · omega
      · rw [hv.inside _ (by omega) (by omega)] at h0
        cases h0
    · exact h
    · rcases hv.before with h0 | h0
      · omega
      · rw [hw.inside _ (by omega) (by omega)] at h0
        cases h0
  have hstop : v.stop = w.stop := by
    rcases Nat.lt_trichotomy v.stop w.stop with h | h | h
    · have h0 := hv.behind
      rw [hw.inside _ (by omega) h] at h0
      cases h0
    · exact h
    · have h0 := hw.behind
      rw [hv.inside _ (by omega) h] at h0
      cases h0
  cases v
  cases w
  simp_all

theorem isWord_iff {w : Text} : s.isWord i w = true ↔
    ∃ x : Span, x.start = i ∧ s.IsWord x ∧ s.bytes x = w := by
  rw [isWord, Option.any_eq_true]
  constructor
  · rintro ⟨x, hx, hs⟩
    obtain ⟨h1, h2⟩ := word?_eq_some.1 hx
    exact ⟨x, h1, h2, h2.spells_iff.1 hs⟩
  · rintro ⟨x, h1, h2, hs⟩
    exact ⟨x, word?_eq_some.2 ⟨h1, h2⟩, h2.spells_iff.2 hs⟩

/-! ## Keys -/

/-- A key: a word, a colon behind it that is not doubled, and the start of the value, with trivia
before and behind the colon. -/
structure IsKey (s : Source) (key : Key) (colon : Nat) : Prop where
  word : s.IsWord key.name
  colon_eq : s.skipTrivia key.name.stop = colon
  colon_code : s.codeByte? colon = some Byte.colon
  single : s.codeByte? (colon + 1) ≠ some Byte.colon
  value_eq : s.skipTrivia (colon + 1) = key.value

/-- A test in a search. -/
theorem guard_eq (p : Prop) [Decidable p] : (guard p : Option Unit) = if p then some () else none :=
  rfl

/-- What `key?` finds. -/
theorem key?_eq_some {key : Key} :
    s.key? i = some key ↔ key.name.start = i ∧ ∃ colon, s.IsKey key colon := by
  unfold key?
  simp only [Option.bind_eq_bind, Option.bind_eq_some_iff, Option.guard_eq_some', exists_const,
    Option.pure_def]
  constructor
  · rintro ⟨name, hname, hc, hk⟩
    obtain ⟨h1, h2⟩ := word?_eq_some.1 hname
    cases hk
    exact ⟨h1, _, h2, rfl, hc.1, hc.2, rfl⟩
  · rintro ⟨h1, colon, hk⟩
    refine ⟨key.name, word?_eq_some.2 ⟨h1, hk.word⟩, ?_, ?_⟩
    · rw [hk.colon_eq]
      exact ⟨hk.colon_code, hk.single⟩
    · rw [hk.colon_eq, hk.value_eq]

/-- The word before a value is not empty and comes before the value. -/
theorem keyBefore?_spec {x : Span} (h : s.keyBefore? i = some x) :
    x.start < x.stop ∧ x.stop ≤ i := by
  obtain ⟨-, h1, -⟩ := trimTrivia_spec s (Nat.zero_le i)
  unfold keyBefore? at h
  split at h
  · cases h
  next colon hc =>
  split at h
  case isFalse => cases h
  obtain ⟨-, h2, -⟩ := trimTrivia_spec s (Nat.zero_le colon)
  dsimp only at h
  split at h
  case isFalse => cases h
  next hlt =>
  cases h
  exact ⟨hlt, by dsimp only; omega⟩

/-- What is spelled at a position lies inside the text. -/
theorem le_size_of_spellsAt {u : Text} (h : s.spellsAt i u = true) (hu : u ≠ []) :
    i + u.length ≤ s.size := by
  have hl := List.length_pos_iff.2 hu
  have := spellsAt_iff.1 h (u.length - 1) (by omega)
  rw [byte?, List.getElem?_eq_getElem (by omega)] at this
  obtain ⟨c, hc, -⟩ := Option.map_eq_some_iff.1 this
  have := (Array.getElem?_eq_some_iff.1 hc).1
  rw [size]
  omega

namespace IsKey

variable {key : Key} {colon : Nat}

theorem stop_le_colon (h : s.IsKey key colon) : key.name.stop ≤ colon :=
  h.colon_eq ▸ le_skipTrivia s _

theorem colon_lt_value (h : s.IsKey key colon) : colon < key.value :=
  h.value_eq ▸ le_skipTrivia s _

theorem trivia_before (h : s.IsKey key colon) : s.TriviaRun key.name.stop colon :=
  h.colon_eq ▸ triviaRun_skipTrivia s _

theorem trivia_behind (h : s.IsKey key colon) : s.TriviaRun (colon + 1) key.value :=
  h.value_eq ▸ triviaRun_skipTrivia s _

theorem value_le_size (h : s.IsKey key colon) : key.value ≤ s.size :=
  h.value_eq ▸ skipTrivia_le_size (lt_size_of_codeByte? h.colon_code)

/-- A colon is that of one key. -/
theorem eq_of_colon {key' : Key} (h : s.IsKey key colon) (h' : s.IsKey key' colon) :
    key = key' := by
  -- Between a key and its colon is only trivia, so no other word ends there.
  have hle {k k' : Key} (h : s.IsKey k colon) (h' : s.IsKey k' colon) :
      k'.name.stop ≤ k.name.stop := by
    refine Nat.le_of_not_lt fun hlt => ?_
    have hcolon := h'.stop_le_colon
    have := h.trivia_before (k'.name.stop - 1) (by omega) (by omega)
    rw [isTrivia_of_inWord h'.word.inWord_last] at this
    cases this
  have hstop := Nat.le_antisymm (hle h' h) (hle h h')
  have hlt := h.word.lt
  have hlt' := h'.word.lt
  have hname := h.word.eq_of_mem h'.word (k := key.name.stop - 1) (by omega) (by omega) (by omega)
    (by omega)
  have hvalue := h.value_eq.symm.trans h'.value_eq
  cases key
  cases key'
  cases hname
  cases hvalue
  rfl

end IsKey

/-! ## Braces -/

/-- A search for a closing brace ends at one, among the positions it looks at. -/
theorem closingFrom_spec {n depth c : Nat} (h : s.closingFrom n i depth = some c) :
    i ≤ c ∧ c < i + n ∧ s.codeByte? c = some Byte.closeBrace := by
  induction n generalizing i depth with
  | zero => cases h
  | succ n ih =>
    unfold closingFrom at h
    split at h
    · have := ih h
      exact ⟨by omega, by omega, this.2.2⟩
    split at h
    · next hc =>
      cases depth with
      | zero => cases h; exact ⟨Nat.le_refl _, by omega, hc⟩
      | succ d =>
        have := ih h
        exact ⟨by omega, by omega, this.2.2⟩
    · have := ih h
      exact ⟨by omega, by omega, this.2.2⟩

/-- A search that has found its brace finds it in any number of steps that lead there. -/
theorem closingFrom_steps {n m depth c : Nat} (h : s.closingFrom n i depth = some c)
    (hm : c < i + m) : s.closingFrom m i depth = some c := by
  induction n generalizing i m depth with
  | zero => cases h
  | succ n ih =>
    have hle := (closingFrom_spec h).1
    obtain ⟨m, rfl⟩ : ∃ k, m = k + 1 := ⟨m - 1, by omega⟩
    unfold closingFrom at h ⊢
    split at h
    · next ho =>
      rw [if_pos ho]
      exact ih h (by omega)
    · next ho =>
      rw [if_neg ho]
      split at h
      · next hc =>
        rw [if_pos hc]
        cases depth with
        | zero => exact h
        | succ depth => exact ih h (by omega)
      · next hc =>
        rw [if_neg hc]
        exact ih h (by omega)

/-- A search among braces that stand alike in another text, further on by `o`. -/
theorem closingFrom_shift {w : Source} {o n depth : Nat}
    (h : ∀ k, i ≤ k → k < i + n → ∀ b, b = Byte.openBrace ∨ b = Byte.closeBrace →
      (w.codeByte? (o + k) = some b ↔ s.codeByte? k = some b)) :
    w.closingFrom n (o + i) depth = (s.closingFrom n i depth).map (o + ·) := by
  induction n generalizing i depth with
  | zero => rfl
  | succ n ih =>
    have h1 := h i (Nat.le_refl i) (by omega) _ (.inl rfl)
    have h2 := h i (Nat.le_refl i) (by omega) _ (.inr rfl)
    have ih' (depth : Nat) : w.closingFrom n (o + i + 1) depth =
        (s.closingFrom n (i + 1) depth).map (o + ·) := by
      rw [Nat.add_assoc]
      exact ih fun k hk hk' => h k (by omega) (by omega)
    unfold closingFrom
    simp only [h1, h2, ih']
    split
    · rfl
    split
    · cases depth <;> rfl
    · rfl

/-- A brace and the one that closes it. -/
theorem closing?_spec {c : Nat} (h : s.closing? i = some c) :
    s.codeByte? i = some Byte.openBrace ∧ i < c ∧ s.codeByte? c = some Byte.closeBrace := by
  rw [closing?] at h
  split at h
  case isFalse => cases h
  next ho =>
  have := closingFrom_spec h
  exact ⟨ho, by omega, this.2.2⟩

/-- The innermost open brace before a position. -/
theorem enclosingBelow_spec {depth b : Nat} (h : s.enclosingBelow i depth = some b) :
    b < i ∧ s.codeByte? b = some Byte.openBrace := by
  induction i generalizing depth with
  | zero => cases h
  | succ i ih =>
    have hstep : ∀ {depth}, s.enclosingBelow i depth = some b →
        b < i + 1 ∧ s.codeByte? b = some Byte.openBrace := by
      intro depth h
      obtain ⟨h1, h2⟩ := ih h
      exact ⟨by omega, h2⟩
    unfold enclosingBelow at h
    split at h
    · exact hstep h
    split at h
    · next ho =>
      cases depth with
      | zero => cases h; exact ⟨Nat.lt_succ_self _, ho⟩
      | succ depth => exact hstep h
    · exact hstep h

/-! ## Entries -/

/-- A flat entry: a key not named `default` whose value is a closed object led by `apiKey`. -/
structure IsFlat (s : Source) (e : FlatEntry) (colon : Nat) : Prop where
  key : s.IsKey ⟨e.name, e.body.start⟩ colon
  name_ne : s.bytes e.name ≠ nestedKey
  closing : s.closing? e.body.start = some (e.body.stop - 1)
  stop_pos : 0 < e.body.stop
  leads : s.opensConfiguration e.body.start = true

/-- What `flatEntry?` finds. -/
theorem flatEntry?_eq_some {e : FlatEntry} :
    s.flatEntry? i = some e ↔ e.name.start = i ∧ ∃ colon, s.IsFlat e colon := by
  unfold flatEntry?
  simp only [Option.bind_eq_bind, Option.bind_eq_some_iff, Option.guard_eq_some', exists_const,
    Option.pure_def, Bool.not_eq_true']
  constructor
  · rintro ⟨key, hkey, hn, close, hclose, hl, he⟩
    obtain ⟨h1, colon, hk⟩ := key?_eq_some.1 hkey
    cases he
    exact ⟨h1, colon, hk, hk.word.spells_eq_false_iff.1 hn, hclose, Nat.succ_pos _, hl⟩
  · rintro ⟨h1, colon, h⟩
    refine ⟨⟨e.name, e.body.start⟩, key?_eq_some.2 ⟨h1, colon, h.key⟩,
      h.key.word.spells_eq_false_iff.2 h.name_ne, _, h.closing, h.leads, ?_⟩
    rw [Nat.sub_add_cancel h.stop_pos]

/-- An entry read from the environment: a key, neither `apiKey` in any case of letters nor
`default`, whose value is `process.env.` and a word, the variable. -/
structure IsEnv (s : Source) (e : EnvEntry) (colon value stop : Nat) : Prop where
  key : s.IsKey ⟨e.name, value⟩ colon
  field_ne : Text.sameIgnoringCase (s.bytes e.name) apiKeyField = false
  name_ne : s.bytes e.name ≠ nestedKey
  question : s.precedingCode? e.name.start ≠ some Byte.question
  process : s.isWord value (.ofString "process") = true
  spelled : s.spellsAt value environment = true
  start_eq : e.var.start = value + environment.length
  word : s.IsWord ⟨e.var.start, stop⟩
  stop_eq : e.var.stop = if s.isAsserted stop then stop + 1 else stop
  outside : s.inConfiguration e.name.start = false

/-- What `envEntry?` finds. -/
theorem envEntry?_eq_some {e : EnvEntry} : s.envEntry? i = some e ↔
    e.name.start = i ∧ ∃ colon value stop, s.IsEnv e colon value stop := by
  unfold envEntry?
  simp only [Option.bind_eq_bind, Option.bind_eq_some_iff, Option.guard_eq_some', exists_const,
    Option.pure_def, Bool.and_eq_true, Bool.not_eq_true']
  constructor
  · rintro ⟨key, hkey, hn, hq, hp, var, hvar, ho, he⟩
    obtain ⟨rfl, colon, hk⟩ := key?_eq_some.1 hkey
    obtain ⟨hs, hword⟩ := word?_eq_some.1 hvar
    have hne := hk.word.spells_eq_false_iff.1 hn.2
    cases he
    have hvs : (if s.isAsserted var.stop then (⟨var.start, var.stop + 1⟩ : Span) else var).start =
        var.start := by split <;> rfl
    refine ⟨rfl, colon, key.value, var.stop, hk, hn.1, hne, hq, hp.1, hp.2, ?_, ?_, ?_, ho⟩
    · exact hvs.trans hs
    · dsimp only
      rw [hvs]
      exact hword
    · dsimp only
      split <;> rfl
  · rintro ⟨rfl, colon, value, stop, h⟩
    refine ⟨⟨e.name, value⟩, key?_eq_some.2 ⟨rfl, colon, h.key⟩,
      ⟨h.field_ne, h.key.word.spells_eq_false_iff.2 h.name_ne⟩, h.question, ⟨h.process, h.spelled⟩,
      ⟨e.var.start, stop⟩, word?_eq_some.2 ⟨h.start_eq, h.word⟩, h.outside, ?_⟩
    have := h.stop_eq
    cases e with
    | mk name var =>
      cases var
      dsimp only at this ⊢
      split <;> simp_all

end

/-! ## Where a text can be cut -/

section
variable {t : Text} {i : Nat} {b : UInt8}

theorem drop_eq_cons (h : t[i]? = some b) : t.drop i = b :: t.drop (i + 1) := by
  obtain ⟨hi, hb⟩ := List.getElem?_eq_some_iff.1 h
  rw [List.drop_eq_getElem_cons hi, hb]

/-- A text of whole characters can be cut exactly where a character begins or the text ends. -/
theorem isBoundary_iff (ht : t.WellFormed) (hi : i ≤ t.length) :
    (ofText t).isBoundary i = true ↔ Text.Starts (t.drop i) := by
  simp only [isBoundary, size_ofText, byte?_ofText, Bool.or_eq_true, beq_iff_eq, Option.any_eq_true,
    Bool.not_eq_true', Text.Starts, List.head?_drop, Option.mem_def]
  constructor
  · rintro ((rfl | rfl) | ⟨b, hb, hc⟩) x hx
    · exact ht.starts x (by simpa [List.head?_eq_getElem?] using hx)
    · simp at hx
    · rw [hb] at hx
      cases hx
      exact hc
  · intro h
    rcases Nat.eq_or_lt_of_le hi with rfl | hi
    · exact .inl (.inr rfl)
    · exact .inr ⟨t[i], by simp [hi], h _ (by simp [hi])⟩

theorem isBoundary_of_not_continuation (hb : t[i]? = some b) (hc : Byte.isContinuation b = false) :
    (ofText t).isBoundary i = true := by
  simp [isBoundary, hb, hc]

theorem not_continuation_of_ascii (h : b < 0x80) : Byte.isContinuation b = false := by
  rw [Text.isContinuation_eq_false_iff]
  exact .inl (UInt8.lt_iff_toNat_lt.1 h)

/-- A cut may come before an ASCII byte. -/
theorem isBoundary_of_ascii (hb : t[i]? = some b) (h : b < 0x80) :
    (ofText t).isBoundary i = true :=
  isBoundary_of_not_continuation hb (not_continuation_of_ascii h)

/-- A cut may come behind an ASCII byte. -/
theorem isBoundary_succ_of_ascii (ht : t.WellFormed) (hb : t[i]? = some b) (h : b < 0x80) :
    (ofText t).isBoundary (i + 1) = true := by
  obtain ⟨hi, -⟩ := List.getElem?_eq_some_iff.1 hb
  rw [isBoundary_iff ht hi]
  have hd := drop_eq_cons hb
  have hs : Text.Starts (t.drop i) := by
    rw [← isBoundary_iff ht (Nat.le_of_lt hi)]
    exact isBoundary_of_ascii hb h
  have hw : Text.WellFormed (t.take i ++ t.drop i) := by rwa [List.take_append_drop]
  have := (hw.of_append hs).2
  rw [hd] at this
  exact (this.of_ascii h).starts

/-- The byte before a continuation byte is not ASCII. -/
theorem high_before_continuation (ht : t.WellFormed) (hb : t[i + 1]? = some b)
    (hc : Byte.isContinuation b = true) : ∃ a, t[i]? = some a ∧ 0x80 ≤ a.toNat := by
  obtain ⟨hi, -⟩ := List.getElem?_eq_some_iff.1 hb
  have ha : t[i]? = some t[i] := List.getElem?_eq_getElem (by omega)
  refine ⟨t[i], ha, Nat.le_of_not_lt fun h => ?_⟩
  have := isBoundary_succ_of_ascii ht ha (UInt8.lt_iff_toNat_lt.2 h)
  rw [isBoundary_iff ht (by omega)] at this
  rw [this b (by rw [List.head?_drop, hb]; rfl)] at hc
  cases hc

/-- A byte outside ASCII is a word byte and opens nothing. -/
theorem plain_of_high (h : 0x80 ≤ b.toNat) : LexState.Plain b := by
  constructor
  · simp only [Kind.isQuote, Bool.or_eq_false_iff, beq_eq_false_iff_ne, ne_eq]
    refine ⟨⟨?_, ?_⟩, ?_⟩ <;> (rintro rfl; revert h; decide)
  · rintro rfl
    revert h
    decide

/-- A byte at which code goes on is code if it is plain. -/
theorem codeByte?_of_plain (hs : t.stateAt i = .code) (hb : t[i]? = some b)
    (hp : LexState.Plain b) : (ofText t).codeByte? i = some b := by
  rw [codeByte?_eq_some, (read_cell hb).1, hs, LexState.step_code hp]

/-- A text can be cut at the start of a word. -/
theorem isBoundary_start {w : Span} (ht : t.WellFormed) (hw : (ofText t).IsWord w) :
    (ofText t).isBoundary w.start = true := by
  obtain ⟨b, hb, hbw⟩ := inWord_iff.1 hw.inWord_start
  have hb' : t[w.start]? = some b := getElem?_of_codeByte? hb
  cases hc : Byte.isContinuation b with
  | false => exact isBoundary_of_not_continuation hb' hc
  | true =>
    rcases hw.before with h0 | h0
    · simp [isBoundary, h0]
    · obtain ⟨j, hj⟩ : ∃ j, w.start = j + 1 := by
        refine Nat.exists_eq_succ_of_ne_zero fun h => ?_
        have := ht.starts b (by rw [h] at hb'; simpa [List.head?_eq_getElem?] using hb')
        rw [hc] at this
        cases this
      rw [hj] at hb hb' h0
      obtain ⟨a, ha, hah⟩ := high_before_continuation ht hb' hc
      -- The byte before is a word byte, so it is not code; but then it closes something.
      have hn : (ofText t).codeByte? j = none := by
        cases hcode : (ofText t).codeByte? j with
        | none => rfl
        | some x =>
          have hx : t[j]? = some x := getElem?_of_codeByte? hcode
          rw [ha] at hx
          cases hx
          have : (ofText t).inWord j = true := inWord_iff.2 ⟨a, hcode, Text.isWord_of_high hah⟩
          rw [Nat.add_sub_cancel] at h0
          rw [h0] at this
          cases this
      have hnl : b ≠ Byte.newline := by rintro rfl; revert hc; decide
      obtain ⟨h1, h2⟩ := plain_of_high hah
      rcases closes_of_codeByte? ha hn hb hnl with hq | hq
      · rw [h1] at hq
        cases hq
      · exact absurd hq h2

/-- A text can be cut at the end of a word. -/
theorem isBoundary_stop {w : Span} (hw : (ofText t).IsWord w) :
    (ofText t).isBoundary w.stop = true := by
  have hle := hw.stop_le
  rw [size_ofText] at hle
  rcases Nat.eq_or_lt_of_le hle with h | h
  · simp [isBoundary, h]
  have hb : t[w.stop]? = some t[w.stop] := by simp [h]
  cases hc : Byte.isContinuation t[w.stop] with
  | false => exact isBoundary_of_not_continuation hb hc
  | true =>
    have hlt := hw.lt
    obtain ⟨a, ha, -⟩ := inWord_iff.1 hw.inWord_last
    have hs := stateAt_succ ha
    rw [Nat.sub_add_cancel (by omega)] at hs
    have hh := (Text.isContinuation_iff.1 hc).1
    have hin : (ofText t).inWord w.stop = true :=
      inWord_iff.2 ⟨_, codeByte?_of_plain hs hb (plain_of_high hh), Text.isWord_of_high hh⟩
    rw [hw.behind] at hin
    cases hin

/-- A span between two positions at which a text can be cut is cut out. -/
theorem cut_eq {s : Source} {x : Span} (h : x.start ≤ x.stop) (hs : x.stop ≤ s.size)
    (h1 : s.isBoundary x.start = true) (h2 : s.isBoundary x.stop = true) :
    s.check x = .ok x ∧ s.cut x = .ok (s.bytes x) := by
  have hc : s.check x = .ok x := by
    rw [check, if_neg (by omega), if_neg (by omega), h1, h2]
    rfl
  exact ⟨hc, by rw [cut, hc]; rfl⟩

end

end ProviderNest.Source
