import ProviderNest.Proofs.Balance

/-!
# A part of a source text on its own

Statements that are divided by a semicolon and a newline do not see each other. A `Window` is a
part of a source text that stands on its own: before it comes the end of a statement or nothing,
behind it a semicolon or nothing, no brace is open where it begins, and none of its braces is left
open unless it reaches to the end. For every function that looks for something, one statement says
that it gives the same answer in the whole text and in the part, up to the shift of positions. A
semicolon stops every walk forward, and the newline or the semicolon before the part every walk
back.
-/

namespace ProviderNest

/-- The byte that ends a statement. -/
abbrev Byte.semicolon : UInt8 := 0x3B

/-! ## Shifted positions -/

/-- The span further on by `o`. -/
def Span.shift (o : Nat) (x : Span) : Span := ⟨o + x.start, o + x.stop⟩

/-- The key further on by `o`. -/
def Key.shift (o : Nat) (k : Key) : Key := ⟨k.name.shift o, o + k.value⟩

/-- The flat entry further on by `o`. -/
def FlatEntry.shift (o : Nat) (e : FlatEntry) : FlatEntry := ⟨e.name.shift o, e.body.shift o⟩

/-- The entry read from the environment further on by `o`. -/
def EnvEntry.shift (o : Nat) (e : EnvEntry) : EnvEntry := ⟨e.name.shift o, e.var.shift o⟩

/-- The braces further on by `o`. -/
def Braces.shift (o : Nat) (b : Braces) : Braces := ⟨o + b.opening, o + b.closing⟩

/-- The hit further on by `o`. -/
def Hit.shift (o : Nat) : Hit → Hit
  | flat e => flat (e.shift o)
  | env e => env (e.shift o)
  | object a b => object (o + a) (b.shift o)

/-- The change further on by `o`. -/
def Change.shift (o : Nat) (c : Change) : Change := ⟨o + c.start, c.head, c.kept.shift o, c.tail⟩

/-- What is found, further on by `o`. -/
def shiftFind (o : Nat) (f : List Hit × Nat) : List Hit × Nat := (f.1.map (Hit.shift o), o + f.2)

open Source

/-- A search behind a test. -/
theorem guard_bind {α : Type} (p : Prop) [Decidable p] (f : Unit → Option α) :
    guard p >>= f = if p then f () else none := by
  rw [guard_eq]
  split <;> rfl

/-- The part `w` of the text `s` that begins at position `o` stands on its own. -/
structure Window (s w : Source) (o : Nat) : Prop where
  size_le : o + w.size ≤ s.size
  cells : ∀ i < w.size, s.cells[o + i]? = w.cells[i]?
  behind : s.cells[o + w.size]? = none ∨ s.cells[o + w.size]? = some ⟨Byte.semicolon, .code⟩
  before : o = 0 ∨ 2 ≤ o ∧ s.cells[o - 2]? = some ⟨Byte.semicolon, .code⟩ ∧
    s.cells[o - 1]? = some ⟨Byte.newline, .code⟩
  outside : ∀ d, s.enclosingBelow o d = none
  closed : o + w.size = s.size ∨ w.Closed

namespace Window

variable {s w : Source} {o : Nat}

section
variable {i : Nat}

/-! ## Bytes -/

/-- Code other than a semicolon is the same, also right behind the part. -/
theorem codeByte? (h : Window s w o) (hi : i ≤ w.size) {b : UInt8} (hb : b ≠ Byte.semicolon) :
    s.codeByte? (o + i) = some b ↔ w.codeByte? i = some b := by
  rw [codeByte?_eq_some, codeByte?_eq_some]
  rcases Nat.eq_or_lt_of_le hi with rfl | hi
  · rw [getElem?_size]
    rcases h.behind with hs | hs
    · rw [hs]
    · rw [hs]
      simp [Ne.symm hb]
  · rw [h.cells i hi]

/-- The bytes of a part are those of the whole text. -/
theorem byte? (h : Window s w o) (hi : i < w.size) : s.byte? (o + i) = w.byte? i := by
  rw [Source.byte?, Source.byte?, h.cells i hi]

/-- Bytes other than a semicolon are the same, also right behind the part. -/
theorem byte?_eq_some (h : Window s w o) (hi : i ≤ w.size) {b : UInt8} (hb : b ≠ Byte.semicolon) :
    s.byte? (o + i) = some b ↔ w.byte? i = some b := by
  rcases Nat.eq_or_lt_of_le hi with rfl | hi
  · rw [Source.byte?, Source.byte?, getElem?_size]
    rcases h.behind with hs | hs
    · rw [hs]
    · rw [hs]
      simp [Ne.symm hb]
  · rw [h.byte? hi]

/-- Trivia is the same, also right behind the part: neither a semicolon nor the end is trivia. -/
theorem isTrivia (h : Window s w o) (hi : i ≤ w.size) : s.isTrivia (o + i) = w.isTrivia i := by
  rcases Nat.eq_or_lt_of_le hi with rfl | hi
  · rw [isTrivia_of_size_le (Nat.le_refl _), Source.isTrivia]
    rcases h.behind with hs | hs
    · rw [hs]
    · rw [hs]
      rfl
  · rw [Source.isTrivia, Source.isTrivia, h.cells i hi]

/-- Word bytes are the same, also right behind the part: neither a semicolon nor the end is in a
word. -/
theorem inWord (h : Window s w o) (hi : i ≤ w.size) : s.inWord (o + i) = w.inWord i := by
  rcases Nat.eq_or_lt_of_le hi with rfl | hi
  · rw [inWord_of_size_le (Nat.le_refl _), Source.inWord, Source.codeByte?]
    rcases h.behind with hs | hs
    · rw [hs]
      rfl
    · rw [hs]
      rfl
  · rw [Source.inWord, Source.inWord, Source.codeByte?, Source.codeByte?, h.cells i hi]

/-- The cells between two positions of a part. -/
theorem slice (h : Window s w o) {j : Nat} (hj : j ≤ w.size) :
    s.slice (o + i) (o + j) = w.slice i j := by
  apply List.ext_getElem?
  intro k
  rcases Nat.lt_or_ge (i + k) j with hk | hk
  · rw [getElem?_slice s (by omega), getElem?_slice w hk, Nat.add_assoc, h.cells _ (by omega)]
  · rw [List.getElem?_eq_none, List.getElem?_eq_none]
    · rw [Source.slice, List.length_take]
      omega
    · rw [Source.slice, List.length_take]
      omega

/-- The bytes of a span of a part. -/
theorem bytes (h : Window s w o) {x : Span} (hx : x.stop ≤ w.size) :
    s.bytes (x.shift o) = w.bytes x := by
  rw [bytes_eq, bytes_eq, Span.shift, h.slice hx]

/-! ## Walks -/

/-- A walk forward that stops behind the part at the latest. -/
theorem forward (h : Window s w o) {p q : Nat → Bool} (hpq : ∀ k ≤ w.size, p (o + k) = q k)
    (hq : q w.size = false) (hi : i ≤ w.size) :
    forward p (s.size - (o + i)) (o + i) = o + forward q (w.size - i) i := by
  have hsize := h.size_le
  obtain ⟨h1, h2, h3, h4⟩ := forward_spec q (w.size - i) i
  refine forward_eq (by omega) (by omega) (fun k hk hk' => ?_) fun _ => ?_
  · have := h3 (k - o) (by omega) (by omega)
    rw [← hpq _ (by omega), Nat.add_sub_cancel' (by omega)] at this
    exact this
  · rw [hpq _ (by omega)]
    rcases Nat.lt_or_ge (Source.forward q (w.size - i) i) w.size with hlt | hge
    · exact h4 (by omega)
    · rw [show Source.forward q (w.size - i) i = w.size by omega]
      exact hq

/-- A walk back that stays in the part. -/
theorem backward {p q : Nat → Bool} (hpq : ∀ k < i, p (o + k) = q k) {n : Nat} (hn : n ≤ i) :
    backward p n (o + i) = o + backward q n i := by
  induction n generalizing i with
  | zero => rfl
  | succ n ih =>
    rw [Source.backward, Source.backward, show o + i - 1 = o + (i - 1) by omega,
      hpq (i - 1) (by omega)]
    split
    · exact ih (fun k hk => hpq k (by omega)) (by omega)
    · rfl

/-- Trivia is skipped up to the same position, which is not behind the semicolon. -/
theorem skipTrivia (h : Window s w o) (hi : i ≤ w.size) :
    s.skipTrivia (o + i) = o + w.skipTrivia i :=
  h.forward (fun _ hk => h.isTrivia hk) (isTrivia_of_size_le (Nat.le_refl _)) hi

/-- Trivia is taken off a span of a part. -/
theorem trimTrivia (h : Window s w o) {a : Nat} (hi : i ≤ w.size) :
    s.trimTrivia (o + a) (o + i) = o + w.trimTrivia a i := by
  rw [Source.trimTrivia, Source.trimTrivia, show o + i - (o + a) = i - a by omega]
  exact backward (fun k hk => h.isTrivia (by omega)) (Nat.sub_le _ _)

/-- A walk back that stops where the part begins: before the newline there is a semicolon. -/
theorem trimTrivia_zero (h : Window s w o) (hi : i ≤ w.size) :
    s.trimTrivia 0 (o + i) = if w.trimTrivia 0 i = 0 then o - 1 else o + w.trimTrivia 0 i := by
  obtain ⟨-, h2, h3, h4⟩ := trimTrivia_spec w (Nat.zero_le i)
  rw [Source.trimTrivia, Nat.sub_zero]
  split
  · next hz =>
    rw [hz] at h3
    refine backward_eq (Nat.le_refl _) (by omega) (by omega) (fun k hk hk' => ?_) fun hlt => ?_
    · rcases Nat.lt_or_ge k o with hko | hko
      · rcases h.before with rfl | ⟨ho, -, hn⟩
        · omega
        · rw [show k = o - 1 by omega, Source.isTrivia, hn]
          rfl
      · have := h3 (k - o) (by omega) (by omega)
        rw [← h.isTrivia (by omega), Nat.add_sub_cancel' hko] at this
        exact this
    · rcases h.before with rfl | ⟨ho, hs, -⟩
      · omega
      · rw [show o - 1 - 1 = o - 2 by omega, Source.isTrivia, hs]
        rfl
  · next hz =>
    refine backward_eq (Nat.le_refl _) (by omega) (by omega) (fun k hk hk' => ?_) fun _ => ?_
    · have := h3 (k - o) (by omega) (by omega)
      rw [← h.isTrivia (by omega), Nat.add_sub_cancel' (by omega)] at this
      exact this
    · have := h4 (by omega)
      rw [← h.isTrivia (by omega)] at this
      rwa [show o + w.trimTrivia 0 i - 1 = o + (w.trimTrivia 0 i - 1) by omega]

/-! ## Words and keys -/

/-- The word that begins at a position. A part does not begin inside a word, since a newline comes
before it, and no word reaches out of it. -/
theorem word? (h : Window s w o) (hi : i ≤ w.size) :
    s.word? (o + i) = (w.word? i).map (Span.shift o) := by
  have hbefore : (o + i != 0 && s.inWord (o + i - 1)) = (i != 0 && w.inWord (i - 1)) := by
    cases i with
    | zero =>
      rcases h.before with rfl | ⟨ho, -, hn⟩
      · rfl
      · have : s.inWord (o - 1) = false := by
          rw [Source.inWord, Source.codeByte?, hn]
          rfl
        simp [this]
    | succ i =>
      rw [show o + (i + 1) - 1 = o + i by omega, h.inWord (by omega)]
      simp
  rw [Source.word?, Source.word?, h.inWord hi, hbefore]
  split
  · rw [Option.map_some, Span.shift, h.forward (fun _ hk => h.inWord hk)
      (inWord_of_size_le (Nat.le_refl _)) hi]
  · rfl

/-- A spelling that stays in the part. -/
theorem spellsAt_inside (h : Window s w o) {u : Text} (hu : i + u.length ≤ w.size) :
    s.spellsAt (o + i) u = w.spellsAt i u := by
  induction u generalizing i with
  | nil => rfl
  | cons b u ih =>
    rw [List.length_cons] at hu
    rw [spellsAt, spellsAt, h.byte? (by omega), Nat.add_assoc, ih (by omega)]

/-- A spelling without a semicolon does not reach out of the part. -/
theorem spellsAt (h : Window s w o) {u : Text} (hi : i ≤ w.size) (hu : Byte.semicolon ∉ u) :
    s.spellsAt (o + i) u = w.spellsAt i u := by
  induction u generalizing i with
  | nil => rfl
  | cons b u ih =>
    have hb : b ≠ Byte.semicolon := fun hb => hu (by simp [hb])
    have hbyte : (s.byte? (o + i) == some b) = (w.byte? i == some b) := by
      rw [Bool.eq_iff_iff, beq_iff_eq, beq_iff_eq, h.byte?_eq_some hi hb]
    rw [Source.spellsAt, Source.spellsAt, hbyte]
    rcases Nat.eq_or_lt_of_le hi with rfl | hi
    · rw [Source.byte?, getElem?_size]
      rfl
    · rw [Nat.add_assoc, ih (by omega) fun hm => hu (by simp [hm])]

/-- A spelling of a span, if it has no semicolon. -/
theorem spells (h : Window s w o) {x : Span} {u : Text} (hx : x.start ≤ w.size)
    (hu : Byte.semicolon ∉ u) : s.spells (x.shift o) u = w.spells x u := by
  rw [Source.spells, Source.spells, Span.shift]
  dsimp only
  rw [h.spellsAt hx hu, show o + x.stop - (o + x.start) = x.stop - x.start by omega]

/-- The test for a given word, if it has no semicolon. -/
theorem isWord (h : Window s w o) {u : Text} (hi : i ≤ w.size) (hu : Byte.semicolon ∉ u) :
    s.isWord (o + i) u = w.isWord i u := by
  rw [Source.isWord, Source.isWord, h.word? hi]
  cases hw : w.word? i with
  | none => rfl
  | some x =>
    obtain ⟨rfl, -⟩ := word?_eq_some.1 hw
    exact h.spells hi hu

/-- The key whose word begins at a position. A semicolon is no colon, so the colon of a key in a
part is in the part. -/
theorem key? (h : Window s w o) (hi : i ≤ w.size) :
    s.key? (o + i) = (w.key? i).map (Key.shift o) := by
  rw [Source.key?, Source.key?, h.word? hi]
  cases hw : w.word? i with
  | none => rfl
  | some x =>
    obtain ⟨-, hx⟩ := word?_eq_some.1 hw
    have hstop := hx.stop_le
    have hcolon := skipTrivia_le_size hstop
    simp only [Option.map_some, Option.bind_eq_bind, Option.bind_some, ↓guard_bind]
    rw [show (x.shift o).stop = o + x.stop from rfl, h.skipTrivia hstop]
    have hc := h.codeByte? hcolon (b := Byte.colon) (by decide)
    simp only [hc]
    by_cases hcw : w.codeByte? (w.skipTrivia x.stop) = some Byte.colon
    · have hlt := lt_size_of_codeByte? hcw
      have hd := h.codeByte? hlt (b := Byte.colon) (by decide)
      rw [Nat.add_assoc, h.skipTrivia hlt]
      by_cases hdw : w.codeByte? (w.skipTrivia x.stop + 1) = some Byte.colon
      · simp [hd, hdw]
      · simp [hcw, hd, hdw, Key.shift]
    · simp [hcw]

/-- The test for a key of a given name, if the name has no semicolon. -/
theorem isKey (h : Window s w o) {u : Text} (hi : i ≤ w.size) (hu : Byte.semicolon ∉ u) :
    s.isKey (o + i) u = w.isKey i u := by
  rw [Source.isKey, Source.isKey, h.key? hi]
  cases hk : w.key? i with
  | none => rfl
  | some key =>
    obtain ⟨rfl, -⟩ := key?_eq_some.1 hk
    exact h.spells hi hu

/-! ## Braces -/

/-- The search for a closing brace inside a part. -/
theorem closingFrom (h : Window s w o) {n depth : Nat} (hn : i + n ≤ w.size) :
    s.closingFrom n (o + i) depth = (w.closingFrom n i depth).map (o + ·) := by
  refine closingFrom_shift fun k _ hk b hb => h.codeByte? (by omega) ?_
  rcases hb with rfl | rfl <;> decide

/-- The closing brace of a part. If there is none in the part, then there is none behind it: the
part reaches to the end of the text, or has no brace left open. -/
theorem closing? (h : Window s w o) (hi : i ≤ w.size) :
    s.closing? (o + i) = (w.closing? i).map (o + ·) := by
  have hsize := h.size_le
  have hb := h.codeByte? hi (b := Byte.openBrace) (by decide)
  have hclosed := h.closed
  rw [Source.closing?, Source.closing?]
  simp only [hb]
  split
  · next ho =>
    have hlt := lt_size_of_codeByte? ho
    have hw : s.closingFrom (w.size - (i + 1)) (o + (i + 1)) 0 =
        (w.closingFrom (w.size - (i + 1)) (i + 1) 0).map (o + ·) := h.closingFrom (by omega)
    cases hc : w.closingFrom (w.size - (i + 1)) (i + 1) 0 with
    | some c =>
      rw [hc] at hw
      have hlast := closingFrom_spec hw
      exact closingFrom_steps hw (by omega)
    | none =>
      rcases hclosed with he | hcl
      · rw [hc] at hw
        rw [show s.size - (o + i + 1) = w.size - (i + 1) by omega]
        exact hw
      · have := hcl i ho
        rw [Source.closing?, if_pos ho, hc] at this
        cases this
  · rfl

/-- The search for the enclosing brace, from any depth. Where it gets out of the part it finds
nothing, since no brace is open there. -/
theorem enclosingBelow (h : Window s w o) (hi : i ≤ w.size) (depth : Nat) :
    s.enclosingBelow (o + i) depth = (w.enclosingBelow i depth).map (o + ·) := by
  induction i generalizing depth with
  | zero => exact h.outside depth
  | succ i ih =>
    have h1 := h.codeByte? (i := i) (by omega) (b := Byte.openBrace) (by decide)
    have h2 := h.codeByte? (i := i) (by omega) (b := Byte.closeBrace) (by decide)
    have ih' := ih (by omega)
    rw [← Nat.add_assoc]
    unfold Source.enclosingBelow
    simp only [h1, h2, ih']
    split
    · rfl
    split
    · cases depth <;> rfl
    · rfl

/-- The enclosing brace of a position is in the part, if there is one. -/
theorem enclosing? (h : Window s w o) (hi : i ≤ w.size) :
    s.enclosing? (o + i) = (w.enclosing? i).map (o + ·) := by
  have hsize := h.size_le
  rw [Source.enclosing?, Source.enclosing?, Nat.min_eq_left (by omega), Nat.min_eq_left hi]
  exact h.enclosingBelow hi 0

/-! ## Entries -/

/-- The test for a configuration at a brace. -/
theorem opensConfiguration (h : Window s w o) (hi : i < w.size) :
    s.opensConfiguration (o + i) = w.opensConfiguration i := by
  rw [Source.opensConfiguration, Source.opensConfiguration, Nat.add_assoc, h.skipTrivia hi]
  exact h.isKey (skipTrivia_le_size hi) (by decide)

/-- A flat entry that begins at a position. -/
theorem flatEntry? (h : Window s w o) (hi : i ≤ w.size) :
    s.flatEntry? (o + i) = (w.flatEntry? i).map (FlatEntry.shift o) := by
  rw [Source.flatEntry?, Source.flatEntry?, h.key? hi]
  cases hk : w.key? i with
  | none => rfl
  | some key =>
    obtain ⟨rfl, colon, hkey⟩ := key?_eq_some.1 hk
    have hvalue := hkey.value_le_size
    simp only [Option.map_some, Option.bind_eq_bind, Option.bind_some, ↓guard_bind]
    rw [show (key.shift o).name = key.name.shift o from rfl, h.spells hi (by decide),
      show (key.shift o).value = o + key.value from rfl, h.closing? hvalue]
    cases hc : w.closing? key.value with
    | none => split <;> rfl
    | some c =>
      have hlt := lt_size_of_codeByte? (closing?_spec hc).1
      simp only [Option.map_some, Option.bind_some, h.opensConfiguration hlt]
      split
      · split <;> rfl
      · rfl

/-- The last code byte before a position, if it is no semicolon. Before the first code byte of a
part comes the semicolon before the part, or nothing. -/
theorem precedingCode? (h : Window s w o) (hi : i ≤ w.size) {b : UInt8} (hb : b ≠ Byte.semicolon) :
    s.precedingCode? (o + i) = some b ↔ w.precedingCode? i = some b := by
  obtain ⟨-, h2, -⟩ := trimTrivia_spec w (Nat.zero_le i)
  unfold Source.precedingCode?
  rw [h.trimTrivia_zero hi]
  cases hj : w.trimTrivia 0 i with
  | zero =>
    rw [if_pos rfl]
    rcases h.before with rfl | ⟨ho, hs, -⟩
    · rfl
    · rw [show o - 1 = o - 2 + 1 by omega]
      dsimp only
      rw [codeByte?_eq_some, hs]
      simp [Ne.symm hb]
  | succ j =>
    rw [if_neg (by omega), ← Nat.add_assoc]
    exact h.codeByte? (by omega) hb

/-- The run of word bytes before a position does not reach out of the part. -/
theorem backward_inWord (h : Window s w o) (hi : i ≤ w.size) :
    Source.backward s.inWord (o + i) (o + i) = o + Source.backward w.inWord i i := by
  obtain ⟨-, h2, h3, h4⟩ := backward_spec w.inWord (Nat.le_refl i)
  refine backward_eq (Nat.le_refl _) (by omega) (by omega) (fun k hk hk' => ?_) fun _ => ?_
  · have := h3 (k - o) (by omega) (by omega)
    rw [← h.inWord (by omega), Nat.add_sub_cancel' (by omega)] at this
    exact this
  · cases hj : Source.backward w.inWord i i with
    | zero =>
      rcases h.before with rfl | ⟨ho, -, hn⟩
      · omega
      · rw [Nat.add_zero, Source.inWord, Source.codeByte?, hn]
        rfl
    | succ j =>
      rw [hj, Nat.sub_self] at h4
      have := h4 (by omega)
      rw [← Nat.add_assoc, Nat.add_sub_cancel, h.inWord (by omega)]
      exact this

/-- The key before a position. What comes before the part ends with a semicolon, which is no colon,
and no word reaches over it. -/
theorem keyBefore? (h : Window s w o) (hi : i ≤ w.size) :
    s.keyBefore? (o + i) = (w.keyBefore? i).map (Span.shift o) := by
  obtain ⟨-, h2, -⟩ := trimTrivia_spec w (Nat.zero_le i)
  unfold Source.keyBefore?
  rw [h.trimTrivia_zero hi]
  cases hj : w.trimTrivia 0 i with
  | zero =>
    rw [if_pos rfl]
    rcases h.before with rfl | ⟨ho, hs, -⟩
    · rfl
    · rw [show o - 1 = o - 2 + 1 by omega]
      dsimp only
      rw [if_neg (by rw [codeByte?_eq_some, hs]; decide)]
      rfl
  | succ colon =>
    have hcolon : colon ≤ w.size := by omega
    obtain ⟨-, h5, -⟩ := trimTrivia_spec w (Nat.zero_le colon)
    rw [if_neg (by omega), ← Nat.add_assoc]
    dsimp only
    simp only [h.codeByte? hcolon (b := Byte.colon) (by decide)]
    split
    · rw [h.trimTrivia_zero hcolon]
      split
      · next hz =>
        -- Nothing but trivia comes before the colon in the part.
        have hstop : Source.backward s.inWord (o - 1) (o - 1) = o - 1 := by
          refine backward_eq (Nat.le_refl _) (Nat.le_refl _) (by omega)
            (fun k h1 h2 => absurd h1 (by omega)) fun hlt => ?_
          rcases h.before with rfl | ⟨ho, hs, -⟩
          · omega
          · rw [show o - 1 - 1 = o - 2 by omega, Source.inWord, Source.codeByte?, hs]
            rfl
        rw [hz, hstop, if_neg (Nat.lt_irrefl _), if_neg (by simp)]
        rfl
      · next hz =>
        rw [h.backward_inWord (by omega)]
        by_cases hlt : Source.backward w.inWord (w.trimTrivia 0 colon) (w.trimTrivia 0 colon) <
            w.trimTrivia 0 colon
        · rw [if_pos hlt, if_pos (by omega)]
          rfl
        · rw [if_neg hlt, if_neg (by omega)]
          rfl
    · rfl

/-- The test whether a position is in a configuration. -/
theorem inConfiguration (h : Window s w o) (hi : i ≤ w.size) :
    s.inConfiguration (o + i) = w.inConfiguration i := by
  rw [Source.inConfiguration, Source.inConfiguration, h.enclosing? hi]
  cases hb : w.enclosing? i with
  | none => rfl
  | some brace =>
    have hlt : brace < w.size := by
      rw [Source.enclosing?] at hb
      exact lt_size_of_codeByte? (enclosingBelow_spec hb).2
    simp only [Option.map_some, Option.any_some]
    rw [h.opensConfiguration hlt, h.keyBefore? (Nat.le_of_lt hlt)]
    cases hk : w.keyBefore? brace with
    | none => rfl
    | some name =>
      obtain ⟨h1, h2⟩ := keyBefore?_spec hk
      rw [Option.map_some, Option.any_some, Option.any_some, h.spells (by omega) (by decide)]

/-- The test for an assertion. The byte behind the exclamation mark is in the part or right behind
it. -/
theorem isAsserted (h : Window s w o) (hi : i ≤ w.size) :
    s.isAsserted (o + i) = w.isAsserted i := by
  rw [Bool.eq_iff_iff]
  simp only [Source.isAsserted, Bool.and_eq_true, beq_iff_eq, bne_iff_ne, ne_eq,
    h.codeByte? hi (b := Byte.bang) (by decide)]
  refine and_congr_right fun hb => ?_
  have := lt_size_of_codeByte? hb
  rw [Nat.add_assoc, h.codeByte? this (by decide)]

/-- An entry read from the environment. None of the texts it is compared with has a semicolon. -/
theorem envEntry? (h : Window s w o) (hi : i ≤ w.size) :
    s.envEntry? (o + i) = (w.envEntry? i).map (EnvEntry.shift o) := by
  rw [Source.envEntry?, Source.envEntry?, h.key? hi]
  cases hk : w.key? i with
  | none => rfl
  | some key =>
    obtain ⟨rfl, colon, hkey⟩ := key?_eq_some.1 hk
    have hvalue := hkey.value_le_size
    have hq := h.precedingCode? hi (b := Byte.question) (by decide)
    simp only [Option.map_some, Option.bind_eq_bind, Option.bind_some, ↓guard_bind, Key.shift,
      h.bytes hkey.word.stop_le, h.spells hi (show Byte.semicolon ∉ nestedKey by decide),
      h.isWord hvalue (show Byte.semicolon ∉ Text.ofString "process" by decide),
      h.spellsAt hvalue (show Byte.semicolon ∉ environment by decide), ne_eq, hq,
      h.inConfiguration hi]
    split
    case isFalse => rfl
    split
    case isFalse => rfl
    split
    case isFalse => rfl
    next hp =>
    rw [Bool.and_eq_true] at hp
    rw [Nat.add_assoc, h.word? (le_size_of_spellsAt hp.2 (by decide))]
    cases hv : w.word? (key.value + environment.length) with
    | none => rfl
    | some var =>
      obtain ⟨-, hvar⟩ := word?_eq_some.1 hv
      simp only [Option.map_some, Option.bind_some]
      split
      case isFalse => rfl
      rw [show (var.shift o).stop = o + var.stop from rfl, h.isAsserted hvar.stop_le]
      simp only [Option.pure_def, Option.map_some, EnvEntry.shift]
      split <;> rfl

/-! ## Objects -/

/-- The change of depth at a position. -/
theorem depthStep (h : Window s w o) (hi : i < w.size) :
    s.depthStep (o + i) = w.depthStep i := by
  rw [Source.depthStep, Source.depthStep, Source.codeByte?, Source.codeByte?, h.cells i hi]

/-- The segments from a position on, with the segment that is open there. -/
theorem segmentsFrom (h : Window s w o) {n start : Nat} {depth : Int} (hn : i + n ≤ w.size) :
    s.segmentsFrom n (o + i) (o + start) depth =
      (w.segmentsFrom n i start depth).map (Span.shift o) := by
  induction n generalizing i start depth with
  | zero => rfl
  | succ n ih =>
    have hc := h.codeByte? (i := i) (by omega) (b := Byte.comma) (by decide)
    rw [Source.segmentsFrom, Source.segmentsFrom]
    simp only [hc]
    split
    · rw [List.map_cons, Nat.add_assoc, ih (by omega)]
      rfl
    · rw [Nat.add_assoc, ih (by omega), h.depthStep (by omega)]

/-- The segments of a body. -/
theorem segments (h : Window s w o) {start stop : Nat} (hs : stop ≤ w.size) :
    s.segments (o + start) (o + stop) = (w.segments start stop).map (Span.shift o) := by
  rw [Source.segments, Source.segments]
  by_cases hle : start ≤ stop
  · rw [if_pos hle, if_pos (by omega), show o + stop - (o + start) = stop - start by omega]
    exact h.segmentsFrom (by omega)
  · rw [if_neg hle, if_neg (by omega)]
    rfl

/-- The length of the white-space character at a position, which must end in the body. -/
theorem blankAt (h : Window s w o) {stop : Nat} (hs : stop ≤ w.size) :
    s.blankAt (o + i) (o + stop) = w.blankAt i stop := by
  have hp : (fun form : Text =>
      decide (o + i + form.length ≤ o + stop) && s.spellsAt (o + i) form) =
      fun form => decide (i + form.length ≤ stop) && w.spellsAt i form := by
    funext form
    by_cases hl : i + form.length ≤ stop
    · rw [h.spellsAt_inside (by omega), decide_eq_true hl, decide_eq_true (by omega)]
    · rw [decide_eq_false hl, decide_eq_false (by omega)]
      rfl
  rw [Source.blankAt, Source.blankAt, hp]

/-- The length of the white-space character before a position, which must begin in the body. -/
theorem blankBefore (h : Window s w o) {start : Nat} (hi : i ≤ w.size) :
    s.blankBefore (o + start) (o + i) = w.blankBefore start i := by
  have hp : (fun form : Text => decide (o + start + form.length ≤ o + i) &&
      s.spellsAt (o + i - form.length) form) =
      fun form => decide (start + form.length ≤ i) && w.spellsAt (i - form.length) form := by
    funext form
    by_cases hl : start + form.length ≤ i
    · rw [show o + i - form.length = o + (i - form.length) by omega, h.spellsAt_inside (by omega),
        decide_eq_true hl, decide_eq_true (by omega)]
    · rw [decide_eq_false hl, decide_eq_false (by omega)]
      rfl
  rw [Source.blankBefore, Source.blankBefore, hp]

/-- White space at the start of a segment, over any number of characters. -/
theorem trimBlankStart (h : Window s w o) {stop n : Nat} (hs : stop ≤ w.size) :
    s.trimBlankStart (o + stop) n (o + i) = o + w.trimBlankStart stop n i := by
  induction n generalizing i with
  | zero => rfl
  | succ n ih =>
    rw [Source.trimBlankStart, Source.trimBlankStart, h.blankAt hs]
    split
    · rfl
    · rw [Nat.add_assoc, ih]

/-- White space at the end of a segment, over any number of characters. -/
theorem trimBlankStop (h : Window s w o) {start n : Nat} (hi : i ≤ w.size) :
    s.trimBlankStop (o + start) n (o + i) = o + w.trimBlankStop start n i := by
  induction n generalizing i with
  | zero => rfl
  | succ n ih =>
    rw [Source.trimBlankStop, Source.trimBlankStop, h.blankBefore hi]
    split
    · rfl
    · next v hv =>
      have := (blankBefore_spec start hi (by omega)).1
      rw [show o + i - (v + 1) = o + (i - (v + 1)) by omega, ih (by omega)]

/-- A segment without the white space at its ends, or nothing if there is no more to it. -/
theorem trimBlank? (h : Window s w o) {x : Span} (hx : x.stop ≤ w.size) :
    s.trimBlank? (x.shift o) = (w.trimBlank? x).map (Span.shift o) := by
  have h1 := h.trimBlankStart (i := x.start) (n := x.stop - x.start) hx
  rw [Source.trimBlank?, Source.trimBlank?, Span.shift]
  dsimp only
  rw [show o + x.stop - (o + x.start) = x.stop - x.start by omega, h1]
  generalize w.trimBlankStart x.stop (x.stop - x.start) x.start = a
  rw [show o + x.stop - (o + a) = x.stop - a by omega, h.trimBlankStop hx]
  by_cases hlt : a < w.trimBlankStop a (x.stop - a) x.stop
  · rw [if_pos hlt, if_pos (by omega)]
    rfl
  · rw [if_neg hlt, if_neg (by omega)]
    rfl

/-- The entries of a body. -/
theorem entries (h : Window s w o) {start stop : Nat} (hss : start ≤ stop) (hs : stop ≤ w.size) :
    s.entries (o + start) (o + stop) = (w.entries start stop).map (Span.shift o) := by
  have hx := (segments_divides (s := w) hss).bounds
  rw [Source.entries, Source.entries, h.segments hs]
  generalize w.segments start stop = xs at hx
  induction xs with
  | nil => rfl
  | cons x xs ih =>
    have ih := ih fun y hy => hx y (by simp [hy])
    have hstop := (hx x (by simp)).2
    rw [List.map_cons, List.filterMap_cons, List.filterMap_cons, h.trimBlank? (by omega), ih]
    cases w.trimBlank? x <;> rfl

/-- The flat entry that makes up an entry of a body. -/
theorem flatIn? (h : Window s w o) {x : Span} (hx : x.start ≤ x.stop) (hs : x.stop ≤ w.size) :
    s.flatIn? (x.shift o) = (w.flatIn? x).map (FlatEntry.shift o) := by
  have hstart : x.start ≤ w.size := by omega
  rw [Source.flatIn?, Source.flatIn?, Span.shift]
  dsimp only
  rw [h.skipTrivia hstart, h.flatEntry? (skipTrivia_le_size hstart), h.trimTrivia hs]
  cases w.flatEntry? (w.skipTrivia x.start) with
  | none => rfl
  | some e =>
    rw [Option.map_some, Option.filter_some, Option.filter_some]
    have : ((e.shift o).span.stop == o + w.trimTrivia x.start x.stop) =
        (e.span.stop == w.trimTrivia x.start x.stop) := by
      rw [Bool.eq_iff_iff, beq_iff_eq, beq_iff_eq]
      simp only [FlatEntry.shift, FlatEntry.span, Span.shift]
      omega
    rw [this]
    split <;> rfl

/-- The flat entries of an object. -/
theorem flatEntriesOf (h : Window s w o) {b : Braces} (hb : b.opening < b.closing)
    (hs : b.closing ≤ w.size) :
    s.flatEntriesOf (b.shift o) = (w.flatEntriesOf b).map (FlatEntry.shift o) := by
  have hx : ∀ x ∈ w.entries (b.opening + 1) b.closing, x.start < x.stop ∧ x.stop ≤ b.closing :=
    fun x hx => mem_entries hx hb hs
  have he : s.entries (o + (b.opening + 1)) (o + b.closing) = _ := h.entries hb hs
  rw [← Nat.add_assoc] at he
  rw [Source.flatEntriesOf, Source.flatEntriesOf, Braces.shift, he]
  generalize w.entries (b.opening + 1) b.closing = xs at hx
  induction xs with
  | nil => rfl
  | cons x xs ih =>
    have ih := ih fun y hy => hx y (by simp [hy])
    obtain ⟨h1, h2⟩ := hx x (by simp)
    rw [List.map_cons, List.filterMap_cons, List.filterMap_cons,
      h.flatIn? (Nat.le_of_lt h1) (by omega), ih]
    cases w.flatIn? x <;> rfl

/-! ## What the passes look for -/

/-- The braces of the object at a position. -/
theorem braces? (h : Window s w o) (hi : i ≤ w.size) :
    s.braces? (o + i) = (w.braces? i).map (Braces.shift o) := by
  rw [Source.braces?, Source.braces?, h.closing? hi]
  cases w.closing? i <;> rfl

/-- The braces of a providers block at a position. -/
theorem block? (h : Window s w o) (hi : i ≤ w.size) :
    s.block? (o + i) = (w.block? i).map (Braces.shift o) := by
  simp only [Source.block?, Option.bind_eq_bind, ↓guard_bind, h.isWord hi
    (show Byte.semicolon ∉ providersKey by decide), h.key? hi]
  split
  case isFalse => rfl
  cases hk : w.key? i with
  | none => rfl
  | some key =>
    obtain ⟨-, colon, hkey⟩ := key?_eq_some.1 hk
    exact h.braces? hkey.value_le_size

/-- A word inside the text is as long as it is spelled. -/
theorem le_size_of_isWord {u : Text} (hu : w.isWord i u = true) : i + u.length ≤ w.size := by
  obtain ⟨x, rfl, hx, rfl⟩ := isWord_iff.1 hu
  have := hx.lt
  rw [length_bytes (Nat.le_of_lt hx.lt) hx.stop_le]
  have := hx.stop_le
  omega

/-- The braces of a returned object at a position. -/
theorem returned? (h : Window s w o) (hi : i ≤ w.size) :
    s.returned? (o + i) = (w.returned? i).map (Braces.shift o) := by
  simp only [Source.returned?, ↓guard_bind, h.isWord hi
    (show Byte.semicolon ∉ Text.ofString "return" by decide)]
  split
  case isFalse => rfl
  next hw =>
  have hle : i + 6 ≤ w.size := le_size_of_isWord hw
  rw [Nat.add_assoc, h.skipTrivia hle]
  exact h.braces? (skipTrivia_le_size hle)

/-- The position behind a type annotation. -/
theorem afterAnnotation? (h : Window s w o) (hi : i ≤ w.size) :
    s.afterAnnotation? (o + i) = (w.afterAnnotation? i).map (o + ·) := by
  simp only [Source.afterAnnotation?, h.codeByte? hi (show Byte.colon ≠ Byte.semicolon by decide)]
  split
  case isFalse => rfl
  next hc =>
  have hlt := lt_size_of_codeByte? hc
  rw [Nat.add_assoc, h.skipTrivia hlt, h.word? (skipTrivia_le_size hlt)]
  cases hw : w.word? (w.skipTrivia (i + 1)) with
  | none => rfl
  | some type =>
    obtain ⟨-, ht⟩ := word?_eq_some.1 hw
    exact congrArg some (h.skipTrivia ht.stop_le)

/-- A type annotation ends inside the text. -/
theorem afterAnnotation?_le {j : Nat} (hi : i ≤ w.size) (hj : w.afterAnnotation? i = some j) :
    j ≤ w.size := by
  unfold Source.afterAnnotation? at hj
  split at hj
  · obtain ⟨type, ht, rfl⟩ := Option.map_eq_some_iff.1 hj
    exact skipTrivia_le_size (word?_eq_some.1 ht).2.stop_le
  · cases hj
    exact hi

/-- The braces of a declared object at a position. -/
theorem declared? (h : Window s w o) (hi : i ≤ w.size) :
    s.declared? (o + i) = (w.declared? i).map (Braces.shift o) := by
  simp only [Source.declared?, Option.bind_eq_bind, ↓guard_bind, h.isWord hi
    (show Byte.semicolon ∉ Text.ofString "const" by decide)]
  split
  case isFalse => rfl
  next hw =>
  have hle : i + 5 ≤ w.size := le_size_of_isWord hw
  rw [Nat.add_assoc, h.skipTrivia hle, h.word? (skipTrivia_le_size hle)]
  cases hn : w.word? (w.skipTrivia (i + 5)) with
  | none => rfl
  | some name =>
    obtain ⟨-, hname⟩ := word?_eq_some.1 hn
    have hstop := skipTrivia_le_size hname.stop_le
    simp only [Option.map_some, Option.bind_some]
    rw [show (name.shift o).stop = o + name.stop from rfl, h.skipTrivia hname.stop_le,
      h.afterAnnotation? hstop]
    cases he : w.afterAnnotation? (w.skipTrivia name.stop) with
    | none => rfl
    | some equals =>
      have hequals := afterAnnotation?_le hstop he
      simp only [Option.map_some, Option.bind_some,
        h.codeByte? hequals (show Byte.equals ≠ Byte.semicolon by decide)]
      split
      case isFalse => rfl
      next hc =>
      have hlt := lt_size_of_codeByte? hc
      rw [Nat.add_assoc]
      simp only [ne_eq, h.codeByte? hlt (show Byte.equals ≠ Byte.semicolon by decide),
        h.codeByte? hlt (show Byte.greater ≠ Byte.semicolon by decide), h.skipTrivia hlt,
        h.braces? (skipTrivia_le_size hlt)]
      split
      case isFalse => rfl
      split <;> rfl

/-- The hit of an object between closed braces. -/
theorem objectHit? (h : Window s w o) {b : Braces} (hb : w.closing? b.opening = some b.closing) :
    s.objectHit? (o + i) (b.shift o) = (w.objectHit? i b).map (shiftFind o) := by
  obtain ⟨-, h1, h2⟩ := closing?_spec hb
  have hsize := lt_size_of_codeByte? h2
  rw [Source.objectHit?, Source.objectHit?, h.flatEntriesOf h1 (Nat.le_of_lt hsize),
    List.isEmpty_map]
  split <;> rfl

/-- A sweep over the part. -/
theorem sweep {α : Type} {f : α → α} {find find' : Nat → Option (List α × Nat)} {n resume : Nat}
    (hf : ∀ k, i ≤ k → k < i + n →
      find' (o + k) = (find k).map fun x => (x.1.map f, o + x.2)) :
    sweep find' n (o + i) (o + resume) = (sweep find n i resume).map f := by
  induction n generalizing i resume with
  | zero => rfl
  | succ n ih =>
    have ih' (resume : Nat) : ProviderNest.sweep find' n (o + i + 1) (o + resume) =
        (ProviderNest.sweep find n (i + 1) resume).map f :=
      ih (i := i + 1) fun k h1 h2 => hf k (by omega) (by omega)
    rw [ProviderNest.sweep, ProviderNest.sweep, hf i (Nat.le_refl _) (by omega)]
    by_cases hlt : i < resume
    · rw [if_pos hlt, if_pos (by omega), ih']
    · rw [if_neg hlt, if_neg (by omega)]
      cases hfind : find i with
      | none => exact ih' resume
      | some x =>
        simp only [Option.map_some, List.map_append, ih']

/-- The hits of the providers blocks between two positions. -/
theorem blockHits (h : Window s w o) {start stop : Nat} (hss : start ≤ stop) (hs : stop ≤ w.size) :
    s.blockHits (o + start) (o + stop) = (w.blockHits start stop).map (Hit.shift o) := by
  rw [Source.blockHits, Source.blockHits, show o + stop - (o + start) = stop - start by omega]
  refine sweep fun k h1 h2 => ?_
  rw [h.block? (by omega)]
  cases hb : w.block? k with
  | none => rfl
  | some b =>
    obtain ⟨hc, -⟩ := introduces_of_block? hb
    simp only [Option.map_some, Option.bind_eq_bind, Option.bind_some, ↓guard_bind, Braces.shift,
      Nat.add_lt_add_iff_left]
    split
    · exact h.objectHit? hc
    · rfl

/-- **What a pass finds at a position of a part is what it finds there in the whole text.** -/
theorem find? (h : Window s w o) (hi : i ≤ w.size) (p : Pass) :
    p.find? s (o + i) = (p.find? w i).map (shiftFind o) := by
  cases p with
  | simpleInline =>
    rw [Pass.find?, Pass.find?, h.flatEntry? hi]
    cases w.flatEntry? i <;> rfl
  | providersBlock =>
    rw [Pass.find?, Pass.find?, h.block? hi]
    cases hb : w.block? i with
    | none => rfl
    | some b => exact h.objectHit? (introduces_of_block? hb).1
  | envAssignment =>
    rw [Pass.find?, Pass.find?, h.envEntry? hi]
    cases w.envEntry? i <;> rfl
  | returnLiteral =>
    rw [Pass.find?, Pass.find?, h.returned? hi]
    cases hb : w.returned? i with
    | none => rfl
    | some b => exact h.objectHit? (introduces_of_returned? hb).1
  | constLiteral =>
    rw [Pass.find?, Pass.find?, h.declared? hi]
    cases hb : w.declared? i with
    | none => rfl
    | some b =>
      obtain ⟨-, h1, h2⟩ := closing?_spec (introduces_of_declared? hb).1
      have hsize := lt_size_of_codeByte? h2
      have hhits : s.blockHits (o + (b.opening + 1)) (o + b.closing) = _ :=
        h.blockHits h1 (Nat.le_of_lt hsize)
      rw [← Nat.add_assoc] at hhits
      simp only [Option.map_some, shiftFind, Braces.shift, hhits]
      rfl

/-! ## What the passes put in -/

/-- The start of the line: a newline comes before the part. -/
theorem lineStart (h : Window s w o) (hi : i ≤ w.size) :
    s.lineStart (o + i) = o + w.lineStart i := by
  obtain ⟨-, h2, h3, h4⟩ := backward_spec (fun j => w.byte? j != some Byte.newline) (Nat.le_refl i)
  rw [← Source.lineStart] at h2 h3 h4
  rw [Source.lineStart]
  refine backward_eq (Nat.le_refl _) (by omega) (by omega) (fun k hk hk' => ?_) fun _ => ?_
  · have := h3 (k - o) (by omega) (by omega)
    rw [← h.byte? (by omega), Nat.add_sub_cancel' (by omega)] at this
    exact this
  · cases hj : w.lineStart i with
    | zero =>
      rcases h.before with rfl | ⟨ho, -, hn⟩
      · omega
      · rw [Nat.add_zero, Source.byte?, hn]
        rfl
    | succ j =>
      rw [hj, Nat.sub_self] at h4
      have := h4 (by omega)
      rw [← Nat.add_assoc, Nat.add_sub_cancel, h.byte? (by omega)]
      exact this

/-- The indentation of the line. It ends at the semicolon behind the part at the latest. -/
theorem indentOf (h : Window s w o) (hi : i ≤ w.size) : s.indentOf (o + i) = w.indentOf i := by
  obtain ⟨-, h2, -⟩ := backward_spec (fun j => w.byte? j != some Byte.newline) (Nat.le_refl i)
  rw [← Source.lineStart] at h2
  have hp : ∀ k ≤ w.size, (s.byte? (o + k) == some Byte.space || s.byte? (o + k) == some Byte.tab) =
      (w.byte? k == some Byte.space || w.byte? k == some Byte.tab) := by
    intro k hk
    rw [Bool.eq_iff_iff]
    simp only [Bool.or_eq_true, beq_iff_eq,
      h.byte?_eq_some hk (show Byte.space ≠ Byte.semicolon by decide),
      h.byte?_eq_some hk (show Byte.tab ≠ Byte.semicolon by decide)]
  have hq : (w.byte? w.size == some Byte.space || w.byte? w.size == some Byte.tab) = false := by
    rw [Source.byte?, getElem?_size]
    rfl
  have hfor := h.forward (p := fun j => s.byte? j == some Byte.space || s.byte? j == some Byte.tab)
    (q := fun j => w.byte? j == some Byte.space || w.byte? j == some Byte.tab) hp hq
    (i := w.lineStart i) (by omega)
  have hspan : s.indentSpan (o + i) = (w.indentSpan i).shift o := by
    rw [Source.indentSpan, Source.indentSpan, Span.shift]
    dsimp only
    rw [h.lineStart hi, hfor]
  have hstop := (forward_spec (fun j => w.byte? j == some Byte.space || w.byte? j == some Byte.tab)
    (w.size - w.lineStart i) (w.lineStart i)).2.1
  rw [Source.indentOf, Source.indentOf, hspan]
  refine h.bytes ?_
  rw [Source.indentSpan]
  dsimp only
  omega

/-- The changes that lay out entries anew. -/
theorem layout (h : Window s w o) {inner indent lead : Text} {close : Nat} {es : List Span}
    (he : ∀ e ∈ es, e.start < e.stop ∧ e.stop ≤ w.size) :
    s.layout inner indent (o + close) lead (o + i) (es.map (Span.shift o)) =
      (w.layout inner indent close lead i es).map (Change.shift o) := by
  induction es generalizing i lead with
  | nil => rfl
  | cons e es ih =>
    obtain ⟨h1, h2⟩ := he e (by simp)
    have hes : ∀ x ∈ es, x.start < x.stop ∧ x.stop ≤ w.size := fun x hx => he x (by simp [hx])
    rw [List.map_cons, Source.layout, Source.layout, h.flatIn? (Nat.le_of_lt h1) h2,
      show (e.shift o).stop = o + e.stop from rfl, ih hes]
    cases w.flatIn? e <;> rfl

/-- The changes of a hit in a part. -/
theorem changes (h : Window s w o) {hit : Hit} (hv : hit.Valid w) (indent : Text) :
    (hit.shift o).changes s indent = (hit.changes w indent).map (Change.shift o) := by
  cases hit with
  | flat e => rfl
  | env e =>
    obtain ⟨colon, value, stop, hf⟩ := hv
    have hbytes : s.bytes (e.name.shift o) = w.bytes e.name := h.bytes hf.key.word.stop_le
    simp only [Hit.shift, Hit.changes, EnvEntry.change, EnvEntry.shift, hbytes]
    rfl
  | object a b =>
    obtain ⟨-, h1, h2⟩ := closing?_spec hv.1
    have hsize := lt_size_of_codeByte? h2
    have he : s.entries (o + (b.opening + 1)) (o + b.closing) = _ :=
      h.entries h1 (Nat.le_of_lt hsize)
    simp only [Hit.shift, Hit.changes, Braces.shift]
    rw [Nat.add_assoc, he]
    refine h.layout fun e hm => ?_
    obtain ⟨h3, h4⟩ := mem_entries hm h1 (Nat.le_of_lt hsize)
    exact ⟨h3, by omega⟩

/-- The text of a part with changes carried out. -/
theorem changed (h : Window s w o) {n : Nat} {cs : List Change} (hn : n ≤ w.size)
    (hf : Follow Change.span i n cs) :
    s.changed (o + n) (o + i) (cs.map (Change.shift o)) = w.changed n i cs := by
  induction hf with
  | nil => exact h.bytes (x := ⟨_, _⟩) hn
  | @cons i n c cs h1 h2 h3 ih =>
    have hle := h3.le
    have ih := ih hn
    rw [Change.span_stop] at hle ih
    rw [Change.span_start] at h1 h2
    have hkept : s.bytes (c.kept.shift o) = w.bytes c.kept := h.bytes (by omega)
    have hfront : s.bytes ⟨o + i, o + c.start⟩ = w.bytes ⟨i, c.start⟩ :=
      h.bytes (x := ⟨i, c.start⟩) (by rw [Change.span_stop] at h2; dsimp only; omega)
    rw [Source.changed] at ih ⊢
    rw [List.map_cons, weave, Source.changed, weave]
    simp only [Change.shift, Span.shift] at ih hkept ⊢
    rw [hfront, ih, ← Source.changed]
    simp only [List.append_assoc, List.append_cancel_left_eq]
    rw [← hkept]

end

end Window

end ProviderNest
