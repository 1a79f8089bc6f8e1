import ProviderNest.Proofs.Checked
import ProviderNest.Proofs.Growth

/-!
# Recognition with every access checked

What a pass recognises with every access checked (`ProviderNest.Checked`) is what it recognises
without, so no access on the way is refused. Three things carry this. A walk looks up no byte
outside the text, since it stops at the end it is given. Words, keys and objects begin and end
between two characters of a well-formed text, and so do the segments of an object: what is cut out
can be cut out. And a depth never exceeds the number of brackets of one side, which in a text that
is `Text.Countable` is below the range of every counter.
-/

namespace ProviderNest

open Source

/-- A well-formed text with so few brackets of each side that their depth can be counted. -/
structure Text.Countable (t : Text) : Prop where
  wellFormed : t.WellFormed
  few : ∀ bs, OneSide bs → (ofText t).cells.toList.countP (Cell.isOneOf bs) < 2 ^ 31

/-- A part of a countable text has no more brackets of one side than a counter of 32 bits with a
sign can hold. -/
theorem Text.Countable.slice {t : Text} {bs : List UInt8} (ht : t.Countable) (hs : OneSide bs)
    (i j : Nat) : ((ofText t).slice i j).countP (Cell.isOneOf bs) < 2 ^ 31 :=
  Nat.lt_of_le_of_lt ((List.take_sublist _ _).trans (List.drop_sublist _ _)).countP_le
    (ht.few bs hs)

namespace Checked

/-! ## Steps that are not refused -/

section
variable {α β : Type}

/-- A step that may find nothing. -/
theorem bind_found {x : Seek α} {y : Option α} {f : α → Seek β} {g : α → Option β}
    (hx : x = found y) (h : ∀ a, y = some a → f a = found (g a)) :
    x >>= f = found (y >>= g) := by
  subst hx
  cases y with
  | none => rfl
  | some a => exact h a rfl

/-- A step that finds something in any case. -/
theorem bind_lift {x : Except Breach α} {a : α} (hx : x = .ok a) (f : α → Seek β) :
    liftM x >>= f = f a := by
  subst hx
  rfl

/-- A step of a computation that always has a result. -/
theorem bind_ok {x : Except Breach α} {a : α} (hx : x = .ok a) (f : α → Except Breach β) :
    x >>= f = f a := by
  subst hx
  rfl

/-- A cut that is made is no breach. -/
theorem allow_ok (a : α) : allow (.ok a) = .ok a := rfl

/-- The outcome of a search that is not refused is no breach, found or not. -/
theorem run_found (x : Option α) : (found x).run = .ok x := rfl

/-- A condition. -/
theorem bind_guard {p : Prop} [Decidable p] {f : Unit → Seek β} {g : Unit → Option β}
    (h : p → f () = found (g ())) : guard p >>= f = found (guard p >>= g) := by
  by_cases hp : p
  · rw [guard_eq, if_pos hp, guard, if_pos hp]
    exact h hp
  · rw [guard_eq, if_neg hp, guard, if_neg hp]
    rfl

/-- Two conditions in one. -/
theorem bind_guard_and (a b : Bool) (f : Unit → Option β) :
    guard ((a && b) = true) >>= f = guard (a = true) >>= fun _ => guard (b = true) >>= f := by
  cases a <;> rfl

/-- A condition on what is found. -/
theorem filter_eq_bind (x : Option α) (p : α → Bool) :
    x.filter p = x >>= fun a => guard (p a) >>= fun _ => some a := by
  cases x with
  | none => rfl
  | some a => cases h : p a <;> simp [Option.filter, guard_eq, h]

end

/-! ## Walks -/

section
variable {s : Source} {p : Nat → Except Breach Bool} {q : Nat → Bool} {n i : Nat}

/-- A walk forward is not refused if no test is between its start and the last position it may
reach. -/
theorem forward_eq (h : ∀ k, i ≤ k → k < i + n → p k = .ok (q k)) :
    forward p n i = .ok (Source.forward q n i) := by
  induction n generalizing i with
  | zero => rfl
  | succ n ih =>
    rw [forward, Source.forward, bind_ok (h i (Nat.le_refl i) (by omega))]
    split
    · exact ih fun k h1 h2 => h k (by omega) (by omega)
    · rfl

/-- A walk back is not refused if no test is below its start. It takes no more steps than there are
positions, so the position before the one it stands at exists. -/
theorem backward_eq (hn : n ≤ i) (h : ∀ k < i, p k = .ok (q k)) :
    backward p n i = .ok (Source.backward q n i) := by
  induction n generalizing i with
  | zero => rfl
  | succ n ih =>
    rw [backward, Source.backward, bind_ok (h (i - 1) (by omega))]
    split
    · exact ih (by omega) fun k h1 => h k (by omega)
    · rfl

/-- The test for trivia looks up one byte, which is inside the text. -/
theorem isTrivia_eq (h : i < s.size) : isTrivia s i = .ok (s.isTrivia i) := by
  obtain ⟨c, hc⟩ := s.exists_cell h
  rw [isTrivia, cell, Source.isTrivia_eq, hc]
  rfl

/-- Trivia is skipped from any position: the walk stops at the end of the text. -/
theorem skipTrivia_eq (s : Source) (i : Nat) : skipTrivia s i = .ok (s.skipTrivia i) :=
  forward_eq fun _ _ h => isTrivia_eq (by omega)

/-- Trivia is taken off the end of any part of the text. -/
theorem trimTrivia_eq (start : Nat) {stop : Nat} (h : stop ≤ s.size) :
    trimTrivia s start stop = .ok (s.trimTrivia start stop) :=
  backward_eq (Nat.sub_le _ _) fun _ hk => isTrivia_eq (Nat.lt_of_lt_of_le hk h)

/-- The last code byte before any position of the text is found. -/
theorem precedingCode?_eq (h : i ≤ s.size) : precedingCode? s i = .ok (s.precedingCode? i) := by
  rw [precedingCode?, bind_ok (trimTrivia_eq 0 h), Source.precedingCode?]
  cases s.trimTrivia 0 i <;> rfl

end

/-! ## Words and keys -/

section
variable {t : Text} {i : Nat}

/-- A part that lies inside the text and begins and ends between two characters is cut out. -/
theorem cut_eq {s : Source} {x : Span} (h : x.start ≤ x.stop) (hs : x.stop ≤ s.size)
    (h1 : s.isBoundary x.start = true) (h2 : s.isBoundary x.stop = true) :
    cut s x = .ok (s.bytes x) := by
  rw [cut, (Source.cut_eq h hs h1 h2).2]
  rfl

/-- A whole word is cut out of a well-formed text: it is made of whole characters. -/
theorem cut_word (ht : t.WellFormed) {w : Span} (hw : (ofText t).IsWord w) :
    cut (ofText t) w = .ok ((ofText t).bytes w) :=
  cut_eq (Nat.le_of_lt hw.lt) hw.stop_le (isBoundary_start ht hw) (isBoundary_stop hw)

/-- A part spells a word when its bytes are those of the word, no more and no fewer. -/
theorem spells_eq {s : Source} {x : Span} (h : x.start ≤ x.stop) (hs : x.stop ≤ s.size) (w : Text) :
    s.spells x w = (s.bytes x == w) := by
  rw [Bool.eq_iff_iff, spells_iff h hs, beq_iff_eq]

/-- A whole word is compared after it has been cut out, with the same answer. -/
theorem spells_word (ht : t.WellFormed) {x : Span} (hx : (ofText t).IsWord x) (w : Text) :
    spells (ofText t) x w = .ok ((ofText t).spells x w) := by
  rw [spells, bind_ok (cut_word ht hx), spells_eq (Nat.le_of_lt hx.lt) hx.stop_le]
  rfl

/-- The test for a given word cuts out only the whole word that begins at the position. -/
theorem isWord_eq (ht : t.WellFormed) (i : Nat) (w : Text) :
    isWord (ofText t) i w = .ok ((ofText t).isWord i w) := by
  rw [isWord, Source.isWord]
  cases hx : (ofText t).word? i with
  | none => rfl
  | some x => exact spells_word ht (word?_eq_some.1 hx).2 w

/-- A key is looked for at any position: nothing is cut out, and the walks over trivia stop inside
the text. -/
theorem key?_eq (s : Source) (i : Nat) : key? s i = found (s.key? i) := by
  refine bind_found rfl fun name hname => ?_
  rw [bind_lift (skipTrivia_eq s name.stop)]
  refine bind_guard fun _ => ?_
  rw [bind_lift (skipTrivia_eq s _)]
  rfl

/-- The test for a key of a given name cuts out only the name of a key. -/
theorem isKey_eq (ht : t.WellFormed) (i : Nat) (w : Text) :
    isKey (ofText t) i w = .ok ((ofText t).isKey i w) := by
  rw [isKey, Source.isKey, key?_eq, run_found, bind_ok rfl]
  cases hk : (ofText t).key? i with
  | none => rfl
  | some key =>
    obtain ⟨-, colon, hkey⟩ := key?_eq_some.1 hk
    exact spells_word ht hkey.word w

/-- The key before any position of the text is found. The two walks over trivia begin inside the
text, the second one at the colon. -/
theorem keyBefore?_eq {s : Source} {value : Nat} (h : value ≤ s.size) :
    keyBefore? s value = .ok (s.keyBefore? value) := by
  rw [keyBefore?, Source.keyBefore?, bind_ok (trimTrivia_eq 0 h)]
  cases hc : s.trimTrivia 0 value with
  | zero => rfl
  | succ colon =>
    dsimp only
    split
    case isFalse => rfl
    have hle := (s.trimTrivia_spec (Nat.zero_le value)).2.1
    rw [bind_ok (trimTrivia_eq 0 (show colon ≤ s.size by omega))]
    rfl

/-- The word before a colon is a whole word. -/
theorem isWord_of_keyBefore? {s : Source} {value : Nat} {x : Span}
    (h : s.keyBefore? value = some x) : s.IsWord x := by
  rw [Source.keyBefore?] at h
  split at h
  case h_1 => cases h
  next colon _ =>
  split at h
  case isFalse => cases h
  next hcolon =>
  obtain ⟨-, h1, htrivia, -⟩ := s.trimTrivia_spec (Nat.zero_le colon)
  generalize s.trimTrivia 0 colon = stop at h h1 htrivia
  dsimp only at h
  split at h
  case isFalse => cases h
  next hlt =>
  cases h
  obtain ⟨-, -, hin, hbefore⟩ := backward_spec (p := s.inWord) (Nat.le_refl stop)
  rw [Nat.sub_self] at hbefore
  refine ⟨hlt, hin, ?_, ?_⟩
  · rcases Nat.eq_zero_or_pos (Source.backward s.inWord stop stop) with h0 | hpos
    · exact .inl h0
    · exact .inr (hbefore hpos)
  · rcases Nat.eq_or_lt_of_le h1 with heq | hlt'
    · rw [heq]
      exact inWord_of_codeByte? hcolon (by decide)
    · exact inWord_of_isTrivia (htrivia stop (Nat.le_refl stop) hlt')

end

/-! ## Counters -/

section
variable {s : Source} {bs : List UInt8} {n i : Nat}

/-- The brackets among the bytes from a position on. -/
theorem countP_slice_succ (s : Source) (bs : List UInt8) (i n : Nat) :
    (s.slice i (i + (n + 1))).countP (Cell.isOneOf bs) =
      (s.slice (i + 1) (i + 1 + n)).countP (Cell.isOneOf bs) +
        if (s.codeByte? i).any bs.contains then 1 else 0 := by
  cases hc : s.cells[i]? with
  | none =>
    have hsize : s.cells.toList.length ≤ i := by
      rw [Array.length_toList]
      exact Array.getElem?_eq_none_iff.1 hc
    have hnone : s.codeByte? i = none := by rw [codeByte?, hc]
    rw [hnone, slice, slice, List.drop_eq_nil_of_le hsize, List.drop_eq_nil_of_le (by omega),
      List.take_nil, List.take_nil]
    rfl
  | some c =>
    rw [slice_eq_cons s (by omega) hc, List.countP_cons, Nat.add_right_comm i 1 n, Nat.add_assoc]
    congr 1
    obtain ⟨b, kind⟩ := c
    cases kind with
    | code => rw [codeByte?_eq_some.2 hc]; rfl
    | literal => rw [codeByte?, hc]; rfl
    | comment => rw [codeByte?, hc]; rfl

/-- The change of depth at a position, by the brackets of each side. -/
theorem depthStep_eq (s : Source) (i : Nat) : s.depthStep i =
    ((if (s.codeByte? i).any Text.openers.contains then 1 else 0 : Nat) : Int) -
      (if (s.codeByte? i).any Text.closers.contains then 1 else 0 : Nat) := by
  rw [depthStep]
  cases s.codeByte? i with
  | none => rfl
  | some b =>
    simp only [Option.any_some, List.contains_iff_mem, Text.openers, Text.closers, List.mem_cons,
      List.not_mem_nil, or_false]
    split
    · next h => rcases h with rfl | rfl | rfl <;> decide
    · split <;> rfl

/-- A depth goes up by one within 64 bits. -/
theorem unsigned_succ {d : Nat} (h : d + 1 < 2 ^ 64) : unsigned (d + 1) = .ok (d + 1) := by
  rw [unsigned, if_pos (by omega)]
  rfl

/-- A depth that is not zero goes down by one. -/
theorem unsigned_pred {d : Nat} (h : d < 2 ^ 64) : unsigned ((d + 1 : Nat) - 1) = .ok d := by
  rw [unsigned, if_pos (by omega)]
  congr 1
  omega

/-- The counter is one ahead of the depth, since it counts the first brace as well. -/
theorem closingFrom_eq {d : Nat}
    (h : d + 1 + (s.slice i (i + n)).countP (Cell.isOneOf Text.openers) < 2 ^ 64) :
    closingFrom s n i (d + 1) = .ok (s.closingFrom n i d) := by
  induction n generalizing i d with
  | zero => rfl
  | succ n ih =>
    rw [countP_slice_succ] at h
    unfold closingFrom Source.closingFrom
    split
    · next ho =>
      rw [ho, Option.any_some, if_pos (by decide)] at h
      rw [bind_ok (unsigned_succ (by omega))]
      exact ih (by omega)
    split
    · rw [bind_ok (unsigned_pred (by omega))]
      cases d with
      | zero => rfl
      | succ d =>
        rw [if_neg (Nat.succ_ne_zero d)]
        exact ih (by omega)
    · exact ih (by omega)

/-- The brackets among the bytes before a position. -/
theorem countP_slice_zero (s : Source) (bs : List UInt8) (i : Nat) :
    (s.slice 0 (i + 1)).countP (Cell.isOneOf bs) = (s.slice 0 i).countP (Cell.isOneOf bs) +
      if (s.codeByte? i).any bs.contains then 1 else 0 := by
  rw [← slice_append s (Nat.zero_le i) (Nat.le_succ i), List.countP_append,
    show i.succ = i + (0 + 1) from rfl, countP_slice_succ, Nat.add_zero, slice_self]
  exact congrArg _ (Nat.zero_add _)

/-- The counter of the search for the enclosing brace is bounded by the closing brackets before the
position, and it goes down only where it is not zero. -/
theorem enclosingBelow_eq {d : Nat}
    (h : d + (s.slice 0 i).countP (Cell.isOneOf Text.closers) < 2 ^ 64) :
    enclosingBelow s i d = .ok (s.enclosingBelow i d) := by
  induction i generalizing d with
  | zero => rfl
  | succ i ih =>
    rw [countP_slice_zero] at h
    unfold enclosingBelow Source.enclosingBelow
    split
    · next hc =>
      rw [hc, Option.any_some, if_pos (by decide)] at h
      rw [bind_ok (unsigned_succ (by omega))]
      exact ih (by omega)
    split
    · cases d with
      | zero => rfl
      | succ d =>
        rw [if_neg (Nat.succ_ne_zero d), bind_ok (unsigned_pred (by omega))]
        exact ih (by omega)
    · exact ih (by omega)

/-- The counter of a body stays in its range, however the brackets of the body match. -/
theorem segmentsFrom_eq {start : Nat} {depth : Int}
    (hx : ∀ x ∈ s.segmentsFrom n i start depth, s.check x = .ok x)
    (h1 : depth + (s.slice i (i + n)).countP (Cell.isOneOf Text.openers) < 2 ^ 31)
    (h2 : (s.slice i (i + n)).countP (Cell.isOneOf Text.closers) - depth < 2 ^ 31) :
    segmentsFrom s n i start depth = .ok (s.segmentsFrom n i start depth) := by
  induction n generalizing i start depth with
  | zero =>
    rw [segmentsFrom, hx _ (List.mem_singleton.2 rfl)]
    rfl
  | succ n ih =>
    rw [countP_slice_succ] at h1 h2
    rw [Source.segmentsFrom] at hx ⊢
    rw [segmentsFrom]
    split
    · next hcomma =>
      rw [if_pos hcomma] at hx
      obtain ⟨hc, rfl⟩ := hcomma
      rw [hx _ List.mem_cons_self]
      rw [hc] at h1 h2
      rw [ih (fun x hm => hx x (List.mem_cons_of_mem _ hm)) (by omega) (by omega)]
      rfl
    · next hcomma =>
      rw [if_neg hcomma] at hx
      have hstep := depthStep_eq s i
      have hsigned : signed (depth + s.depthStep i) = .ok (depth + s.depthStep i) := by
        rw [signed, if_pos (by omega)]
      rw [bind_ok hsigned]
      exact ih hx (by omega) (by omega)

end

/-! ## Braces and entries -/

section
variable {t : Text} {i : Nat}

/-- The closing brace is found from any position of a countable text. -/
theorem closing?_eq (ht : t.Countable) (i : Nat) :
    closing? (ofText t) i = found ((ofText t).closing? i) := by
  rw [closing?, Source.closing?]
  split
  case isFalse => rfl
  -- The first step counts the brace at position `i` itself.
  next ho =>
  have hi := lt_size_of_codeByte? ho
  have hcount := ht.slice (.inl rfl) (i + 1) (i + 1 + ((ofText t).size - (i + 1)))
  rw [show (ofText t).size - i = (ofText t).size - (i + 1) + 1 by omega, closingFrom, if_pos ho,
    bind_ok (unsigned_succ (by decide)), closingFrom_eq (by omega)]
  rfl

/-- The braces of an object are found from any position of a countable text. -/
theorem braces?_eq (ht : t.Countable) (i : Nat) :
    braces? (ofText t) i = found ((ofText t).braces? i) := by
  rw [Source.braces?, Option.map_eq_bind]
  exact bind_found (closing?_eq ht i) fun _ _ => rfl

/-- The enclosing brace is found for any position of a countable text. -/
theorem enclosing?_eq (ht : t.Countable) (i : Nat) :
    enclosing? (ofText t) i = .ok ((ofText t).enclosing? i) := by
  have hcount := ht.slice (.inr rfl) 0 (min i (ofText t).size)
  exact enclosingBelow_eq (by omega)

/-- An object between closed braces is divided into its entries: each segment is cut out, and the
depth is counted in 32 bits with a sign. -/
theorem entries_eq (ht : t.Countable) {o c : Nat} (h : (ofText t).closing? o = some c) :
    entries (ofText t) (o + 1) c = .ok ((ofText t).entries (o + 1) c) := by
  have hc : o + 1 ≤ c := (closing?_spec h).2.1
  have hx := isSegment_of_closing? ht.wellFormed h
  have h1 := ht.slice (.inl rfl) (o + 1) (o + 1 + (c - (o + 1)))
  have h2 := ht.slice (.inr rfl) (o + 1) (o + 1 + (c - (o + 1)))
  rw [Source.segments, if_pos hc] at hx
  rw [entries, segments, Source.entries, Source.segments, if_pos hc, if_pos hc, segmentsFrom_eq
    (fun x hm => (hx x hm).check_eq ht.wellFormed) (by omega) (by omega)]
  rfl

/-! ## What passes look for -/

/-- The test for a configuration reads the first key of an object. -/
theorem opensConfiguration_eq (ht : t.WellFormed) (i : Nat) :
    opensConfiguration (ofText t) i = .ok ((ofText t).opensConfiguration i) := by
  rw [opensConfiguration, bind_ok (skipTrivia_eq _ _)]
  exact isKey_eq ht _ _

/-- An object with its braces can be cut out. -/
theorem cut_object (ht : t.WellFormed) {o c : Nat} (h : (ofText t).closing? o = some c) :
    cut (ofText t) ⟨o, c + 1⟩ = .ok ((ofText t).bytes ⟨o, c + 1⟩) := by
  obtain ⟨ho, hlt, hc⟩ := closing?_spec h
  have hle : o ≤ c + 1 := Nat.le_succ_of_le (Nat.le_of_lt hlt)
  exact cut_eq hle (lt_size_of_codeByte? hc)
    (isBoundary_of_ascii (getElem?_of_codeByte? ho) (by decide))
    (isBoundary_succ_of_ascii ht (getElem?_of_codeByte? hc) (by decide))

/-- A flat entry is looked for at any position. Its name is a whole word, and its object is cut out
with its braces. -/
theorem flatEntry?_eq (ht : t.Countable) (i : Nat) :
    flatEntry? (ofText t) i = found ( Source.flatEntry? (ofText t) i) := by
  refine bind_found (key?_eq _ i) fun key hkey => ?_
  obtain ⟨-, colon, hk⟩ := key?_eq_some.1 hkey
  rw [bind_lift (spells_word ht.wellFormed hk.word nestedKey)]
  refine bind_guard fun _ => bind_found (closing?_eq ht key.value) fun close hclose => ?_
  rw [bind_lift (opensConfiguration_eq ht.wellFormed key.value)]
  refine bind_guard fun _ => ?_
  rw [bind_lift (cut_object ht.wellFormed hclose)]
  rfl

/-- A flat entry is looked for in any part that ends inside the text. -/
theorem flatIn?_eq (ht : t.Countable) {e : Span} (he : e.stop ≤ (ofText t).size) :
    flatIn? (ofText t) e = found ((ofText t).flatIn? e) := by
  rw [flatIn?, Source.flatIn?, bind_lift (skipTrivia_eq _ _), bind_lift (trimTrivia_eq _ he),
    filter_eq_bind]
  simp only [beq_iff_eq]
  have hflat := flatEntry?_eq ht ((ofText t).skipTrivia e.start)
  exact bind_found hflat fun f _ => bind_guard fun _ => rfl

/-- The flat entries of an object between closed braces are found, since each of its entries lies
inside the text. -/
theorem flatEntriesOf_eq (ht : t.Countable) {b : Braces}
    (h : (ofText t).closing? b.opening = some b.closing) :
    flatEntriesOf (ofText t) b = .ok ((ofText t).flatEntriesOf b) := by
  obtain ⟨-, hlt, hc⟩ := closing?_spec h
  have hsize := lt_size_of_codeByte? hc
  have hin : ∀ e ∈ (ofText t).entries (b.opening + 1) b.closing,
      (flatIn? (ofText t) e).run = .ok ((ofText t).flatIn? e) := by
    intro e he
    have hstop := (mem_entries he hlt (Nat.le_of_lt hsize)).2
    rw [flatIn?_eq ht (by omega), run_found]
  rw [flatEntriesOf, bind_ok (entries_eq ht h), bind_ok (mapM_eq_ok hin), List.filterMap_map]
  rfl

/-- The test whether a position is in a configuration cuts out only the words of keys. -/
theorem inConfiguration_eq (ht : t.Countable) (i : Nat) :
    inConfiguration (ofText t) i = .ok ((ofText t).inConfiguration i) := by
  rw [inConfiguration, Source.inConfiguration, bind_ok (enclosing?_eq ht i)]
  cases hb : (ofText t).enclosing? i with
  | none => rfl
  | some brace =>
    have hlt := (enclosingBelow_spec hb).1
    dsimp only
    rw [bind_ok (opensConfiguration_eq ht.wellFormed brace), Option.any_some]
    cases (ofText t).opensConfiguration brace with
    | true => rfl
    | false =>
      rw [if_neg Bool.false_ne_true, bind_ok (keyBefore?_eq (s := ofText t) (by omega))]
      cases hk : (ofText t).keyBefore? brace with
      | none => rfl
      | some x => exact spells_word ht.wellFormed (isWord_of_keyBefore? hk) nestedKey

/-- The bytes from a position on, compared one by one and as a part of the text. -/
theorem spellsAt_eq (t w : Text) (i : Nat) :
    (ofText t).spellsAt i w = w.isPrefixOf (t.drop i) := by
  induction w generalizing i with
  | nil => rfl
  | cons b w ih =>
    rw [spellsAt, byte?_ofText, ih]
    cases hc : t[i]? with
    | none =>
      rw [List.drop_eq_nil_of_le (List.getElem?_eq_none_iff.1 hc)]
      rfl
    | some c =>
      rw [drop_eq_cons hc, List.isPrefixOf_cons_cons, Option.some_beq_some]
      congr 1
      exact Bool.beq_comm

/-- The text from a word on. -/
theorem cut_rest (ht : t.WellFormed) {x : Span} (hx : (ofText t).IsWord x) :
    cut (ofText t) ⟨x.start, (ofText t).size⟩ = .ok (t.drop x.start) := by
  have hle := Nat.le_trans (Nat.le_of_lt hx.lt) hx.stop_le
  have hstart := isBoundary_start ht hx
  have hend : (ofText t).isBoundary (ofText t).size = true := by simp [isBoundary]
  rw [cut_eq (x := ⟨x.start, (ofText t).size⟩) hle (Nat.le_refl _) hstart hend, bytes_eq,
    map_byte_slice, size_ofText, List.take_of_length_le (by simp)]

/-- A variable can be cut out with the assertion behind it. -/
theorem cut_asserted (ht : t.WellFormed) {x : Span} (hx : (ofText t).IsWord x)
    (h : (ofText t).isAsserted x.stop = true) :
    cut (ofText t) ⟨x.start, x.stop + 1⟩ = .ok ((ofText t).bytes ⟨x.start, x.stop + 1⟩) := by
  rw [isAsserted, Bool.and_eq_true, beq_iff_eq] at h
  have hstart := isBoundary_start ht hx
  exact cut_eq (Nat.le_succ_of_le (Nat.le_of_lt hx.lt)) (lt_size_of_codeByte? h.1) hstart
    (isBoundary_succ_of_ascii ht (getElem?_of_codeByte? h.1) (by decide))

/-- An entry read from the environment is looked for at any position. Its name and its variable are
whole words, the variable with the assertion behind it, if there is one. -/
theorem envEntry?_eq (ht : t.Countable) (i : Nat) :
    envEntry? (ofText t) i = found ( Source.envEntry? (ofText t) i) := by
  refine bind_found (key?_eq _ i) fun key hkey => ?_
  obtain ⟨hi, colon, hk⟩ := key?_eq_some.1 hkey
  have hlt := hk.word.lt
  have hstop := hk.word.stop_le
  rw [bind_lift (cut_word ht.wellFormed hk.word), spells_eq (Nat.le_of_lt hlt) hstop]
  refine bind_guard fun _ => ?_
  rw [bind_lift (precedingCode?_eq (s := ofText t) (by omega))]
  refine bind_guard fun _ => ?_
  rw [bind_lift (isWord_eq ht.wellFormed _ _), bind_guard_and]
  -- The rest of the text is compared only behind the test for a word, so one begins there.
  refine bind_guard fun hprocess => ?_
  obtain ⟨x, hx, hword, -⟩ := isWord_iff.1 hprocess
  rw [← hx, bind_lift (cut_rest ht.wellFormed hword), spellsAt_eq]
  refine bind_guard fun _ => bind_found rfl fun var hvar => ?_
  rw [bind_lift (inConfiguration_eq ht i)]
  refine bind_guard fun _ => ?_
  obtain ⟨-, hv⟩ := word?_eq_some.1 hvar
  dsimp only
  split
  · next ha =>
    rw [bind_lift (cut_asserted ht.wellFormed hv ha)]
    rfl
  · rw [bind_lift (cut_word ht.wellFormed hv)]
    rfl

/-- A providers block is looked for at any position of a countable text. -/
theorem block?_eq (ht : t.Countable) (i : Nat) :
    block? (ofText t) i = found ((ofText t).block? i) := by
  rw [block?, bind_lift (isWord_eq ht.wellFormed _ _)]
  refine bind_guard fun _ => bind_found (key?_eq _ i) fun key _ => ?_
  exact braces?_eq ht key.value

/-- A returned object is looked for at any position of a countable text. -/
theorem returned?_eq (ht : t.Countable) (i : Nat) :
    returned? (ofText t) i = found ((ofText t).returned? i) := by
  rw [returned?, bind_lift (isWord_eq ht.wellFormed _ _)]
  refine bind_guard fun _ => ?_
  rw [bind_lift (skipTrivia_eq _ _)]
  exact braces?_eq ht _

/-- A type annotation is passed over by two walks over trivia. -/
theorem afterAnnotation?_eq (s : Source) (i : Nat) :
    afterAnnotation? s i = found (s.afterAnnotation? i) := by
  rw [afterAnnotation?, Source.afterAnnotation?]
  split
  case isFalse => rfl
  rw [bind_lift (skipTrivia_eq _ _), Option.map_eq_bind]
  refine bind_found rfl fun type _ => ?_
  rw [skipTrivia_eq]
  rfl

/-- A declared object is looked for at any position of a countable text. -/
theorem declared?_eq (ht : t.Countable) (i : Nat) :
    declared? (ofText t) i = found ((ofText t).declared? i) := by
  rw [declared?, bind_lift (isWord_eq ht.wellFormed _ _)]
  refine bind_guard fun _ => ?_
  rw [bind_lift (skipTrivia_eq _ _)]
  refine bind_found rfl fun name _ => ?_
  rw [bind_lift (skipTrivia_eq _ _)]
  refine bind_found (afterAnnotation?_eq _ _) fun equals _ => ?_
  refine bind_guard fun _ => bind_guard fun _ => bind_guard fun _ => ?_
  rw [bind_lift (skipTrivia_eq _ _)]
  exact braces?_eq ht _

/-- The hit of an object that a word introduces is put together: the indentation of the line of that
word and the entries of the object can be cut out. -/
theorem objectHit?_eq (ht : t.Countable) {b : Braces} (h : (ofText t).Introduces i b) :
    objectHit? (ofText t) i b = found ((ofText t).objectHit? i b) := by
  obtain ⟨hclosing, -, w, hw, hword⟩ := h
  rw [objectHit?, lineIndent_eq ht.wellFormed hword hw, bind_lift (allow_ok _),
    bind_lift (flatEntriesOf_eq ht hclosing), Source.objectHit?]
  cases ((ofText t).flatEntriesOf b).isEmpty <;> rfl

/-- A sweep is not refused if no search at a position is. -/
theorem sweep_eq {α : Type} {f : Nat → Seek (List α × Nat)} {g : Nat → Option (List α × Nat)}
    (h : ∀ i, f i = found (g i)) (n i resume : Nat) :
    sweep f n i resume = .ok (ProviderNest.sweep g n i resume) := by
  induction n generalizing i resume with
  | zero => rfl
  | succ n ih =>
    rw [sweep, ProviderNest.sweep]
    split
    · exact ih _ _
    rw [h, run_found, bind_ok rfl]
    cases g i with
    | none => exact ih _ _
    | some x => exact bind_ok (ih _ _) _

/-- The providers blocks of a part are all found, each with its flat entries. -/
theorem blockHits_eq (ht : t.Countable) (start stop : Nat) :
    blockHits (ofText t) start stop = .ok ((ofText t).blockHits start stop) := by
  refine sweep_eq (fun i => bind_found (block?_eq ht i) fun b hb => ?_) _ _ _
  exact bind_guard fun _ => objectHit?_eq ht (introduces_of_block? hb)

/-- **No pass is refused an access** in what it looks for at a position. -/
theorem find?_eq (ht : t.Countable) (i : Nat) (p : Pass) :
    find? (ofText t) i p = found (p.find? (ofText t) i) := by
  cases p with
  | simpleInline =>
    rw [Pass.find?, Option.map_eq_bind]
    have hflat := flatEntry?_eq ht i
    exact bind_found hflat fun _ _ => rfl
  | providersBlock =>
    exact bind_found (block?_eq ht i) fun b hb => objectHit?_eq ht (introduces_of_block? hb)
  | envAssignment =>
    rw [Pass.find?, Option.map_eq_bind]
    have henv := envEntry?_eq ht i
    exact bind_found henv fun _ _ => rfl
  | returnLiteral =>
    exact bind_found (returned?_eq ht i) fun b hb => objectHit?_eq ht (introduces_of_returned? hb)
  | constLiteral =>
    rw [Pass.find?, Option.map_eq_bind]
    refine bind_found (declared?_eq ht i) fun b _ => ?_
    exact bind_lift (blockHits_eq ht _ _) _

end

end Checked

end ProviderNest
