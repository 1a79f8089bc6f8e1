import ProviderNest.Text.Blank
import ProviderNest.Text.Lowercase

/-!
# Texts of whole characters

A text is made of whole characters (`Text.WellFormed`) if each byte that begins a character is
followed by exactly the continuation bytes it announces. This is all that cutting a text needs of
UTF-8: the form of every list of characters has it (`Text.wellFormed_ofChars`), a text that has it
can be cut in front of any byte that begins a character (`Text.WellFormed.of_append`), and behind
an ASCII byte or a whole character such a byte follows.

The second part is about lower-casing: the lower-case form of a word is a word again
(`Text.lower_isWord`), so no letter turns into a byte that means something in source code.
-/

namespace ProviderNest

/-- What is said of the elements of a list is decided one element after the other, also where the
type of the elements is finite. -/
instance (priority := high) decidableForallMem {α : Type} {p : α → Prop} [DecidablePred p]
    (l : List α) : Decidable (∀ a ∈ l, p a) :=
  List.decidableBAll p l

/-- What is said of an optional value is decided for this value only. -/
instance (priority := high) decidableForallMemOption {α : Type} {p : α → Prop} [DecidablePred p]
    (o : Option α) : Decidable (∀ a ∈ o, p a) :=
  Option.decidableForallMem o

end ProviderNest

namespace ProviderNest.Text

/-! ## Characters and their continuation bytes -/

/-- The number of continuation bytes that a byte which begins a character announces. -/
def trailing (b : UInt8) : Nat :=
  if b < 0x80 then 0 else if b < 0xE0 then 1 else if b < 0xF0 then 2 else 3

/-- The text is empty or begins with a character. -/
def Starts (t : Text) : Prop := ∀ b ∈ t.head?, Byte.isContinuation b = false

/-- The text is a sequence of whole characters. -/
inductive WellFormed : Text → Prop
  | nil : WellFormed []
  | char {b : UInt8} {tail rest : Text} : Byte.isContinuation b = false →
      tail.length = trailing b → (∀ x ∈ tail, Byte.isContinuation x = true) →
      WellFormed rest → WellFormed (b :: (tail ++ rest))

/-- Continuation bytes as a range of numbers. -/
theorem isContinuation_iff {b : UInt8} :
    Byte.isContinuation b = true ↔ 0x80 ≤ b.toNat ∧ b.toNat ≤ 0xBF := by
  simp [Byte.isContinuation, UInt8.le_iff_toNat_le]

/-- The other bytes as two ranges of numbers. -/
theorem isContinuation_eq_false_iff {b : UInt8} :
    Byte.isContinuation b = false ↔ b.toNat < 0x80 ∨ 0xBF < b.toNat := by
  rw [← Bool.not_eq_true, isContinuation_iff]; omega

/-- `trailing` over numbers. -/
theorem trailing_eq (b : UInt8) : trailing b = if b.toNat < 0x80 then 0 else
    if b.toNat < 0xE0 then 1 else if b.toNat < 0xF0 then 2 else 3 := by
  simp [trailing, UInt8.lt_iff_toNat_lt]

/-- The form of a character is a byte that begins one and as many continuation bytes as that byte
announces. -/
theorem encode_shape (c : Char) : ∃ b tail, String.utf8EncodeChar c = b :: tail ∧
    Byte.isContinuation b = false ∧ tail.length = trailing b ∧
    ∀ x ∈ tail, Byte.isContinuation x = true := by
  unfold String.utf8EncodeChar
  generalize c.val.toNat = v
  dsimp only
  simp only [isContinuation_iff, isContinuation_eq_false_iff, trailing_eq]
  split
  · refine ⟨_, [], rfl, ?_, ?_, by simp⟩
    · rw [UInt8.toNat_ofNat']; omega
    · rw [UInt8.toNat_ofNat', if_pos (by omega)]; rfl
  split
  · refine ⟨_, [_], rfl, ?_, ?_, ?_⟩
    · rw [UInt8.toNat_ofNat']; omega
    · rw [UInt8.toNat_ofNat', if_neg (by omega), if_pos (by omega)]; rfl
    · simp; omega
  split
  · refine ⟨_, [_, _], rfl, ?_, ?_, ?_⟩
    · rw [UInt8.toNat_ofNat']; omega
    · rw [UInt8.toNat_ofNat', if_neg (by omega), if_neg (by omega), if_pos (by omega)]; rfl
    · simp; omega
  · refine ⟨_, [_, _, _], rfl, ?_, ?_, ?_⟩
    · rw [UInt8.toNat_ofNat']; omega
    · rw [UInt8.toNat_ofNat', if_neg (by omega), if_neg (by omega), if_neg (by omega)]; rfl
    · simp; omega

/-- A character in front of a text of whole characters. -/
theorem WellFormed.encode (c : Char) {t : Text} (h : WellFormed t) :
    WellFormed (String.utf8EncodeChar c ++ t) := by
  obtain ⟨b, tail, hc, h1, h2, h3⟩ := encode_shape c
  rw [hc]
  exact .char h1 h2 h3 h

/-- The UTF-8 form of a list of characters is made of whole characters. -/
theorem wellFormed_ofChars (cs : List Char) : WellFormed (ofChars cs) := by
  induction cs with
  | nil => exact .nil
  | cons c cs ih => exact ih.encode c

/-- Texts of whole characters can be put together. -/
theorem WellFormed.append {u v : Text} (hu : WellFormed u) (hv : WellFormed v) :
    WellFormed (u ++ v) := by
  induction hu with
  | nil => exact hv
  | char h1 h2 h3 _ ih =>
    rw [List.cons_append, List.append_assoc]
    exact .char h1 h2 h3 ih

/-- A text of whole characters begins with one. -/
theorem WellFormed.starts {t : Text} (h : WellFormed t) : Starts t := by
  cases h with
  | nil => intro b hb; cases hb
  | char h1 => intro b hb; cases hb; exact h1

/-- A text of whole characters that is cut in front of a character falls into two such texts. -/
theorem WellFormed.of_append {u v : Text} (h : WellFormed (u ++ v)) (hv : Starts v) :
    WellFormed u ∧ WellFormed v := by
  generalize ht : u ++ v = t at h
  induction h generalizing u with
  | nil =>
    obtain ⟨rfl, rfl⟩ := List.append_eq_nil_iff.1 ht
    exact ⟨.nil, .nil⟩
  | @char b tail rest h1 h2 h3 hr ih =>
    cases u with
    | nil =>
      rw [List.nil_append] at ht
      subst ht
      exact ⟨.nil, .char h1 h2 h3 hr⟩
    | cons a u =>
      rw [List.cons_append, List.cons.injEq] at ht
      obtain ⟨rfl, ht⟩ := ht
      -- Either the cut lies behind the first character, or its next byte continues that character.
      rcases List.append_eq_append_iff.1 ht with ⟨x, rfl, rfl⟩ | ⟨x, rfl, rfl⟩
      · cases x with
        | nil =>
          rw [List.append_nil] at h2 h3
          refine ⟨?_, hr⟩
          simpa using WellFormed.char h1 h2 h3 .nil
        | cons y x =>
          have hy := hv y (by simp)
          rw [h3 y (by simp)] at hy
          cases hy
      · obtain ⟨hx, hv⟩ := ih rfl
        exact ⟨.char h1 h2 h3 hx, hv⟩

/-- Behind an ASCII byte a text of whole characters goes on with one. -/
theorem WellFormed.of_ascii {b : UInt8} {t : Text} (h : WellFormed (b :: t)) (hb : b < 0x80) :
    WellFormed t := by
  generalize hu : b :: t = u at h
  cases h with
  | nil => cases hu
  | char h1 h2 h3 hr =>
    cases hu
    rw [trailing, if_pos hb, List.length_eq_zero_iff] at h2
    subst h2
    exact hr

/-- Behind a whole character a text of whole characters goes on with one. -/
theorem WellFormed.of_encode (c : Char) {t : Text}
    (h : WellFormed (String.utf8EncodeChar c ++ t)) : WellFormed t := by
  obtain ⟨b, tail, hc, _, h2, _⟩ := encode_shape c
  rw [hc] at h
  generalize hu : b :: tail ++ t = u at h
  cases h with
  | nil => cases hu
  | @char _ tail' _ _ h2' _ hr =>
    rw [List.cons_append, List.cons.injEq] at hu
    obtain ⟨rfl, hu⟩ := hu
    rw [(List.append_inj hu (h2.trans h2'.symm)).2]
    exact hr

/-! ## The characters of a text -/

theorem ofChars_append (cs ds : List Char) : ofChars (cs ++ ds) = ofChars cs ++ ofChars ds :=
  List.flatMap_append

theorem ofChars_cons (c : Char) (cs : List Char) :
    ofChars (c :: cs) = String.utf8EncodeChar c ++ ofChars cs :=
  List.flatMap_cons

/-- Position `k` of the text with the characters `cs` belongs to the character `c`. -/
def HasAt (cs : List Char) (k : Nat) (c : Char) : Prop :=
  ∃ before behind, cs = before ++ c :: behind ∧ (ofChars before).length ≤ k ∧
    k < (ofChars before).length + (String.utf8EncodeChar c).length

/-- Every position of a text belongs to one of its characters. -/
theorem exists_hasAt {cs : List Char} {k : Nat} (hk : k < (ofChars cs).length) :
    ∃ c ∈ cs, HasAt cs k c := by
  induction cs generalizing k with
  | nil => exact absurd hk (Nat.not_lt_zero k)
  | cons c cs ih =>
    rw [ofChars_cons, List.length_append] at hk
    rcases Nat.lt_or_ge k (String.utf8EncodeChar c).length with hlt | hge
    · refine ⟨c, List.mem_cons_self, [], cs, rfl, Nat.zero_le k, ?_⟩
      rw [show (ofChars []).length = 0 from rfl, Nat.zero_add]
      exact hlt
    · obtain ⟨d, hd, before, behind, rfl, h1, h2⟩ :=
        ih (k := k - (String.utf8EncodeChar c).length) (by omega)
      refine ⟨d, List.mem_cons_of_mem c hd, c :: before, behind, rfl, ?_, ?_⟩
      all_goals
        rw [ofChars_cons, List.length_append]
        omega

/-- A character in a part of a text. -/
theorem HasAt.append {cs : List Char} {k : Nat} {c : Char} (h : HasAt cs k c) (us vs : List Char) :
    HasAt (us ++ (cs ++ vs)) ((ofChars us).length + k) c := by
  obtain ⟨before, behind, rfl, h1, h2⟩ := h
  refine ⟨us ++ before, behind ++ vs, by simp, ?_, ?_⟩
  all_goals
    rw [ofChars_append, List.length_append]
    omega

/-- Where a character begins, a text falls into the characters before and behind. -/
theorem exists_cut {cs : List Char} {i : Nat} (hi : i ≤ (ofChars cs).length)
    (h : Starts ((ofChars cs).drop i)) : ∃ us vs, cs = us ++ vs ∧ (ofChars us).length = i := by
  induction cs generalizing i with
  | nil => exact ⟨[], [], rfl, (Nat.le_zero.1 hi).symm⟩
  | cons c cs ih =>
    rw [ofChars_cons, List.length_append] at hi
    rcases Nat.eq_zero_or_pos i with rfl | hpos
    · exact ⟨[], c :: cs, rfl, rfl⟩
    rcases Nat.lt_or_ge i (String.utf8EncodeChar c).length with hlt | hge
    · -- Inside a character there are continuation bytes only.
      obtain ⟨b, tail, hc, -, -, htail⟩ := encode_shape c
      obtain ⟨j, rfl⟩ := Nat.exists_eq_add_of_lt hpos
      rw [hc, List.length_cons] at hlt
      have hj : j < tail.length := by omega
      have hb := h tail[j] (by
        rw [ofChars_cons, hc, Nat.zero_add, List.head?_drop, List.cons_append,
          List.getElem?_cons_succ, List.getElem?_append_left hj, List.getElem?_eq_getElem hj]
        rfl)
      rw [htail _ (List.getElem_mem hj)] at hb
      cases hb
    · obtain ⟨us, vs, rfl, hlen⟩ := ih (i := i - (String.utf8EncodeChar c).length) (by omega)
        (by rwa [ofChars_cons, List.drop_append, List.drop_of_length_le hge, List.nil_append] at h)
      refine ⟨c :: us, vs, rfl, ?_⟩
      rw [ofChars_cons, List.length_append]
      omega

/-- Characters with which a text begins are the first of its characters. -/
theorem prefix_of_ofChars {cs ds : List Char} (h : ofChars ds <+: ofChars cs) : ds <+: cs := by
  obtain ⟨r, hr⟩ := h
  refine List.isPrefix_of_utf8Encode_append_eq_utf8Encode r.toByteArray ?_
  rw [List.utf8Encode, List.utf8Encode, ← List.toByteArray_append]
  exact congrArg List.toByteArray hr

/-! ## Reading characters back -/

/-- The code point of the character with a valid code. -/
theorem val_of_ofNat {n : Nat} {c : Char} (hc : Char.ofNat n = c) (h : n.isValidChar) :
    c.val.toNat = n := by
  subst hc
  rw [Char.ofNat, dif_pos h]
  rfl

/-- A byte from its number. -/
theorem ofNat_eq {n : Nat} {a : UInt8} (h : n = a.toNat) : UInt8.ofNat n = a := by
  rw [h, UInt8.ofNat_toNat]

/-- Two bytes that are read as a character are its form. -/
theorem encode_of_pair? {a b : UInt8} {x : Char} (h : pair? a b = some x) :
    String.utf8EncodeChar x = [a, b] := by
  unfold pair? at h
  split at h
  case isFalse => cases h
  next hg =>
  simp only [Bool.and_eq_true, decide_eq_true_eq, isContinuation_iff, UInt8.le_iff_toNat_le] at hg
  obtain ⟨⟨h1, h2⟩, h3, h4⟩ := hg
  simp only [UInt8.reduceToNat] at h1 h2
  generalize hn : (a.toNat - 0xC0) * 64 + payload b = n at h
  unfold payload at hn
  have hv := val_of_ofNat (Option.some.inj h) (by left; omega)
  unfold String.utf8EncodeChar
  dsimp only
  rw [hv, if_neg (by omega), if_pos (by omega)]
  rw [ofNat_eq (a := a) (by omega), ofNat_eq (a := b) (by omega)]

/-- Three bytes that are read as a character are its form. -/
theorem encode_of_triple? {a b c : UInt8} {x : Char} (h : triple? a b c = some x) :
    String.utf8EncodeChar x = [a, b, c] := by
  unfold triple? at h
  extract_lets n at h
  have hn : n = (a.toNat - 0xE0) * 4096 + (b.toNat - 0x80) * 64 + (c.toNat - 0x80) := rfl
  clear_value n
  split at h
  case isFalse => cases h
  next hg =>
  simp only [Bool.and_eq_true, Bool.not_eq_true', Bool.and_eq_false_iff, decide_eq_true_eq,
    decide_eq_false_iff_not, isContinuation_iff, UInt8.le_iff_toNat_le] at hg
  obtain ⟨⟨⟨⟨⟨h1, h2⟩, h3, h4⟩, h5, h6⟩, h7⟩, h8⟩ := hg
  simp only [UInt8.reduceToNat] at h1 h2
  have hv := val_of_ofNat (Option.some.inj h) (by unfold Nat.isValidChar; omega)
  unfold String.utf8EncodeChar
  dsimp only
  rw [hv, if_neg (by omega), if_neg (by omega), if_pos (by omega)]
  rw [ofNat_eq (a := a) (by omega), ofNat_eq (a := b) (by omega), ofNat_eq (a := c) (by omega)]

/-- Four bytes that are read as a character are its form. -/
theorem encode_of_quadruple? {a b c d : UInt8} {x : Char} (h : quadruple? a b c d = some x) :
    String.utf8EncodeChar x = [a, b, c, d] := by
  unfold quadruple? at h
  extract_lets n at h
  have hn : n = (a.toNat - 0xF0) * 262144 + (b.toNat - 0x80) * 4096 + (c.toNat - 0x80) * 64 +
    (d.toNat - 0x80) := rfl
  clear_value n
  split at h
  case isFalse => cases h
  next hg =>
  simp only [Bool.and_eq_true, decide_eq_true_eq, isContinuation_iff, UInt8.le_iff_toNat_le] at hg
  obtain ⟨⟨⟨⟨⟨⟨h1, h2⟩, h3, h4⟩, h5, h6⟩, h7, h8⟩, h9⟩, h10⟩ := hg
  simp only [UInt8.reduceToNat] at h1 h2
  have hv := val_of_ofNat (Option.some.inj h) (by unfold Nat.isValidChar; omega)
  unfold String.utf8EncodeChar
  dsimp only
  rw [hv, if_neg (by omega), if_neg (by omega), if_neg (by omega)]
  rw [ofNat_eq (a := a) (by omega), ofNat_eq (a := b) (by omega), ofNat_eq (a := c) (by omega),
    ofNat_eq (a := d) (by omega)]

/-- An ASCII byte is the form of its character. -/
theorem encode_of_ascii {a : UInt8} (h : a < 0x80) :
    String.utf8EncodeChar (Char.ofNat a.toNat) = [a] := by
  simp only [UInt8.lt_iff_toNat_lt, UInt8.reduceToNat] at h
  have hv := val_of_ofNat (n := a.toNat) rfl (by left; omega)
  unfold String.utf8EncodeChar
  dsimp only
  rw [hv, if_pos (by omega), ofNat_eq rfl]

/-- Only the UTF-8 form of characters is read as characters. -/
theorem eq_ofChars_of_decode? {t : Text} {cs : List Char} (h : decode? t = some cs) :
    t = ofChars cs := by
  fun_induction decode? t generalizing cs with
  | case1 => cases h; rfl
  | case2 a ha => cases h; simp [ofChars, encode_of_ascii ha]
  | case3 => cases h
  | case4 a b r ha ih =>
    obtain ⟨u, hu, rfl⟩ := Option.map_eq_some_iff.1 h
    simp [ofChars, encode_of_ascii ha, ih hu]
  | case5 a b r _ x hx ih =>
    obtain ⟨u, hu, rfl⟩ := Option.map_eq_some_iff.1 h
    simp [ofChars, encode_of_pair? hx, ih hu]
  | case6 => cases h
  | case7 a b _ _ c r x hx ih =>
    obtain ⟨u, hu, rfl⟩ := Option.map_eq_some_iff.1 h
    simp [ofChars, encode_of_triple? hx, ih hu]
  | case8 => cases h
  | case9 a b _ _ c _ d r x hx ih =>
    obtain ⟨u, hu, rfl⟩ := Option.map_eq_some_iff.1 h
    simp [ofChars, encode_of_quadruple? hx, ih hu]
  | case10 => cases h

/-! ## Lower-casing words -/

/-- A word byte by its number. -/
theorem isWord_of_high {b : UInt8} (h : 0x80 ≤ b.toNat) : Byte.isWord b = true := by
  simp [Byte.isWord, UInt8.le_iff_toNat_le, h]

/-- All bytes of a character outside ASCII are outside ASCII. -/
theorem encode_high {c : Char} (h : 0x80 ≤ c.val.toNat) :
    ∀ x ∈ String.utf8EncodeChar c, 0x80 ≤ x.toNat := by
  unfold String.utf8EncodeChar
  dsimp only
  rw [if_neg (by omega)]
  intro x hx
  split at hx
  case' isFalse => split at hx
  all_goals
    simp only [List.mem_cons, List.not_mem_nil, or_false] at hx
    rcases hx with rfl | rfl | rfl | rfl
  all_goals rw [UInt8.toNat_ofNat']; omega

/-- All bytes of a character outside ASCII are word bytes. -/
theorem encode_isWord_of_high {c : Char} (h : 0x80 ≤ c.val.toNat) :
    ∀ x ∈ String.utf8EncodeChar c, Byte.isWord x = true :=
  fun x hx => isWord_of_high (encode_high h x hx)

/-- All bytes of an ASCII small letter are word bytes. -/
theorem encode_isWord_of_small {c : Char} (h1 : 0x61 ≤ c.val.toNat) (h2 : c.val.toNat ≤ 0x7A) :
    ∀ x ∈ String.utf8EncodeChar c, Byte.isWord x = true := by
  unfold String.utf8EncodeChar
  dsimp only
  rw [if_pos (by omega)]
  intro x hx
  rw [List.mem_singleton] at hx
  subst hx
  have h : (UInt8.ofNat c.val.toNat).toNat = c.val.toNat := by rw [UInt8.toNat_ofNat']; omega
  simp only [Byte.isWord, Byte.isLower, Bool.or_eq_true, Bool.and_eq_true, decide_eq_true_eq,
    UInt8.le_iff_toNat_le, h, UInt8.reduceToNat]
  omega

/-- The lower-case forms of the table are small ASCII letters or characters outside ASCII. -/
theorem lowerRuns_target : ∀ r ∈ lowerRuns,
    0x61 ≤ r.target ∧ r.target + (r.last - r.first) ≤ 0x7A ∨
    0x80 ≤ r.target ∧ r.target + (r.last - r.first) < 0xD800 ∨
    0xE000 ≤ r.target ∧ r.target + (r.last - r.first) < 0x110000 := by
  decide +kernel

/-- The lower-case form of a character that is part of a word is part of a word. -/
theorem lower_char_isWord {c : Char} (h : ∀ x ∈ String.utf8EncodeChar c, Byte.isWord x = true) :
    ∀ d ∈ Letter.lower c, ∀ x ∈ String.utf8EncodeChar d, Byte.isWord x = true := by
  unfold Letter.lower
  split
  · decide
  split
  · next n hn =>
    obtain ⟨r, hr, hl⟩ := List.exists_of_findSome?_eq_some hn
    unfold CaseRun.lower? at hl
    split at hl
    case isFalse => cases hl
    next hc =>
    have hn := Option.some.inj hl
    intro d hd
    rw [List.mem_singleton] at hd
    rcases lowerRuns_target r hr with ht | ht | ht
    · have hv := val_of_ofNat hd.symm (by left; omega)
      exact encode_isWord_of_small (by omega) (by omega)
    · have hv := val_of_ofNat hd.symm (by left; omega)
      exact encode_isWord_of_high (by omega)
    · have hv := val_of_ofNat hd.symm (by right; omega)
      exact encode_isWord_of_high (by omega)
  · intro d hd
    rw [List.mem_singleton] at hd
    subst hd
    exact h

/-- Lower-casing keeps the characters of words among those of words. -/
theorem lowerAfter_isWord {cs : List Char} (before : List Char)
    (h : ∀ c ∈ cs, ∀ x ∈ String.utf8EncodeChar c, Byte.isWord x = true) :
    ∀ d ∈ Letter.lowerAfter before cs, ∀ x ∈ String.utf8EncodeChar d, Byte.isWord x = true := by
  induction cs generalizing before with
  | nil => intro d hd; cases hd
  | cons c cs ih =>
    intro d hd
    simp only [Letter.lowerAfter, List.mem_append] at hd
    rcases hd with hd | hd
    · split at hd
      · split at hd <;> (rw [List.mem_singleton] at hd; subst hd; decide)
      · exact lower_char_isWord (h c (by simp)) d hd
    · exact ih _ (fun c hc => h c (by simp [hc])) d hd

/-- The lower-case form of a word is made of word bytes. -/
theorem lower_isWord {t : Text} (h : ∀ x ∈ t, Byte.isWord x = true) :
    ∀ x ∈ t.lower, Byte.isWord x = true := by
  unfold lower
  split
  · next cs hcs =>
    have ht := eq_ofChars_of_decode? hcs
    intro x hx
    obtain ⟨d, hd, hx⟩ := List.mem_flatMap.1 hx
    refine lowerAfter_isWord [] (fun c hc y hy => h y ?_) d hd x hx
    rw [ht]
    exact List.mem_flatMap.2 ⟨c, hc, hy⟩
  · exact h

/-- The lower-case form of a character is not empty. -/
theorem lower_char_ne_nil (c : Char) : Letter.lower c ≠ [] := by
  unfold Letter.lower
  split
  · simp
  split <;> simp

/-- The lower-case form of a text that is not empty is not empty. -/
theorem lower_ne_nil {t : Text} (h : t ≠ []) : t.lower ≠ [] := by
  unfold lower
  split
  · next cs hcs =>
    have ht := eq_ofChars_of_decode? hcs
    cases cs with
    | nil => exact absurd ht h
    | cons c cs =>
      have hne : Letter.lowerAfter [] (c :: cs) ≠ [] := by
        simp only [Letter.lowerAfter]
        split
        · split <;> simp
        · simp [lower_char_ne_nil c]
      obtain ⟨d, ds, hd⟩ := List.exists_cons_of_ne_nil hne
      simp [hd, ofChars, String.utf8EncodeChar_ne_nil]
  · exact h

/-- Lower-casing keeps whole characters. -/
theorem WellFormed.lower {t : Text} (h : WellFormed t) : WellFormed t.lower := by
  unfold Text.lower
  split
  · exact wellFormed_ofChars _
  · exact h

end ProviderNest.Text
