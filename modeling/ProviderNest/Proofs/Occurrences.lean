import ProviderNest.Proofs.Migrated
import ProviderNest.Proofs.Tally

/-!
# How often a word occurs

`Text.occurrences` counts the places of a text at which a word stands, in code or not. Texts put
together have at least the occurrences of their parts, and no others where the seam has a byte that
is not in the word. What passes put in begins and ends with such bytes, so the occurrences of a word
are counted patch by patch (`occurrences_patched`).

What a pass puts in spells `default` for each entry that it nests, and `apiKey` and the environment
for each entry that it reads from the environment; there the environment was spelled before, and the
name, in lower case now, spells nothing new. `Pass.occurrences_output` says so for every word that
is told apart from what surrounds it (`Marker`), with or without regard to the case of letters.
-/

namespace ProviderNest

open LexState Source

namespace Text

/-! ## Occurrences -/

/-- The number of positions of a text at which `w` stands. -/
def occurrences (w : Text) : Text → Nat
  | [] => 0
  | b :: r => (if w.isPrefixOf (b :: r) then 1 else 0) + occurrences w r

section
variable {w u v : Text}

/-- What stands at the front of two texts put together stands at the front of the first, if a byte
at the seam is not in it. -/
theorem prefix_of_seam (hw : w ≠ []) (hu : u ≠ [])
    (hs : (∀ b ∈ u.getLast?, b ∉ w) ∨ ∀ b ∈ v.head?, b ∉ w) (h : w <+: u ++ v) : w <+: u := by
  rcases Nat.lt_or_ge u.length w.length with hlt | hge
  case inr => exact List.prefix_of_prefix_length_le h (List.prefix_append u v) hge
  -- The word reaches over the seam, so the bytes on both sides of it are in the word.
  have huw : u <+: w :=
    List.prefix_of_prefix_length_le (List.prefix_append u v) h (Nat.le_of_lt hlt)
  obtain ⟨r, rfl⟩ := huw
  have hr : r ≠ [] := by
    rintro rfl
    rw [List.append_nil] at hlt
    exact absurd hlt (Nat.lt_irrefl _)
  have hrv : r <+: v := (List.prefix_append_right_inj u).1 h
  rcases hs with hs | hs
  · exact absurd (List.mem_append_left r (List.getLast_mem hu))
      (hs _ (List.getLast?_eq_some_getLast hu))
  · obtain ⟨b, r, rfl⟩ := List.exists_cons_of_ne_nil hr
    obtain ⟨z, rfl⟩ := hrv
    exact absurd (List.mem_append_right u List.mem_cons_self) (hs b rfl)

/-- Texts put together have the occurrences of both. -/
theorem occurrences_append_le (w u v : Text) :
    occurrences w u + occurrences w v ≤ occurrences w (u ++ v) := by
  induction u with
  | nil => exact Nat.le_of_eq (Nat.zero_add _)
  | cons b u ih =>
    rw [List.cons_append, occurrences, occurrences]
    have hfront : (if w.isPrefixOf (b :: u) then 1 else 0) ≤
        if w.isPrefixOf (b :: (u ++ v)) then 1 else 0 := by
      by_cases h : w.isPrefixOf (b :: u) = true
      · have hlong : w.isPrefixOf (b :: (u ++ v)) = true :=
          List.isPrefixOf_iff_prefix.2
            ((List.isPrefixOf_iff_prefix.1 h).trans (List.prefix_append (b :: u) v))
        exact Nat.le_of_eq (by rw [if_pos h, if_pos hlong])
      · rw [if_neg h]
        exact Nat.zero_le _
    omega

/-- Texts put together have no other occurrences, if a byte at the seam is not in the word. -/
theorem occurrences_append (hw : w ≠ [])
    (hs : (∀ b ∈ u.getLast?, b ∉ w) ∨ ∀ b ∈ v.head?, b ∉ w) :
    occurrences w (u ++ v) = occurrences w u + occurrences w v := by
  induction u with
  | nil => exact (Nat.zero_add _).symm
  | cons b u ih =>
    have hrest : (∀ c ∈ u.getLast?, c ∉ w) ∨ ∀ c ∈ v.head?, c ∉ w := by
      refine hs.imp_left fun h c hc => h c ?_
      cases u with
      | nil => cases hc
      | cons d u => rwa [List.getLast?_cons_cons]
    have hfront : w.isPrefixOf (b :: (u ++ v)) = w.isPrefixOf (b :: u) := by
      rw [Bool.eq_iff_iff, List.isPrefixOf_iff_prefix, List.isPrefixOf_iff_prefix]
      constructor
      · exact fun h => prefix_of_seam hw (List.cons_ne_nil b u) hs h
      · exact fun h => h.trans (List.prefix_append (b :: u) v)
    rw [List.cons_append, occurrences, occurrences, ih hrest, hfront, Nat.add_assoc]

/-- A word does not occur where one of its bytes does not. -/
theorem occurrences_eq_zero {b : UInt8} (hb : b ∈ w) (h : b ∉ u) : occurrences w u = 0 := by
  induction u with
  | nil => rfl
  | cons c u ih =>
    rw [occurrences, ih fun hm => h (List.mem_cons_of_mem c hm), if_neg]
    intro hp
    exact h ((List.isPrefixOf_iff_prefix.1 hp).subset hb)

end

/-! ## Lower case -/

/-- The second text is the first in lower case: letters of ASCII are small, and other characters are
replaced by others, of which only `i` and `k` are letters of ASCII. -/
inductive Lowered : Text → Text → Prop
  | nil : Lowered [] []
  | ascii {b : UInt8} {u v : Text} : Lowered u v → Lowered (b :: u) (Byte.toLower b :: v)
  | other {p q u v : Text} : p ≠ [] → q ≠ [] → (∀ b ∈ p, 0x80 ≤ b.toNat) →
      (∀ b ∈ q, 0x80 ≤ b.toNat ∨ b = 0x69 ∨ b = 0x6B) → Lowered u v → Lowered (p ++ u) (q ++ v)

/-- The only character outside ASCII that becomes one letter of ASCII is the sign for kelvin. -/
theorem lowerRuns_high : ∀ r ∈ lowerRuns, r.last < 0x80 ∨ 0x80 ≤ r.target ∨
    r.target = 0x6B ∧ r.first = r.last := by
  decide +kernel

/-- The lower-case form of a letter of ASCII. -/
theorem lower_ascii : ∀ n < 0x80, ofChars (Letter.lower (Char.ofNat n)) =
    [Byte.toLower (UInt8.ofNat n)] := by
  decide +kernel

/-- The lower-case form of a character outside ASCII. -/
theorem lower_high {c : Char} (h : 0x80 ≤ c.val.toNat) :
    ∀ b ∈ ofChars (Letter.lower c), 0x80 ≤ b.toNat ∨ b = 0x69 ∨ b = 0x6B := by
  unfold Letter.lower
  split
  · decide
  split
  · next n hn =>
    obtain ⟨r, hr, hl⟩ := List.exists_of_findSome?_eq_some hn
    unfold CaseRun.lower? at hl
    split at hl
    case isFalse => cases hl
    next hc =>
    have hn := Option.some.inj hl
    have hval : 0x80 ≤ c.toNat := h
    rw [ofChars, List.flatMap_singleton]
    have hvalid : n.isValidChar := by
      rcases lowerRuns_target r hr with ht | ht | ht
      · left; omega
      · left; omega
      · right; omega
    rcases lowerRuns_high r hr with ht | ht | ht
    · omega
    · intro b hb
      exact .inl (encode_high (by rw [val_of_ofNat rfl hvalid]; omega) b hb)
    · obtain rfl : n = 0x6B := by omega
      decide
  · intro b hb
    rw [ofChars, List.flatMap_singleton] at hb
    exact .inl (encode_high h b hb)

theorem ofChars_ne_nil {cs : List Char} (h : cs ≠ []) : ofChars cs ≠ [] := by
  obtain ⟨c, cs, rfl⟩ := List.exists_cons_of_ne_nil h
  rw [ofChars, List.flatMap_cons]
  exact List.append_ne_nil_of_left_ne_nil String.utf8EncodeChar_ne_nil _

/-- A text is lowered one character at a time. -/
theorem lowered_lowerAfter (before cs : List Char) :
    Lowered (ofChars cs) (ofChars (Letter.lowerAfter before cs)) := by
  induction cs generalizing before with
  | nil => exact .nil
  | cons c cs ih =>
    have happ (small : List Char) : ofChars (small ++ Letter.lowerAfter (c :: before) cs) =
        ofChars small ++ ofChars (Letter.lowerAfter (c :: before) cs) := List.flatMap_append
    have hsplit : ofChars (c :: cs) = String.utf8EncodeChar c ++ ofChars cs := List.flatMap_cons
    rw [Letter.lowerAfter, hsplit, happ]
    rcases Nat.lt_or_ge c.val.toNat 0x80 with hlt | hge
    · have hc : c = Char.ofNat c.toNat := (Char.ofNat_toNat c).symm
      have hbyte : (UInt8.ofNat c.toNat).toNat = c.toNat := by
        rw [UInt8.toNat_ofNat']
        exact Nat.mod_eq_of_lt (Nat.lt_trans hlt (by decide))
      have henc : String.utf8EncodeChar c = [UInt8.ofNat c.toNat] := by
        have := encode_of_ascii (a := UInt8.ofNat c.toNat) (by
          rw [UInt8.lt_iff_toNat_lt, hbyte]
          exact hlt)
        rwa [hbyte, ← hc] at this
      have hsigma : c ≠ 'Σ' := by
        rintro rfl
        exact absurd hlt (by decide)
      rw [if_neg hsigma, henc]
      have hlow := lower_ascii c.toNat hlt
      rw [← hc] at hlow
      rw [hlow]
      exact .ascii (ih _)
    · refine .other String.utf8EncodeChar_ne_nil ?_ (encode_high hge) ?_ (ih _)
      · split
        · split <;> decide
        · exact ofChars_ne_nil (lower_char_ne_nil c)
      · split
        · split <;> decide
        · exact lower_high hge

/-- The lower-case form of a text, by the definition of its characters, is lowered byte by byte. -/
theorem lowered_lower {t : Text} {cs : List Char} (h : decode? t = some cs) :
    Lowered t t.lower := by
  have ht := eq_ofChars_of_decode? h
  rw [lower, h, ht]
  exact lowered_lowerAfter [] cs

/-- What lower-casing a byte does, for every byte. -/
theorem toLower_cases : ∀ n < 256, Byte.isUpper (Byte.toLower (UInt8.ofNat n)) = false ∧
    Byte.toLower (Byte.toLower (UInt8.ofNat n)) = Byte.toLower (UInt8.ofNat n) ∧
    (Byte.isWord (UInt8.ofNat n) = false ∨ 0x80 ≤ n →
      Byte.toLower (UInt8.ofNat n) = UInt8.ofNat n) := by
  decide +kernel

/-- What lower-casing makes of a byte is no capital, and lower-casing leaves it as it is. A byte
that is no word byte or not ASCII stays too. -/
theorem toLower_spec (b : UInt8) : Byte.isUpper (Byte.toLower b) = false ∧
    Byte.toLower (Byte.toLower b) = Byte.toLower b ∧
    (Byte.isWord b = false ∨ 0x80 ≤ b.toNat → Byte.toLower b = b) := by
  have := toLower_cases b.toNat b.toNat_lt
  rwa [UInt8.ofNat_toNat] at this

/-- In lower case there are no capital letters of ASCII. -/
theorem Lowered.isUpper {u v : Text} (h : Lowered u v) : ∀ b ∈ v, Byte.isUpper b = false := by
  induction h with
  | nil => exact fun b hb => nomatch hb
  | @ascii a u v _ ih =>
    intro b hb
    rcases List.mem_cons.1 hb with rfl | hb
    · exact (toLower_spec a).1
    · exact ih b hb
  | @other p q u v _ _ _ hq _ ih =>
    intro b hb
    rcases List.mem_append.1 hb with hb | hb
    case inr => exact ih b hb
    rcases hq b hb with hb | rfl | rfl
    · rw [← (toLower_spec b).2.2 (.inr hb)]
      exact (toLower_spec b).1
    · decide
    · decide

/-- A word of small letters in which lower-casing puts nothing new. -/
def Steady (w : Text) : Prop := ∀ b ∈ w, b.toNat < 0x80 ∧ b ≠ 0x69 ∧ b ≠ 0x6B

instance (w : Text) : Decidable (Steady w) := inferInstanceAs (Decidable (∀ b ∈ w, _))

/-- Neither a byte outside ASCII nor one of the two letters that lower-casing puts in is in a steady
word. -/
theorem Steady.not_mem {w : Text} {b : UInt8} (h : Steady w)
    (hb : 0x80 ≤ b.toNat ∨ b = 0x69 ∨ b = 0x6B) : Byte.toLower b ∉ w := by
  intro hm
  obtain ⟨h1, h2, h3⟩ := h _ hm
  rcases hb with hb | rfl | rfl
  · rw [(toLower_spec b).2.2 (.inr hb)] at h1
    omega
  · exact h2 (by decide)
  · exact h3 (by decide)

/-- A word stands at the front of a text in lower case exactly if it stands at the front of the text
without regard to the case of letters. -/
theorem Lowered.prefix_iff {u v w : Text} (h : Lowered u v) (hw : Steady w) :
    w <+: v.map Byte.toLower ↔ w <+: u.map Byte.toLower := by
  have hfirst {c : UInt8} {r p x : Text} (hs : Steady (c :: r)) (hp : p ≠ [])
      (hall : ∀ b ∈ p, 0x80 ≤ b.toNat ∨ b = 0x69 ∨ b = 0x6B) :
      ¬ c :: r <+: (p ++ x).map Byte.toLower := by
    obtain ⟨b, p, rfl⟩ := List.exists_cons_of_ne_nil hp
    intro hpre
    obtain ⟨rfl, -⟩ := List.cons_prefix_cons.1 hpre
    exact hs.not_mem (hall b List.mem_cons_self) List.mem_cons_self
  induction h generalizing w with
  | nil => exact Iff.rfl
  | @ascii b u v _ ih =>
    cases w with
    | nil => exact ⟨fun _ => List.nil_prefix, fun _ => List.nil_prefix⟩
    | cons c w =>
      rw [List.map_cons, List.map_cons, List.cons_prefix_cons, List.cons_prefix_cons,
        (toLower_spec b).2.1]
      exact and_congr_right fun _ => ih fun x hx => hw x (List.mem_cons_of_mem c hx)
  | @other p q u v hp hq hpa hqa _ _ =>
    cases w with
    | nil => exact ⟨fun _ => List.nil_prefix, fun _ => List.nil_prefix⟩
    | cons c w =>
      refine ⟨fun h => absurd h (hfirst hw hq hqa), fun h => absurd h (hfirst hw hp ?_)⟩
      exact fun b hb => .inl (hpa b hb)

/-- Lower-casing a text makes no new word. -/
theorem Lowered.occurrences {u v w : Text} (h : Lowered u v) (hw : Steady w) (hne : w ≠ []) :
    Text.occurrences w (v.map Byte.toLower) = Text.occurrences w (u.map Byte.toLower) := by
  have hskip {p x : Text} (hall : ∀ b ∈ p, 0x80 ≤ b.toNat ∨ b = 0x69 ∨ b = 0x6B) :
      Text.occurrences w ((p ++ x).map Byte.toLower) =
        Text.occurrences w (x.map Byte.toLower) := by
    have hnot : ∀ b ∈ p.map Byte.toLower, b ∉ w := by
      intro b hb
      obtain ⟨a, ha, rfl⟩ := List.mem_map.1 hb
      exact hw.not_mem (hall a ha)
    obtain ⟨c, w, rfl⟩ := List.exists_cons_of_ne_nil hne
    rw [List.map_append, occurrences_append hne (.inl fun b hb => hnot b (List.mem_of_getLast? hb)),
      occurrences_eq_zero List.mem_cons_self fun hc => hnot c hc List.mem_cons_self, Nat.zero_add]
  induction h with
  | nil => rfl
  | @ascii b u v h ih =>
    have hfront := (Lowered.ascii (b := b) h).prefix_iff hw
    simp only [List.map_cons, ← List.isPrefixOf_iff_prefix] at hfront
    rw [List.map_cons, List.map_cons, Text.occurrences, Text.occurrences, ih,
      Bool.eq_iff_iff.2 hfront]
  | other _ _ hp hq _ ih => rw [hskip hq, hskip fun b hb => .inl (hp b hb), ih]

/-! ## Words that are told apart -/

/-- The word `w` is made of word bytes, seen through `f`, and lower-casing makes it nowhere. -/
structure Marker (f : UInt8 → UInt8) (w : Text) : Prop where
  ne_nil : w ≠ []
  apart : ∀ b, Byte.isWord b = false → f b ∉ w
  lower : ∀ u : Text, occurrences w (u.lower.map f) ≤ occurrences w (u.map f)

/-- A text without word bytes. -/
def Wordless (u : Text) : Prop := ∀ b ∈ u, Byte.isWord b = false

instance (u : Text) : Decidable (Wordless u) := inferInstanceAs (Decidable (∀ b ∈ u, _))

/-- A text without word bytes behind another one has none. -/
theorem Wordless.append {u v : Text} (hu : Wordless u) (hv : Wordless v) : Wordless (u ++ v) :=
  fun b hb => (List.mem_append.1 hb).elim (hu b) (hv b)

/-- An indentation has no word bytes. -/
theorem IsIndent.wordless {u : Text} (h : IsIndent u) : Wordless u := by
  intro b hb
  rcases h b hb with rfl | rfl <;> decide

/-- A word of small letters without regard to the case of letters. -/
theorem marker_steady {w : Text} (hne : w ≠ []) (hs : Steady w)
    (hw : ∀ b ∈ w, Byte.isWord b = true) : Marker Byte.toLower w where
  ne_nil := hne
  apart b hb hm := by
    rw [(toLower_spec b).2.2 (.inl hb)] at hm
    rw [hw b hm] at hb
    cases hb
  lower u := by
    cases h : decode? u with
    | none => exact Nat.le_of_eq (by rw [Text.lower, h])
    | some cs => exact Nat.le_of_eq ((lowered_lower h).occurrences hs hne)

/-- The word `default`, in any case, is made nowhere by lower-casing. -/
theorem marker_nestedKey : Marker Byte.toLower nestedKey :=
  marker_steady (by decide) (by decide) (by decide)

/-- The word `process`, in any case, is made nowhere by lower-casing. -/
theorem marker_process : Marker Byte.toLower (.ofString "process") :=
  marker_steady (by decide) (by decide) (by decide)

/-- The field `apiKey` has a capital letter. -/
theorem marker_apiKeyField : Marker id apiKeyField where
  ne_nil := by decide
  apart b hb hm := by
    have hall : ∀ c ∈ apiKeyField, Byte.isWord c = true := by decide
    rw [hall b hm] at hb
    cases hb
  lower u := by
    cases h : decode? u with
    | none => exact Nat.le_of_eq (by rw [Text.lower, h])
    | some cs =>
      have hcapital : 0x4B ∉ u.lower.map id := by
        rw [List.map_id]
        intro hm
        exact absurd ((lowered_lower h).isUpper _ hm) (by decide)
      rw [occurrences_eq_zero (b := 0x4B) (by decide) hcapital]
      exact Nat.zero_le _

namespace Marker

variable {f : UInt8 → UInt8} {w u v : Text}

/-- A marker does not occur in a text without word bytes. -/
theorem occurrences_wordless (hm : Marker f w) (hu : Wordless u) :
    occurrences w (u.map f) = 0 := by
  obtain ⟨c, hc⟩ := List.exists_mem_of_ne_nil w hm.ne_nil
  refine occurrences_eq_zero hc fun h => ?_
  obtain ⟨b, hb, rfl⟩ := List.mem_map.1 h
  exact hm.apart b (hu b hb) hc

/-- Texts put together at a byte that is not part of a word. -/
theorem occurrences_append (hm : Marker f w) (hs : (∀ b ∈ u.getLast?, Byte.isWord b = false) ∨
      ∀ b ∈ v.head?, Byte.isWord b = false) :
    occurrences w ((u ++ v).map f) = occurrences w (u.map f) + occurrences w (v.map f) := by
  rw [List.map_append]
  refine Text.occurrences_append hm.ne_nil (hs.imp (fun h b hb => ?_) fun h b hb => ?_)
  · rw [List.getLast?_map] at hb
    obtain ⟨a, ha, rfl⟩ := Option.map_eq_some_iff.1 hb
    exact hm.apart a (h a ha)
  · rw [List.head?_map] at hb
    obtain ⟨a, ha, rfl⟩ := Option.map_eq_some_iff.1 hb
    exact hm.apart a (h a ha)

/-- Bytes that are not part of a word make no difference before a text. -/
theorem occurrences_behind (hm : Marker f w) (hu : Wordless u) :
    occurrences w ((u ++ v).map f) = occurrences w (v.map f) := by
  rw [hm.occurrences_append (.inl fun b hb => hu b (List.mem_of_getLast? hb)),
    hm.occurrences_wordless hu, Nat.zero_add]

/-- Bytes that are not part of a word make no difference behind a text. -/
theorem occurrences_before (hm : Marker f w) (hv : Wordless v) :
    occurrences w ((u ++ v).map f) = occurrences w (u.map f) := by
  rw [hm.occurrences_append (.inr fun b hb => hv b (List.mem_of_head? hb)),
    hm.occurrences_wordless hv, Nat.add_zero]

end Marker

end Text

/-! ## What patches put in -/

section
variable {t : Text} {i j : Nat} {f : UInt8 → UInt8} {w : Text}

/-- What a patch puts in begins and ends with bytes that are not part of a word, or such a byte
stands before it. -/
structure Patch.Edged (t : Text) (q : Patch) : Prop where
  ne_nil : q.text ≠ []
  ends : ∀ b ∈ q.text.getLast?, Byte.isWord b = false
  begins : (∀ b ∈ q.text.head?, Byte.isWord b = false) ∨
    ∀ b, t[q.span.start - 1]? = some b → q.span.start ≠ 0 → Byte.isWord b = false

/-- What stands behind a nested configuration has no word bytes. -/
theorem wordless_back {indent : Text} (hi : indent.IsIndent) : Text.Wordless (back indent) := by
  have h1 : Text.Wordless (.ofString ",\n") := by decide
  have h2 : Text.Wordless (.ofString "\x7d") := by decide
  exact (h1.append hi.wordless).append h2

/-- A patch that puts in no word bytes joins no words. -/
theorem edged_of_wordless {q : Patch} (hne : q.text ≠ []) (h : Text.Wordless q.text) :
    q.Edged t :=
  ⟨hne, fun b hb => h b (List.mem_of_getLast? hb), .inl fun b hb => h b (List.mem_of_head? hb)⟩

/-- A gap laid out anew has no word bytes. -/
theorem wordless_gap {lead indent : Text} (hg : IsGap t i j lead) (hi : indent.IsIndent) :
    Text.Wordless (lead ++ Byte.newline :: indent) := by
  have hlead : Text.Wordless lead := by
    rcases hg.opens with ⟨rfl, -⟩ | ⟨rfl, -⟩ <;> decide
  have hline : Text.Wordless [Byte.newline] := by decide
  exact hlead.append (hline.append hi.wordless)

/-- No patch of a pass joins what it puts in with a word of the text. -/
theorem Patch.Made.edged {q : Patch} (h : q.Made t) : q.Edged t := by
  have hlast {u v : Text} (hv : v ≠ []) (hw : Text.Wordless v) : u ++ v ≠ [] ∧
      ∀ b ∈ (u ++ v).getLast?, Byte.isWord b = false := by
    refine ⟨List.append_ne_nil_of_right_ne_nil _ hv, fun b hb => hw b ?_⟩
    rw [List.getLast?_append] at hb
    cases hl : v.getLast? with
    | none => exact absurd (List.getLast?_eq_none_iff.1 hl) hv
    | some c =>
      rw [hl] at hb
      exact Option.some.inj hb ▸ List.mem_of_getLast? hl
  cases h with
  | @flatFront e colon indent he hi =>
    have := hlast (u := .ofString ": \x7b\n" ++ indent ++ .ofString "  " ++ nestedKey)
      (v := .ofString ": ") (by decide) (by decide)
    refine ⟨this.1, this.2, .inl fun b hb => ?_⟩
    obtain rfl : Byte.colon = b := Option.some.inj hb
    decide
  | flatBack he hi => exact edged_of_wordless (back_ne_nil _) (wordless_back hi)
  | @envFront e colon value stop indent he hi =>
    have := hlast (u := ((ofText t).bytes e.name).lower ++ front indent ++ .ofString "\x7b " ++
      apiKeyField ++ .ofString ": " ++ .ofString "process.env") (v := .ofString ".")
      (by decide) (by decide)
    rw [List.append_assoc] at this
    refine ⟨this.1, this.2, .inr fun b hb h0 => ?_⟩
    obtain ⟨c, hc, hcw⟩ := he.key.word.edge.resolve_left h0
    rw [hb] at hc
    cases hc
    exact hcw
  | envBack he hi =>
    have hbrace : Text.Wordless (.ofString " \x7d") := by decide
    exact edged_of_wordless (List.append_ne_nil_of_right_ne_nil _ (back_ne_nil _))
      (hbrace.append (wordless_back hi))
  | gap hg hi =>
    exact edged_of_wordless (List.append_ne_nil_of_right_ne_nil _ (List.cons_ne_nil _ _))
      (wordless_gap hg hi)

/-- The occurrences that a patch adds. -/
def Patch.gain (t : Text) (f : UInt8 → UInt8) (w : Text) (q : Patch) : Nat :=
  Text.occurrences w (q.text.map f) - Text.occurrences w (((ofText t).bytes q.span).map f)

/-- The last byte of a part. -/
theorem getLast?_bytes {b : UInt8} (hij : i ≤ j) (hj : j ≤ t.length)
    (hb : b ∈ ((ofText t).bytes ⟨i, j⟩).getLast?) : t[j - 1]? = some b ∧ j ≠ 0 := by
  have hlen := length_bytes (s := ofText t) (x := ⟨i, j⟩) hij (by rwa [size_ofText])
  dsimp only at hlen
  rw [List.getLast?_eq_getElem?] at hb
  have hlt := (List.getElem?_eq_some_iff.1 hb).1
  rw [hlen, getElem?_bytes (by dsimp only; omega), byte?_ofText] at hb
  dsimp only at hb
  rw [show i + (j - i - 1) = j - 1 by omega] at hb
  exact ⟨hb, by omega⟩

/-- The occurrences around a span and in it. -/
theorem occurrences_parts_le {x : Span} (h1 : i ≤ x.start) (h2 : x.start ≤ x.stop)
    (h3 : x.stop ≤ j) :
    Text.occurrences w (((ofText t).bytes ⟨i, x.start⟩).map f) +
        (Text.occurrences w (((ofText t).bytes x).map f) +
          Text.occurrences w (((ofText t).bytes ⟨x.stop, j⟩).map f)) ≤
      Text.occurrences w (((ofText t).bytes ⟨i, j⟩).map f) := by
  rw [← bytes_append (s := ofText t) h1 (Nat.le_trans h2 h3), ← bytes_append (s := ofText t) h2 h3,
    List.map_append, List.map_append]
  have h4 := Text.occurrences_append_le w (((ofText t).bytes x).map f)
    (((ofText t).bytes ⟨x.stop, j⟩).map f)
  exact Nat.le_trans (Nat.add_le_add_left h4 _) (Text.occurrences_append_le ..)

/-- The occurrences before a patch, in it and behind it. -/
theorem occurrences_patched_cons (hm : Text.Marker f w) {q : Patch} (qs : List Patch) (j : Nat)
    (hq : q.Edged t) (hi : i ≤ q.span.start) (hs : q.span.start ≤ t.length) :
    Text.occurrences w (((ofText t).patched j i (q :: qs)).map f) =
      Text.occurrences w (((ofText t).bytes ⟨i, q.span.start⟩).map f) +
        (Text.occurrences w (q.text.map f) +
          Text.occurrences w (((ofText t).patched j q.span.stop qs).map f)) := by
  have hsplit : (ofText t).patched j i (q :: qs) = (ofText t).bytes ⟨i, q.span.start⟩ ++
      (q.text ++ (ofText t).patched j q.span.stop qs) := by
    rw [patched, mend, List.append_assoc]
    rfl
  rw [hsplit, hm.occurrences_append, hm.occurrences_append (.inl hq.ends)]
  rcases hq.begins with hb | hb
  · refine .inr fun b hh => hb b ?_
    rwa [List.head?_append, List.head?_eq_some_head hq.ne_nil, Option.some_or,
      ← List.head?_eq_some_head hq.ne_nil] at hh
  · -- The byte before the patch is the last that is kept there.
    refine .inl fun b hh => ?_
    obtain ⟨hbyte, h0⟩ := getLast?_bytes hi hs hh
    exact hb b hbyte h0

/-- **The occurrences of a word after patches** are those before, and what each patch adds. -/
theorem occurrences_patched (hm : Text.Marker f w) {qs : List Patch}
    (hf : Follow Patch.span i j qs) (hj : j ≤ t.length) (hq : ∀ q ∈ qs, q.Edged t) :
    Text.occurrences w (((ofText t).patched j i qs).map f) ≤
      Text.occurrences w (((ofText t).bytes ⟨i, j⟩).map f) + (qs.map (Patch.gain t f w)).sum := by
  induction hf with
  | nil => exact Nat.le_refl _
  | @cons i j q qs h1 h2 h3 ih =>
    have ih := ih hj fun r hr => hq r (by simp [hr])
    have hle := h3.le
    have hparts := occurrences_patched_cons hm qs j (hq q (by simp)) h1 (by omega)
    have hbefore := occurrences_parts_le (t := t) (w := w) (f := f) h1 h2 hle
    rw [hparts, List.map_cons, List.sum_cons, Patch.gain]
    omega

/-- What is put in before a configuration spells the key `default`. -/
theorem occurrences_front (hm : Text.Marker f w) {indent : Text} (hi : indent.IsIndent) :
    Text.occurrences w ((front indent).map f) = Text.occurrences w (nestedKey.map f) := by
  have hopen : Text.Wordless (.ofString ": \x7b\n" ++ indent ++ .ofString "  ") := by
    have h1 : Text.Wordless (.ofString ": \x7b\n") := by decide
    have h2 : Text.Wordless (.ofString "  ") := by decide
    exact (h1.append hi.wordless).append h2
  rw [front, hm.occurrences_before (by decide), hm.occurrences_behind hopen]

/-- What is put in for an entry read from the environment spells the name in lower case, the key
`default`, the field `apiKey` and the environment. -/
theorem occurrences_head_env (hm : Text.Marker f w) {e : EnvEntry} {indent : Text}
    (hi : indent.IsIndent) :
    Text.occurrences w ((e.change (ofText t) indent).head.map f) =
      Text.occurrences w (((ofText t).bytes e.name).lower.map f) +
        Text.occurrences w (nestedKey.map f) + Text.occurrences w (apiKeyField.map f) +
        Text.occurrences w (environment.map f) := by
  have hlast {u v : Text} (hv : Text.Wordless v) (hne : v ≠ []) :
      ∀ b ∈ (u ++ v).getLast?, Byte.isWord b = false := by
    intro b hb
    rw [List.getLast?_append, List.getLast?_eq_some_getLast hne, Option.some_or] at hb
    exact hv b (List.mem_of_getLast? ((List.getLast?_eq_some_getLast hne).trans hb))
  have hfront : ∀ b ∈ (front indent).head?, Byte.isWord b = false := by
    intro b hb
    obtain rfl : Byte.colon = b := Option.some.inj hb
    decide
  rw [EnvEntry.change]
  dsimp only
  rw [hm.occurrences_append (.inl (hlast (by decide) (by decide))),
    hm.occurrences_before (by decide), hm.occurrences_append (.inl (hlast (by decide) (by decide))),
    hm.occurrences_before (by decide), hm.occurrences_append (.inr hfront), occurrences_front hm hi]

/-- An entry read from the environment spells its name and the environment. -/
theorem occurrences_taken_env {e : EnvEntry} {colon value stop : Nat}
    (h : (ofText t).IsEnv e colon value stop) :
    Text.occurrences w (((ofText t).bytes e.name).map f) +
        Text.occurrences w (environment.map f) ≤
      Text.occurrences w (((ofText t).bytes ⟨e.name.start, e.var.start⟩).map f) := by
  have ho := h.order
  have hvalue : (ofText t).bytes ⟨value, e.var.start⟩ = environment := by
    rw [bytes_eq, h.slice_value, map_byte_codeCells]
  have hsplit : (ofText t).bytes ⟨e.name.start, e.var.start⟩ = (ofText t).bytes e.name ++
      (ofText t).bytes ⟨e.name.stop, value⟩ ++ environment := by
    rw [← hvalue, ← bytes_append (s := ofText t) (j := value) (by omega) (by omega),
      ← bytes_append (s := ofText t) (j := e.name.stop) (k := value) (by omega) (by omega)]
  rw [hsplit, List.map_append, List.map_append]
  have h1 := Text.occurrences_append_le w (((ofText t).bytes e.name).map f)
    (((ofText t).bytes ⟨e.name.stop, value⟩).map f)
  have h2 := Text.occurrences_append_le w (((ofText t).bytes e.name).map f ++
    ((ofText t).bytes ⟨e.name.stop, value⟩).map f) (environment.map f)
  exact Nat.le_trans (Nat.add_le_add_right (Nat.le_trans (Nat.le_add_right ..) h1) _) h2

/-- **The occurrences that a pass adds**: those in `default` for each entry that it nests, and
those in `apiKey` for each entry read from the environment. -/
theorem Pass.occurrences_output (p : Pass) (ht : t.WellFormed) (hm : Text.Marker f w) {n e : Nat}
    (h : Tallied t n e (p.changes t)) :
    Text.occurrences w ((p.output t).map f) ≤ Text.occurrences w (t.map f) +
      (Text.occurrences w (nestedKey.map f) * n +
        (Text.occurrences w (nestedKey.map f) + Text.occurrences w (apiKeyField.map f)) * e) := by
  obtain ⟨hcells, hfollow⟩ := p.cells_output ht
  have hout : p.output t = (ofText t).patched t.length 0 (p.patches t) := by
    rw [← map_byte_mended, ← hcells, ← Source.text, text_ofText]
  have hwhole : (ofText t).bytes ⟨0, t.length⟩ = t := by
    rw [bytes_eq, map_byte_slice]
    dsimp only
    rw [List.drop_zero, Nat.sub_zero, List.take_length]
  have hsum := h.sum_patches (w := Patch.gain t f w) (r := (· ≤ ·)) (Nat.le_refl 0) Nat.add_le_add
    (a := Text.occurrences w (nestedKey.map f))
    (b := Text.occurrences w (nestedKey.map f) + Text.occurrences w (apiKeyField.map f))
    (fun {entry colon indent} hflat hi => ?_) (fun {entry colon value stop indent} henv hi => ?_)
    (fun hg hi => ?_)
  · have hpatched := occurrences_patched hm hfollow (Nat.le_refl _)
      fun q hq => (p.made_patches ht q hq).edged
    rw [hout]
    rw [hwhole] at hpatched
    exact Nat.le_trans hpatched (Nat.add_le_add_left hsum _)
  · have hback := hm.occurrences_wordless (wordless_back hi)
    have hfront := occurrences_front hm hi
    rw [patches_flat]
    simp only [List.map_cons, List.map_nil, List.sum_cons, List.sum_nil, Patch.gain]
    omega
  · have hback := hm.occurrences_wordless (Text.Wordless.append
      (show Text.Wordless (.ofString " \x7d") by decide) (wordless_back hi))
    have hhead := occurrences_head_env (t := t) hm (e := entry) hi
    have htaken := occurrences_taken_env (f := f) (w := w) henv
    have hlower := hm.lower ((ofText t).bytes entry.name)
    rw [patches_env]
    simp only [List.map_cons, List.map_nil, List.sum_cons, List.sum_nil, Patch.gain]
    omega
  · have hgap := hm.occurrences_wordless (wordless_gap hg hi)
    rw [Patch.gain]
    dsimp only
    omega

end

end ProviderNest
