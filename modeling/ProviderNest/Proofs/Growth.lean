import Mathlib.Tactic.Choose
import ProviderNest.Proofs.Wrapping

/-!
# How many brackets a run can leave

A run of many passes may leave a text that is much longer than the one it began with. The brackets
of its code are another matter: of each side there are never more than the first text has bytes
(`TalliedRun.countP_le`). For every flat entry that was nested there is a field `apiKey` in front of
a nested configuration, and these fields were there before unless they were written out for a
variable; for every variable there is a `process` behind such a field, and that was there before in
any case. So the entries that a run can nest are counted by words of the first text, and each of
these words has bytes of its own, besides the brackets.
-/

namespace ProviderNest

open Source

namespace Text

/-- Every occurrence of a word has its own byte at each place of the word. -/
theorem occurrences_le_count {w u : Text} {k : Nat} {b : UInt8} (hk : w[k]? = some b) :
    occurrences w u ≤ u.count b := by
  suffices h : occurrences w u ≤ (u.drop k).count b from
    h.trans ((List.drop_sublist k u).count_le b)
  induction u with
  | nil => exact Nat.zero_le _
  | cons c r ih =>
    rw [occurrences]
    split
    case isTrue hp =>
      obtain ⟨v, hv⟩ := List.isPrefixOf_iff_prefix.1 hp
      have hb : (c :: r)[k]? = some b := by
        rw [← hv, List.getElem?_append_left (List.getElem?_eq_some_iff.1 hk).1, hk]
      rw [drop_eq_cons hb, List.drop_succ_cons, List.count_cons_self]
      omega
    case isFalse =>
      rw [Nat.zero_add]
      exact ih.trans (((List.sublist_cons_self c r).drop k).count_le b)

end Text

/-- Positions that are tied to different ones with a property are no more than those. -/
theorem card_le_countP_of {S : Finset Nat} {n : Nat} {P : Nat → Bool} {R : Nat → Nat → Prop}
    (h : ∀ o ∈ S, ∃ i, i < n ∧ P i = true ∧ R o i)
    (hinj : ∀ o o' i, o < o' → R o i → ¬ R o' i) : S.card ≤ (List.range n).countP P := by
  choose! g hg using h
  have hcard : (S.image g).card = S.card := by
    refine Finset.card_image_of_injOn fun a ha b hb hab => ?_
    have hga := (hg a ha).2.2
    have hgb := (hg b hb).2.2
    rw [← hab] at hgb
    rcases Nat.lt_trichotomy a b with hlt | heq | hlt
    · exact absurd hgb (hinj a b _ hlt hga)
    · exact heq
    · exact absurd hga (hinj b a _ hlt hgb)
  rw [← hcard]
  refine card_le_countP fun i hi => ?_
  obtain ⟨o, ho, rfl⟩ := Finset.mem_image.1 hi
  exact ⟨(hg o ho).1, (hg o ho).2.1⟩

section
variable {t : Text}

/-- A part that is spelled out in code begins there in the text. -/
theorem begins_of_slice {i : Nat} {w : Text}
    (h : (ofText t).slice i (i + w.length) = codeCells w) : w <+: t.drop i := by
  have := congrArg (List.map Cell.byte) h
  rw [map_byte_slice, Nat.add_sub_cancel_left, map_byte_codeCells] at this
  rw [← this]
  exact List.take_prefix _ _

/-- Every nested configuration has a field `apiKey` of its own. -/
theorem Stock.le_fields {k j : Nat} (h : Stock t k j) : k ≤ Text.occurrences apiKeyField t := by
  obtain ⟨A, rfl, hA⟩ := h.nested
  rw [Text.occurrences_eq_countP]
  refine card_le_countP_of (R := fun o i => ∃ key colon, FirstField (ofText t) o key colon ∧
    key.name.start = i) (fun o ho => ?_) ?_
  · obtain ⟨key, colon, hfirst⟩ := (opensConfiguration_iff (hA o ho).brace).1 (hA o ho).leads
    have hword := hfirst.isKey.word
    have hle := hword.stop_le
    rw [size_ofText] at hle
    refine ⟨_, Nat.lt_of_lt_of_le hword.lt hle, List.isPrefixOf_iff_prefix.2 ?_, _, _, hfirst, rfl⟩
    rw [← hfirst.name_eq]
    exact bytes_begins t key.name
  · rintro o o' i hlt ⟨key, colon, hfirst, rfl⟩ ⟨key', colon', hfirst', heq⟩
    -- The second brace would stand between the first one and its field.
    have hle := hfirst'.le
    have hstop := hfirst.isKey.stop_le_colon
    have hword := hfirst.isKey.word.lt
    exact (hfirst.zone.not_code (Nat.le_of_lt hlt) (by omega)).2.2 (by omega) hfirst'.brace

/-- Every configuration that is read from the environment has a `process` of its own. -/
theorem Stock.le_reads {k j : Nat} (h : Stock t k j) :
    j ≤ Text.occurrences (.ofString "process") (t.map Byte.toLower) := by
  obtain ⟨B, rfl, hB⟩ := h.pinned
  rw [Text.occurrences_eq_countP, List.length_map]
  refine card_le_countP_of (R := fun o i => ∃ key colon, FirstField (ofText t) o key colon ∧
    (ofText t).slice key.value (key.value + 8) = codeCells (.ofString "process.") ∧
    key.value = i) (fun o ho => ?_) ?_
  · obtain ⟨key, colon, hfirst, hreads⟩ := (hB o ho).reads
    have hbegins := begins_of_slice (w := .ofString "process.") hreads
    have hlen := hbegins.length_le
    rw [List.length_drop, show (Text.ofString "process.").length = 8 by decide] at hlen
    refine ⟨key.value, by omega, List.isPrefixOf_iff_prefix.2 ?_, _, _, hfirst, hreads, rfl⟩
    have hlower := hbegins.map Byte.toLower
    rw [List.map_drop] at hlower
    exact List.IsPrefix.trans (by decide) hlower
  · rintro o o' i hlt ⟨key, colon, hfirst, hreads, rfl⟩ ⟨key', colon', hfirst', -, heq⟩
    have hle := hfirst'.le
    have hstop := hfirst'.isKey.stop_le_colon
    have hword := hfirst'.isKey.word.lt
    have hvalue := hfirst'.isKey.colon_lt_value
    exact ((hfirst.zone_reads hreads).not_code (Nat.le_of_lt hlt) (by omega)).2.2 (by omega)
      hfirst'.brace

end

/-- No byte is a bracket of one side and a letter of the counted words at once. -/
theorem byte_classes {bs : List UInt8} (hs : OneSide bs) (b : UInt8) :
    (if bs.contains b then 1 else 0) + (if b == 0x4B then 1 else 0) +
      (if Byte.toLower b == 0x72 then 1 else 0) +
      (if Byte.toLower b == 0x6F then 1 else 0) ≤ 1 := by
  have hall : ∀ n < 256, ∀ bs ∈ [Text.openers, Text.closers],
      (if bs.contains (UInt8.ofNat n) then 1 else 0) + (if UInt8.ofNat n == 0x4B then 1 else 0) +
        (if Byte.toLower (UInt8.ofNat n) == 0x72 then 1 else 0) +
        (if Byte.toLower (UInt8.ofNat n) == 0x6F then 1 else 0) ≤ 1 := by decide +kernel
  have := hall b.toNat b.toNat_lt bs (by rcases hs with rfl | rfl <;> simp)
  rwa [UInt8.ofNat_toNat] at this

/-- Brackets and words do not share bytes. -/
theorem countP_add_occurrences_le (t : Text) {bs : List UInt8} (hs : OneSide bs) :
    (ofText t).cells.toList.countP (Cell.isOneOf bs) + Text.occurrences apiKeyField t +
      2 * Text.occurrences (.ofString "process") (t.map Byte.toLower) ≤ t.length := by
  have hbrackets : (ofText t).cells.toList.countP (Cell.isOneOf bs) ≤ t.countP bs.contains := by
    have hbytes : t = (ofText t).cells.toList.map Cell.byte := by
      rw [toList_ofText, LexState.map_byte_cells]
    calc
      (ofText t).cells.toList.countP (Cell.isOneOf bs)
        ≤ (ofText t).cells.toList.countP (bs.contains ∘ Cell.byte) := by
          refine List.countP_mono_left fun c _ hc => ?_
          rw [Cell.isOneOf, Bool.and_eq_true] at hc
          exact hc.2
      _ = t.countP bs.contains := by
          rw [← List.countP_map, ← hbytes]
  have hfields := Text.occurrences_le_count (w := apiKeyField) (u := t) (k := 3) (b := 0x4B)
    (by decide)
  have hr := Text.occurrences_le_count (w := .ofString "process") (u := t.map Byte.toLower) (k := 1)
    (b := 0x72) (by decide)
  have ho := Text.occurrences_le_count (w := .ofString "process") (u := t.map Byte.toLower) (k := 2)
    (b := 0x6F) (by decide)
  have hsum : t.countP bs.contains + t.count 0x4B + (t.map Byte.toLower).count 0x72 +
      (t.map Byte.toLower).count 0x6F ≤ t.length := by
    clear hbrackets hfields hr ho
    induction t with
    | nil => exact Nat.zero_le _
    | cons b r ih =>
      have := byte_classes hs b
      rw [List.map_cons, List.countP_cons, List.count_cons, List.count_cons, List.count_cons,
        List.length_cons]
      omega
  omega

/-- **The brackets of a run are bounded by the length of the text it begins with.** -/
theorem TalliedRun.countP_le {f e : Nat} {t u : Text} (h : TalliedRun f e t u) {bs : List UInt8}
    (hs : OneSide bs) : (ofText u).cells.toList.countP (Cell.isOneOf bs) ≤ t.length := by
  have hstock := h.stock (stock_zero t)
  have hfields := h.occurrences_le Text.marker_apiKeyField
  have hreads := h.occurrences_le Text.marker_process
  have hnested := hstock.le_fields
  have hpinned := hstock.le_reads
  have hroom := countP_add_occurrences_le t hs
  have hcount := h.countP hs
  rw [List.map_id, List.map_id, show Text.occurrences apiKeyField (nestedKey.map id) = 0 by decide,
    show Text.occurrences apiKeyField (apiKeyField.map id) = 1 by decide] at hfields
  rw [show Text.occurrences (.ofString "process") (nestedKey.map Byte.toLower) = 0 by decide,
    show Text.occurrences (.ofString "process") (apiKeyField.map Byte.toLower) = 0 by decide]
    at hreads
  omega

end ProviderNest
