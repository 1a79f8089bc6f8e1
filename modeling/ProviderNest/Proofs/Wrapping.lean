import ProviderNest.Proofs.Nesting
import ProviderNest.Proofs.Occurrences

/-!
# No provider is nested twice

In a run over a text without the word `default`, the keys of that name are counted from both sides.
Every entry that a pass counts brings the word once, and nothing else in what it writes can bring it
(`TalliedRun.occurrences_le`), so there are at most as many keys as the run counts. And there are at
least as many, since every counted entry leaves a nested configuration that stays
(`TalliedRun.stock`). So the keys are those of the nested configurations and no others
(`Pipeline.nested_keys`).
-/

namespace ProviderNest

open Source

namespace Text

/-- The occurrences of a word are the positions at which it begins. -/
theorem occurrences_eq_countP (w u : Text) :
    occurrences w u = (List.range u.length).countP fun i => w.isPrefixOf (u.drop i) := by
  induction u with
  | nil => rfl
  | cons b r ih =>
    rw [occurrences, ih, List.length_cons, List.range_succ_eq_map, List.countP_cons,
      List.countP_map, Nat.add_comm]
    rfl

theorem occurrences_of_not_infix {w u : Text} (h : ¬ w <:+: u) : occurrences w u = 0 := by
  rw [occurrences_eq_countP, List.countP_eq_zero]
  intro i _ hp
  exact h ((List.isPrefixOf_iff_prefix.1 hp).isInfix.trans (List.drop_suffix i u).isInfix)

end Text

/-- Positions with a property are among those that are counted. -/
theorem card_le_countP {S : Finset Nat} {n : Nat} {P : Nat → Bool}
    (h : ∀ i ∈ S, i < n ∧ P i = true) : S.card ≤ (List.range n).countP P := by
  have hsub : S ⊆ ((List.range n).filter P).toFinset := by
    intro i hi
    obtain ⟨hlt, hP⟩ := h i hi
    exact List.mem_toFinset.2 (List.mem_filter.2 ⟨List.mem_range.2 hlt, hP⟩)
  calc
    S.card ≤ ((List.range n).filter P).toFinset.card := Finset.card_le_card hsub
    _ ≤ ((List.range n).filter P).length := List.toFinset_card_le _
    _ = (List.range n).countP P := List.countP_eq_length_filter.symm

/-- The words that a run brings in. -/
theorem TalliedRun.occurrences_le {n e : Nat} {t u : Text} (h : TalliedRun n e t u)
    {f : UInt8 → UInt8} {w : Text} (hm : Text.Marker f w) :
    Text.occurrences w (u.map f) ≤ Text.occurrences w (t.map f) +
      (Text.occurrences w (nestedKey.map f) * n +
        (Text.occurrences w (nestedKey.map f) + Text.occurrences w (apiKeyField.map f)) * e) := by
  induction h with
  | nil => exact Nat.le_add_right _ _
  | @cons n e n' e' t u p ht htally _ ih =>
    have hstep := p.occurrences_output ht hm htally
    rw [Nat.mul_add, Nat.mul_add]
    omega

/-- The bytes of a part begin where the part does. -/
theorem bytes_begins (t : Text) (x : Span) : (ofText t).bytes x <+: t.drop x.start := by
  rw [bytes_eq, map_byte_slice]
  exact List.take_prefix _ _

/-- A key is an occurrence of its name, in every case of letters. -/
theorem occurs_of_isKey {t : Text} {i : Nat} (h : (ofText t).isKey i nestedKey = true) :
    i < t.length ∧ nestedKey.isPrefixOf ((t.map Byte.toLower).drop i) = true := by
  rw [isKey, Option.any_eq_true] at h
  obtain ⟨key, hk, hs⟩ := h
  obtain ⟨rfl, colon, hkey⟩ := key?_eq_some.1 hk
  have hlt := hkey.word.lt
  have hle := hkey.word.stop_le
  have hname := hkey.word.spells_iff.1 hs
  rw [size_ofText] at hle
  refine ⟨Nat.lt_of_lt_of_le hlt hle, List.isPrefixOf_iff_prefix.2 ?_⟩
  have := (bytes_begins t key.name).map Byte.toLower
  rwa [hname, List.map_drop, show nestedKey.map Byte.toLower = nestedKey by decide] at this

/-- The key of a nested configuration. -/
theorem Nested.key?_eq {t : Text} {o : Nat} (h : Nested t o) : ∃ i, i + 9 = o ∧
    (ofText t).key? i = some ⟨⟨i, i + 7⟩, o⟩ ∧ (ofText t).isKey i nestedKey = true := by
  obtain ⟨i, rfl, hk⟩ := h.key
  have hkey := hk.isKey (by decide)
  have hname : (ofText t).bytes ⟨i, i + nestedKey.length⟩ = nestedKey := by
    rw [bytes_eq, hk.slice_name, map_byte_codeCells]
  have hsome := key?_eq_some.2 ⟨rfl, _, hkey⟩
  refine ⟨i, rfl, hsome, ?_⟩
  rw [isKey, hsome, Option.any_some]
  exact (spells_iff (Nat.le_add_right _ _) hkey.word.stop_le).2 hname

/-- The keys of nested configurations. -/
theorem Stock.keys {t : Text} {k j : Nat} (h : Stock t k j) : ∃ S : Finset Nat, S.card = k ∧
    ∀ i ∈ S, (ofText t).isKey i nestedKey = true ∧ Nested t (i + 9) ∧
      (ofText t).key? i = some ⟨⟨i, i + 7⟩, i + 9⟩ := by
  obtain ⟨A, hA, hnested⟩ := h.nested
  have hkey : ∀ o ∈ A, 9 ≤ o ∧ (ofText t).isKey (o - 9) nestedKey = true ∧
      (ofText t).key? (o - 9) = some ⟨⟨o - 9, o - 9 + 7⟩, o⟩ := by
    intro o ho
    obtain ⟨i, rfl, hk, hi⟩ := (hnested o ho).key?_eq
    exact ⟨Nat.le_add_left 9 i, hi, hk⟩
  refine ⟨A.image (· - 9), ?_, fun i hi => ?_⟩
  · rw [Finset.card_image_of_injOn, hA]
    intro a ha b hb hab
    have h1 := (hkey a ha).1
    have h2 := (hkey b hb).1
    dsimp only at hab
    omega
  · obtain ⟨o, ho, rfl⟩ := Finset.mem_image.1 hi
    obtain ⟨hle, hi, hk⟩ := hkey o ho
    rw [Nat.sub_add_cancel hle]
    exact ⟨hi, hnested o ho, hk⟩

/-- A run over a text without the word `default` leaves at most as many keys of that name as it
counts. -/
theorem TalliedRun.countP_isKey_le {f e : Nat} {t u : Text} (h : TalliedRun f e t u)
    (hno : ¬ nestedKey <:+: t.map Byte.toLower) :
    ((List.range u.length).countP fun i => (ofText u).isKey i nestedKey) ≤ f + e := by
  have hword := h.occurrences_le Text.marker_nestedKey
  rw [Text.occurrences_of_not_infix hno,
    show Text.occurrences nestedKey (nestedKey.map Byte.toLower) = 1 by decide,
    show Text.occurrences nestedKey (apiKeyField.map Byte.toLower) = 0 by decide,
    Text.occurrences_eq_countP, List.length_map] at hword
  have hkeys : ((List.range u.length).countP fun i => (ofText u).isKey i nestedKey) ≤
      (List.range u.length).countP fun i =>
        nestedKey.isPrefixOf ((u.map Byte.toLower).drop i) :=
    List.countP_mono_left fun i _ hi => (occurs_of_isKey hi).2
  omega

/-- **No provider is nested twice.** In a run of any passes over a text without the word `default`
in any case of letters, the keys named `default` in the end are as many as the run counts, and the
value of each of them is a closed object whose first key is `apiKey`. -/
theorem Pipeline.nested_keys (p : Pipeline) (cs : List Char)
    (h : ¬ nestedKey <:+: (Text.ofChars cs).map Byte.toLower) :
    ∃ m, p.run (.ofChars cs) = .ok m ∧
      ((List.range m.text.length).countP fun i => (ofText m.text).isKey i nestedKey) = m.count ∧
      ∀ i key, (ofText m.text).key? i = some key →
        (ofText m.text).spells key.name nestedKey = true →
        (∃ close, (ofText m.text).closing? key.value = some close) ∧
          (ofText m.text).opensConfiguration key.value = true := by
  have ht := Text.wellFormed_ofChars cs
  obtain ⟨m, hm⟩ := runPasses_ok ht p.passes
  obtain ⟨f, e, hcount, hrun⟩ := runPasses_tallied ht hm
  obtain ⟨S, hS, hkeys⟩ := (hrun.stock (stock_zero _)).keys
  have hupper := hrun.countP_isKey_le h
  have hlower := card_le_countP (n := m.text.length) fun i hi =>
    ⟨(occurs_of_isKey (hkeys i hi).1).1, (hkeys i hi).1⟩
  refine ⟨m, hm, by omega, fun i key hk hs => ?_⟩
  have hi : (ofText m.text).isKey i nestedKey = true := by
    rw [isKey, hk, Option.any_some, hs]
  -- A further key would be one more than there is room for.
  have hmem : i ∈ S := by
    refine Classical.byContradiction fun hnot => ?_
    have hmore := card_le_countP (S := insert i S) (n := m.text.length) fun l hl =>
      (Finset.mem_insert.1 hl).elim
        (fun heq => heq ▸ ⟨(occurs_of_isKey hi).1, hi⟩)
        (fun hl => ⟨(occurs_of_isKey (hkeys l hl).1).1, (hkeys l hl).1⟩)
    rw [Finset.card_insert_of_notMem hnot] at hmore
    omega
  obtain ⟨-, hnested, hk'⟩ := hkeys i hmem
  obtain rfl := Option.some.inj (hk'.symm.trans hk)
  exact ⟨Option.isSome_iff_exists.1 hnested.closed, hnested.leads⟩

/-- The object that the first pass writes out is looked into again by the passes behind it. -/
theorem Pipeline.nested_keys_env :
    ¬ nestedKey <:+: (Text.ofChars "x: process.env.X, y: \x7b apiKey: 1 \x7d".toList).map
      Byte.toLower ∧
    ∃ m, Pipeline.run ⟨"again", [.envAssignment, .simpleInline, .envAssignment, .simpleInline]⟩
        (.ofChars "x: process.env.X, y: \x7b apiKey: 1 \x7d".toList) = .ok m ∧
      ((List.range m.text.length).countP fun i => (ofText m.text).isKey i nestedKey) = m.count ∧
      ∀ i key, (ofText m.text).key? i = some key →
        (ofText m.text).spells key.name nestedKey = true →
        (∃ close, (ofText m.text).closing? key.value = some close) ∧
          (ofText m.text).opensConfiguration key.value = true := by
  have hno : ¬ nestedKey <:+: (Text.ofChars
      "x: process.env.X, y: \x7b apiKey: 1 \x7d".toList).map Byte.toLower := by decide +kernel
  exact ⟨hno, Pipeline.nested_keys _ _ hno⟩

end ProviderNest
