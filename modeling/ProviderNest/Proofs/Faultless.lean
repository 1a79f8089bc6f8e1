import ProviderNest.Proofs.Access

/-!
# Runs with every access checked

**No access is refused.** On a well-formed text of less than 2³¹ bytes every pipeline carried out
with every access checked gives what it gives without (`Pipeline.faultless`). The classification
cuts the text behind ASCII bytes only, and so does the test for a migrated text. The edits of a pass
come in order, each between two characters. That the counters are wide enough holds for the text
given and for every text a run makes of it, however many passes there are: nothing a run adds brings
the brackets of one side above the bytes of the text it began with (`TalliedRun.countP_le`).
-/

namespace ProviderNest

open Source

namespace Kind

/-- A lexeme ends inside the text. -/
theorem lexeme_le (b : UInt8) (r : Text) : (lexeme b r).2 ≤ r.length := by
  unfold lexeme
  split
  · exact literalLength_le b r
  split
  case isFalse => exact Nat.zero_le _
  split
  · exact Nat.zero_le _
  next c r =>
  split
  · exact Nat.succ_le_succ (lineLength_le r)
  split
  · exact Nat.succ_le_succ (commentLength_le r)
  · exact Nat.zero_le _

/-- A comment opens with a slash. -/
theorem lexeme_comment {b : UInt8} {r : Text} (h : (lexeme b r).1 = .comment) :
    b = Byte.slash := by
  unfold lexeme at h
  split at h
  case isTrue => cases h
  split at h
  case isFalse => cases h
  next hb => exact hb

/-- The kinds of a text: those of its first lexeme, then those of the text behind it. -/
theorem ofText_cons (b : UInt8) (r : Text) : ofText (b :: r) =
    List.replicate ((lexeme b r).2 + 1) (lexeme b r).1 ++ ofText (r.drop (lexeme b r).2) := by
  rw [ofText, assign, assign_eq_replicate _ (lexeme_le b r), LexState.assign_zero_eq_kinds,
    LexState.ofText_eq_kinds, List.replicate_succ]
  rfl

end Kind

namespace Checked

/-! ## Classifying a text -/

section
variable {t : Text} {i : Nat} {b : UInt8}

/-- The text from a position on can be taken where no character is cut. -/
theorem rest_eq (h : i ≤ t.length) (hs : Text.Starts (t.drop i)) : rest t i = .ok (t.drop i) := by
  have hstart : ¬ t[i]?.any Byte.isContinuation = true := by
    rw [Option.any_eq_true]
    rintro ⟨b, hb, hc⟩
    rw [hs b (List.head?_drop.trans hb)] at hc
    cases hc
  rw [rest, if_neg (Nat.not_lt.2 h), if_neg hstart]

/-- The text behind an ASCII byte. -/
theorem rest_succ (ht : t.WellFormed) (hb : t[i]? = some b) (ha : b < 0x80) :
    rest t (i + 1) = .ok (t.drop (i + 1)) :=
  rest_eq (List.getElem?_eq_some_iff.1 hb).1 (wellFormed_drop_succ ht hb ha).starts

/-- The text in which the end of a comment is looked for. -/
theorem rest_comment (ht : t.WellFormed) (hb : t[i]? = some b)
    (h : (Kind.lexeme b (t.drop (i + 1))).1 = .comment) :
    ∃ u, rest t (if t[i + 1]? = some Byte.star then i + 2 else i) = .ok u := by
  obtain rfl := Kind.lexeme_comment h
  split
  · next hstar => exact ⟨_, rest_succ ht hstar (by decide)⟩
  · have hslash : Text.Starts (t.drop i) := by
      rw [drop_eq_cons hb]
      intro b hb
      cases hb
      decide
    exact ⟨_, rest_eq (Nat.le_of_lt (List.getElem?_eq_some_iff.1 hb).1) hslash⟩

/-- The lexemes of a well-formed text are found without a breach from a position on: each ends
inside the text, and the text is cut only beside ASCII bytes. -/
theorem kindsFrom_eq (ht : t.WellFormed) {n i : Nat} (hn : t.length ≤ i + n) :
    kindsFrom t n i = .ok (Kind.ofText (t.drop i)) := by
  induction n generalizing i with
  | zero =>
    rw [List.drop_eq_nil_of_le (show t.length ≤ i from hn)]
    rfl
  | succ n ih =>
    rw [kindsFrom]
    cases hb : t[i]? with
    | none =>
      rw [List.drop_eq_nil_of_le (List.getElem?_eq_none_iff.1 hb)]
      rfl
    | some b =>
      have hi := (List.getElem?_eq_some_iff.1 hb).1
      have hle := Kind.lexeme_le b (t.drop (i + 1))
      have hrest := rest_comment ht hb
      rw [List.length_drop] at hle
      rw [drop_eq_cons hb, Kind.ofText_cons, List.drop_drop]
      dsimp only
      generalize Kind.lexeme b (t.drop (i + 1)) = l at hle hrest ⊢
      have hin : ¬ t.length < i + (l.2 + 1) := by omega
      rw [if_neg hin, ih (by omega), Nat.add_right_comm i 1 l.2]
      split
      · next hcomment =>
        obtain ⟨u, hu⟩ := hrest hcomment
        rw [hu]
        rfl
      · rfl

/-- Every well-formed text is classified. -/
theorem classify_eq (ht : t.WellFormed) : classify t = .ok (ofText t) := by
  rw [classify, bind_ok (kindsFrom_eq ht (Nat.le_of_eq (Nat.zero_add _).symm))]
  rfl

end

/-! ## Passes -/

section
variable {t : Text}

/-- A pass over a countable text is not refused, and gives the text and the edits of the plain
one. -/
theorem apply_eq (ht : t.Countable) (p : Pass) :
    apply p t = .ok ⟨p.output t, p.edits t⟩ := by
  have hhits : sweep (fun i => find? (ofText t) i p) (ofText t).size 0 0 =
      .ok (p.hits (ofText t)) := sweep_eq (fun i => find?_eq ht i p) _ _ _
  rw [apply, bind_ok (classify_eq ht.wellFormed), bind_ok hhits, p.mapM_edit ht.wellFormed,
    bind_ok (allow_ok _), p.splice_edits ht.wellFormed]
  rfl

end

end Checked

/-! ## Runs -/

section
variable {t u : Text}

/-- Passes that nest entries lead from a well-formed text to a well-formed one. -/
theorem TalliedRun.wellFormed {f e : Nat} (h : TalliedRun f e t u) (ht : t.WellFormed) :
    u.WellFormed := by
  induction h with
  | nil => exact ht
  | cons _ _ _ ih => exact ih (Pass.wellFormed_output _ ht)

/-- The texts that a run makes of a text. -/
theorem TalliedRun.countable {f e : Nat} (h : TalliedRun f e t u) (ht : t.WellFormed)
    (hlt : t.length < 2 ^ 31) : u.Countable where
  wellFormed := h.wellFormed ht
  few _ hs := Nat.lt_of_le_of_lt (h.countP_le hs) hlt

/-- Each edit of a pass begins at or behind the end of the one before. -/
theorem Pass.pairwise_edits (p : Pass) (t : Text) :
    (p.edits t).Pairwise fun a b => a.span.stop ≤ b.span.start :=
  List.pairwise_map.2 (finds_hits p (ofText t)).1.pairwise

/-- The edits of each pass of a run are in order and do not overlap, with respect to the text that
the pass works on. -/
theorem runPasses_pairwise (ht : t.WellFormed) {ps : List Pass} {m : Migration}
    (hm : runPasses ps t = .ok m) :
    ∀ g ∈ m.stages, g.edits.Pairwise fun a b => a.span.stop ≤ b.span.start := by
  induction ps generalizing t m with
  | nil =>
    cases hm
    exact fun _ hg => absurd hg List.not_mem_nil
  | cons p ps ih =>
    obtain ⟨m', hm', rfl⟩ := runPasses_cons_inv ht hm
    intro g hg
    rcases List.mem_cons.1 hg with rfl | hg
    · exact p.pairwise_edits t
    · exact ih (p.wellFormed_output ht) hm' g hg

end

namespace Checked

section
variable {t : Text}

/-- The passes of a run, each of which works on a text that the run makes. -/
theorem runPasses_eq (hc : ∀ {f e : Nat} {u : Text}, TalliedRun f e t u → u.Countable)
    {ps : List Pass} {m : Migration} (hm : ProviderNest.runPasses ps t = .ok m) :
    runPasses ps t = .ok m := by
  induction ps generalizing t m with
  | nil =>
    cases hm
    rfl
  | cons p ps ih =>
    have ht := hc .nil
    obtain ⟨f, e, htally, -⟩ := p.tallied ht.wellFormed
    obtain ⟨m', hm', rfl⟩ := runPasses_cons_inv ht.wellFormed hm
    rw [runPasses, bind_ok (apply_eq ht p),
      bind_ok (ih (fun h => hc (.cons ht.wellFormed htally h)) hm')]
    rfl

end

/-! ## The test for a migrated text -/

section
variable {t : Text} {i : Nat}

/-- The text behind a key that ends with an ASCII letter. -/
theorem rest_key (ht : t.WellFormed) {key : Text} (hkey : ∃ a, key.getLast? = some a ∧ a < 0x80)
    (h : key.isPrefixOf (t.drop i) = true) :
    rest t (i + key.length) = .ok (t.drop (i + key.length)) := by
  obtain ⟨a, ha, hascii⟩ := hkey
  obtain ⟨u, rfl⟩ := List.getLast?_eq_some_iff.1 ha
  obtain ⟨r, hr⟩ := List.isPrefixOf_iff_prefix.1 h
  have hlast : t[i + u.length]? = some a := by
    rw [← List.getElem?_drop, ← hr]
    simp
  rw [List.length_append, List.length_singleton, ← Nat.add_assoc]
  exact rest_succ ht hlast hascii

/-- The search for a key that has an object is not refused: behind the last byte of the key, which
is ASCII, the text can be cut. -/
theorem hasObjectKey_eq (ht : t.WellFormed) {key : Text}
    (hkey : ∃ a, key.getLast? = some a ∧ a < 0x80) {n i : Nat} {before : Option UInt8}
    (hn : i + n = t.length)
    (hbefore : before.any Byte.isWord = (i != 0 && t[i - 1]?.any Byte.isWord)) :
    hasObjectKey key t n i = .ok (Text.hasObjectKey key before (t.drop i)) := by
  induction n generalizing i before with
  | zero =>
    rw [List.drop_eq_nil_of_le (show t.length ≤ i from Nat.le_of_eq hn.symm)]
    rfl
  | succ n ih =>
    obtain ⟨b, hb⟩ : ∃ b, t[i]? = some b := ⟨t[i], List.getElem?_eq_getElem (by omega)⟩
    have hnext : hasObjectKey key t n (i + 1) =
        .ok (Text.hasObjectKey key (some b) (t.drop (i + 1))) := by
      refine ih (by omega) ?_
      rw [Nat.add_sub_cancel, hb]
      rfl
    rw [hasObjectKey, hnext, drop_eq_cons hb, Text.hasObjectKey, ← drop_eq_cons hb, ← hbefore,
      Text.after?, List.drop_drop]
    cases hp : key.isPrefixOf (t.drop i) with
    | false => cases before.any Byte.isWord <;> rfl
    | true =>
      rw [rest_key ht hkey hp, Bool.true_and, if_pos rfl, Option.any_some]
      cases before.any Byte.isWord with
      | true => rfl
      | false =>
        rw [if_pos (by rfl), bind_ok rfl]
        cases Text.opensObject (t.drop (i + key.length)) <;> rfl

/-- A text that is not migrated already is left to the run. -/
theorem migrate_eq (ht : t.WellFormed) {p : Pipeline} {m : Migration} (hm : p.run t = .ok m)
    (hc : run p t = .ok m) :
    ∃ o, ProviderNest.migrate p t = .ok o ∧ migrate p t = .ok o := by
  have hnested : hasObjectKey nestedKey t t.length 0 = .ok (Text.hasObjectKey nestedKey none t) :=
    hasObjectKey_eq ht ⟨0x74, by decide, by decide⟩ (Nat.zero_add _) rfl
  have hproviders :
      hasObjectKey providersKey t t.length 0 = .ok (Text.hasObjectKey providersKey none t) :=
    hasObjectKey_eq ht ⟨0x73, by decide, by decide⟩ (Nat.zero_add _) rfl
  rw [migrate, ProviderNest.migrate, Text.isMigrated, bind_ok hnested, hproviders, hm, hc]
  cases Text.hasObjectKey nestedKey none t with
  | false => exact ⟨_, rfl, rfl⟩
  | true =>
    cases Text.hasObjectKey providersKey none t with
    | false => exact ⟨_, rfl, rfl⟩
    | true => exact ⟨_, rfl, rfl⟩

end

end Checked

/-- **No access is refused.** A pipeline gives the same migration and the same outcome with every
access checked as without, and each edit of a pass begins at or behind the end of the one before. -/
theorem Pipeline.faultless (p : Pipeline) (cs : List Char)
    (h : (Text.ofChars cs).length < 2 ^ 31) :
    (∃ m, p.run (.ofChars cs) = .ok m ∧ Checked.run p (.ofChars cs) = .ok m ∧
      ∀ g ∈ m.stages, g.edits.Pairwise fun a b => a.span.stop ≤ b.span.start) ∧
    ∃ o, migrate p (.ofChars cs) = .ok o ∧ Checked.migrate p (.ofChars cs) = .ok o := by
  have ht := Text.wellFormed_ofChars cs
  obtain ⟨m, hm⟩ := runPasses_ok ht p.passes
  have hc := Checked.runPasses_eq (fun hrun => hrun.countable ht h) hm
  exact ⟨⟨m, hm, hc, runPasses_pairwise ht hm⟩, Checked.migrate_eq ht hm hc⟩

/-- Letters outside ASCII in a name, behind a backslash and in a comment that does not end. -/
theorem Pipeline.faultless_accents :
    let t := Text.ofChars "providers: \x7b ñ: \x7b apiKey: '\\é' \x7d \x7d /* ü".toList
    (∃ m, Pipeline.batch.run t = .ok m ∧ Checked.run Pipeline.batch t = .ok m ∧
      ∀ g ∈ m.stages, g.edits.Pairwise fun a b => a.span.stop ≤ b.span.start) ∧
    ∃ o, migrate Pipeline.batch t = .ok o ∧ Checked.migrate Pipeline.batch t = .ok o :=
  Pipeline.faultless Pipeline.batch _ (by decide)

end ProviderNest
