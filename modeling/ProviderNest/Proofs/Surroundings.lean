import ProviderNest.Proofs.Access
import ProviderNest.Proofs.Woven

/-!
# What stands around an entry

Whether an entry read from the environment is recognised is a matter of what stands around it: no
question mark before it, and no configuration that it is a field of (`Configured`). All this can be
read from the cells before the entry and behind it (`EnvShape`), and an entry with such cells is
recognised wherever it stands (`exists_isEnv`).

What stands before a value is looked for backward, and what is found there is no other key than the
one that is read forward from its name (`keyBefore?_inverse_key?`).
-/

namespace ProviderNest

open LexState Source

/-! ## Before a position -/

namespace Source

section
variable {s : Source} {i o j d : Nat}

/-- Trimming stops behind the last position that is no trivia. -/
theorem trimTrivia_eq_succ :
    s.trimTrivia 0 i = j + 1 ↔ j < i ∧ s.isTrivia j = false ∧ s.TriviaRun (j + 1) i := by
  constructor
  · intro h
    obtain ⟨-, h1, h2, h3⟩ := s.trimTrivia_spec (Nat.zero_le i)
    rw [h] at h1 h2 h3
    exact ⟨h1, h3 (Nat.succ_pos j), h2⟩
  · rintro ⟨hj, hc, hrun⟩
    exact backward_eq (Nat.sub_le _ _) hj (by omega) hrun fun _ => hc

/-- The cells before a position, from one of them on behind which there is only trivia. -/
theorem exists_slice_iff {b : UInt8} (hi : i ≤ s.size) :
    (∃ j, j < i ∧ s.codeByte? j = some b ∧ s.TriviaRun (j + 1) i) ↔
      ∃ a v, s.slice 0 i = a ++ ⟨b, .code⟩ :: v ∧ ∀ c ∈ v, c.isTrivia = true := by
  constructor
  · rintro ⟨j, hj, hb, hrun⟩
    refine ⟨s.slice 0 j, s.slice (j + 1) i, ?_, (triviaRun_iff hi).1 hrun⟩
    rw [← slice_append s (Nat.zero_le j) (Nat.le_of_lt hj), slice_eq_cons s hj
      (codeByte?_eq_some.1 hb)]
  · rintro ⟨a, v, hs, hv⟩
    obtain ⟨-, -, hs⟩ := slice_split (Nat.zero_le i) hi hs
    obtain ⟨hj, hc, hs⟩ := slice_uncons hi hs
    exact ⟨_, hj, codeByte?_eq_some.2 hc, (triviaRun_iff hi).2 (by rwa [hs])⟩

theorem precedingCode?_eq_some {b : UInt8} (hi : i ≤ s.size) (hb : Byte.isSpace b = false) :
    s.precedingCode? i = some b ↔
      ∃ a v, s.slice 0 i = a ++ ⟨b, .code⟩ :: v ∧ ∀ c ∈ v, c.isTrivia = true := by
  rw [← exists_slice_iff hi, precedingCode?]
  constructor
  · intro h
    cases ht : s.trimTrivia 0 i with
    | zero =>
      rw [ht] at h
      cases h
    | succ j =>
      rw [ht] at h
      obtain ⟨h1, -, h2⟩ := trimTrivia_eq_succ.1 ht
      exact ⟨j, h1, h, h2⟩
  · rintro ⟨j, hj, hc, hrun⟩
    rw [trimTrivia_eq_succ.2 ⟨hj, (isTrivia_of_codeByte? hc).trans hb, hrun⟩]
    exact hc

/-- What `keyBefore?` finds. -/
theorem keyBefore?_eq_some {x : Span} : s.keyBefore? i = some x ↔
    s.IsWord x ∧ ∃ colon, x.stop ≤ colon ∧ colon < i ∧ s.TriviaRun x.stop colon ∧
      s.codeByte? colon = some Byte.colon ∧ s.TriviaRun (colon + 1) i := by
  constructor
  · intro h
    have hword := Checked.isWord_of_keyBefore? h
    rw [keyBefore?] at h
    split at h
    case h_1 => cases h
    next colon hcolon =>
    split at h
    case isFalse => cases h
    next hcode =>
    obtain ⟨h1, -, hbehind⟩ := trimTrivia_eq_succ.1 hcolon
    obtain ⟨-, h2, hbefore, -⟩ := s.trimTrivia_spec (Nat.zero_le colon)
    dsimp only at h
    split at h
    case isFalse => cases h
    cases h
    exact ⟨hword, colon, h2, h1, hbefore, hcode, hbehind⟩
  · rintro ⟨hword, colon, h1, h2, hbefore, hcode, hbehind⟩
    have hlt := hword.lt
    have hlast := hword.inWord_last
    have hstop : s.trimTrivia 0 colon = x.stop := by
      have := trimTrivia_eq_succ.2 ⟨show x.stop - 1 < colon by omega, isTrivia_of_inWord hlast, by
        rwa [Nat.sub_add_cancel (by omega)]⟩
      omega
    have hstart : backward s.inWord x.stop x.stop = x.start :=
      backward_eq (Nat.le_refl _) (Nat.le_of_lt hlt) (by omega) hword.inside fun h =>
        hword.before.resolve_left (by omega)
    rw [keyBefore?, trimTrivia_eq_succ.2 ⟨h2, (isTrivia_of_codeByte? hcode).trans (by decide),
      hbehind⟩]
    dsimp only
    rw [if_pos hcode, hstop, hstart, if_pos hlt]

/-- A key is found from its value, too. -/
theorem IsKey.keyBefore?_eq {key : Key} {colon : Nat} (h : s.IsKey key colon) :
    s.keyBefore? key.value = some key.name :=
  keyBefore?_eq_some.2 ⟨h.word, colon, h.stop_le_colon, h.colon_lt_value, h.trivia_before,
    h.colon_code, h.trivia_behind⟩

/-- The key before a value is found from its name, too, where the value is no trivia and does not
begin with a colon: that colon would double the one of the key. -/
theorem exists_isKey_of_keyBefore? {x : Span} (h : s.keyBefore? i = some x)
    (hi : s.isTrivia i = false) (hne : s.codeByte? i ≠ some Byte.colon) :
    ∃ colon, s.IsKey ⟨x, i⟩ colon := by
  obtain ⟨hword, colon, h1, h2, hbefore, hcode, hbehind⟩ := keyBefore?_eq_some.1 h
  have hsingle : s.codeByte? (colon + 1) ≠ some Byte.colon := by
    rcases Nat.eq_or_lt_of_le h2 with rfl | hlt
    · exact hne
    · exact codeByte?_ne_of_isTrivia (hbehind _ (Nat.le_refl _) hlt) (by decide)
  exact ⟨colon,
    { word := hword
      colon_eq := skipTrivia_eq h1 hbefore ((isTrivia_of_codeByte? hcode).trans (by decide))
      colon_code := hcode
      single := hsingle
      value_eq := skipTrivia_eq h2 hbehind hi }⟩

/-- **A key is the same from its name and from its value.** The key that is read from its name on
has its value in the text or at its end, and is found from there. The key that is found from a value
is the one that is read from its name on, if the value is no trivia and no colon. -/
theorem keyBefore?_inverse_key? (s : Source) :
    (∀ i key, s.key? i = some key →
      key.value ≤ s.size ∧ s.keyBefore? key.value = some key.name) ∧
    ∀ v name, v < s.size → s.skipTrivia v = v → s.codeByte? v ≠ some Byte.colon →
      s.keyBefore? v = some name → s.key? name.start = some ⟨name, v⟩ := by
  constructor
  · intro i key h
    obtain ⟨-, colon, hkey⟩ := key?_eq_some.1 h
    exact ⟨hkey.value_le_size, hkey.keyBefore?_eq⟩
  · intro v name _ hskip hne h
    have hv := isTrivia_skipTrivia s v
    rw [hskip] at hv
    exact key?_eq_some.2 ⟨rfl, exists_isKey_of_keyBefore? h hv hne⟩

/-- A name outside ASCII right behind a literal, with colons in the comments around its own. -/
theorem keyBefore?_inverse_key?_accents :
    let s := ofText (.ofString "'q'ñé /*:*/: //:\n x")
    s.key? 3 = some ⟨⟨3, 7⟩, 20⟩ ∧ s.skipTrivia 20 = 20 ∧ s.codeByte? 20 ≠ some Byte.colon ∧
      (20 ≤ s.size ∧ s.keyBefore? 20 = some ⟨3, 7⟩) ∧ s.key? 3 = some ⟨⟨3, 7⟩, 20⟩ := by
  intro s
  have hkey : s.key? 3 = some ⟨⟨3, 7⟩, 20⟩ := by decide +kernel
  have hskip : s.skipTrivia 20 = 20 := by decide +kernel
  have hne : s.codeByte? 20 ≠ some Byte.colon := by decide +kernel
  have hback := (keyBefore?_inverse_key? s).1 3 _ hkey
  exact ⟨hkey, hskip, hne, hback,
    (keyBefore?_inverse_key? s).2 20 ⟨3, 7⟩ (by decide +kernel) hskip hne hback.2⟩

/-- A key that is spelled out before a value. -/
theorem keyBefore_of_cells {w : Text} {a k : List Cell} (hi : i ≤ s.size) (hne : w ≠ [])
    (hw : ∀ b ∈ w, Byte.isWord b = true) (hs : s.slice 0 i = a ++ k) (hd : Detached a)
    (hk : KeyCells w k) : s.keyBefore? i = some ⟨a.length, a.length + w.length⟩ ∧
      s.bytes ⟨a.length, a.length + w.length⟩ = w := by
  obtain ⟨v, u, hv, hu, rfl⟩ := hk
  obtain ⟨h1, ha, hs⟩ := slice_split (Nat.zero_le i) hi hs
  rw [Nat.zero_add] at h1 ha hs
  obtain ⟨h2, hname, hs⟩ := slice_split h1 hi hs
  rw [List.length_map] at h2 hname hs
  obtain ⟨h3, hbefore, hs⟩ := slice_split h2 hi hs
  obtain ⟨h4, hcolon, hbehind⟩ := slice_uncons hi hs
  have hcode := codeByte?_eq_some.2 hcolon
  have hrun : s.TriviaRun (a.length + w.length) (a.length + w.length + v.length) :=
    (triviaRun_iff (by omega)).2 (by rwa [hbefore])
  rw [← ha] at hd
  obtain ⟨hword, hbytes⟩ := isWord_of_slice hname hne hw
    ((detached_slice (Nat.zero_le _) (by omega) (.inl rfl)).1 hd)
    (hrun.not_inWord (Nat.le_add_right _ _) (inWord_of_codeByte? hcode (by decide)))
  exact ⟨keyBefore?_eq_some.2 ⟨hword, _, Nat.le_add_right _ _, h4, hrun, hcode,
    (triviaRun_iff hi).2 (by rwa [hbehind])⟩, hbytes⟩

/-- **The key before a value**, by its cells. -/
theorem keyBefore?_spells_iff {w : Text} (hi : i ≤ s.size) (hne : w ≠ [])
    (hw : ∀ b ∈ w, Byte.isWord b = true) :
    (s.keyBefore? i).any (fun x => s.spells x w) = true ↔
      ∃ a k, s.slice 0 i = a ++ k ∧ Detached a ∧ KeyCells w k := by
  rw [Option.any_eq_true]
  constructor
  · rintro ⟨x, hx, hspells⟩
    obtain ⟨hword, colon, h1, h2, hbefore, hcode, hbehind⟩ := keyBefore?_eq_some.1 hx
    have hlt := hword.lt
    obtain rfl := hword.spells_iff.1 hspells
    refine ⟨s.slice 0 x.start, _, ?_, ?_, s.slice x.stop colon, s.slice (colon + 1) i,
      (triviaRun_iff (by omega)).1 hbefore, (triviaRun_iff hi).1 hbehind, rfl⟩
    · rw [← hword.slice_eq, ← slice_eq_cons s h2 (codeByte?_eq_some.1 hcode),
        slice_append s h1 (Nat.le_of_lt h2), slice_append s (Nat.le_of_lt hlt) (by omega),
        slice_append s (Nat.zero_le _) (by omega)]
    · exact (detached_slice (Nat.zero_le _) (by omega) (.inl rfl)).2 hword.before
  · rintro ⟨a, k, hs, hd, hk⟩
    obtain ⟨hfound, hbytes⟩ := keyBefore_of_cells hi hne hw hs hd hk
    have hword := Checked.isWord_of_keyBefore? hfound
    exact ⟨_, hfound, hword.spells_iff.2 hbytes⟩

/-- The braces that are left behind `o` with one cell more. -/
theorem closers_slice_succ {x : Cell} {d' : Nat} (ho : o < i) (hx : s.cells[i]? = some x)
    (hd : x.closers d = some d') :
    closers (s.slice (o + 1) (i + 1)) d = closers (s.slice (o + 1) i) d' := by
  rw [← slice_append s ho (Nat.le_succ i), slice_eq_cons s (Nat.lt_succ_self i) hx, slice_self,
    closers_append]
  exact congrArg (Option.bind · _) hd

/-- One cell more does not change which brace is the innermost open one, unless it is that brace. -/
theorem enclosing_succ_iff {x : Cell} {d' : Nat} (hx : s.cells[i]? = some x)
    (hd : x.closers d = some d') (hne : s.codeByte? i = some Byte.openBrace → d ≠ 0) :
    (o < i ∧ s.codeByte? o = some Byte.openBrace ∧ closers (s.slice (o + 1) i) d' = some 0) ↔
      o < i + 1 ∧ s.codeByte? o = some Byte.openBrace ∧
        closers (s.slice (o + 1) (i + 1)) d = some 0 := by
  constructor
  · rintro ⟨h1, h2, h3⟩
    exact ⟨Nat.lt_succ_of_lt h1, h2, (closers_slice_succ h1 hx hd).trans h3⟩
  · rintro ⟨h1, h2, h3⟩
    rcases Nat.lt_succ_iff_lt_or_eq.1 h1 with h1 | rfl
    · exact ⟨h1, h2, (closers_slice_succ h1 hx hd).symm.trans h3⟩
    · rw [slice_self] at h3
      exact absurd (Option.some.inj h3) (hne h2)

/-- A brace that opens with nothing left to close is the innermost open one. -/
theorem enclosing_openBrace_iff (hopen : s.codeByte? i = some Byte.openBrace) :
    i = o ↔ o < i + 1 ∧ s.codeByte? o = some Byte.openBrace ∧
      closers (s.slice (o + 1) (i + 1)) 0 = some 0 := by
  constructor
  · rintro rfl
    exact ⟨Nat.lt_succ_self _, hopen, by rw [slice_self]; rfl⟩
  · rintro ⟨h1, -, h3⟩
    rcases Nat.lt_succ_iff_lt_or_eq.1 h1 with h1 | rfl
    · rw [← slice_append s h1 (Nat.le_succ i), slice_eq_cons s (Nat.lt_succ_self i)
        (codeByte?_eq_some.1 hopen), slice_self, closers_append] at h3
      cases h3
    · rfl

/-- The innermost open brace, by the cells behind it. -/
theorem enclosingBelow_eq_some (hi : i ≤ s.size) : s.enclosingBelow i d = some o ↔
    o < i ∧ s.codeByte? o = some Byte.openBrace ∧ closers (s.slice (o + 1) i) d = some 0 := by
  induction i generalizing d with
  | zero =>
    rw [enclosingBelow]
    constructor
    · intro h
      cases h
    · rintro ⟨h, -⟩
      cases h
  | succ i ih =>
    obtain ⟨x, hx⟩ := s.exists_cell (i := i) hi
    have hcell {b : UInt8} : s.codeByte? i = some b ↔ x = ⟨b, .code⟩ := by
      rw [codeByte?_eq_some, hx, Option.some.injEq]
    unfold enclosingBelow
    split
    · next hclose =>
      obtain rfl := hcell.1 hclose
      rw [ih (Nat.le_of_succ_le hi)]
      refine enclosing_succ_iff hx rfl fun hopen => ?_
      rw [hclose] at hopen
      cases hopen
    split
    · next hopen =>
      obtain rfl := hcell.1 hopen
      cases d with
      | zero => exact (Option.some.injEq _ _).to_iff.trans (enclosing_openBrace_iff hopen)
      | succ d =>
        exact (ih (Nat.le_of_succ_le hi)).trans
          (enclosing_succ_iff hx rfl fun _ => Nat.succ_ne_zero d)
    · next hclose hopen =>
      rw [ih (Nat.le_of_succ_le hi)]
      refine enclosing_succ_iff hx ?_ fun h => absurd h hopen
      rw [Cell.closers, if_neg (fun h => hopen (hcell.2 h)), if_neg fun h => hclose (hcell.2 h)]

theorem opensConfiguration_iff_opens (ho : s.codeByte? o = some Byte.openBrace) :
    s.opensConfiguration o = true ↔ Opens (s.slice (o + 1) s.size) := by
  rw [opensConfiguration_iff ho]
  constructor
  · rintro ⟨key, colon, h⟩
    exact h.opens (lt_size_of_codeByte? h.isKey.colon_code) (Nat.le_refl _)
  · rintro ⟨u, m, r, hu, ⟨v, hv, rfl⟩, hs, hr⟩
    obtain ⟨h1, htrivia, hs⟩ := slice_split (lt_size_of_codeByte? ho) (Nat.le_refl _) hs
    have hrun : s.TriviaRun (o + 1) (o + 1 + u.length) := (triviaRun_iff h1).2 (by rwa [htrivia])
    have hedge := hrun.edge (Nat.le_add_right ..) (.inr (inWord_of_codeByte? ho (by decide)))
    simp only [List.append_assoc] at hs
    obtain ⟨hkey, hname, -⟩ :=
      isKey_of_colon h1 (Nat.le_refl _) hs (by decide) (by decide) hv hr (.inr rfl) hedge
    exact ⟨_, _, ho, Nat.lt_add_right _ (Nat.lt_succ_self o), hrun, hkey, hname⟩

end

end Source

/-! ## What an entry read from the environment looks like -/

/-- Behind the cells a name would be optional: the last of them that is no trivia is a question
mark. -/
def Questioned (us : List Cell) : Prop := ∃ a v, us = a ++ ⟨Byte.question, .code⟩ :: v ∧
  ∀ c ∈ v, c.isTrivia = true

/-- Between the cells `us` and `vs` is the inside of a configuration: the innermost brace that `us`
leaves open begins with the field `apiKey`, or it is the value of a key `default`. -/
def Configured (us vs : List Cell) : Prop := ∃ a ds, us = a ++ ⟨Byte.openBrace, .code⟩ :: ds ∧
  closers ds 0 = some 0 ∧
    (Opens (ds ++ vs) ∨ ∃ b k, a = b ++ k ∧ Detached b ∧ KeyCells nestedKey k)

/-- Only the last cell matters for where a word may begin. -/
theorem Detached.of_behind {as bs : List Cell} (hd : Detached bs) (hne : bs ≠ []) :
    Detached (as ++ bs) := by
  intro c hc
  rw [List.getLast?_append_of_ne_nil _ hne] at hc
  exact hd c hc

theorem Wordfree.detached {z : List Cell} (hz : Wordfree z) : Detached z :=
  fun c hc => hz c (List.mem_of_mem_getLast? hc)

/-- A key does not end in a word. -/
theorem KeyCells.detached {w : Text} {k : List Cell} (h : KeyCells w k) : Detached k := by
  obtain ⟨z, rfl, hne, hz⟩ := h.gap
  exact hz.detached.of_behind hne

/-- The parts of an entry read from the environment, with the cells `us` before it: the key `w` with
the cells `k`, and the cells `r` that begin with its value. -/
structure EnvShape (us : List Cell) (w : Text) (k r : List Cell) : Prop where
  detached : Detached us
  ne_nil : w ≠ []
  word : ∀ b ∈ w, Byte.isWord b = true
  field_ne : Text.sameIgnoringCase w apiKeyField = false
  name_ne : w ≠ nestedKey
  key : KeyCells w k
  reads : ∃ y, r = codeCells environment ++ y ∧ Worded y
  question : ¬ Questioned us
  outside : ¬ Configured us (k ++ r)

namespace Source

section
variable {s : Source} {i : Nat}

theorem inConfiguration_iff (hi : i ≤ s.size) :
    s.inConfiguration i = true ↔ Configured (s.slice 0 i) (s.slice i s.size) := by
  have hkey {o : Nat} (ho : o ≤ s.size) := keyBefore?_spells_iff (w := nestedKey) ho (by decide)
    (by decide)
  rw [inConfiguration, Option.any_eq_true]
  simp only [Bool.or_eq_true, enclosing?, Nat.min_eq_left hi, enclosingBelow_eq_some hi]
  constructor
  · rintro ⟨o, ⟨ho, hopen, hclosed⟩, h⟩
    refine ⟨s.slice 0 o, s.slice (o + 1) i, ?_, hclosed, ?_⟩
    · rw [← slice_eq_cons s ho (codeByte?_eq_some.1 hopen),
        slice_append s (Nat.zero_le o) (Nat.le_of_lt ho)]
    · rwa [slice_append s ho hi, ← opensConfiguration_iff_opens hopen, ← hkey (by omega)]
  · rintro ⟨a, ds, hs, hclosed, h⟩
    obtain ⟨h1, ha, hs⟩ := slice_split (Nat.zero_le i) hi hs
    rw [Nat.zero_add] at h1 ha hs
    obtain ⟨h2, hcell, rfl⟩ := slice_uncons hi hs
    have hopen := codeByte?_eq_some.2 hcell
    rw [slice_append s h2 hi, ← opensConfiguration_iff_opens hopen] at h
    refine ⟨a.length, ⟨h2, hopen, hclosed⟩, h.imp_right fun h => (hkey (by omega)).2 ?_⟩
    rwa [ha]

end

section
variable {t : Text} {e : EnvEntry} {colon value stop : Nat}

theorem IsEnv.shape (h : (ofText t).IsEnv e colon value stop) :
    EnvShape ((ofText t).slice 0 e.name.start) ((ofText t).bytes e.name)
      ((ofText t).slice e.name.start value) ((ofText t).slice value (ofText t).size) := by
  obtain ⟨h1, h2, h3, h4, h5, h6, h7⟩ := h.order
  exact
    { detached := (detached_slice (Nat.zero_le _) (by omega) (.inl rfl)).2 h.key.word.before
      ne_nil := h.key.word.bytes_ne_nil
      word := isWord_bytes h.key.word
      field_ne := h.field_ne
      name_ne := h.name_ne
      key := h.key.keyCells
      reads := by
        refine ⟨(ofText t).slice e.var.start (ofText t).size, ?_, ?_⟩
        · rw [← h.slice_value, slice_append _ (by omega) (by omega)]
        · obtain ⟨c, hc⟩ := exists_cell (s := ofText t) (i := e.var.start) (by omega)
          refine ⟨c, _, slice_eq_cons _ (by omega) hc, ?_⟩
          rw [← inWord_eq hc]
          exact h.word.inWord_start
      question := by
        rw [Questioned, ← precedingCode?_eq_some (by omega) (by decide)]
        exact h.question
      outside := by
        rw [slice_append _ (by omega) (by omega), ← inConfiguration_iff (by omega), h.outside]
        exact Bool.false_ne_true }

/-- What an entry reads from the environment, by its cells. -/
theorem reads_of_cells {s : Source} {i : Nat} {c : Cell} {r : List Cell} (hi : i ≤ s.size)
    (hb : i = 0 ∨ s.inWord (i - 1) = false)
    (hs : s.slice i s.size = codeCells environment ++ c :: r) (hc : c.inWord = true) :
    s.isWord i (.ofString "process") = true ∧ s.spellsAt i environment = true ∧
      ∃ stop, s.IsWord ⟨i + environment.length, stop⟩ := by
  obtain ⟨h1, hname, hs⟩ := slice_split hi (Nat.le_refl _) hs
  rw [List.length_map] at h1 hname hs
  obtain ⟨h2, hcell, -⟩ := slice_uncons (Nat.le_refl _) hs
  have hcode {k : Nat} (hk : k < environment.length) := codeByte?_of_codeCells hname hk
  have hlength : environment.length = 12 := by decide
  refine ⟨?_, ?_, ?_⟩
  · have hprocess : s.slice i (i + environment.length) =
        codeCells (.ofString "process") ++ codeCells (.ofString ".env.") := by
      rw [hname]
      decide
    obtain ⟨-, hprocess, -⟩ := slice_split (Nat.le_add_right _ _) h1 hprocess
    rw [List.length_map] at hprocess
    obtain ⟨hword, hbytes⟩ := isWord_of_slice hprocess (by decide) (by decide) hb
      (inWord_of_codeByte? (hcode (by decide)) (by decide))
    exact isWord_iff.2 ⟨_, rfl, hword, hbytes⟩
  · refine spellsAt_iff.2 fun k hk => ?_
    rw [byte?_of_codeByte? (hcode hk), List.getElem?_eq_getElem hk]
  · have hstart : s.inWord (i + environment.length) = true := (inWord_eq hcell).trans hc
    have hdot : s.inWord (i + environment.length - 1) = false := by
      rw [hlength]
      exact inWord_of_codeByte? (hcode (k := 11) (by decide)) (by decide)
    have hfound : (s.word? (i + environment.length)).isSome = true := by
      rw [word?, hstart, hdot, Bool.and_false]
      rfl
    obtain ⟨x, hx⟩ := Option.isSome_iff_exists.1 hfound
    obtain ⟨hx, hword⟩ := word?_eq_some.1 hx
    exact ⟨x.stop, hx ▸ hword⟩

/-- **An entry read from the environment is recognised by the cells around it.** -/
theorem exists_isEnv {i : Nat} {us k r : List Cell} {w : Text} (hi : i ≤ (ofText t).size)
    (h : EnvShape us w k r) (hus : (ofText t).slice 0 i = us)
    (hs : (ofText t).slice i (ofText t).size = k ++ r) :
    ∃ e colon value stop, (ofText t).IsEnv e colon value stop ∧ e.name.start = i := by
  obtain ⟨y, rfl, c, z, rfl, hc⟩ := h.reads
  have hedge := h.detached
  rw [← hus, detached_slice (Nat.zero_le _) hi (.inl rfl)] at hedge
  have hoption := h.question
  rw [← hus, Questioned, ← precedingCode?_eq_some hi (by decide)] at hoption
  have houtside := h.outside
  rw [← hus, ← hs, ← inConfiguration_iff hi, Bool.not_eq_true] at houtside
  obtain ⟨h1, hk, hvalue⟩ := slice_split hi (Nat.le_refl _) hs
  have hbefore : Detached ((ofText t).slice 0 (i + k.length)) := by
    rw [← slice_append _ (Nat.zero_le i) (Nat.le_add_right i k.length), hus, hk]
    exact h.detached.append h.key.detached
  rw [detached_slice (Nat.zero_le _) h1 (.inl rfl)] at hbefore
  obtain ⟨colon, hkey, hname, -⟩ := isKey_of_keyCells hi (Nat.le_refl _) h.key hs h.ne_nil h.word
    (by decide) (by decide) hedge
  obtain ⟨hprocess, hspelled, stop, hword⟩ := reads_of_cells h1 hbefore hvalue hc
  refine ⟨⟨⟨i, i + w.length⟩, ⟨i + k.length + environment.length,
    if (ofText t).isAsserted stop then stop + 1 else stop⟩⟩, colon, i + k.length, stop, ?_, rfl⟩
  exact
    { key := hkey
      field_ne := by
        dsimp only
        rw [hname, h.field_ne]
      name_ne := by
        dsimp only
        rw [hname]
        exact h.name_ne
      question := hoption
      process := hprocess
      spelled := hspelled
      start_eq := rfl
      word := hword
      stop_eq := rfl
      outside := houtside }

end

end Source

end ProviderNest
