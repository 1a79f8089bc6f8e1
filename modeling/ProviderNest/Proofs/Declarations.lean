import Mathlib.Data.List.Sort
import ProviderNest.Proofs.Settling

/-!
# Blocks inside declarations

The pass over `const` declarations looks for `providers` blocks inside each object that it finds, up
to its closing brace, and goes on behind it; the pass over blocks looks for them in the whole text.
Both pass over a block only behind the start of one that they rebuild (`Source.Covers`), and such a
list of blocks is determined by the text (`Source.Covers.unique`). So if each block with a flat
entry lies inside the object of a declaration, the passes find the same blocks and their results are
equal (`Pass.constLiteral_eq_providersBlock`).

What carries this is that braces behind a word and no other brace lie inside any braces in which the
word stands (`Source.Leads.inside`). It holds of blocks and of declarations alike.
-/

namespace ProviderNest

open Source

/-! ## Words that lead to braces -/

section
variable {t : Text} {i j k : Nat}

/-- Two parts without a brace, one behind the other, are one part without a brace. -/
theorem NoBrace.append (h : NoBrace t ⟨i, j⟩) (h' : NoBrace t ⟨j, k⟩) : NoBrace t ⟨i, k⟩ :=
  fun n h1 h2 => (Nat.lt_or_ge n j).elim (h n h1) fun hj => h' n hj h2

/-- Trivia has no brace: white space is none, and a brace in a comment is not code. -/
theorem noBrace_trivia (h : (ofText t).TriviaRun i j) : NoBrace t ⟨i, j⟩ := fun n h1 h2 =>
  ⟨codeByte?_ne_of_isTrivia (h n h1 h2) (by decide),
    codeByte?_ne_of_isTrivia (h n h1 h2) (by decide)⟩

theorem noBrace_skipTrivia : NoBrace t ⟨i, (ofText t).skipTrivia i⟩ :=
  noBrace_trivia (triviaRun_skipTrivia _ i)

theorem noBrace_codeByte? {b : UInt8} (h : (ofText t).codeByte? i = some b)
    (hb : b ≠ Byte.openBrace ∧ b ≠ Byte.closeBrace) : NoBrace t ⟨i, i + 1⟩ := by
  intro n h1 h2
  obtain rfl : n = i := Nat.le_antisymm (Nat.le_of_lt_succ h2) h1
  rw [h]
  exact ⟨fun h => hb.1 (Option.some.inj h), fun h => hb.2 (Option.some.inj h)⟩

/-- There is no brace in a type annotation: it is a colon and a single word, with trivia around
it. -/
theorem noBrace_afterAnnotation? (h : (ofText t).afterAnnotation? i = some j) :
    NoBrace t ⟨i, j⟩ := by
  unfold afterAnnotation? at h
  split at h
  · next hcolon =>
    obtain ⟨w, hw, rfl⟩ := Option.map_eq_some_iff.1 h
    obtain ⟨hstart, hword⟩ := word?_eq_some.1 hw
    have hbefore := (noBrace_codeByte? hcolon (by decide)).append noBrace_skipTrivia
    rw [← hstart] at hbefore
    exact (hbefore.append (noBracket_word hword).noBrace).append noBrace_skipTrivia
  · cases h
    exact fun n h1 h2 => absurd h1 (Nat.not_le_of_lt h2)

end

namespace Source

/-- A word begins at position `i`, and the first brace behind it opens `b`. -/
structure Leads (t : Text) (i : Nat) (b : Braces) : Prop where
  introduces : (ofText t).Introduces i b
  noBrace : NoBrace t ⟨i, b.opening⟩

section
variable {t : Text} {i k : Nat} {b c : Braces}

/-- The first brace behind the word of a providers block opens its object: between the two there is
only a colon with trivia. -/
theorem leads_of_block? (h : (ofText t).block? i = some b) : Leads t i b := by
  refine ⟨introduces_of_block? h, ?_⟩
  obtain ⟨key, colon, rfl, hkey, -, hopening, -⟩ := block?_eq_some.1 h
  rw [hopening]
  exact noBrace_key hkey

/-- The first brace behind the word of a declaration opens its object: between the two there are a
name, perhaps a type annotation, and an equals sign. -/
theorem leads_of_declared? (h : (ofText t).declared? i = some b) : Leads t i b := by
  refine ⟨introduces_of_declared? h, ?_⟩
  unfold declared? at h
  simp only [Option.bind_eq_bind, Option.bind_eq_some_iff, Option.guard_eq_some', exists_const] at h
  obtain ⟨hw, name, hname, equals, hafter, hequals, -, -, hb⟩ := h
  obtain ⟨x, rfl, hx, hbytes⟩ := isWord_iff.1 hw
  obtain ⟨c, hc, rfl⟩ := Option.map_eq_some_iff.1 hb
  obtain ⟨hstart, hword⟩ := word?_eq_some.1 hname
  have hstop : x.stop = x.start + 5 := by
    have := length_bytes (Nat.le_of_lt hx.lt) hx.stop_le
    rw [hbytes] at this
    have hfive : (Text.ofString "const").length = 5 := by decide
    have := hx.lt
    omega
  have hconst := (noBracket_word hx).noBrace.append (noBrace_skipTrivia (t := t))
  rw [hstop, ← hstart] at hconst
  exact ((hconst.append (noBracket_word hword).noBrace).append noBrace_skipTrivia).append
    ((noBrace_afterAnnotation? hafter).append
      ((noBrace_codeByte? hequals (by decide)).append noBrace_skipTrivia))

namespace Leads

theorem closing (h : Leads t i b) : (ofText t).closing? b.opening = some b.closing :=
  h.introduces.1

/-- No brace stands where a word begins. -/
theorem ne_of_codeByte? (h : Leads t i b) {d : UInt8} (hd : (ofText t).codeByte? k = some d)
    (hw : Byte.isWord d = false) : k ≠ i := by
  rintro rfl
  obtain ⟨-, -, w, rfl, hword⟩ := h.introduces
  have := hword.inWord_start
  rw [inWord_of_codeByte? hd hw] at this
  cases this

/-- Braces lie inside those in which their word stands. -/
theorem inside (h : Leads t k c) (hb : (ofText t).closing? b.opening = some b.closing)
    (hlt : b.opening < k) (hle : k ≤ b.closing) : c.closing < b.closing := by
  obtain ⟨-, -, hclose⟩ := closing?_spec hb
  obtain ⟨hopen, -, -⟩ := closing?_spec h.closing
  have hopening := h.introduces.2.1
  have hne := h.ne_of_codeByte? hclose (by decide)
  refine closing?_lt hb h.closing (by omega) (Nat.lt_of_not_le fun hge => ?_)
  rcases Nat.eq_or_lt_of_le hge with heq | hgt
  · rw [← heq, hclose] at hopen
    cases hopen
  · exact (h.noBrace b.closing (by dsimp only; omega) hgt).2 hclose

/-- Two words lead to the same braces, or the second stands inside the braces of the first. -/
theorem eq_or_lt (h : Leads t i b) (h' : Leads t k c) (hik : i ≤ k) :
    b = c ∨ b.opening < k := by
  refine (Nat.lt_or_ge b.opening k).symm.imp (fun hge => ?_) id
  obtain ⟨hopen, -, -⟩ := closing?_spec h.closing
  obtain ⟨hopen', -, -⟩ := closing?_spec h'.closing
  have hk := h'.introduces.2.1
  have hopening : b.opening = c.opening := by
    rcases Nat.lt_trichotomy b.opening c.opening with hlt | heq | hlt
    · exact absurd hopen (h'.noBrace b.opening hge hlt).1
    · exact heq
    · exact absurd hopen' (h.noBrace c.opening (Nat.le_trans hik hk) hlt).1
  have hclosing := h.closing
  rw [hopening, h'.closing] at hclosing
  obtain ⟨o, n⟩ := b
  obtain ⟨o', n'⟩ := c
  rw [Braces.mk.injEq]
  exact ⟨hopening, (Option.some.inj hclosing).symm⟩

end Leads

/-- A block that begins between the key of another one and its closing brace lies inside it. -/
theorem block?_inside (h : (ofText t).block? i = some b) (h' : (ofText t).block? k = some c)
    (hlt : i < k) (hle : k ≤ b.closing) : b.opening < k ∧ c.closing < b.closing := by
  obtain ⟨key, colon, rfl, hkey, -, hopening, -⟩ := block?_eq_some.1 h
  obtain ⟨key', colon', rfl, hkey', -⟩ := block?_eq_some.1 h'
  have hword := hkey'.word.inWord_start
  have hbehind := (hkey.start_or_behind (Nat.le_of_lt hlt) hword hkey'.word.before).resolve_left
    (Nat.ne_of_gt hlt)
  have hne := (leads_of_block? h').ne_of_codeByte?
    (closing?_spec (leads_of_block? h).closing).1 (by decide)
  have hopen : b.opening < key'.name.start := by omega
  exact ⟨hopen, (leads_of_block? h').inside (leads_of_block? h).closing hopen hle⟩

end

/-! ## Lists of blocks that leave none out -/

/-- Blocks with flat entries, in order, such that each block with a flat entry is one of them or
begins inside one of them. -/
structure Covers (s : Source) (hs : List Hit) : Prop where
  blocks : ∀ h ∈ hs, ∃ a b, h = .object a b ∧ s.block? a = some b ∧ s.flatEntriesOf b ≠ []
  follow : Follow Hit.span 0 s.size hs
  covered : ∀ i b, s.block? i = some b → s.flatEntriesOf b ≠ [] →
    ∃ a b0, Hit.object a b0 ∈ hs ∧ s.block? a = some b0 ∧ a ≤ i ∧ (a = i ∨ i ≤ b0.closing)

namespace Covers

variable {t : Text} {hs hs' : List Hit}

/-- Of two blocks in a list that leaves none out, neither begins inside the other. -/
theorem not_inside {a k : Nat} {b c : Braces} (h : (ofText t).Covers hs)
    (ha : Hit.object a b ∈ hs) (hb : (ofText t).block? a = some b) (hk : Hit.object k c ∈ hs)
    (hc : (ofText t).block? k = some c) (hlt : a < k) : b.closing < k := by
  refine Nat.lt_of_not_le fun hle => ?_
  obtain ⟨hopen, hclose⟩ := block?_inside hb hc hlt hle
  have hck : k ≤ c.opening := (introduces_of_block? hc).2.1
  obtain ⟨-, hcc, -⟩ := closing?_spec (closing?_of_block? hc)
  have := h.follow.eq_of_mem (k := c.opening) ha hk
    ⟨by dsimp only [Hit.span, Braces.span]; omega, by dsimp only [Hit.span, Braces.span]; omega⟩
    ⟨Nat.le_refl _, by dsimp only [Hit.span, Braces.span]; omega⟩
  cases this
  exact Nat.lt_irrefl _ hlt

/-- Each block of one list is a block of the other: else one of the first would lie inside one of
the second, and that inside one of the first. -/
theorem subset (h : (ofText t).Covers hs) (h' : (ofText t).Covers hs') : hs ⊆ hs' := by
  intro x hx
  obtain ⟨k, c, rfl, hc, hne⟩ := h.blocks x hx
  obtain ⟨a, b, hm, hb, hle, hcase⟩ := h'.covered k c hc hne
  rcases Nat.eq_or_lt_of_le hle with rfl | hlt
  · cases hb.symm.trans hc
    exact hm
  have hin := hcase.resolve_left (Nat.ne_of_lt hlt)
  obtain ⟨_, _, heq, -, hne'⟩ := h'.blocks _ hm
  cases heq
  obtain ⟨a', b', hm', hb', hle', hcase'⟩ := h.covered a b hb hne'
  have hclosing : b.closing ≤ b'.closing := by
    rcases Nat.eq_or_lt_of_le hle' with rfl | hlt'
    · obtain rfl := Option.some.inj (hb.symm.trans hb')
      exact Nat.le_refl _
    · exact Nat.le_of_lt (block?_inside hb' hb hlt' (hcase'.resolve_left (Nat.ne_of_lt hlt'))).2
  have := h.not_inside hm' hb' hx hc (by omega)
  omega

/-- **The blocks that leave none out are determined.** -/
theorem unique (h : (ofText t).Covers hs) (h' : (ofText t).Covers hs') : hs = hs' := by
  let r (x y : Hit) : Prop := x.span.start < y.span.start
  have : Std.Irrefl r := ⟨fun _ => Nat.lt_irrefl _⟩
  have : Std.Antisymm r := ⟨fun _ _ h h' => absurd h (Nat.lt_asymm h')⟩
  have hordered {gs : List Hit} (hg : (ofText t).Covers gs) : gs.Pairwise r := by
    refine hg.follow.pairwise.imp_of_mem fun hx _ hxy => ?_
    obtain ⟨a, b, rfl, hb, -⟩ := hg.blocks _ hx
    obtain ⟨-, hlt, -⟩ := closing?_spec (closing?_of_block? hb)
    exact Nat.lt_of_lt_of_le (by dsimp only [Hit.span, Braces.span]; omega) hxy
  exact (hordered h).eq_of_mem_iff (hordered h') fun x => ⟨fun hx => h.subset h' hx,
    fun hx => h'.subset h hx⟩

end Covers

end Source

/-! ## Both passes leave no block out -/

section
variable {t : Text}

/-- The hits of the block pass cover the blocks: it jumps over a block only if that begins inside
one that it rewrites. -/
theorem covers_providersBlock : (ofText t).Covers (Pass.providersBlock.hits (ofText t)) where
  blocks h hm := by
    obtain ⟨a, b, rfl, -⟩ := allBlocks_hits h hm
    obtain ⟨hb, hne⟩ := mem_hits_providersBlock hm
    exact ⟨a, b, rfl, hb, hne⟩
  follow := (finds_hits .providersBlock (ofText t)).1
  covered _ _ hb hne := exists_hit_of_block? hb hne

/-- What the search inside a declaration finds. -/
theorem find?_blockHits {s : Source} {stop i : Nat} {x : List Hit × Nat} :
    (do let b ← s.block? i; guard (b.closing < stop); s.objectHit? i b) = some x ↔
      ∃ b, s.block? i = some b ∧ b.closing < stop ∧ s.flatEntriesOf b ≠ [] ∧
        x = ([.object i b], b.closing + 1) := by
  obtain ⟨found, next⟩ := x
  simp only [Option.bind_eq_bind, Option.bind_eq_some_iff, Option.guard_eq_some', exists_const,
    objectHit?_eq_some, Prod.mk.injEq]

/-- A block with a flat entry between two positions is found, or it begins inside one that is. -/
theorem exists_blockHit {s : Source} {start stop i : Nat} {b : Braces} (hb : s.block? i = some b)
    (hne : s.flatEntriesOf b ≠ []) (h1 : start ≤ i) (h2 : b.closing < stop) :
    ∃ a b0, Hit.object a b0 ∈ s.blockHits start stop ∧ s.block? a = some b0 ∧ a ≤ i ∧
      (a = i ∨ i ≤ b0.closing) := by
  have hopening := (introduces_of_block? hb).2.1
  obtain ⟨-, hlt, -⟩ := closing?_spec (closing?_of_block? hb)
  obtain ⟨a, found, next, hf, ha, hcase, hmem⟩ := sweep_covers (n := stop - start)
    (f := fun i => do let b ← s.block? i; guard (b.closing < stop); s.objectHit? i b)
    (find?_blockHits.2 ⟨b, hb, h2, hne, rfl⟩) h1 (by omega) h1
  obtain ⟨b0, hb0, -, -, heq⟩ := find?_blockHits.1 hf
  cases heq
  exact ⟨a, b0, hmem _ List.mem_cons_self, hb0, ha, hcase.imp id Nat.le_of_lt_succ⟩

/-- Where the declaration pass finds a declaration, it hits the blocks inside the object and goes on
behind the object. -/
theorem find?_constLiteral {s : Source} {i : Nat} {x : List Hit × Nat} :
    Pass.constLiteral.find? s i = some x ↔ ∃ c, s.declared? i = some c ∧
      x = (s.blockHits (c.opening + 1) c.closing, c.closing + 1) := by
  rw [Pass.find?, Option.map_eq_some_iff]
  exact exists_congr fun c => and_congr_right fun _ => eq_comm

/-- What stands inside the object of a declaration stands inside one that the sweep looks into. -/
theorem exists_declared {j i n : Nat} {c : Braces} (hc : (ofText t).declared? j = some c)
    (hi : c.opening < i) (hn : n < c.closing) : ∃ c' : Braces, c'.opening < i ∧ n < c'.closing ∧
      ∀ h ∈ (ofText t).blockHits (c'.opening + 1) c'.closing,
        h ∈ Pass.constLiteral.hits (ofText t) := by
  have hleads := leads_of_declared? hc
  have hopening := hleads.introduces.2.1
  have hsize : j < (ofText t).size := by
    obtain ⟨-, -, w, rfl, hw⟩ := hleads.introduces
    exact Nat.lt_of_lt_of_le hw.lt hw.stop_le
  obtain ⟨j', found, next, hf, hj', hcase, hmem⟩ :=
    sweep_covers (f := fun i => Pass.constLiteral.find? (ofText t) i) (i := 0)
      (n := (ofText t).size) (find?_constLiteral.2 ⟨c, hc, rfl⟩) (Nat.zero_le _) (by omega)
      (Nat.zero_le _)
  obtain ⟨c', hc', heq⟩ := find?_constLiteral.1 hf
  cases heq
  refine ⟨c', ?_, ?_, hmem⟩
  all_goals
    rcases (leads_of_declared? hc').eq_or_lt hleads hj' with rfl | hlt
    · assumption
    have hj : j ≤ c'.closing := by
      have := (leads_of_declared? hc').introduces.2.1
      omega
    have := hleads.inside (leads_of_declared? hc').closing hlt hj
    omega

/-- The hits of the declaration pass cover the blocks if each block with a flat entry is inside a
declaration: a declaration that is jumped over is inside another one, whose blocks are swept in one
go. -/
theorem covers_constLiteral
    (h : ∀ i b, (ofText t).block? i = some b → (ofText t).flatEntriesOf b ≠ [] →
      ∃ j c, (ofText t).declared? j = some c ∧ c.opening < i ∧ b.closing < c.closing) :
    (ofText t).Covers (Pass.constLiteral.hits (ofText t)) where
  blocks x hm := by
    obtain ⟨j, found, next, hf, hx⟩ := mem_sweep hm
    obtain ⟨c, -, heq⟩ := find?_constLiteral.1 hf
    cases heq
    obtain ⟨a, found, next, hf, hx⟩ := mem_sweep hx
    obtain ⟨b, hb, -, hne, heq⟩ := find?_blockHits.1 hf
    cases heq
    exact ⟨a, b, List.mem_singleton.1 hx, hb, hne⟩
  follow := (finds_hits .constLiteral (ofText t)).1
  covered i b hb hne := by
    obtain ⟨j, c, hc, hopen, hclose⟩ := h i b hb hne
    obtain ⟨c', hopen', hclose', hmem⟩ := exists_declared hc hopen hclose
    obtain ⟨a, b0, hm, hb0, hcase⟩ := exists_blockHit hb hne hopen' hclose'
    exact ⟨a, b0, hmem _ hm, hb0, hcase⟩

end

/-- **On declarations the two passes agree.** If each `providers` block with a flat entry lies, its
key and its braces, inside the object of a `const` declaration, then the pass over declarations and
the pass over blocks leave the same text by the same edits. -/
theorem Pass.constLiteral_eq_providersBlock (cs : List Char)
    (h : ∀ i b, (ofText (.ofChars cs)).block? i = some b →
      (ofText (.ofChars cs)).flatEntriesOf b ≠ [] →
      ∃ j c, (ofText (.ofChars cs)).declared? j = some c ∧ c.opening < i ∧ b.closing < c.closing) :
    ∃ r, Pass.constLiteral.apply (.ofChars cs) = .ok r ∧
      Pass.providersBlock.apply (.ofChars cs) = .ok r := by
  have ht := Text.wellFormed_ofChars cs
  have hhits := (covers_constLiteral h).unique covers_providersBlock
  refine ⟨_, ?_, Pass.providersBlock.apply_eq ht⟩
  rw [Pass.apply, hhits, ← Pass.apply, Pass.providersBlock.apply_eq ht]

/-- A declaration inside the object of another one, and in it a block inside an entry of a block. -/
def declarations : List Char :=
  "const a: T = \x7b const b = \x7b providers: \x7b p: \x7b apiKey: 1, providers: \x7b q: \x7b apiKey: 2 \x7d \x7d \x7d \x7d \x7d \x7d".toList

/-- The block is found from the outer declaration, the block inside it and the inner declaration are
passed over, and the results are equal. -/
theorem Pass.constLiteral_eq_declarations :
    (∀ i b, (ofText (.ofChars declarations)).block? i = some b →
      (ofText (.ofChars declarations)).flatEntriesOf b ≠ [] →
      ∃ j c, (ofText (.ofChars declarations)).declared? j = some c ∧ c.opening < i ∧
        b.closing < c.closing) ∧
    Pass.constLiteral.hits (ofText (.ofChars declarations)) = [.object 27 ⟨38, 90⟩] ∧
    ∃ r, Pass.constLiteral.apply (.ofChars declarations) = .ok r ∧
      Pass.providersBlock.apply (.ofChars declarations) = .ok r := by
  have houter : (ofText (.ofChars declarations)).declared? 0 = some ⟨13, 94⟩ := by decide +kernel
  have hin : ∀ i < 95, ∀ b ∈ (ofText (.ofChars declarations)).block? i,
      13 < i ∧ b.closing < 94 := by
    decide +kernel
  have h : ∀ i b, (ofText (.ofChars declarations)).block? i = some b →
      (ofText (.ofChars declarations)).flatEntriesOf b ≠ [] →
      ∃ j c, (ofText (.ofChars declarations)).declared? j = some c ∧ c.opening < i ∧
        b.closing < c.closing := by
    intro i b hb _
    have hlt := lt_size_of_block? hb
    rw [size_ofText] at hlt
    exact ⟨0, _, houter, hin i hlt b hb⟩
  exact ⟨h, by decide +kernel, Pass.constLiteral_eq_providersBlock declarations h⟩

end ProviderNest
