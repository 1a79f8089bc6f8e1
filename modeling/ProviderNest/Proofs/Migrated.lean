import ProviderNest.Migrated
import ProviderNest.Proofs.Patches

/-!
# A migrated text is recognised

Whether a text is migrated is read off its bytes: a `default` and a `providers`, each with an object
behind it. A key that passes see as one, with white space around its colon, is seen by that test
(`KeyAt.hasObjectKey`). Every pass keeps such a key (`KeyAt.output`), wherever it moves it, and a
pass that rebuilds an object puts a `default` into it. So what the long pipeline leaves of a text
with a `providers` block to nest is migrated, and a second run does nothing
(`Pipeline.isMigrated_batch`).
-/

namespace ProviderNest

open LexState Source

/-! ## Keys that are read off the bytes -/

section
variable {u v : Text} {b : UInt8}

/-- White space between tokens is a blank character. -/
theorem afterBlank?_of_isSpace (h : Byte.isSpace b = true) (r : Text) :
    Text.afterBlank? (b :: r) = some r := by
  simp only [Byte.isSpace, Bool.or_eq_true, beq_iff_eq] at h
  rcases h with (((rfl | rfl) | rfl) | rfl) | rfl <;> rfl

/-- Trimming stops behind white space at something that is not blank. -/
theorem trimLeft_append (hu : ∀ b ∈ u, Byte.isSpace b = true) (hv : Text.afterBlank? v = none) :
    Text.trimLeft (u ++ v) = v := by
  have hdrop : ∀ n, u.length ≤ n → Text.dropBlanks n (u ++ v) = v := by
    induction u with
    | nil =>
      intro n _
      cases n with
      | zero => rfl
      | succ n =>
        rw [List.nil_append, Text.dropBlanks, hv]
    | cons b u ih =>
      intro n hn
      rw [List.length_cons] at hn
      obtain ⟨m, rfl⟩ : ∃ m, n = m + 1 := ⟨n - 1, by omega⟩
      rw [List.cons_append, Text.dropBlanks, afterBlank?_of_isSpace (hu b (by simp))]
      exact ih (fun x hx => hu x (by simp [hx])) m (by omega)
  exact hdrop _ (by rw [List.length_append]; omega)

/-- A colon and a brace with white space before them open an object. -/
theorem opensObject_append {g h : Text} (hs : ∀ b ∈ g ++ h, Byte.isSpace b = true) (r : Text) :
    Text.opensObject (g ++ (Byte.colon :: (h ++ Byte.openBrace :: r))) = true := by
  rw [Text.opensObject, trimLeft_append (fun b hb => hs b (List.mem_append_left _ hb)) rfl]
  dsimp only
  rw [trimLeft_append (fun b hb => hs b (List.mem_append_right _ hb)) rfl]
  rfl

/-- A key is found behind any text. -/
theorem hasObjectKey_append {key : Text} {before : Option UInt8}
    (h : Text.hasObjectKey key (u.getLast?.or before) v = true) :
    Text.hasObjectKey key before (u ++ v) = true := by
  induction u generalizing before with
  | nil => exact h
  | cons b u ih =>
    rw [List.cons_append, Text.hasObjectKey, Bool.or_eq_true]
    refine .inr (ih ?_)
    rw [List.getLast?_cons] at h
    cases hl : u.getLast? with
    | none =>
      rw [hl] at h
      exact h
    | some c =>
      rw [hl] at h
      exact h

/-- A key with white space around its colon is found. -/
theorem hasObjectKey_keyText {key g h : Text} {before : Option UInt8} (hkey : key ≠ [])
    (hb : before.any Byte.isWord = false) (hs : ∀ b ∈ g ++ h, Byte.isSpace b = true) (r : Text) :
    Text.hasObjectKey key before (keyText key g h ++ r) = true := by
  have hafter : Text.after? key (keyText key g h ++ r) =
      some (g ++ (Byte.colon :: (h ++ Byte.openBrace :: r))) := by
    have hprefix : key.isPrefixOf (keyText key g h ++ r) = true := by
      rw [List.isPrefixOf_iff_prefix, keyText, List.append_assoc]
      exact List.prefix_append ..
    rw [Text.after?, if_pos hprefix, keyText, List.append_assoc, List.drop_left]
    simp
  obtain ⟨b, u, hu⟩ := List.exists_cons_of_ne_nil
    (show keyText key g h ++ r ≠ [] by
      rw [keyText, List.append_assoc]
      exact List.append_ne_nil_of_left_ne_nil hkey _)
  rw [hu] at hafter ⊢
  rw [Text.hasObjectKey, hb, hafter, Option.any_some, opensObject_append hs]
  rfl

end

namespace KeyAt

variable {t w g h : Text} {i : Nat}

/-- A key that passes see as one is found. -/
theorem hasObjectKey (hk : KeyAt t w i g h) (hw : w ∈ guardKeys) :
    Text.hasObjectKey w none t = true := by
  have htext : t = t.take i ++ (keyText w g h ++ t.drop (i + (keyText w g h).length)) := by
    have := congrArg (List.map Cell.byte) hk.cells
    rw [map_byte_slice, Nat.add_sub_cancel_left, map_byte_codeCells] at this
    have hdrop := List.take_append_drop (keyText w g h).length (t.drop i)
    rw [this, List.drop_drop] at hdrop
    rw [hdrop, List.take_append_drop]
  rw [htext]
  refine hasObjectKey_append
    (hasObjectKey_keyText (isWord_of_mem_guardKeys w hw).2.1 ?_ hk.spaces _)
  rw [Option.or_none, List.getLast?_take]
  rcases hk.edge with h0 | ⟨b, hb, hn, -⟩
  · rw [if_pos h0]
    rfl
  · split
    · rfl
    · rw [hb, Option.some_or, Option.any_some, hn]

end KeyAt

/-! ## Keys that passes keep -/

namespace KeyAt

variable {t w g h : Text} {i : Nat}

/-- What a pass leaves of a key is a key, perhaps with something behind it. -/
theorem mended_within (hk : KeyAt t w i g h) (hw : w ∈ guardKeys) {qs : List Patch}
    (hf : Follow Patch.span i (i + (keyText w g h).length) qs)
    (hq : ∀ q ∈ qs, ∃ indent : Text, indent.IsIndent ∧
      q = ⟨⟨i + w.length, i + w.length + g.length + 1 + h.length⟩, front indent⟩) :
    ∃ g' h' ds, (∀ b ∈ g' ++ h', Byte.isSpace b = true) ∧
      t.mended (i + (keyText w g h).length) i qs = codeCells (keyText w g' h') ++ ds := by
  have hlen := length_keyText w g h
  cases hf with
  | nil => exact ⟨g, h, [], hk.spaces, by rw [mended_nil, hk.cells, List.append_nil]⟩
  | @cons _ _ q qs h1 h2 h3 =>
    obtain ⟨indent, hi, rfl⟩ := hq _ List.mem_cons_self
    dsimp only at h1 h2 h3
    obtain rfl : qs = [] := by
      rw [List.eq_nil_iff_forall_not_mem]
      intro r hr
      obtain ⟨indent', -, rfl⟩ := hq r (List.mem_cons_of_mem _ hr)
      have := (h3.bounds _ hr).1
      dsimp only at this
      omega
    have hstate : t.stateAt (i + w.length) = .code := (solid_of_isWord (hk.isKey hw).word).2
    have hcells : Patch.cells t ⟨⟨i + w.length, i + w.length + g.length + 1 + h.length⟩,
        front indent⟩ = codeCells (front indent) := by
      rw [Patch.cells]
      dsimp only
      rw [hstate]
      exact (after_cells_plain (fun b hb => (Text.quiet_front hi hb).1.1) none).2
    obtain ⟨r, hfront⟩ : ∃ r, front indent =
        Byte.colon :: Byte.space :: Byte.openBrace :: r := ⟨_, rfl⟩
    refine ⟨[], [Byte.space], codeCells r ++ (ofText t).slice
      (i + w.length + g.length + 1 + h.length) (i + (keyText w g h).length), by decide, ?_⟩
    rw [mended_cons, mended_nil, hcells, hk.slice_name, hfront]
    simp only [keyText, codeCells, List.map_append, List.map_cons, List.append_assoc,
      List.cons_append, List.nil_append, List.map_nil]

/-- **Every pass keeps a key with a brace behind it.** -/
theorem output (hk : KeyAt t w i g h) (hw : w ∈ guardKeys) (ht : t.WellFormed) (p : Pass) :
    ∃ i' g' h', KeyAt (p.output t) w i' g' h' := by
  have hlen := length_keyText w g h
  have hsize := lt_size_of_codeByte? hk.parts.2.2.2.2
  rw [size_ofText] at hsize
  have hclear : ∀ q ∈ p.patches t, q.Clear ⟨i, i + (keyText w g h).length⟩ := by
    intro q hq
    rcases hk.clear hw (p.made_patches ht q hq) with h1 | h1 | ⟨-, indent, -, rfl⟩
    · exact .inl h1
    · exact .inr (.inl h1)
    · refine .inr (.inr ⟨?_, ?_⟩) <;> (dsimp only; omega)
  obtain ⟨-, hbefore, hwithin, -⟩ := follow_parts (x := ⟨i, i + (keyText w g h).length⟩)
    (p.cells_output ht).2 (Nat.le_add_right ..) (by dsimp only; omega) hclear
  have hcells := p.cells_parts ht (x := ⟨i, i + (keyText w g h).length⟩) (Nat.le_add_right ..)
    (by dsimp only; omega) hclear
  obtain ⟨g', h', ds, hs, hmended⟩ := hk.mended_within hw hwithin fun q hq => by
    obtain ⟨hq, h1, h2⟩ := Span.mem_within.1 hq
    rcases hk.clear hw (p.made_patches ht q hq) with h3 | h3 | ⟨-, hthis⟩
    · dsimp only at h1
      omega
    · dsimp only at h2
      omega
    · exact hthis
  have hends := hk.ends_before hw (fun q hq => p.made_patches ht q (List.mem_filter.1 hq).1) hbefore
  rw [hmended, List.append_assoc] at hcells
  exact ⟨_, g', h', keyAt_of_cells hcells hs hends⟩

/-- Passes one after the other keep a key with a brace behind it. -/
theorem runPasses (hk : KeyAt t w i g h) (hw : w ∈ guardKeys) (ht : t.WellFormed) (ps : List Pass) :
    ∃ m, runPasses ps t = .ok m ∧ ∃ i' g' h', KeyAt m.text w i' g' h' := by
  induction ps generalizing t i g h with
  | nil => exact ⟨_, rfl, i, g, h, hk⟩
  | cons p ps ih =>
    obtain ⟨i', g', h', hk'⟩ := hk.output hw ht p
    obtain ⟨m, hm, hkey⟩ := ih hk' (p.wellFormed_output ht)
    exact ⟨_, runPasses_cons ht hm, hkey⟩

end KeyAt

section
variable {t : Text} {i : Nat} {b : Braces}

/-- The byte before a word is not a word byte. -/
theorem Source.IsWord.edge {w : Span} (h : (ofText t).IsWord w) :
    w.start = 0 ∨ ∃ c, t[w.start - 1]? = some c ∧ Byte.isWord c = false := by
  rcases Nat.eq_zero_or_pos w.start with h0 | h0
  · exact .inl h0
  have hlt := h.lt
  have hle := h.stop_le
  rw [size_ofText] at hle
  have hc : t[w.start - 1]? = some t[w.start - 1] := List.getElem?_eq_getElem (by omega)
  refine .inr ⟨_, hc, ?_⟩
  generalize t[w.start - 1] = c at hc
  have hbefore := h.before.resolve_left (by omega)
  cases hcode : (ofText t).codeByte? (w.start - 1) with
  | some d =>
    rw [getElem?_of_codeByte? hcode] at hc
    cases hc
    rw [inWord, hcode] at hbefore
    exact hbefore
  | none =>
    obtain ⟨d, hd, hdw⟩ := inWord_iff.1 h.inWord_start
    rw [← Nat.sub_add_cancel h0] at hd
    rw [← Bool.not_eq_true]
    intro hw
    have hquiet := Text.quiet_of_isWord hw
    have hne : d ≠ Byte.newline := by
      rintro rfl
      exact absurd hdw (by decide)
    rcases closes_of_codeByte? hc hcode hd hne with hq | hq
    · rw [hquiet.1.1] at hq
      cases hq
    · exact hquiet.1.2 hq

/-- Trivia of plain bytes is white space in code. -/
theorem Source.TriviaRun.isSpace_of_plain {j k : Nat} (h : (ofText t).TriviaRun j k) (hjk : j ≤ k)
    (hk : k ≤ t.length) (hstate : t.stateAt j = .code)
    (hp : ∀ c ∈ (ofText t).bytes ⟨j, k⟩, Plain c) :
    (ofText t).slice j k = codeCells ((ofText t).bytes ⟨j, k⟩) ∧
      ∀ c ∈ (ofText t).bytes ⟨j, k⟩, Byte.isSpace c = true := by
  have hslice := slice_plain (x := ⟨j, k⟩) hjk hk hstate hp
  refine ⟨hslice, fun c hc => (triviaRun_iff (by rwa [size_ofText])).1 h ⟨c, .code⟩ ?_⟩
  rw [hslice]
  exact List.mem_map_of_mem hc

/-- A key with nothing but white space around its colon and a brace behind it. -/
theorem Source.IsKey.keyAt {key : Key} {colon : Nat} (hk : (ofText t).IsKey key colon)
    (hopen : (ofText t).codeByte? key.value = some Byte.openBrace)
    (hdot : key.name.start = 0 ∨ t[key.name.start - 1]? ≠ some Byte.dot)
    (hspace : ∀ c ∈ (ofText t).bytes ⟨key.name.stop, key.value⟩,
      c = Byte.colon ∨ Byte.isSpace c = true) :
    ∃ g h, KeyAt t ((ofText t).bytes key.name) key.name.start g h := by
  have h1 := hk.word.lt
  have h2 := hk.stop_le_colon
  have h3 := hk.colon_lt_value
  have h4 := hk.value_le_size
  rw [size_ofText] at h4
  -- No comment begins around the colon, so what stands there is white space in code.
  have hplain : ∀ c ∈ (ofText t).bytes ⟨key.name.stop, key.value⟩, Plain c := by
    intro c hm
    rcases hspace c hm with rfl | hs
    · decide
    · simp only [Byte.isSpace, Bool.or_eq_true, beq_iff_eq] at hs
      rcases hs with (((rfl | rfl) | rfl) | rfl) | rfl <;> decide
  obtain ⟨hg, hgspace⟩ := hk.trivia_before.isSpace_of_plain h2 (by omega)
    (solid_of_isWord hk.word).2 fun c hm => hplain c (by
      rw [← bytes_append h2 (Nat.le_of_lt h3)]
      exact List.mem_append_left _ hm)
  obtain ⟨hh, hhspace⟩ := hk.trivia_behind.isSpace_of_plain h3 h4 (stateAt_succ hk.colon_code)
    fun c hm => hplain c (by
      rw [← bytes_append (show key.name.stop ≤ colon + 1 by omega) h3]
      exact List.mem_append_right _ hm)
  refine ⟨(ofText t).bytes ⟨key.name.stop, colon⟩, (ofText t).bytes ⟨colon + 1, key.value⟩, ?_,
    List.forall_mem_append.2 ⟨hgspace, hhspace⟩, ?_⟩
  · have hcells : (ofText t).slice key.name.start (key.value + 1) =
        codeCells (keyText ((ofText t).bytes key.name) ((ofText t).bytes ⟨key.name.stop, colon⟩)
          ((ofText t).bytes ⟨colon + 1, key.value⟩)) := by
      rw [codeCells_keyText, ← hg, ← hh,
        ← slice_append _ (show key.name.start ≤ key.value by omega) (Nat.le_succ _), hk.slice_eq,
        slice_eq_cons _ (Nat.lt_succ_self _) (codeByte?_eq_some.1 hopen), slice_self]
      simp
    have hlen := congrArg List.length hcells
    rw [List.length_map, length_slice _ (by omega) (lt_size_of_codeByte? hopen)] at hlen
    rw [← hlen, Nat.add_sub_cancel' (by omega), hcells]
  · rcases hdot with h0 | hdot
    · exact .inl h0
    rcases hk.word.edge with h0 | ⟨c, hc, hn⟩
    · exact .inl h0
    · exact .inr ⟨c, hc, hn, fun h => hdot (h ▸ hc)⟩

/-- A `providers` block with nothing but white space around its colon is a key with a brace behind
it. -/
theorem keyAt_of_block? (hb : (ofText t).block? i = some b)
    (hdot : i = 0 ∨ t[i - 1]? ≠ some Byte.dot)
    (hspace : ∀ c ∈ (ofText t).bytes ⟨i + providersKey.length, b.opening⟩,
      c = Byte.colon ∨ Byte.isSpace c = true) : ∃ g h, KeyAt t providersKey i g h := by
  obtain ⟨key, colon, rfl, hk, hbytes, ho, hc⟩ := block?_eq_some.1 hb
  have hlength := length_bytes (Nat.le_of_lt hk.word.lt) hk.word.stop_le
  have hstop : key.name.start + providersKey.length = key.name.stop := by
    rw [← hbytes, hlength, Nat.add_sub_cancel' (Nat.le_of_lt hk.word.lt)]
  rw [hstop, ho] at hspace
  rw [← hbytes]
  exact hk.keyAt (ho ▸ (closing?_spec hc).1) hdot hspace

/-- A `providers` block that is rebuilt has a flat entry. -/
theorem mem_hits_providersBlock {s : Source} (h : Hit.object i b ∈ Pass.providersBlock.hits s) :
    s.block? i = some b ∧ s.flatEntriesOf b ≠ [] := by
  obtain ⟨k, found, next, hk, hm⟩ := mem_sweep h
  obtain ⟨b', hb', ho⟩ := Option.bind_eq_some_iff.1 hk
  obtain ⟨hne, rfl, -⟩ := objectHit?_eq_some.1 ho
  cases List.mem_singleton.1 hm
  exact ⟨hb', hne⟩

end

/-- **A second run does nothing.** If the long pipeline rebuilds a `providers` block the key of
which has no dot before it and nothing but white space around its colon, then what it leaves is
migrated, and no pipeline changes it again. -/
theorem Pipeline.isMigrated_batch (cs : List Char) (i : Nat) (b : Braces)
    (hhit : Hit.object i b ∈ Pass.providersBlock.hits (ofText (.ofChars cs)))
    (hdot : i = 0 ∨ (Text.ofChars cs)[i - 1]? ≠ some Byte.dot)
    (hspace : ∀ c ∈ (ofText (.ofChars cs)).bytes ⟨i + providersKey.length, b.opening⟩,
      c = Byte.colon ∨ Byte.isSpace c = true) :
    ∃ m, Pipeline.batch.run (.ofChars cs) = .ok m ∧ m.text.isMigrated = true ∧
      ∀ p, migrate p m.text = .ok .alreadyMigrated := by
  have ht := Text.wellFormed_ofChars cs
  obtain ⟨hb, hne⟩ := mem_hits_providersBlock hhit
  obtain ⟨g, h, hproviders⟩ := keyAt_of_block? hb hdot hspace
  obtain ⟨f, hf⟩ := List.exists_mem_of_ne_nil _ hne
  obtain ⟨j, -, hdefault, -⟩ := Pass.keyAt_body ht
    (List.mem_flatMap.2 ⟨_, hhit, hf⟩ : f ∈ Pass.providersBlock.flats (.ofChars cs))
  obtain ⟨i', g', h', hproviders⟩ := hproviders.output (by decide) ht .providersBlock
  have ht' := Pass.providersBlock.wellFormed_output ht
  obtain ⟨m, hm, k1, g1, h1, hk1⟩ := hproviders.runPasses (by decide) ht'
    [.envAssignment, .returnLiteral, .constLiteral]
  obtain ⟨m', hm', k2, g2, h2, hk2⟩ := hdefault.runPasses (by decide) ht'
    [.envAssignment, .returnLiteral, .constLiteral]
  obtain rfl : m' = m := Except.ok.inj (hm'.symm.trans hm)
  have hmigrated : m'.text.isMigrated = true := by
    rw [Text.isMigrated, hk1.hasObjectKey (by decide), hk2.hasObjectKey (by decide)]
    rfl
  refine ⟨_, runPasses_cons ht hm, hmigrated, fun p => ?_⟩
  rw [migrate, if_pos hmigrated]

/-- A block in a field of an object. -/
theorem Pipeline.isMigrated_field : ∃ m, Pipeline.batch.run (.ofChars
      "x = \x7b providers : \x7b a: \x7b apiKey: 1 \x7d \x7d \x7d".toList) = .ok m ∧
    m.text.isMigrated = true ∧ ∀ p, migrate p m.text = .ok .alreadyMigrated :=
  Pipeline.isMigrated_batch _ 6 ⟨18, 37⟩ (by decide +kernel) (by decide +kernel) (by decide +kernel)

end ProviderNest
