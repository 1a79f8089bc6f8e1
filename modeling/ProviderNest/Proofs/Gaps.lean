import ProviderNest.Proofs.Patches

/-!
# Gaps that are laid out already

A patch that puts in what it takes out has no effect, and a text can be left as it is by patches in
no other way if all of them lay out gaps (`idle_of_patched`). Between two gaps there is always a
part of an entry (`Pass.follow_reach`), and it begins with neither a blank nor a comma. So what is
put into a gap and what stood there are told from what follows them, and the gaps are compared one
by one.
-/

namespace ProviderNest

open LexState Source

/-! ## Gaps apart from each other -/

/-- The span of a change and, where it keeps nothing, the byte behind it. -/
def Change.reach (c : Change) : Span := ⟨c.start, max c.kept.stop (c.kept.start + 1)⟩

/-- The span of a patch and the byte behind it. -/
def Patch.reach (q : Patch) : Span := ⟨q.span.start, q.span.stop + 1⟩

section
variable {t : Text} {i j : Nat}

/-- A flat entry in the nested shape reaches from behind its name to its end. -/
theorem reach_flat {e : FlatEntry} {colon : Nat} {indent : Text} (h : (ofText t).IsFlat e colon) :
    (e.change indent).reach = ⟨e.name.stop, e.body.stop⟩ := by
  have ho := h.order
  simp only [Change.reach, FlatEntry.change, Span.mk.injEq, true_and]
  omega

/-- An entry read from the environment reaches over the whole of it. -/
theorem reach_env {e : EnvEntry} {colon value stop : Nat} {indent : Text}
    (h : (ofText t).IsEnv e colon value stop) :
    (e.change (ofText t) indent).reach = e.span := by
  have ho := h.order
  simp only [Change.reach, EnvEntry.change, EnvEntry.span, Span.mk.injEq, true_and]
  omega

/-- A gap laid out anew reaches one byte further than the gap. -/
theorem reach_gap (i j : Nat) (text : Text) : (Change.gap i j text).reach = ⟨i, j + 1⟩ := by
  simp only [Change.reach, Change.gap, Span.mk.injEq, true_and]
  omega

/-- Between two gaps of an object there is an entry. -/
theorem follow_reach_layout {close : Nat} {es : List Span} (inner indent lead : Text)
    (h : Laid t close i es) :
    Follow Change.reach i (close + 1) ((ofText t).layout inner indent close lead i es) := by
  induction h generalizing lead with
  | nil hle =>
    refine .cons ?_ ?_ (.nil ?_) <;> simp only [reach_gap] <;> omega
  | @cons i e es he _ ih =>
    have h1 := he.le
    have h2 := he.lt
    refine .cons ?_ ?_ ?_
    · simp only [reach_gap]
      omega
    · simp only [reach_gap]
      omega
    simp only [reach_gap]
    cases hf : (ofText t).flatIn? e with
    | none => exact (ih _).of_le h2
    | some f =>
      obtain ⟨⟨colon, hflat⟩, h3, h4, -⟩ := flatIn?_eq_some (Nat.le_of_lt h2) hf
      have ho := hflat.order
      refine .cons ?_ ?_ ((ih _).of_le ?_) <;> rw [reach_flat hflat] <;> dsimp only <;> omega

/-- No change of a pass reaches the next one. -/
theorem Pass.follow_reach (p : Pass) (ht : t.WellFormed) :
    Follow Change.reach 0 t.length (p.changes t) := by
  obtain ⟨h1, -, h3⟩ := finds_hits p (ofText t)
  rw [size_ofText] at h1
  refine h1.flatMap fun h hm => ?_
  have hv := h3 h hm
  cases h with
  | flat e =>
    obtain ⟨colon, hf⟩ := hv
    have ho := hf.order
    refine .cons ?_ ?_ (.nil ?_) <;> rw [reach_flat hf] <;>
      simp only [Hit.span, FlatEntry.span] <;> omega
  | env e =>
    obtain ⟨colon, value, stop, hf⟩ := hv
    have ho := hf.order
    refine .cons ?_ ?_ (.nil ?_) <;> rw [reach_env hf] <;>
      simp only [Hit.span, EnvEntry.span] <;> omega
  | object a b => exact (follow_reach_layout _ _ [] (laid_entries ht hv.1)).of_le (Nat.le_succ _)

/-- Gaps among the patches of changes do not reach each other. -/
theorem follow_reach_filter {f : Patch → Bool} {cs : List Change}
    (h : Follow Change.reach i j cs)
    (hf : ∀ c ∈ cs, ∀ q ∈ c.patches, f q = true → ∃ i j text, c = .gap i j text) :
    Follow Patch.reach i j ((cs.flatMap Change.patches).filter f) := by
  induction h with
  | nil h => exact .nil h
  | @cons i j c cs h1 h2 h3 ih =>
    have ih := ih fun d hd => hf d (by simp [hd])
    rw [List.flatMap_cons, List.filter_append]
    cases hc : c.patches.filter f with
    | nil => exact ih.of_le (Nat.le_trans h1 h2)
    | cons q qs =>
      have hq : q ∈ c.patches.filter f := by
        rw [hc]
        exact List.mem_cons_self
      obtain ⟨hq, hfq⟩ := List.mem_filter.1 hq
      obtain ⟨a, b, text, rfl⟩ := hf c (by simp) q hq hfq
      rw [patches_gap] at hq hc
      obtain rfl := List.mem_singleton.1 hq
      rw [List.filter_cons_of_pos hfq, List.filter_nil] at hc
      obtain ⟨-, rfl⟩ := List.cons.inj hc
      rw [reach_gap] at h1 h2 ih
      exact .cons h1 h2 ih

end

/-! ## Patches without effect -/

section
variable {t : Text} {i j : Nat}

/-- Patches that put in what they take out leave everything as it is. -/
theorem patched_idle {qs : List Patch} (hf : Follow Patch.span i j qs)
    (hq : ∀ q ∈ qs, (ofText t).bytes q.span = q.text) :
    (ofText t).patched j i qs = (ofText t).bytes ⟨i, j⟩ := by
  induction hf with
  | nil => rfl
  | @cons i j q qs h1 h2 h3 ih =>
    have ih := ih fun r hr => hq r (by simp [hr])
    have hle := h3.le
    rw [patched] at ih ⊢
    rw [mend, ih, ← hq q (by simp), ← bytes_append (s := ofText t) h1 (show _ ≤ j by omega),
      ← bytes_append (s := ofText t) h2 hle, List.append_assoc]

/-- A patch that lays out a gap. -/
def Patch.IsGap (t : Text) (q : Patch) : Prop := ∃ (lead indent : Text),
  ProviderNest.IsGap t q.span.start q.span.stop lead ∧ indent.IsIndent ∧
    q.text = lead ++ Byte.newline :: indent

/-- What lays out a gap begins with the first byte of a character. -/
theorem Patch.IsGap.starts {q : Patch} (h : q.IsGap t) (u : Text) : Text.Starts (q.text ++ u) := by
  obtain ⟨lead, indent, hg, -, htext⟩ := h
  intro b hb
  rcases hg.opens with ⟨rfl, -⟩ | ⟨rfl, -⟩
  · rw [htext] at hb
    cases hb
    decide
  · rw [htext] at hb
    cases hb
    decide

/-- A part of a text is a prefix of what comes from its start on. -/
theorem bytes_prefix_drop (i j : Nat) : (ofText t).bytes ⟨i, j⟩ <+: t.drop i := by
  rw [Source.bytes_eq, map_byte_slice]
  exact List.take_prefix ..

/-- What is left behind a gap begins with neither a blank nor a comma, if it did before. -/
theorem fresh_patched {k : Nat} {qs : List Patch} (hf : Follow Patch.reach (k + 1) j qs)
    (hj : j ≤ t.length) (hq : ∀ q ∈ qs, q.IsGap t) (h : Text.Fresh (t.drop k)) :
    Text.Fresh ((ofText t).patched j k qs) := by
  cases hf with
  | nil => exact h.mono (bytes_prefix_drop k j)
  | @cons _ _ q qs h1 h2 h3 =>
    show Text.Fresh ((ofText t).bytes ⟨k, q.span.start⟩ ++ q.text ++
      (ofText t).patched j q.span.stop qs)
    rw [List.append_assoc]
    refine (h.mono (bytes_prefix_drop k _)).append ?_ ((hq q (by simp)).starts _)
    intro hnil
    have := congrArg List.length hnil
    have h4 := h3.le
    simp only [Patch.reach] at h1 h2 h4
    rw [length_bytes (by dsimp only; omega) (by rw [size_ofText]; dsimp only; omega)] at this
    simp only [List.length_nil] at this
    omega

/-- Gaps that are laid out without any effect on the text were laid out so before. -/
theorem idle_of_patched {qs : List Patch} (hf : Follow Patch.reach i j qs) (hj : j ≤ t.length)
    (hq : ∀ q ∈ qs, q.IsGap t)
    (h : (ofText t).patched j i qs = (ofText t).bytes ⟨i, j⟩) :
    ∀ q ∈ qs, (ofText t).bytes q.span = q.text := by
  induction hf with
  | nil => exact fun q hq => nomatch hq
  | @cons i j q qs h1 h2 h3 ih =>
    have hrest : ∀ r ∈ qs, r.IsGap t := fun r hr => hq r (by simp [hr])
    have h4 := h3.le
    obtain ⟨lead, indent, hg, hi, htext⟩ := hq q (by simp)
    have hle := hg.le
    simp only [Patch.reach] at h1 h2 h3 h4
    have hbytes : (ofText t).bytes ⟨i, j⟩ = (ofText t).bytes ⟨i, q.span.start⟩ ++
        ((ofText t).bytes q.span ++ (ofText t).bytes ⟨q.span.stop, j⟩) := by
      rw [bytes_append hle (by omega), bytes_append h1 (by omega)]
    have hsplit : q.text ++ (ofText t).patched j q.span.stop qs =
        (ofText t).bytes q.span ++ (ofText t).bytes ⟨q.span.stop, j⟩ := by
      refine (List.append_right_inj ((ofText t).bytes ⟨i, q.span.start⟩)).1 ?_
      rw [← hbytes, ← h, ← List.append_assoc]
      rfl
    have hfresh : Text.Fresh ((ofText t).bytes ⟨q.span.stop, j⟩) :=
      hg.fresh.mono (bytes_prefix_drop _ _)
    obtain ⟨h5, h6⟩ := Text.append_inj_of_loose (htext ▸ hg.madeOf hi) hg.loose
      (fresh_patched h3 hj hrest hg.fresh) hfresh hsplit
    intro r hr
    rcases List.mem_cons.1 hr with rfl | hr
    · exact h5.symm
    · refine ih hj hrest ?_ r hr
      have hspan : Follow Patch.span (q.span.stop + 1) j qs := by
        refine Follow.inside (fun r hr => ?_) h3
        refine ⟨Nat.le_refl _, ?_, Nat.le_succ _⟩
        obtain ⟨lead, indent, hg, -⟩ := hrest r hr
        exact hg.le
      have hkeep : (ofText t).bytes ⟨q.span.stop, q.span.stop + 1⟩ ++
          (ofText t).patched j (q.span.stop + 1) qs = (ofText t).patched j q.span.stop qs :=
        keep_mend bytes_append (Nat.le_succ _) hspan
      refine (List.append_right_inj ((ofText t).bytes ⟨q.span.stop, q.span.stop + 1⟩)).1 ?_
      exact hkeep.trans (h6.trans (bytes_append (Nat.le_succ _) h4).symm)

end

end ProviderNest
