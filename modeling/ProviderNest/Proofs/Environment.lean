import ProviderNest.Proofs.Surroundings

/-!
# Entries read from the environment, run twice

A run of the pass over entries read from the environment leaves none that a second run would find
(`not_isEnv_output`). Such an entry would be a key of the new text. It is not one that the nested
shape brings along: behind the name of an entry stands a brace, the key `default` is no entry, and
the field `apiKey` of the new configuration is none either (`front_not_env`, `fields_not_env`). So
the entry is among the cells that were kept, where it was no entry before (`kept_not_env`).

What kept it from being recognised is still there. A question mark in front of it is kept
(`questioned_wovenCells`), and a field of a configuration stays one (`configured_wovenCells`): no
entry reaches across the brace, the field `apiKey` stays in front of a configuration, and so does
the key `default` before it. That key is lost in one case, where it is the variable of an entry that
is nested, as in `a: process.env.default: {`, and then a second run may find something.
-/

namespace ProviderNest

open LexState Source

/-! ## What the pass finds -/

theorem Pass.find?_envAssignment {s : Source} {i : Nat} {x : List Hit × Nat} :
    Pass.envAssignment.find? s i = some x ↔
      ∃ e, s.envEntry? i = some e ∧ x = ([.env e], e.span.stop) := by
  rw [Pass.find?, Option.map_eq_some_iff]
  exact exists_congr fun e => and_congr_right fun _ => eq_comm

/-- Every hit is an entry read from the environment. -/
def Source.AllEnv (s : Source) (hs : List Hit) : Prop :=
  ∀ h ∈ hs, ∃ e colon value stop, h = .env e ∧ s.IsEnv e colon value stop

section
variable {t : Text} {e : EnvEntry} {colon value stop : Nat}

theorem allEnv_hits {s : Source} : s.AllEnv (Pass.envAssignment.hits s) := by
  intro h hm
  obtain ⟨i, found, next, hfind, hin⟩ := mem_sweep hm
  obtain ⟨e, he, heq⟩ := Pass.find?_envAssignment.1 hfind
  cases heq
  obtain ⟨-, colon, value, stop, he⟩ := envEntry?_eq_some.1 he
  exact ⟨e, colon, value, stop, List.mem_singleton.1 hin, he⟩

theorem Source.AllEnv.turned {hs : List Hit} (h : (ofText t).AllEnv hs) : t.AllTurned hs := by
  intro x hx
  obtain ⟨e, colon, value, stop, rfl, he⟩ := h x hx
  exact turned_env he

/-- An entry read from the environment is found, or it begins inside one that is. -/
theorem exists_hit_of_env (he : (ofText t).IsEnv e colon value stop) :
    ∃ g, Hit.env g ∈ Pass.envAssignment.hits (ofText t) ∧
      g.span.start ≤ e.name.start ∧ e.name.start < g.span.stop := by
  have ho := he.order
  obtain ⟨k, found, next, hk, hle, hcase, hmem⟩ :=
    sweep_covers (f := fun i => Pass.envAssignment.find? (ofText t) i) (i := 0)
      (n := (ofText t).size) (k := e.name.start)
      (Pass.find?_envAssignment.2 ⟨e, envEntry?_eq_some.2 ⟨rfl, colon, value, stop, he⟩, rfl⟩)
      (Nat.zero_le _) (by omega) (Nat.zero_le _)
  obtain ⟨g, hg, heq⟩ := Pass.find?_envAssignment.1 hk
  cases heq
  obtain ⟨rfl, colon', value', stop', hge⟩ := envEntry?_eq_some.1 hg
  have hgo := hge.order
  refine ⟨g, hmem _ List.mem_cons_self, hle, ?_⟩
  dsimp only [EnvEntry.span] at *
  omega

/-- The last byte of an entry read from the environment: the end of the variable, or an exclamation
mark. -/
theorem Source.IsEnv.last (he : (ofText t).IsEnv e colon value stop) :
    (e.var.stop = stop ∧ (ofText t).inWord (e.var.stop - 1) = true) ∨
      (ofText t).codeByte? (e.var.stop - 1) = some Byte.bang := by
  have hstop := he.stop_eq
  split at hstop
  · next ha =>
    rw [isAsserted, Bool.and_eq_true, beq_iff_eq] at ha
    rw [hstop]
    exact .inr ha.1
  · have hlt := he.word.lt
    rw [hstop]
    exact .inl ⟨rfl, he.word.inside _ (by dsimp only at *; omega) (by dsimp only at *; omega)⟩

end

/-! ## Hits before a position -/

theorem Hit.Turned.hitCells_ne_nil {t : Text} {h : Hit} (h' : h.Turned t) : t.hitCells h ≠ [] := by
  rw [h'.cells]
  intro hnil
  exact h'.ne_nil (List.map_eq_nil_iff.1 (List.append_eq_nil_iff.1 hnil).1)

/-- The nested shape ends with a brace. -/
theorem Hit.Turned.ends_detached {t : Text} {h : Hit} (h' : h.Turned t) :
    Detached (t.hitCells h) := by
  have hback : Wordfree (⟨Byte.closeBrace, .code⟩ :: codeCells (back (h.indent t))) := by
    intro c hc
    rcases List.mem_cons.1 hc with rfl | hc
    · rfl
    · exact wordfree_back (h.isIndent_indent t) c hc
  have hcells : t.hitCells h = codeCells (h.newName t) ++ (codeCells (front (h.indent t)) ++
      (⟨Byte.openBrace, .code⟩ :: h.fields t)) ++
        ⟨Byte.closeBrace, .code⟩ :: codeCells (back (h.indent t)) := by
    rw [h'.cells]
    simp
  rw [hcells]
  exact hback.detached.of_behind (List.cons_ne_nil _ _)

section
variable {t : Text} {i j k n o : Nat} {hs gs : List Hit}

/-- Hits that end before a position. -/
theorem Finds.to_stop (hf : Finds (ofText t) i gs n) (hk : i ≤ k) (hkn : k ≤ n)
    (h : ∀ x ∈ gs, x.span.stop ≤ k) : Finds (ofText t) i gs k :=
  ⟨hf.1.to_stop hk h, Nat.le_trans hkn hf.2.1, hf.2.2⟩

/-- Hits on both sides of a position that lies in none of them. -/
theorem Finds.split (hf : Finds (ofText t) i hs n) (hio : i ≤ o) (hon : o < n)
    (h : ∀ x ∈ hs, x.span.stop ≤ o ∨ o < x.span.start) : ∃ gs gs', hs = gs ++ gs' ∧
      Finds (ofText t) i gs o ∧ Finds (ofText t) (o + 1) gs' n := by
  have hsize := hf.2.1
  rw [size_ofText] at hsize
  induction hs generalizing i with
  | nil => exact ⟨[], [], rfl, .nil hio (by omega), .nil hon hsize⟩
  | cons x hs ih =>
    obtain ⟨hle, hone, hrest⟩ := hf.uncons
    rcases h x List.mem_cons_self with hx | hx
    · obtain ⟨gs, gs', rfl, hgs, hgs'⟩ := ih hrest hx fun y hy => h y (List.mem_cons_of_mem _ hy)
      exact ⟨x :: gs, gs', rfl, (hone.of_le hle).append hgs, hgs'⟩
    · exact ⟨[], x :: hs, rfl, .nil hio (by omega), (hone.of_le hx).append hrest⟩

/-- What is kept behind hits that end before a position. -/
theorem wovenCells_kept (ht : t.WellFormed) (hf : Finds (ofText t) i gs k) (hkn : k ≤ n)
    (hn : n ≤ t.length) : t.wovenCells n i gs = t.wovenCells k i gs ++ (ofText t).slice k n := by
  have := wovenCells_append ht hf (.nil hkn hn)
  rwa [List.append_nil] at this

/-- No word ends a nested shape. -/
theorem detached_wovenCells (ht : t.WellFormed) (hf : Finds (ofText t) 0 gs k)
    (hs' : t.AllTurned gs) (hd : Detached ((ofText t).slice 0 k)) :
    Detached (t.wovenCells k 0 gs) := by
  rcases List.eq_nil_or_concat gs with rfl | ⟨bs, x, rfl⟩
  · exact hd
  rw [List.concat_eq_append] at hf hs' ⊢
  have hx := hs' x (List.mem_append_right _ List.mem_cons_self)
  obtain ⟨hfollow, hle⟩ := hf.1.to_last
  have hbefore : Finds (ofText t) 0 (bs ++ [x]) x.span.stop :=
    ⟨hfollow, Nat.le_trans hle hf.2.1, hf.2.2⟩
  have hk := hf.2.1
  rw [wovenCells_kept ht hbefore hle (by rwa [size_ofText] at hk)]
  rcases Nat.eq_or_lt_of_le hle with rfl | hlt
  · -- The cells end with the last hit, and that with a brace.
    have hbs : Finds (ofText t) 0 bs x.span.start :=
      ⟨hfollow.of_append.1, Nat.le_trans (Nat.le_of_lt hx.lt) hk, fun y hy =>
        hf.2.2 y (List.mem_append_left _ hy)⟩
    have hone : Finds (ofText t) x.span.start [x] x.span.stop :=
      ⟨hfollow.of_append.2, hk, fun y hy => hf.2.2 y (List.mem_append_right _ hy)⟩
    rw [slice_self, List.append_nil, wovenCells_append ht hbs hone]
    exact hx.ends_detached.of_behind hx.hitCells_ne_nil
  · rw [← slice_append _ (Nat.zero_le _) hle] at hd
    refine hd.of_append.of_behind ?_
    rw [← List.length_pos_iff, length_slice _ hle hk]
    omega

/-- Entries read from the environment do not end among cells that are neither part of a word nor an
exclamation mark. -/
theorem Source.AllEnv.to_stop (henv : (ofText t).AllEnv gs) (hf : Finds (ofText t) i gs n)
    (hk : i ≤ k) (hkn : k ≤ n) (h : ∀ m, k ≤ m → m < n → (ofText t).inWord m = false ∧
      (ofText t).codeByte? m ≠ some Byte.bang) : Finds (ofText t) i gs k := by
  refine hf.to_stop hk hkn fun x hx => ?_
  obtain ⟨e, colon, value, stop, rfl, he⟩ := henv x hx
  have ho := he.order
  have hn := (hf.1.bounds _ hx).2.2
  refine Nat.le_of_not_lt fun hlt => ?_
  simp only [Hit.span, EnvEntry.span] at hn hlt
  obtain ⟨hword, hbang⟩ := h (e.var.stop - 1) (by omega) (by omega)
  rcases he.last with ⟨-, h⟩ | h
  · rw [hword] at h
    cases h
  · exact hbang h

/-! ## What keeps an entry from being recognised -/

/-- **A question mark stays before what it stands before.** -/
theorem questioned_wovenCells (ht : t.WellFormed) (hf : Finds (ofText t) 0 gs n)
    (henv : (ofText t).AllEnv gs) (h : Questioned ((ofText t).slice 0 n)) :
    Questioned (t.wovenCells n 0 gs) := by
  have hn := hf.2.1
  obtain ⟨a, v, hs, hv⟩ := h
  obtain ⟨h1, -, hs⟩ := slice_split (Nat.zero_le n) hn hs
  rw [Nat.zero_add] at h1 hs
  obtain ⟨h2, hcell, hrest⟩ := slice_uncons hn hs
  have hcode := codeByte?_eq_some.2 hcell
  have hrun : (ofText t).TriviaRun (a.length + 1) n := (triviaRun_iff hn).2 (by rwa [hrest])
  have hbefore := henv.to_stop hf (Nat.zero_le _) h1 fun m hm hmn => by
    rcases Nat.eq_or_lt_of_le hm with rfl | hlt
    · refine ⟨inWord_of_codeByte? hcode (by decide), ?_⟩
      rw [hcode]
      decide
    · have htrivia := hrun m hlt hmn
      exact ⟨inWord_of_isTrivia htrivia, codeByte?_ne_of_isTrivia htrivia (by decide)⟩
  refine ⟨t.wovenCells a.length 0 gs, v, ?_, hv⟩
  rw [size_ofText] at hn
  rw [wovenCells_kept ht hbefore h1 hn, hs]

/-- What stands in a key before a value: a part of its word, or trivia, or the colon. -/
theorem key_positions {x : Span} {m : Nat} (h : (ofText t).keyBefore? n = some x)
    (hmn : m < n) : m < x.stop ∨
      (ofText t).inWord m = false ∧ (ofText t).codeByte? m ≠ some Byte.bang := by
  obtain ⟨hword, colon, h1, h2, hbefore, hcode, hbehind⟩ := keyBefore?_eq_some.1 h
  have htrivia {m : Nat} (h : (ofText t).isTrivia m = true) :
      (ofText t).inWord m = false ∧ (ofText t).codeByte? m ≠ some Byte.bang :=
    ⟨inWord_of_isTrivia h, codeByte?_ne_of_isTrivia h (by decide)⟩
  rcases Nat.lt_or_ge m x.stop with hlt | hge
  · exact .inl hlt
  rcases Nat.lt_trichotomy m colon with hlt | rfl | hlt
  · exact .inr (htrivia (hbefore m hge hlt))
  · refine .inr ⟨inWord_of_codeByte? hcode (by decide), ?_⟩
    rw [hcode]
    decide
  · exact .inr (htrivia (hbehind m hlt hmn))

/-- A key `default` stays before what it stands before, unless it is the variable of an entry. -/
theorem keyBefore_wovenCells {a k : List Cell} (ht : t.WellFormed) (hf : Finds (ofText t) 0 gs n)
    (henv : (ofText t).AllEnv gs)
    (hvar : ∀ e, Hit.env e ∈ gs → (ofText t).bytes e.var ≠ nestedKey)
    (hs : (ofText t).slice 0 n = a ++ k) (hd : Detached a) (hk : KeyCells nestedKey k) :
    ∃ b, t.wovenCells n 0 gs = b ++ k ∧ Detached b := by
  have hn := hf.2.1
  obtain ⟨hkey, hname⟩ := keyBefore_of_cells hn (by decide) (by decide) hs hd hk
  obtain ⟨h1, ha, hs⟩ := slice_split (Nat.zero_le n) hn hs
  rw [Nat.zero_add] at h1 ha hs
  have hbefore : Finds (ofText t) 0 gs a.length := by
    refine hf.to_stop (Nat.zero_le _) h1 fun x hx => ?_
    obtain ⟨e, colon', value, stop, rfl, he⟩ := henv x hx
    have ho := he.order
    have hstop := (hf.1.bounds _ hx).2.2
    simp only [Hit.span, EnvEntry.span] at hstop ⊢
    refine Nat.le_of_not_lt fun hlt => ?_
    have hword := Checked.isWord_of_keyBefore? hkey
    rcases he.last with ⟨hstop', hlast⟩ | hbang
    · rcases key_positions hkey (m := e.var.stop - 1) (by omega) with h | h
      · have heq := he.word.eq_of_mem hword (k := e.var.stop - 1) (by dsimp only; omega)
          (by dsimp only; omega) (by dsimp only; omega) h
        rw [← hstop'] at heq
        exact hvar e hx ((congrArg (ofText t).bytes heq).trans hname)
      · rw [h.1] at hlast
        cases hlast
    · rcases key_positions hkey (m := e.var.stop - 1) (by omega) with h | h
      · have := hword.inside _ (by dsimp only; omega) h
        rw [inWord_of_codeByte? hbang (by decide)] at this
        cases this
      · exact h.2 hbang
  refine ⟨t.wovenCells a.length 0 gs, ?_, detached_wovenCells ht hbefore henv.turned ?_⟩
  · rw [size_ofText] at hn
    rw [wovenCells_kept ht hbefore h1 hn, hs]
  · rwa [ha]

/-- A configuration begins with the field `apiKey` as before. -/
theorem opens_wovenCells (ht : t.WellFormed) (hf : Finds (ofText t) (o + 1) hs t.length)
    (henv : (ofText t).AllEnv hs) (ho : (ofText t).codeByte? o = some Byte.openBrace)
    (h : Opens ((ofText t).slice (o + 1) t.length)) : Opens (t.wovenCells t.length (o + 1) hs) := by
  rw [← size_ofText, ← opensConfiguration_iff_opens ho, opensConfiguration_iff ho] at h
  obtain ⟨key, colon, hfirst⟩ := h
  have hcolon := lt_size_of_codeByte? hfirst.isKey.colon_code
  rw [size_ofText] at hcolon
  have hmade : ∀ c ∈ hs.flatMap fun h => h.changes (ofText t) ((ofText t).indentOf h.anchor),
      c.Made t ∧ ∀ q ∈ c.patches, q.Led t := by
    intro c hc
    obtain ⟨x, hx, hc⟩ := List.mem_flatMap.1 hc
    obtain ⟨e, colon', value, stop, rfl, he⟩ := henv x hx
    rw [List.mem_singleton.1 hc]
    exact ⟨.env he (isIndent_indentOf _ _), led_env he⟩
  obtain ⟨hweave, hfollow⟩ := weave_eq_mended (hf.follow_changes ht) fun c hc =>
    (hmade c hc).1.fits ht
  rw [Text.wovenCells, hweave]
  refine hfirst.opens_mended hfollow hcolon (Nat.le_refl _) fun q hq => ?_
  obtain ⟨c, hc, hq⟩ := List.mem_flatMap.1 hq
  exact ⟨(hmade c hc).1.patches q hq, (hmade c hc).2 q hq⟩

/-- **A field of a configuration stays one.** -/
theorem configured_wovenCells {gs' : List Hit} {k : List Cell} (ht : t.WellFormed)
    (hf : Finds (ofText t) 0 gs n) (hf' : Finds (ofText t) (n + k.length) gs' t.length)
    (hk : (ofText t).slice n (n + k.length) = k) (henv : (ofText t).AllEnv (gs ++ gs'))
    (hvar : ∀ e, Hit.env e ∈ gs → (ofText t).bytes e.var ≠ nestedKey)
    (h : Configured ((ofText t).slice 0 n) ((ofText t).slice n t.length)) :
    Configured (t.wovenCells n 0 gs) (k ++ t.wovenCells t.length (n + k.length) gs') := by
  have hn := hf.2.1
  obtain ⟨a, ds, hs, hclosed, hcases⟩ := h
  obtain ⟨h1, ha, hs⟩ := slice_split (Nat.zero_le n) hn hs
  rw [Nat.zero_add] at h1 ha hs
  obtain ⟨h2, hcell, rfl⟩ := slice_uncons hn hs
  have hopen := codeByte?_eq_some.2 hcell
  -- No entry reaches across the brace.
  obtain ⟨as, bs, rfl, has, hbs⟩ := hf.split (Nat.zero_le a.length) h2 fun x hx => by
    obtain ⟨e, colon, value, stop, rfl, he⟩ := henv x (List.mem_append_left _ hx)
    rcases Nat.lt_or_ge a.length (Hit.env e).span.start with hlt | hge
    · exact .inr hlt
    · refine .inl (Nat.le_of_not_lt fun hlt => ?_)
      exact (noBrace_env he a.length hge hlt).1 hopen
  have hbrace : (ofText t).slice a.length (a.length + 1) = [⟨Byte.openBrace, .code⟩] := by
    rw [slice_eq_cons _ (Nat.lt_succ_self _) hcell, slice_self]
  have hcells : t.wovenCells n 0 (as ++ bs) = t.wovenCells a.length 0 as ++
      ⟨Byte.openBrace, .code⟩ :: t.wovenCells n (a.length + 1) bs := by
    rw [wovenCells_append ht has (hbs.of_le (Nat.le_succ _)),
      ← slice_wovenCells ht hbs (Nat.le_succ _), hbrace]
    rfl
  refine ⟨_, _, hcells, (closers_wovenCells ht hbs 0).trans hclosed, hcases.imp ?_ ?_⟩
  · intro hopens
    have hbehind := hf'.of_le (Nat.le_add_right n k.length)
    have hall : (ofText t).AllEnv (bs ++ gs') := fun x hx => henv x <| by
      rw [List.append_assoc]
      exact List.mem_append_right _ hx
    rw [slice_append _ h2 hbehind.le] at hopens
    have := opens_wovenCells ht (hbs.append hbehind) hall hopen hopens
    rwa [wovenCells_append ht hbs hbehind, ← slice_wovenCells ht hf' (Nat.le_add_right _ _),
      hk] at this
  · rintro ⟨b, m, rfl, hd, hm⟩
    obtain ⟨b', hb', hd'⟩ := keyBefore_wovenCells ht has
      (fun x hx => henv x (List.mem_append_left _ (List.mem_append_left _ hx)))
      (fun e he => hvar e (List.mem_append_left _ he)) ha hd hm
    exact ⟨b', m, hb', hd', hm⟩

/-! ## What an entry is read from -/

/-- A word with a dot behind it is not the name of an entry that is nested. -/
theorem wovenCells_dotted {w : Text} {y : List Cell} (ht : t.WellFormed)
    (hf : Finds (ofText t) i hs j) (hs' : t.AllTurned hs)
    (hw : w ≠ [] ∧ ∀ b ∈ w, Byte.isWord b = true)
    (h : t.wovenCells j i hs = codeCells (w ++ [Byte.dot]) ++ y) :
    (ofText t).slice i (i + (w ++ [Byte.dot]).length) = codeCells (w ++ [Byte.dot]) ∧
      Finds (ofText t) (i + (w ++ [Byte.dot]).length) hs j ∧
      y = t.wovenCells j (i + (w ++ [Byte.dot]).length) hs := by
  have hdot : Wordfree (codeCells [Byte.dot]) := by decide
  rw [codeCells, List.map_append, List.append_assoc] at h
  rcases wovenCells_word ht hf hs' hw (hdot.head? (by simp)) h with
    ⟨hword, hbehind, hrest⟩ | ⟨x, gs, rfl, -, -, hfront⟩
  · obtain ⟨hgap, hbehind, hrest⟩ := wovenCells_gap ht hbehind hs' hdot hrest.symm
    rw [List.length_map, Nat.add_assoc, ← List.length_append] at hgap hbehind hrest
    refine ⟨?_, hbehind, hrest⟩
    rw [← slice_append _ (Nat.le_add_right i w.length) (by simp), hword, hgap, codeCells, codeCells,
      codeCells, List.map_append]
  · -- Behind the name of an entry that is nested stands a colon.
    rw [front_eq] at hfront
    cases hfront

/-- A word begins in the new text only where one began. -/
theorem worded_slice (ht : t.WellFormed) (hf : Finds (ofText t) i hs j) (hs' : t.AllTurned hs)
    (h : Worded (t.wovenCells j i hs)) : Worded ((ofText t).slice i j) := by
  cases hs with
  | nil => exact h
  | cons x hs =>
    obtain ⟨hle, hone, hrest⟩ := hf.uncons
    have hx := hs'.of_cons.1
    have hj := Nat.lt_of_lt_of_le hx.lt hrest.le
    rcases Nat.eq_or_lt_of_le hle with rfl | hlt
    · obtain ⟨w, hw, hword⟩ := hx.begins
      obtain ⟨c, hc⟩ := exists_cell (s := ofText t) (i := x.span.start)
        (Nat.lt_of_lt_of_le hj hf.2.1)
      refine ⟨c, _, slice_eq_cons _ hj hc, ?_⟩
      rw [← inWord_eq hc, ← hw]
      exact hword.inWord_start
    · rw [wovenCells_hit ht hf] at h
      have hne : (ofText t).slice i x.span.start ≠ [] := by
        rw [← List.length_pos_iff, length_slice _ hle (Nat.le_of_lt (Nat.lt_of_lt_of_le hj hf.2.1))]
        omega
      obtain ⟨c, r, hc, hword⟩ := h.of_append hne
      refine ⟨c, r ++ (ofText t).slice x.span.start j, ?_, hword⟩
      rw [← slice_append _ hle (Nat.le_of_lt hj), hc, List.cons_append]

/-- **What an entry is read from** was there before. -/
theorem reads_wovenCells {y : List Cell} (ht : t.WellFormed) (hf : Finds (ofText t) i hs j)
    (hs' : t.AllTurned hs) (h : t.wovenCells j i hs = codeCells environment ++ y) (hy : Worded y) :
    ∃ y', (ofText t).slice i j = codeCells environment ++ y' ∧ Worded y' := by
  have hsplit : codeCells environment = codeCells (.ofString "process" ++ [Byte.dot]) ++
      codeCells (.ofString "env" ++ [Byte.dot]) := by decide
  rw [hsplit, List.append_assoc] at h
  obtain ⟨h1, hf1, h⟩ := wovenCells_dotted ht hf hs' (by decide) h
  obtain ⟨h2, hf2, rfl⟩ := wovenCells_dotted ht hf1 hs' (by decide) h.symm
  refine ⟨_, ?_, worded_slice ht hf2 hs' hy⟩
  rw [hsplit, ← h1, ← h2, slice_append _ (Nat.le_add_right _ _) (Nat.le_add_right _ _),
    slice_append _ (by omega) hf2.le]

/-! ## A second run -/

section
variable {us k r : List Cell} {w : Text} {gs' : List Hit}

/-- No entry read from the environment is left among the cells that are kept. -/
theorem kept_not_env (ht : t.WellFormed)
    (hhits : Pass.envAssignment.hits (ofText t) = gs ++ gs')
    (hvar : ∀ e, Hit.env e ∈ gs → (ofText t).bytes e.var ≠ nestedKey)
    (hf : Finds (ofText t) 0 gs n) (hf' : Finds (ofText t) (n + k.length) gs' t.length)
    (hk : (ofText t).slice n (n + k.length) = k) :
    ¬ EnvShape (t.wovenCells n 0 gs) w k (t.wovenCells t.length (n + k.length) gs') := by
  intro h
  have henv : (ofText t).AllEnv (gs ++ gs') := hhits ▸ allEnv_hits
  have hgs : (ofText t).AllEnv gs := fun x hx => henv x (List.mem_append_left _ hx)
  have hgs' : (ofText t).AllEnv gs' := fun x hx => henv x (List.mem_append_right _ hx)
  have hn := hf.2.1
  obtain ⟨hpos, hword⟩ := h.key.inWord h.ne_nil h.word hk
  have hcells : (ofText t).slice n (ofText t).size =
      k ++ (ofText t).slice (n + k.length) (ofText t).size := by
    have hle := hf'.le
    rw [← size_ofText t] at hle
    rw [← slice_append _ (Nat.le_add_right n k.length) hle, hk]
  have hshape : EnvShape ((ofText t).slice 0 n) w k
      ((ofText t).slice (n + k.length) (ofText t).size) :=
    { h with
      detached := (detached_slice (Nat.zero_le n) hn (.inl rfl)).2
        (edge_of_woven ht hf hgs.turned h.detached hword)
      reads := by
        obtain ⟨y, hy, hworded⟩ := h.reads
        rw [size_ofText]
        exact reads_wovenCells ht hf' hgs'.turned hy hworded
      question := fun hq => h.question (questioned_wovenCells ht hf hgs hq)
      outside := fun hc => h.outside <| by
        rw [← hcells, size_ofText] at hc
        exact configured_wovenCells ht hf hf' hk henv hvar hc }
  obtain ⟨e, colon, value, stop, he, rfl⟩ := exists_isEnv hn hshape rfl hcells
  -- The entry would be found, or one that it begins in, and the cells would not be kept.
  obtain ⟨g, hg, hstart, hstop⟩ := exists_hit_of_env he
  rw [hhits] at hg
  rcases List.mem_append.1 hg with hg | hg
  · exact absurd hstop (Nat.not_lt_of_le (hf.1.bounds _ hg).2.2)
  · have := (hf'.1.bounds _ hg).1
    simp only [Hit.span] at this
    omega

/-- The nested shape is no entry read from the environment. -/
theorem front_not_env {indent : Text} {s : List Cell} (hi : indent.IsIndent)
    (h : EnvShape us w k r) : k ++ r ≠ codeCells w ++ (codeCells (front indent) ++ s) := by
  intro heq
  obtain ⟨z, rfl, -, hz⟩ := h.key.gap
  obtain ⟨y, rfl, -⟩ := h.reads
  obtain ⟨z', -, hz', hfront⟩ := front_parts hi
  rw [hfront] at heq
  simp only [List.append_assoc] at heq
  obtain ⟨m, rfl, hm⟩ := hz.cut (worded_codeCells (by decide) (by decide))
    (List.append_cancel_left heq)
  cases m with
  | nil => cases hm
  | cons c m =>
    obtain ⟨rfl, -⟩ := List.cons.inj hm
    have := hz' _ (List.mem_append_right _ List.mem_cons_self)
    cases this

/-- There is no colon in a variable. -/
theorem colon_not_mem_var {e : EnvEntry} {colon value stop : Nat}
    (he : (ofText t).IsEnv e colon value stop) :
    ⟨Byte.colon, .code⟩ ∉ (ofText t).slice e.var.start e.var.stop := by
  have ho := he.order
  have hword : ∀ c ∈ (ofText t).slice e.var.start stop, c ≠ ⟨Byte.colon, .code⟩ := by
    rw [he.word.slice_eq]
    rintro c hc rfl
    obtain ⟨b, hb, heq⟩ := List.mem_map.1 hc
    obtain rfl : b = Byte.colon := congrArg Cell.byte heq
    exact absurd (isWord_bytes he.word _ hb) (by decide)
  have hstop := he.stop_eq
  intro hmem
  rw [← slice_append _ (Nat.le_of_lt ho.2.2.2.2.1) ho.2.2.2.2.2.1] at hmem
  rcases List.mem_append.1 hmem with hmem | hmem
  · exact hword _ hmem rfl
  · split at hstop
    · next ha =>
      rw [isAsserted, Bool.and_eq_true, beq_iff_eq] at ha
      rw [hstop, slice_eq_cons _ (Nat.lt_succ_self _) (codeByte?_eq_some.1 ha.1), slice_self]
        at hmem
      cases List.mem_singleton.1 hmem
    · rw [hstop, slice_self] at hmem
      cases hmem

/-- The one key among the fields written out for a variable is `apiKey`. -/
theorem name_of_fields {e : EnvEntry} {colon value stop : Nat} {ds m : List Cell}
    (he : (ofText t).IsEnv e colon value stop) (hw : w ≠ [] ∧ ∀ b ∈ w, Byte.isWord b = true)
    (hk : KeyCells w k) (hd : Detached ds) (h : envFields t e = ds ++ (k ++ m)) :
    w = apiKeyField := by
  obtain ⟨v, u, hv, hu, hcells⟩ := hk
  have hfields : envFields t e = codeCells (.ofString " ") ++ codeCells apiKeyField ++
      ⟨Byte.colon, .code⟩ :: (codeCells (.ofString " " ++ environment) ++
        ((ofText t).slice e.var.start e.var.stop ++ codeCells (.ofString " "))) := by
    rw [envFields, show Text.ofString " " ++ apiKeyField ++ .ofString ": " ++ environment =
      Text.ofString " " ++ (apiKeyField ++ Byte.colon :: (Text.ofString " " ++ environment)) by
        decide]
    simp only [codeCells, List.map_append, List.map_cons, List.append_assoc, List.cons_append]
  have hnone : ⟨Byte.colon, .code⟩ ∉ codeCells (.ofString " " ++ environment) ++
      ((ofText t).slice e.var.start e.var.stop ++ codeCells (.ofString " ")) := by
    rw [List.mem_append, List.mem_append, not_or, not_or]
    exact ⟨by decide, colon_not_mem_var he, by decide⟩
  have hsides : ds ++ (k ++ m) = ds ++ (codeCells w ++ v) ++ ⟨Byte.colon, .code⟩ :: (u ++ m) := by
    rw [hcells]
    simp only [List.append_assoc, List.cons_append]
  rw [hfields, hsides] at h
  have hlead : ⟨Byte.colon, .code⟩ ∉ codeCells (.ofString " ") ++ codeCells apiKeyField := by decide
  obtain ⟨hname, -, -⟩ := (List.append_cons_inj_of_notMem hlead hnone).1 h
  -- The word before the colon begins where the field does.
  have hspace : Wordfree (codeCells (.ofString " ")) := by decide
  obtain ⟨n, rfl, hn⟩ := hspace.cut (worded_codeCells hw.1 hw.2) hname
  have hfield : ∀ b ∈ apiKeyField, Byte.isWord b = true := by decide
  rw [← List.append_nil (codeCells apiKeyField)] at hn
  rcases List.eq_nil_or_concat n with rfl | hne
  · refine (word_append_inj ⟨by decide, hfield⟩ hw (by simp) (fun c hc => ?_) hn).1.symm
    exact not_inWord_of_isTrivia (hv c (List.mem_of_mem_head? hc))
  · obtain ⟨n', -, hnil⟩ := word_cut hfield hd.of_append (by obtain ⟨_, _, rfl⟩ := hne; simp) hn
    rw [List.nil_eq_append_iff, List.append_eq_nil_iff, codeCells, List.map_eq_nil_iff] at hnil
    exact absurd hnil.2.1 hw.1

/-- No field written out for a variable is an entry read from the environment. -/
theorem fields_not_env {e : EnvEntry} {colon value stop : Nat} {as ds es s : List Cell}
    (he : (ofText t).IsEnv e colon value stop) (hfields : envFields t e = ds ++ es)
    (h : EnvShape (as ++ ⟨Byte.openBrace, .code⟩ :: ds) w k r) :
    k ++ r ≠ es ++ ⟨Byte.closeBrace, .code⟩ :: s := by
  intro heq
  have hkey := h.key.inert h.word
  obtain ⟨m, rfl⟩ : ∃ m, es = k ++ m := by
    rcases append_cons_cut heq.symm with ⟨m, hm, -⟩ | ⟨m, hm, -⟩
    · exact ⟨m, hm⟩
    · exact absurd (by rw [hm]; simp) hkey.not_close
  have hd : Detached ds := by
    have := h.detached.of_append
    rw [← List.singleton_append] at this
    exact this.of_append
  have hname := name_of_fields he ⟨h.ne_nil, h.word⟩ h.key hd hfields
  exact absurd h.field_ne (by rw [hname]; decide)

end

/-- **The pass leaves no entry read from the environment**, unless one of the variables is called
`default`. -/
theorem not_isEnv_output (ht : t.WellFormed)
    (hvar : ∀ e, Hit.env e ∈ Pass.envAssignment.hits (ofText t) →
      (ofText t).bytes e.var ≠ nestedKey) {e : EnvEntry} {colon value stop : Nat} :
    ¬ (ofText (Pass.envAssignment.output t)).IsEnv e colon value stop := by
  intro he
  have ho := he.order
  have hplace := keyPlace_output ht allEnv_hits.turned he.key
  have hshape := he.shape
  rw [size_ofText] at hshape
  generalize (ofText (Pass.envAssignment.output t)).bytes e.name = w at *
  generalize (ofText (Pass.envAssignment.output t)).slice 0 e.name.start = us at *
  generalize (ofText (Pass.envAssignment.output t)).slice e.name.start value = k at *
  generalize (ofText (Pass.envAssignment.output t)).slice value _ = r at *
  cases hplace with
  | @kept n gs gs' k heq hgs hgs' hk =>
    refine kept_not_env ht heq (fun e he => hvar e ?_) hgs hgs' hk hshape
    rw [heq]
    exact List.mem_append_left _ he
  | @front gs gs' x _ _ heq hgs hname hcells =>
    exact front_not_env (x.isIndent_indent t) hshape hcells
  | default hdefault => exact hshape.name_ne hdefault
  | @fields gs gs' x ds es _ _ heq hgs hfields hcells =>
    obtain ⟨e, colon', value', stop', rfl, he⟩ := allEnv_hits x
      (heq ▸ List.mem_append_right gs List.mem_cons_self)
    rw [← List.append_assoc, ← List.append_assoc] at hshape
    exact fields_not_env he hfields hshape hcells

end

/-- **A second run of the pass over entries read from the environment** nests nothing and leaves the
text as it is, unless the first one nests an entry with a variable called `default`. -/
theorem Pass.envAssignment_idempotent (cs : List Char)
    (h : ∀ e, Hit.env e ∈ Pass.envAssignment.hits (ofText (.ofChars cs)) →
      (ofText (.ofChars cs)).bytes e.var ≠ nestedKey) :
    ∃ r r', Pass.envAssignment.apply (.ofChars cs) = .ok r ∧
      Pass.envAssignment.apply r.text = .ok r' ∧ countEdits r'.edits = 0 ∧ r'.text = r.text := by
  have ht := Text.wellFormed_ofChars cs
  have hw := Pass.envAssignment.wellFormed_output ht
  generalize Text.ofChars cs = t at *
  have hcount : countEdits (Pass.envAssignment.edits (Pass.envAssignment.output t)) = 0 := by
    have hnone : Pass.envAssignment.hits (ofText (Pass.envAssignment.output t)) = [] := by
      refine List.eq_nil_iff_forall_not_mem.2 fun x hx => ?_
      obtain ⟨e, colon, value, stop, rfl, he⟩ := allEnv_hits x hx
      exact not_isEnv_output ht h he
    rw [Pass.edits, hnone]
    rfl
  exact ⟨_, _, Pass.envAssignment.apply_eq ht, Pass.envAssignment.apply_eq hw, hcount,
    Pass.envAssignment.output_of_count hcount⟩

/-- Two entries. The name of the first becomes `default` in small letters, and the variable of the
second is called `default` but for its assertion. -/
def envPair : List Char := "Default: process.env.KEY, b: process.env.default!".toList

theorem Pass.envAssignment_idempotent_pair :
    (∀ e, Hit.env e ∈ Pass.envAssignment.hits (ofText (.ofChars envPair)) →
      (ofText (.ofChars envPair)).bytes e.var ≠ nestedKey) ∧
    ∃ r r', Pass.envAssignment.apply (.ofChars envPair) = .ok r ∧
      Pass.envAssignment.apply r.text = .ok r' ∧ countEdits r'.edits = 0 ∧ r'.text = r.text := by
  have hhits : Pass.envAssignment.hits (ofText (.ofChars envPair)) =
      [.env ⟨⟨0, 7⟩, ⟨21, 24⟩⟩, .env ⟨⟨26, 27⟩, ⟨41, 49⟩⟩] := by decide +kernel
  have hvar : ∀ e, Hit.env e ∈ Pass.envAssignment.hits (ofText (.ofChars envPair)) →
      (ofText (.ofChars envPair)).bytes e.var ≠ nestedKey := by
    intro e he
    rw [hhits] at he
    rcases List.mem_cons.1 he with heq | he
    · cases heq
      decide +kernel
    · cases List.mem_singleton.1 he
      decide +kernel
  exact ⟨hvar, Pass.envAssignment_idempotent envPair hvar⟩

/-- A variable called `default` may be the key before the configuration that `b` is a field of. -/
example : (Pass.envAssignment.hits (ofText (Pass.envAssignment.output (.ofChars
    "a: process.env.default: \x7b b: process.env.X \x7d".toList)))).length = 1 := by
  decide +kernel

end ProviderNest
