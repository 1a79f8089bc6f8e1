import Mathlib.Data.List.Sort
import ProviderNest.Proofs.Bodies
import ProviderNest.Proofs.Settling

/-!
# Flat entries inside each other

Two flat entries of a text do not overlap unless one lies inside the body of the other
(`Source.IsFlat.apart_or_inside`): between the name of an entry and its brace no other entry begins,
and braces that open inside others close there. So the entries are a forest, and a sweep that jumps
behind each entry it finds finds the roots (`Pass.hits_simpleInline`). `Pass.simpleInline_outermost`
says what this makes of the text: the entries that lie inside no other one take the nested shape,
and nothing else changes.
-/

namespace ProviderNest

open LexState Source

instance (x y : Span) : Decidable (x.Inside y) := inferInstanceAs (Decidable (_ ∧ _))

namespace Source

/-- The other flat entries that an entry lies inside. -/
def around (s : Source) (e : FlatEntry) : List FlatEntry :=
  s.flatEntries.filter fun f => f ≠ e ∧ e.span.Inside f.span

/-- The flat entries that lie inside no other one. -/
def outermost (s : Source) : List FlatEntry := s.flatEntries.filter fun e => s.around e = []

/-- The text from position `i` on with some entries in the nested shape, each on the line of its
name. -/
def nestedFrom (s : Source) : (i : Nat) → List FlatEntry → Text
  | i, [] => s.bytes ⟨i, s.size⟩
  | i, e :: es => s.bytes ⟨i, e.span.start⟩ ++
      (Entry.nested ⟨s.bytes e.name, s.bytes e.body⟩ (s.indentOf e.span.start) ++
        s.nestedFrom e.span.stop es)

section
variable {s : Source} {e f : FlatEntry}

/-- The flat entries of a text are those that the recogniser finds, each by its name and colon. -/
theorem mem_flatEntries : e ∈ s.flatEntries ↔ ∃ colon, s.IsFlat e colon := by
  rw [flatEntries, List.mem_filterMap]
  constructor
  · rintro ⟨i, -, h⟩
    exact (flatEntry?_eq_some.1 h).2
  · rintro ⟨colon, h⟩
    exact ⟨e.name.start, List.mem_range.2 (Nat.lt_of_lt_of_le h.key.word.lt h.key.word.stop_le),
      flatEntry?_eq_some.2 ⟨rfl, colon, h⟩⟩

/-- Entries with one name are the same. -/
theorem eq_of_start_eq (he : e ∈ s.flatEntries) (hf : f ∈ s.flatEntries)
    (h : e.name.start = f.name.start) : e = f := by
  obtain ⟨colon, he⟩ := mem_flatEntries.1 he
  obtain ⟨colon', hf⟩ := mem_flatEntries.1 hf
  have := flatEntry?_eq_some.2 ⟨h, colon, he⟩
  rw [flatEntry?_eq_some.2 ⟨rfl, colon', hf⟩] at this
  exact (Option.some.inj this).symm

/-- The flat entries of a text come in the order of their names. -/
theorem pairwise_flatEntries (s : Source) :
    s.flatEntries.Pairwise fun e f => e.name.start < f.name.start := by
  refine List.Pairwise.filterMap _ (fun i j hij e he f hf => ?_) List.pairwise_lt_range
  rw [flatEntry?_eq_some] at he hf
  rwa [he.1, hf.1]

/-- The entries around an entry are the other flat entries that it lies inside. -/
theorem mem_around : f ∈ s.around e ↔ f ∈ s.flatEntries ∧ f ≠ e ∧ e.span.Inside f.span := by
  simp [around]

/-- A flat entry is outermost if it lies inside no other one. -/
theorem mem_outermost : e ∈ s.outermost ↔ e ∈ s.flatEntries ∧ s.around e = [] := by
  simp [outermost]

end

section
variable {t : Text} {e f : FlatEntry}

/-- **Of two flat entries, one comes before the other, or the other lies inside its body.** -/
theorem IsFlat.apart_or_inside {colon colon' : Nat} (he : (ofText t).IsFlat e colon)
    (hf : (ofText t).IsFlat f colon') (hlt : e.name.start < f.name.start) :
    e.body.stop ≤ f.name.start ∨ e.body.start < f.name.start ∧ f.body.stop < e.body.stop := by
  obtain ⟨h1, h2, h3, h4, -⟩ := he.order
  obtain ⟨h5, h6, h7, h8, -⟩ := hf.order
  obtain ⟨hopen, -, hclose⟩ := closing?_spec he.closing
  obtain ⟨hopen', -, -⟩ := closing?_spec hf.closing
  refine (Nat.lt_or_ge f.name.start e.body.stop).symm.imp id fun hin => ?_
  have hword := hf.key.word.inWord_start
  -- The name is a word, so it begins neither before the brace nor at one of the braces.
  have hbody := (he.key.start_or_behind (Nat.le_of_lt hlt) hword hf.key.word.before).resolve_left
    (Nat.ne_of_gt hlt)
  dsimp only at hbody
  have hne {i : Nat} {b : UInt8} (hb : (ofText t).codeByte? i = some b)
      (hw : Byte.isWord b = false) : i ≠ f.name.start := by
    rintro rfl
    rw [inWord_of_codeByte? hb hw] at hword
    cases hword
  have hstart := hne hopen (by decide)
  have hstop := hne hclose (by decide)
  -- The brace that closes the first entry does not come before the brace of the second.
  have hinside : f.body.start < e.body.stop - 1 := by
    refine Nat.lt_of_not_le fun hge => ?_
    rcases Nat.eq_or_lt_of_le hge with heq | hgt
    · rw [← heq, hclose] at hopen'
      cases hopen'
    · exact (noBrace_key hf.key (e.body.stop - 1) (by dsimp only; omega) hgt).2 hclose
  have := closing?_lt he.closing hf.closing (by omega) hinside
  exact ⟨by omega, by omega⟩

/-- Different flat entries do not overlap unless one lies inside the other. -/
theorem flatEntries_laminar (he : e ∈ (ofText t).flatEntries) (hf : f ∈ (ofText t).flatEntries)
    (hne : e ≠ f) : e.span.stop ≤ f.span.start ∨ f.span.stop ≤ e.span.start ∨
      (e.span.start < f.span.start ∧ f.span.stop < e.span.stop) ∨
      (f.span.start < e.span.start ∧ e.span.stop < f.span.stop) := by
  obtain ⟨colon, hef⟩ := mem_flatEntries.1 he
  obtain ⟨colon', hff⟩ := mem_flatEntries.1 hf
  rcases Nat.lt_trichotomy e.name.start f.name.start with hlt | heq | hlt
  · rcases hef.apart_or_inside hff hlt with h | ⟨-, h⟩
    · exact .inl h
    · exact .inr (.inr (.inl ⟨hlt, h⟩))
  · exact absurd (eq_of_start_eq he hf heq) hne
  · rcases hff.apart_or_inside hef hlt with h | ⟨-, h⟩
    · exact .inr (.inl h)
    · exact .inr (.inr (.inr ⟨hlt, h⟩))

end

end Source

/-! ## The entries that the pass finds -/

/-- Where the inline pass finds a flat entry, it goes on behind the whole of it. -/
theorem Pass.find?_simpleInline {s : Source} {i : Nat} {x : List Hit × Nat} :
    Pass.simpleInline.find? s i = some x ↔
      ∃ e, s.flatEntry? i = some e ∧ x = ([.flat e], e.span.stop) := by
  rw [Pass.find?, Option.map_eq_some_iff]
  exact exists_congr fun e => and_congr_right fun _ => eq_comm

section
variable {t : Text} {e : FlatEntry}

/-- A flat entry is found, or it lies inside one that is. -/
theorem exists_hit_of_flat (he : e ∈ (ofText t).flatEntries) :
    ∃ g ∈ (ofText t).flatEntries, Hit.flat g ∈ Pass.simpleInline.hits (ofText t) ∧
      (g = e ∨ g.span.start < e.span.start ∧ e.span.stop < g.span.stop) := by
  obtain ⟨colon, hflat⟩ := mem_flatEntries.1 he
  have hsize := hflat.order
  obtain ⟨k, found, next, hk, hle, hcase, hmem⟩ :=
    sweep_covers (f := fun i => Pass.simpleInline.find? (ofText t) i) (i := 0)
      (n := (ofText t).size) (k := e.name.start)
      (Pass.find?_simpleInline.2 ⟨e, flatEntry?_eq_some.2 ⟨rfl, colon, hflat⟩, rfl⟩)
      (Nat.zero_le _) (by omega) (Nat.zero_le _)
  obtain ⟨g, hg, heq⟩ := Pass.find?_simpleInline.1 hk
  cases heq
  obtain ⟨rfl, colon', hgf⟩ := flatEntry?_eq_some.1 hg
  refine ⟨g, mem_flatEntries.2 ⟨colon', hgf⟩, hmem _ List.mem_cons_self, ?_⟩
  rcases Nat.eq_or_lt_of_le hle with heq | hlt
  · exact .inl (eq_of_start_eq (mem_flatEntries.2 ⟨colon', hgf⟩) he heq)
  · have hin := hcase.resolve_left (Nat.ne_of_lt hlt)
    obtain h | ⟨-, h⟩ := hgf.apart_or_inside hflat hlt
    · exact absurd hin (Nat.not_lt_of_le h)
    · exact .inr ⟨hlt, h⟩

/-- **The pass finds the outermost entries.** -/
theorem Pass.mem_hits_simpleInline {h : Hit} :
    h ∈ Pass.simpleInline.hits (ofText t) ↔ ∃ e ∈ (ofText t).outermost, .flat e = h := by
  have hfollow := (finds_hits .simpleInline (ofText t)).1
  constructor
  · intro hm
    obtain ⟨k, found, next, hk, hfound⟩ := mem_sweep hm
    obtain ⟨e, he, heq⟩ := Pass.find?_simpleInline.1 hk
    cases heq
    obtain rfl := List.mem_singleton.1 hfound
    have he := mem_flatEntries.2 (flatEntry?_eq_some.1 he).2
    refine ⟨e, mem_outermost.2 ⟨he, List.eq_nil_iff_forall_not_mem.2 fun f hf => ?_⟩, rfl⟩
    -- An entry around this one would be found, or one around that, and finds do not overlap.
    obtain ⟨hf, hne, h1, h2⟩ := mem_around.1 hf
    obtain ⟨g, hg, hgm, hcase⟩ := exists_hit_of_flat hf
    have hin : g.span.start ≤ e.span.start ∧ e.span.stop ≤ g.span.stop := by
      rcases hcase with rfl | ⟨h3, h4⟩ <;> omega
    have hlt : e.span.start < e.span.stop := by
      obtain ⟨colon, he⟩ := mem_flatEntries.1 he
      have := he.order
      simp only [FlatEntry.span]
      omega
    have heq : Hit.flat e = .flat g :=
      hfollow.eq_of_mem (k := e.span.start) hm hgm ⟨Nat.le_refl _, hlt⟩ ⟨hin.1, by
        exact Nat.lt_of_lt_of_le hlt hin.2⟩
    cases heq
    rcases hcase with rfl | ⟨h3, h4⟩
    · exact hne rfl
    · omega
  · rintro ⟨e, he, rfl⟩
    obtain ⟨he, hnil⟩ := mem_outermost.1 he
    obtain ⟨g, hg, hgm, rfl | ⟨h1, h2⟩⟩ := exists_hit_of_flat he
    · exact hgm
    · have := mem_around.2 ⟨hg, fun heq => by subst heq; omega, Nat.le_of_lt h1, Nat.le_of_lt h2⟩
      rw [hnil] at this
      cases this

/-- The inline pass hits the outermost flat entries, in their order. -/
theorem Pass.hits_simpleInline :
    Pass.simpleInline.hits (ofText t) = (ofText t).outermost.map .flat := by
  let r (a b : Hit) : Prop := a.span.start < b.span.start
  have : Std.Irrefl r := ⟨fun _ => Nat.lt_irrefl _⟩
  have : Std.Antisymm r := ⟨fun _ _ h h' => absurd h (Nat.lt_asymm h')⟩
  have hfound : (Pass.simpleInline.hits (ofText t)).Pairwise r := by
    refine (finds_hits .simpleInline (ofText t)).1.pairwise.imp_of_mem fun ha _ hab => ?_
    obtain ⟨e, he, rfl⟩ := Pass.mem_hits_simpleInline.1 ha
    obtain ⟨colon, he⟩ := mem_flatEntries.1 (mem_outermost.1 he).1
    have := he.order
    exact Nat.lt_of_lt_of_le (by dsimp only [Hit.span, FlatEntry.span]; omega) hab
  have hstated : ((ofText t).outermost.map Hit.flat).Pairwise r :=
    List.pairwise_map.2 ((pairwise_flatEntries _).filter _)
  refine hfound.eq_of_mem_iff hstated fun h => ?_
  rw [Pass.mem_hits_simpleInline, List.mem_map]

/-- The inline pass nests the outermost flat entries and no other entry. -/
theorem Pass.flats_simpleInline : Pass.simpleInline.flats t = (ofText t).outermost := by
  rw [Pass.flats, Pass.hits_simpleInline, List.flatMap_map]
  exact List.flatMap_singleton' _

/-- The inline pass changes each outermost flat entry, with the indentation of the line of its
name. -/
theorem Pass.changes_simpleInline : Pass.simpleInline.changes t =
    (ofText t).outermost.map fun e => e.change ((ofText t).indentOf e.name.start) := by
  rw [Pass.changes, Pass.hits_simpleInline, List.flatMap_map]
  exact List.flatMap_pure_eq_map _ _

/-- The changes of flat entries that follow each other are carried out entry by entry. -/
theorem changed_flats {i j : Nat} {es : List FlatEntry} (hf : Follow FlatEntry.span i j es)
    (hj : j = t.length) (hes : ∀ e ∈ es, ∃ colon, (ofText t).IsFlat e colon) :
    (ofText t).changed j i (es.map fun e => e.change ((ofText t).indentOf e.name.start)) =
      (ofText t).nestedFrom i es := by
  induction hf with
  | nil => rw [List.map_nil, changed_nil, nestedFrom, size_ofText, hj]
  | @cons i j e es h1 h2 h3 ih =>
    obtain ⟨colon, he⟩ := hes e List.mem_cons_self
    rw [nestedFrom, ← ih hj fun f hf => hes f (List.mem_cons_of_mem _ hf), List.map_cons, changed,
      weave]
    simp only [FlatEntry.change, FlatEntry.span, Entry.nested, front, back, List.append_assoc]
    rw [← bytes_append (j := e.name.start) h1 (Nat.le_of_lt he.order.1), List.append_assoc]
    rfl

/-- **The pass over flat entries nests the outermost ones.** Two flat entries of a text are apart,
or one lies strictly inside the other. A run of the pass replaces those that lie inside no other one
by their nested shape, indented like the line of their name, keeps every byte besides, and counts
them. -/
theorem Pass.simpleInline_outermost (cs : List Char) :
    (∀ e ∈ (ofText (.ofChars cs)).flatEntries, ∀ f ∈ (ofText (.ofChars cs)).flatEntries, e ≠ f →
      e.span.stop ≤ f.span.start ∨ f.span.stop ≤ e.span.start ∨
      (e.span.start < f.span.start ∧ f.span.stop < e.span.stop) ∨
      (f.span.start < e.span.start ∧ e.span.stop < f.span.stop)) ∧
    Follow FlatEntry.span 0 (Text.ofChars cs).length (ofText (.ofChars cs)).outermost ∧
    (∀ e ∈ (ofText (.ofChars cs)).outermost, (ofText (.ofChars cs)).lineIndent e.span.start =
      .ok ((ofText (.ofChars cs)).indentOf e.span.start)) ∧
    ∃ r, Pass.simpleInline.apply (.ofChars cs) = .ok r ∧
      r.text = (ofText (.ofChars cs)).nestedFrom 0 (ofText (.ofChars cs)).outermost ∧
      countEdits r.edits = (ofText (.ofChars cs)).outermost.length := by
  have ht := Text.wellFormed_ofChars cs
  have hflat (e : FlatEntry) (he : e ∈ (ofText (.ofChars cs)).outermost) :=
    mem_flatEntries.1 (mem_outermost.1 he).1
  have hfollow := Pass.simpleInline.follow_flats ht
  rw [Pass.flats_simpleInline] at hfollow
  refine ⟨fun e he f hf => flatEntries_laminar he hf, hfollow, fun e he => ?_, _,
    Pass.simpleInline.apply_eq ht, ?_, ?_⟩
  · obtain ⟨colon, he⟩ := hflat e he
    exact lineIndent_eq ht he.key.word rfl
  · rw [← changed_flats hfollow rfl hflat, ← Pass.changes_simpleInline]
    rfl
  · rw [Pass.countEdits_edits _ (by decide), Pass.flats_simpleInline]

end

end ProviderNest
