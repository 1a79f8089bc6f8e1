import ProviderNest.Proofs.Nesting
import ProviderNest.Proofs.Occurrences
import ProviderNest.Proofs.Settling

/-!
# Keys among the cells that a pass leaves

Two passes nest entries where they find them, one by one. What they leave are the cells of the text
with each hit turned into the nested shape (`Hit.Turned`): a name, the key `default` and the fields
of a configuration between braces. Each of these begins with a word, and no word begins inside of
another. So a key of the new text stands in one of four places (`KeyPlace`): it is kept from the old
text, its name is that of an entry that is nested, it is the key `default`, or it stands among the
fields of a configuration (`keyPlace`).

Braces that open among kept cells close among kept cells, since what takes the place of a hit is
closed in itself (`closing_of_woven`).
-/

namespace ProviderNest

open LexState Source

/-! ## Where a word can begin -/

section
variable {as bs z : List Cell} {w : Text}

/-- The cells begin with part of a word. -/
def Worded (cs : List Cell) : Prop := ∃ c r, cs = c :: r ∧ c.inWord = true

/-- No cell is part of a word. -/
def Wordfree (cs : List Cell) : Prop := ∀ c ∈ cs, c.inWord = false

instance (cs : List Cell) : Decidable (Wordfree cs) :=
  inferInstanceAs (Decidable (∀ c ∈ cs, c.inWord = false))

/-- The cells of a word begin with part of a word. -/
theorem worded_codeCells (hne : w ≠ []) (hw : ∀ b ∈ w, Byte.isWord b = true) :
    Worded (codeCells w ++ as) := by
  cases w with
  | nil => exact absurd rfl hne
  | cons b w => exact ⟨_, _, rfl, hw b List.mem_cons_self⟩

/-- The word that cells begin with is determined, and so is what follows it. -/
theorem word_append_inj {w' : Text} (hw : w ≠ [] ∧ ∀ b ∈ w, Byte.isWord b = true)
    (hw' : w' ≠ [] ∧ ∀ b ∈ w', Byte.isWord b = true) (ha : ∀ c ∈ as.head?, c.inWord = false)
    (hb : ∀ c ∈ bs.head?, c.inWord = false) (h : codeCells w ++ as = codeCells w' ++ bs) :
    w = w' ∧ as = bs :=
  (word_inj (u := []) (List.forall_mem_nil _) hw hw' ha hb h).2

/-- A word does not begin among cells without one. -/
theorem Wordfree.cut {ds : List Cell} (hz : Wordfree z) (hb : Worded bs)
    (h : z ++ ds = as ++ bs) : ∃ m, as = z ++ m ∧ ds = m ++ bs := by
  rcases List.append_eq_append_iff.1 h with ⟨m, rfl, rfl⟩ | ⟨m, rfl, hm⟩
  · exact ⟨m, rfl, rfl⟩
  · obtain ⟨c, r, rfl, hc⟩ := hb
    cases m with
    | nil => exact ⟨[], by simp, hm.symm⟩
    | cons x m =>
      obtain rfl : c = x := (List.cons.inj hm).1
      rw [hz c (by simp)] at hc
      cases hc

/-- A word does not begin inside of another. -/
theorem word_cut {ds : List Cell} (hw : ∀ b ∈ w, Byte.isWord b = true) (ha : Detached as)
    (hne : as ≠ []) (h : codeCells w ++ ds = as ++ bs) :
    ∃ m, as = codeCells w ++ m ∧ ds = m ++ bs := by
  rcases List.append_eq_append_iff.1 h with hm | ⟨m, hm, -⟩
  · exact hm
  · have hlast := List.getLast?_eq_some_getLast hne
    have hin : as.getLast hne ∈ codeCells w := hm ▸ List.mem_append_left _ (List.getLast_mem hne)
    obtain ⟨b, hb, heq⟩ := List.mem_map.1 hin
    have := ha _ hlast
    rw [← heq] at this
    exact absurd (hw b hb) (by simpa [Cell.inWord] using this)

/-- What comes behind the word of a key. -/
theorem KeyCells.gap {k : List Cell} (h : KeyCells w k) :
    ∃ z, k = codeCells w ++ z ∧ z ≠ [] ∧ Wordfree z := by
  obtain ⟨v, u, hv, hu, rfl⟩ := h
  refine ⟨_, rfl, by simp, fun c hc => ?_⟩
  rcases List.mem_append.1 hc with hc | hc
  · exact not_inWord_of_isTrivia (hv c hc)
  rcases List.mem_cons.1 hc with rfl | hc
  · rfl
  · exact not_inWord_of_isTrivia (hu c hc)

/-- A key begins with a word. -/
theorem KeyCells.inWord {s : Source} {n : Nat} {k : List Cell} (h : KeyCells w k) (hne : w ≠ [])
    (hw : ∀ b ∈ w, Byte.isWord b = true) (hs : s.slice n (n + k.length) = k) :
    0 < k.length ∧ s.inWord n = true := by
  obtain ⟨c, cs, rfl, hc⟩ : Worded k := by
    obtain ⟨z, rfl, -, -⟩ := h.gap
    exact worded_codeCells hne hw
  have hcell := getElem?_slice s (i := n) (j := n + (c :: cs).length) (k := 0) (by simp)
  rw [hs] at hcell
  exact ⟨Nat.succ_pos _, (inWord_eq hcell.symm).trans hc⟩

/-- The cells of a text without word bytes are no part of a word. -/
theorem wordfree_codeCells {u : Text} (h : Text.Wordless u) : Wordfree (codeCells u) := by
  intro c hc
  obtain ⟨b, hb, rfl⟩ := List.mem_map.1 hc
  exact h b hb

/-- What comes before a configuration: no word, and then the key `default`. -/
theorem front_parts {indent : Text} (hi : indent.IsIndent) : ∃ z, z ≠ [] ∧ Wordfree z ∧
    codeCells (front indent) = z ++ (codeCells nestedKey ++ codeCells (.ofString ": ")) := by
  refine ⟨codeCells (.ofString ": \x7b\n" ++ indent ++ .ofString "  "), ?_, ?_, ?_⟩
  · rw [show Text.ofString ": \x7b\n" =
      Byte.colon :: [Byte.space, Byte.openBrace, Byte.newline] by decide]
    exact List.cons_ne_nil _ _
  · have hopen : Text.Wordless (.ofString ": \x7b\n") := by decide
    exact wordfree_codeCells ((hopen.append hi.wordless).append (by decide))
  · rw [front_eq]
    simp only [codeCells, List.map_append]

/-- What comes behind a configuration has no word. -/
theorem wordfree_back {indent : Text} (hi : indent.IsIndent) : Wordfree (codeCells (back indent)) :=
  wordfree_codeCells (wordless_back hi)

/-- Cells that begin with a word, cut behind the first. -/
theorem Worded.of_append (h : Worded (as ++ bs)) (hne : as ≠ []) : Worded as := by
  obtain ⟨c, r, heq, hc⟩ := h
  cases as with
  | nil => exact absurd rfl hne
  | cons x as => exact ⟨x, as, rfl, (List.cons.inj heq).1 ▸ hc⟩

/-- Whatever comes behind cells without a word, they do not begin with part of one. -/
theorem Wordfree.head? {ds : List Cell} (hz : Wordfree z) (hne : z ≠ []) :
    ∀ c ∈ (z ++ ds).head?, c.inWord = false := by
  cases z with
  | nil => exact absurd rfl hne
  | cons x z =>
    intro c hc
    cases hc
    exact hz x List.mem_cons_self

end

/-- **Where a word begins in the nested shape**, behind its name: at the key `default` or among the
fields. -/
theorem nested_cut {indent : Text} {ds ps qs : List Cell} (hi : indent.IsIndent)
    (hw : ∀ b ∈ w, Byte.isWord b = true) (hp : Detached ps) (hne : ps ≠ []) (hq : Worded qs)
    (h : codeCells w ++ (codeCells (front indent) ++ (⟨Byte.openBrace, .code⟩ ::
      (ds ++ ⟨Byte.closeBrace, .code⟩ :: codeCells (back indent)))) = ps ++ qs) :
    (∃ s, qs = codeCells nestedKey ++ (codeCells (.ofString ": ") ++ s)) ∨
    ∃ es fs, ds = es ++ fs ∧ qs = fs ++ ⟨Byte.closeBrace, .code⟩ :: codeCells (back indent) ∧
      ps = codeCells w ++ (codeCells (front indent) ++ ⟨Byte.openBrace, .code⟩ :: es) := by
  obtain ⟨z, -, hz, hfront⟩ := front_parts hi
  have hcolon : Wordfree (codeCells (.ofString ": ") ++ [⟨Byte.openBrace, .code⟩]) := by decide
  rw [hfront] at h ⊢
  simp only [List.append_assoc] at h
  obtain ⟨m, rfl, hname⟩ := word_cut hw hp hne h
  obtain ⟨m, rfl, hlead⟩ := hz.cut hq hname
  rcases List.eq_nil_or_concat m with rfl | hm
  · exact .inl ⟨_, hlead.symm⟩
  obtain ⟨m, rfl, hkey⟩ := word_cut (by decide) hp.of_append.of_append
    (by obtain ⟨_, _, rfl⟩ := hm; simp) hlead
  rw [List.append_cons] at hkey
  obtain ⟨m, rfl, hbody⟩ := hcolon.cut hq hkey
  rcases append_cons_cut hbody with ⟨fs, rfl, rfl⟩ | ⟨n, rfl, hback⟩
  · exact .inr ⟨m, fs, rfl, rfl, by simp⟩
  · obtain ⟨c, r, rfl, hc⟩ := hq
    have := wordfree_back hi c (by rw [hback]; simp)
    rw [hc] at this
    cases this

/-- In the nested shape no closing brace comes before the last that has not been opened. -/
theorem nested_open {indent : Text} {ds ps qs : List Cell} (hi : indent.IsIndent)
    (hw : ∀ b ∈ w, Byte.isWord b = true) (hds : closers ds 0 = some 0)
    (h : codeCells w ++ (codeCells (front indent) ++ (⟨Byte.openBrace, .code⟩ ::
      (ds ++ ⟨Byte.closeBrace, .code⟩ :: codeCells (back indent)))) =
        ps ++ ⟨Byte.closeBrace, .code⟩ :: qs) : ¬ (closers ps 0).isSome = true := by
  have hparts := cells_around indent
    (⟨Byte.openBrace, .code⟩ :: (ds ++ [⟨Byte.closeBrace, .code⟩])) []
  simp only [List.append_nil, List.cons_append, List.append_assoc, List.nil_append] at hparts
  rw [hparts, ← List.append_assoc] at h
  have hinert : Inert (codeCells w ++ codeCells (.ofString ": ")) :=
    (inert_of_isWord hw).append (by decide)
  have hclosed := neutral_nestCells hi (neutral_braces hds) 0
  rcases append_cons_cut h with ⟨m, hm, hqs⟩ | ⟨m, rfl, hm⟩
  · -- No brace stands before the first.
    cases m with
    | nil => cases hqs
    | cons c m =>
      obtain rfl := (List.cons.inj hqs).1
      exact absurd (by rw [hm]; simp) hinert.not_close
  rcases append_cons_cut hm with ⟨n, hn, -⟩ | ⟨n, -, hn⟩
  · rw [hn] at hclosed
    exact not_isSome_closers hclosed rfl
  · exact absurd hn (by simp)

/-! ## The cells of hits -/

/-- The cells that take the place of a hit. -/
def Text.hitCells (t : Text) (h : Hit) : List Cell := t.wovenCells h.span.stop h.span.start [h]

/-- The indentation of the line of a hit. -/
def Hit.indent (t : Text) (h : Hit) : Text := (ofText t).indentOf h.anchor

theorem Hit.isIndent_indent (t : Text) (h : Hit) : (h.indent t).IsIndent := isIndent_indentOf _ _

/-- The name under which an entry is nested. -/
def Hit.newName (t : Text) : Hit → Text
  | .flat e => (ofText t).bytes e.name
  | .env e => ((ofText t).bytes e.name).lower
  | .object _ _ => []

/-- What stands between the braces of the configuration of an entry that is nested. -/
def Hit.fields (t : Text) : Hit → List Cell
  | .flat e => (ofText t).slice (e.body.start + 1) (e.body.stop - 1)
  | .env e => envFields t e
  | .object _ _ => []

/-- A hit that is a single entry: it begins with a word, and the nested shape takes its place. -/
structure Hit.Turned (t : Text) (h : Hit) : Prop where
  begins : ∃ x, x.start = h.span.start ∧ (ofText t).IsWord x
  lt : h.span.start < h.span.stop
  ends : (ofText t).inWord (h.span.stop - 1) = false ∨ (ofText t).inWord h.span.stop = false
  ne_nil : h.newName t ≠ []
  word : ∀ b ∈ h.newName t, Byte.isWord b = true
  closed : closers (h.fields t) 0 = some 0
  cells : t.hitCells h = codeCells (h.newName t) ++ (codeCells (front (h.indent t)) ++
    (⟨Byte.openBrace, .code⟩ ::
      (h.fields t ++ ⟨Byte.closeBrace, .code⟩ :: codeCells (back (h.indent t)))))

section
variable {t : Text} {i j k : Nat} {h : Hit} {hs gs gs' : List Hit}

/-- The changes of hits that follow each other do so, too. -/
theorem Finds.follow_changes (ht : t.WellFormed) (hf : Finds (ofText t) i hs j) :
    Follow Change.span i j
      (hs.flatMap fun h => h.changes (ofText t) ((ofText t).indentOf h.anchor)) :=
  hf.1.flatMap fun h hm => (hf.2.2 h hm).follow ht _

theorem Finds.of_le (hf : Finds (ofText t) i hs j) (hk : k ≤ i) : Finds (ofText t) k hs j :=
  ⟨hf.1.of_le hk, hf.2⟩

theorem Finds.le (hf : Finds (ofText t) i hs j) : i ≤ j := hf.1.le

/-- What is kept before the first hit. -/
theorem slice_wovenCells (ht : t.WellFormed) (hf : Finds (ofText t) k hs j) (hik : i ≤ k) :
    (ofText t).slice i k ++ t.wovenCells j k hs = t.wovenCells j i hs :=
  keep_weave (slice_append (ofText t)) hik (hf.follow_changes ht)

/-- What a pass leaves of two parts, cut between two hits, is what it leaves of each. -/
theorem wovenCells_append (ht : t.WellFormed) (hf : Finds (ofText t) i gs k)
    (hf' : Finds (ofText t) k gs' j) :
    t.wovenCells j i (gs ++ gs') = t.wovenCells k i gs ++ t.wovenCells j k gs' := by
  rw [Text.wovenCells, List.flatMap_append]
  exact weave_append (slice_append (ofText t)) (hf.follow_changes ht) (hf'.follow_changes ht)

/-- The first hit of some, and what is behind it. -/
theorem Finds.uncons (hf : Finds (ofText t) i (h :: hs) j) : i ≤ h.span.start ∧
    Finds (ofText t) h.span.start [h] h.span.stop ∧ Finds (ofText t) h.span.stop hs j := by
  obtain ⟨hfollow, hj, hv⟩ := hf
  cases hfollow with
  | cons h1 h2 h3 =>
    exact ⟨h1, ⟨.cons (Nat.le_refl _) h2 (.nil (Nat.le_refl _)), Nat.le_trans h3.le hj,
      fun x hx => hv x (by rw [List.mem_singleton.1 hx]; exact List.mem_cons_self)⟩,
      h3, hj, fun x hx => hv x (List.mem_cons_of_mem _ hx)⟩

/-- What a pass leaves of a part by its first hit: the cells before it, those that take its place,
and what is left of the rest. -/
theorem wovenCells_hit (ht : t.WellFormed) (hf : Finds (ofText t) i (h :: hs) j) :
    t.wovenCells j i (h :: hs) =
      (ofText t).slice i h.span.start ++ (t.hitCells h ++ t.wovenCells j h.span.stop hs) := by
  obtain ⟨hle, hone, hrest⟩ := hf.uncons
  rw [Text.hitCells, ← List.append_assoc, slice_wovenCells ht hone hle]
  have hfirst : Finds (ofText t) i [h] h.span.stop := hone.of_le hle
  exact wovenCells_append ht hfirst hrest

theorem Finds.nil (hij : i ≤ j) (hj : j ≤ t.length) : Finds (ofText t) i [] j :=
  ⟨.nil hij, by rwa [size_ofText], fun _ hx => nomatch hx⟩

/-- The hits of two parts, one behind the other, are the hits of both. -/
theorem Finds.append (hf : Finds (ofText t) i gs k) (hf' : Finds (ofText t) k gs' j) :
    Finds (ofText t) i (gs ++ gs') j :=
  ⟨hf.1.append hf'.1, hf'.2.1, fun x hx => (List.mem_append.1 hx).elim (hf.2.2 x) (hf'.2.2 x)⟩

/-- What a pass leaves, in two parts: cut where the text was, between two hits, or cut in a hit. -/
inductive WovenCut (t : Text) (i j : Nat) (hs : List Hit) : (us vs : List Cell) → Prop
  | kept {k : Nat} {gs gs' : List Hit} : hs = gs ++ gs' → Finds (ofText t) i gs k →
      Finds (ofText t) k gs' j → WovenCut t i j hs (t.wovenCells k i gs) (t.wovenCells j k gs')
  | inside {x : Hit} {gs gs' : List Hit} {ps qs : List Cell} : hs = gs ++ x :: gs' →
      Finds (ofText t) i gs x.span.start → Finds (ofText t) x.span.stop gs' j →
      t.hitCells x = ps ++ qs → ps ≠ [] → qs ≠ [] →
      WovenCut t i j hs (t.wovenCells x.span.start i gs ++ ps)
        (qs ++ t.wovenCells j x.span.stop gs')

/-- A cut behind the first hit. -/
theorem WovenCut.behind (ht : t.WellFormed) (hf : Finds (ofText t) i (h :: hs) j)
    {us vs : List Cell} (hc : WovenCut t h.span.stop j hs us vs) :
    WovenCut t i j (h :: hs) ((ofText t).slice i h.span.start ++ (t.hitCells h ++ us)) vs := by
  obtain ⟨hle, hone, -⟩ := hf.uncons
  have hfirst {k : Nat} {gs : List Hit} (hgs : Finds (ofText t) h.span.stop gs k) :
      Finds (ofText t) i (h :: gs) k := (hone.of_le hle).append hgs
  cases hc with
  | @kept k gs gs' heq hgs hgs' =>
    rw [← wovenCells_hit ht (hfirst hgs)]
    exact .kept (by rw [heq, List.cons_append]) (hfirst hgs) hgs'
  | @inside x gs gs' ps qs heq hgs hgs' hcells hps hqs =>
    have hcut := WovenCut.inside (congrArg (h :: ·) heq) (hfirst hgs) hgs' hcells hps hqs
    rwa [wovenCells_hit ht (hfirst hgs), List.append_assoc, List.append_assoc] at hcut

/-- Wherever the cells that a pass leaves are cut, the cut falls between two hits or inside one. -/
theorem wovenCut (ht : t.WellFormed) (hf : Finds (ofText t) i hs j) {us vs : List Cell}
    (h : t.wovenCells j i hs = us ++ vs) : WovenCut t i j hs us vs := by
  have hsize := hf.2.1
  rw [size_ofText] at hsize
  induction hs generalizing i us with
  | nil =>
    obtain ⟨h1, h2, h3⟩ := slice_split hf.le hf.2.1 h
    rw [← h2, ← h3]
    exact .kept rfl (.nil (Nat.le_add_right _ _) (Nat.le_trans h1 hsize)) (.nil h1 hsize)
  | cons x hs ih =>
    obtain ⟨hle, hone, hrest⟩ := hf.uncons
    have hstart : x.span.start ≤ t.length := Nat.le_trans hone.le (Nat.le_trans hrest.le hsize)
    have hbefore {k : Nat} (hk : k ≤ x.span.start) : Finds (ofText t) k (x :: hs) j :=
      (hone.of_le hk).append hrest
    rw [wovenCells_hit ht hf] at h
    rcases List.append_eq_append_iff.1 h.symm with ⟨ms, hms, rfl⟩ | ⟨ms, rfl, hms⟩
    · -- The cut is before the hit.
      obtain ⟨h1, h2, h3⟩ := slice_split hle (by rwa [size_ofText]) hms
      rw [← h2, ← h3, ← wovenCells_hit ht (hbefore h1)]
      exact .kept rfl (.nil (Nat.le_add_right _ _) (Nat.le_trans h1 hstart)) (hbefore h1)
    rcases List.append_eq_append_iff.1 hms.symm with ⟨ns, hns, rfl⟩ | ⟨ns, rfl, hns⟩
    · rcases List.eq_nil_or_concat ms with rfl | hne
      · -- The cut is right before the hit.
        obtain rfl : t.hitCells x = ns := hns
        have hkept : WovenCut t i j (x :: hs) (t.wovenCells x.span.start i [])
            (t.wovenCells j x.span.start (x :: hs)) :=
          .kept rfl (.nil hle hstart) (hbefore (Nat.le_refl _))
        rw [wovenCells_hit ht (hbefore (Nat.le_refl _)), slice_self, List.nil_append] at hkept
        rwa [List.append_nil]
      rcases List.eq_nil_or_concat ns with rfl | hne'
      · -- The cut is right behind the hit.
        obtain rfl : t.hitCells x = ms := by rw [hns, List.append_nil]
        have hnone : t.wovenCells j x.span.stop hs = [] ++ t.wovenCells j x.span.stop hs := rfl
        have := (ih hrest hnone).behind ht hf
        rwa [List.append_nil] at this
      · exact .inside (List.nil_append _).symm (.nil hle hstart) hrest hns
          (by obtain ⟨_, _, rfl⟩ := hne; simp) (by obtain ⟨_, _, rfl⟩ := hne'; simp)
    · exact (ih hrest hns).behind ht hf

/-- The cells that take the place of a hit with a single change, which keeps its end. -/
theorem hitCells_of_change {c : Change}
    (hc : h.changes (ofText t) ((ofText t).indentOf h.anchor) = [c])
    (hs : h.span.stop = c.kept.stop) : t.hitCells h = (ofText t).slice h.span.start c.start ++
      (c.headCells t ++ ((ofText t).slice c.kept.start c.kept.stop ++ c.tailCells)) := by
  rw [Text.hitCells, Text.wovenCells, List.flatMap_singleton, hc, weave, weave, hs, slice_self]
  simp

/-- A flat entry is turned into the nested shape. -/
theorem turned_flat {e : FlatEntry} {colon : Nat} (hf : (ofText t).IsFlat e colon) :
    Hit.Turned t (.flat e) := by
  obtain ⟨h1, h2, h3, h4, h5⟩ := hf.order
  exact
    { begins := ⟨e.name, rfl, hf.key.word⟩
      lt := by dsimp only [Hit.span, FlatEntry.span]; omega
      ends := .inl (inWord_of_codeByte? (closing?_spec hf.closing).2.2 (by decide))
      ne_nil := hf.key.word.bytes_ne_nil
      word := isWord_bytes hf.key.word
      closed := closers_of_closing? hf.closing
      cells := by
        rw [hitCells_of_change (c := e.change ((ofText t).indentOf e.name.start)) rfl rfl,
          headCells_flat hf (isIndent_indentOf _ _), Change.tailCells]
        dsimp only [FlatEntry.change, Hit.span, FlatEntry.span, Hit.newName, Hit.fields, Hit.indent,
          Hit.anchor]
        rw [hf.key.word.slice_eq, hf.encloses.slice_eq]
        simp }

/-- An entry read from the environment is turned into the nested shape. -/
theorem turned_env {e : EnvEntry} {colon value stop : Nat}
    (he : (ofText t).IsEnv e colon value stop) : Hit.Turned t (.env e) := by
  obtain ⟨h1, h2, h3, h4, h5, h6, h7⟩ := he.order
  exact
    { begins := ⟨e.name, rfl, he.key.word⟩
      lt := by dsimp only [Hit.span, EnvEntry.span]; omega
      ends := by
        dsimp only [Hit.span, EnvEntry.span]
        have hstop := he.stop_eq
        split at hstop
        · next ha =>
          rw [isAsserted, Bool.and_eq_true, beq_iff_eq] at ha
          rw [hstop]
          exact .inl (inWord_of_codeByte? ha.1 (by decide))
        · exact .inr (hstop ▸ he.word.behind)
      ne_nil := Text.lower_ne_nil he.key.word.bytes_ne_nil
      word := Text.lower_isWord (isWord_bytes he.key.word)
      closed := closers_envFields he
      cells := by
        rw [hitCells_of_change (c := e.change (ofText t) ((ofText t).indentOf e.name.start)) rfl
          rfl, headCells_env he (isIndent_indentOf _ _), Change.tailCells]
        dsimp only [EnvEntry.change, Hit.span, EnvEntry.span, Hit.newName, Hit.fields, envFields,
          Hit.indent, Hit.anchor]
        rw [slice_self, show Text.ofString "\x7b " = Byte.openBrace :: Text.ofString " " by decide,
          show Text.ofString " \x7d" = Text.ofString " " ++ [Byte.closeBrace] by decide]
        simp }

/-! ## What is kept before the first hit -/

/-- Every hit is a single entry. -/
def Text.AllTurned (t : Text) (hs : List Hit) : Prop := ∀ h ∈ hs, h.Turned t

theorem Text.AllTurned.of_cons (hs' : t.AllTurned (h :: hs)) : h.Turned t ∧ t.AllTurned hs :=
  ⟨hs' h List.mem_cons_self, fun x hx => hs' x (List.mem_cons_of_mem _ hx)⟩

namespace Hit.Turned

/-- The cells that take the place of an entry begin with its name. -/
theorem worded (h' : h.Turned t) {as : List Cell} : Worded (t.hitCells h ++ as) := by
  rw [h'.cells, List.append_assoc]
  exact worded_codeCells h'.ne_nil h'.word

/-- What comes before a hit does not end inside of a word. -/
theorem detached (h' : h.Turned t) (hi : i ≤ h.span.start) (hs : h.span.start ≤ t.length)
    (hne : i < h.span.start) : Detached ((ofText t).slice i h.span.start) := by
  obtain ⟨x, hx, hword⟩ := h'.begins
  have hlen : ((ofText t).slice i h.span.start).length = h.span.start - i :=
    length_slice _ hi (by rwa [size_ofText])
  intro c hc
  rw [List.getLast?_eq_getElem?, hlen, getElem?_slice _ (by omega)] at hc
  rw [show i + (h.span.start - i - 1) = h.span.start - 1 by omega] at hc
  rw [← inWord_eq hc, ← hx]
  exact hword.before.resolve_left (by omega)

end Hit.Turned

section
variable {z y : List Cell} {w : Text}

/-- Cells of no word stand where they did. -/
theorem wovenCells_gap (ht : t.WellFormed) (hf : Finds (ofText t) i hs j) (hs' : t.AllTurned hs)
    (hz : Wordfree z) (h : t.wovenCells j i hs = z ++ y) :
    (ofText t).slice i (i + z.length) = z ∧ Finds (ofText t) (i + z.length) hs j ∧
      y = t.wovenCells j (i + z.length) hs := by
  have hsize := hf.2.1
  cases hs with
  | nil =>
    obtain ⟨h1, h2, h3⟩ := slice_split hf.le hsize h
    rw [size_ofText] at hsize
    exact ⟨h2, .nil h1 hsize, h3.symm⟩
  | cons x hs =>
    obtain ⟨hle, hone, hrest⟩ := hf.uncons
    rw [wovenCells_hit ht hf] at h
    obtain ⟨m, hm, rfl⟩ := hz.cut (hs'.of_cons.1.worded) h.symm
    obtain ⟨h1, h2, h3⟩ := slice_split hle (Nat.le_trans hone.le hone.2.1) hm
    have hf' := (hone.of_le h1).append hrest
    rw [← h3]
    exact ⟨h2, hf', (wovenCells_hit ht hf').symm⟩

/-- A word stands where it did, or it is the name of an entry that is nested. -/
theorem wovenCells_word (ht : t.WellFormed) (hf : Finds (ofText t) i hs j) (hs' : t.AllTurned hs)
    (hw : w ≠ [] ∧ ∀ b ∈ w, Byte.isWord b = true) (hy : ∀ c ∈ y.head?, c.inWord = false)
    (h : t.wovenCells j i hs = codeCells w ++ y) :
    ((ofText t).slice i (i + w.length) = codeCells w ∧ Finds (ofText t) (i + w.length) hs j ∧
      y = t.wovenCells j (i + w.length) hs) ∨
    ∃ x gs, hs = x :: gs ∧ x.span.start = i ∧ x.newName t = w ∧
      y = codeCells (front (x.indent t)) ++ (⟨Byte.openBrace, .code⟩ ::
        (x.fields t ++ ⟨Byte.closeBrace, .code⟩ ::
          (codeCells (back (x.indent t)) ++ t.wovenCells j x.span.stop gs))) := by
  have hsize := hf.2.1
  cases hs with
  | nil =>
    obtain ⟨h1, h2, h3⟩ := slice_split hf.le hsize h
    rw [List.length_map] at h1 h2 h3
    rw [size_ofText] at hsize
    exact .inl ⟨h2, .nil h1 hsize, h3.symm⟩
  | cons x hs =>
    obtain ⟨hle, hone, hrest⟩ := hf.uncons
    obtain ⟨hx, -⟩ := hs'.of_cons
    rw [wovenCells_hit ht hf] at h
    rcases Nat.eq_or_lt_of_le hle with heq | hlt
    · obtain ⟨z, hne, hz, hfront⟩ := front_parts (x.isIndent_indent t)
      rw [← heq, slice_self, List.nil_append, hx.cells] at h
      simp only [List.append_assoc, List.cons_append] at h
      obtain ⟨hname, hbehind⟩ := word_append_inj ⟨hx.ne_nil, hx.word⟩ hw
        (by rw [hfront, List.append_assoc]; exact hz.head? hne) hy h
      exact .inr ⟨x, hs, rfl, heq.symm, hname, hbehind.symm⟩
    · have hstart := Nat.le_trans hone.le hone.2.1
      have hne : (ofText t).slice i x.span.start ≠ [] := by
        rw [← List.length_pos_iff, length_slice _ hle hstart]
        omega
      rw [size_ofText] at hstart
      obtain ⟨m, hm, rfl⟩ := word_cut hw.2 (hx.detached hle hstart hlt) hne h.symm
      obtain ⟨h1, h2, h3⟩ := slice_split hle (by rwa [size_ofText]) hm
      rw [List.length_map] at h1 h2 h3
      have hf' := (hone.of_le h1).append hrest
      rw [← h3]
      exact .inl ⟨h2, hf', (wovenCells_hit ht hf').symm⟩

end

/-! ## Where the keys of the new text stand -/

/-- Where a key stands among the cells that a pass leaves of the text from position `i` up to
position `j`: the key has the name `w` and the cells `k`, the cells `us` come before it and `r`
behind it. -/
inductive KeyPlace (t : Text) (i j : Nat) (hs : List Hit) (w : Text) : (us k r : List Cell) → Prop
  | kept {n : Nat} {gs gs' : List Hit} {k : List Cell} : hs = gs ++ gs' →
      Finds (ofText t) i gs n → Finds (ofText t) (n + k.length) gs' j →
      (ofText t).slice n (n + k.length) = k →
      KeyPlace t i j hs w (t.wovenCells n i gs) k (t.wovenCells j (n + k.length) gs')
  | front {gs gs' : List Hit} {x : Hit} {k r : List Cell} :
      hs = gs ++ x :: gs' → Finds (ofText t) i gs x.span.start → x.newName t = w →
      k ++ r = codeCells w ++ (codeCells (front (x.indent t)) ++ (⟨Byte.openBrace, .code⟩ ::
        (x.fields t ++ ⟨Byte.closeBrace, .code⟩ ::
          (codeCells (back (x.indent t)) ++ t.wovenCells j x.span.stop gs')))) →
      KeyPlace t i j hs w (t.wovenCells x.span.start i gs) k r
  | default {us k r : List Cell} : w = nestedKey → KeyPlace t i j hs w us k r
  | fields {gs gs' : List Hit} {x : Hit} {ds es k r : List Cell} :
      hs = gs ++ x :: gs' → Finds (ofText t) i gs x.span.start →
      x.fields t = ds ++ es → k ++ r = es ++ ⟨Byte.closeBrace, .code⟩ ::
        (codeCells (back (x.indent t)) ++ t.wovenCells j x.span.stop gs') →
      KeyPlace t i j hs w (t.wovenCells x.span.start i gs ++ (codeCells (x.newName t) ++
        (codeCells (front (x.indent t)) ++ ⟨Byte.openBrace, .code⟩ :: ds))) k r

/-- **A key of the new text** is kept, or it belongs to the nested shape, or it stands among the
fields of a configuration. -/
theorem keyPlace (ht : t.WellFormed) (hf : Finds (ofText t) i hs j) (hs' : t.AllTurned hs)
    {w : Text} {us k r : List Cell} (hw : w ≠ [] ∧ ∀ b ∈ w, Byte.isWord b = true)
    (hk : KeyCells w k) (hd : Detached us) (h : t.wovenCells j i hs = us ++ (k ++ r)) :
    KeyPlace t i j hs w us k r := by
  obtain ⟨z, rfl, hne, hz⟩ := hk.gap
  have hhead : ∀ c ∈ (z ++ r).head?, c.inWord = false := hz.head? hne
  generalize hvs : codeCells w ++ z ++ r = vs at h
  rw [List.append_assoc] at hvs
  cases wovenCut ht hf h with
  | @kept n gs gs' heq hgs hgs' =>
    subst heq
    have hgs'' : t.AllTurned gs' := fun x hx => hs' x (List.mem_append_right _ hx)
    rcases wovenCells_word ht hgs' hgs'' hw hhead hvs.symm with
      ⟨hword, hbehind, hrest⟩ | ⟨x, bs, rfl, rfl, hname, hfront⟩
    · obtain ⟨hgap, hbehind, rfl⟩ := wovenCells_gap ht hbehind hgs'' hz hrest.symm
      have hlen : n + w.length + z.length = n + (codeCells w ++ z).length := by
        rw [List.length_append, List.length_map, Nat.add_assoc]
      rw [hlen] at hgap hbehind ⊢
      refine .kept rfl hgs hbehind ?_
      rw [← slice_append _ (Nat.le_add_right n w.length) (by rw [← hlen]; omega), hword, hgap]
    · exact .front rfl hgs hname (by rw [List.append_assoc, hfront])
  | @inside x gs gs' ps qs heq hgs hgs' hcells hps hqs =>
    have hx := hs' x (by rw [heq]; simp)
    have hi := x.isIndent_indent t
    have hturned := hx.cells
    have hworded : Worded qs := by
      have hall : Worded (qs ++ t.wovenCells j x.span.stop gs') := by
        rw [← hvs]
        exact worded_codeCells hw.1 hw.2
      exact hall.of_append hqs
    rw [hcells] at hturned
    rcases nested_cut hi hx.word hd.of_append hps hworded hturned.symm with
      ⟨s, rfl⟩ | ⟨ds, es, hds, rfl, rfl⟩
    · simp only [List.append_assoc] at hvs
      have hkey : nestedKey ≠ [] ∧ ∀ b ∈ nestedKey, Byte.isWord b = true := by decide
      obtain ⟨hname, -⟩ := word_append_inj hw hkey hhead (by intro c hc; cases hc; rfl) hvs
      exact .default hname
    · refine .fields heq hgs hds ?_
      rw [List.append_assoc, hvs]
      simp

/-- Where a key of the result of a pass stands. -/
theorem keyPlace_output {p : Pass} {key : Key} {colon : Nat} (ht : t.WellFormed)
    (hs' : t.AllTurned (p.hits (ofText t))) (hk : (ofText (p.output t)).IsKey key colon) :
    KeyPlace t 0 t.length (p.hits (ofText t)) ((ofText (p.output t)).bytes key.name)
      ((ofText (p.output t)).slice 0 key.name.start)
      ((ofText (p.output t)).slice key.name.start key.value)
      ((ofText (p.output t)).slice key.value (p.output t).length) := by
  have hf := finds_hits p (ofText t)
  rw [size_ofText] at hf
  have hvalue := hk.value_le_size
  have hstart := Nat.le_trans (Nat.le_of_lt hk.word.lt)
    (Nat.le_trans hk.stop_le_colon (Nat.le_of_lt hk.colon_lt_value))
  rw [size_ofText] at hvalue
  refine keyPlace ht hf hs' ⟨hk.word.bytes_ne_nil, isWord_bytes hk.word⟩ hk.keyCells ?_ ?_
  · exact (detached_slice (Nat.zero_le _) (by rw [size_ofText]; omega) (.inl rfl)).2 hk.word.before
  · rw [slice_append _ hstart hvalue, slice_append _ (Nat.zero_le _) (Nat.le_trans hstart hvalue),
      ← size_ofText (p.output t), slice_zero_size]
    exact (p.relex ht).1.symm

/-! ## Words and braces that are kept -/

/-- The last of some spans ends last. -/
theorem Follow.to_last {α : Type} {span : α → Span} {as : List α} {a : α}
    (h : Follow span i j (as ++ [a])) :
    Follow span i (span a).stop (as ++ [a]) ∧ (span a).stop ≤ j := by
  induction as generalizing i with
  | nil =>
    cases h with
    | cons h1 h2 h3 => exact ⟨.cons h1 h2 (.nil (Nat.le_refl _)), h3.le⟩
  | cons b as ih =>
    cases h with
    | cons h1 h2 h3 => exact ⟨.cons h1 h2 (ih h3).1, (ih h3).2⟩

/-- A word that begins behind what a pass leaves of a part begins behind that part. -/
theorem edge_of_woven (ht : t.WellFormed) (hf : Finds (ofText t) 0 gs k) (hs' : t.AllTurned gs)
    (hd : Detached (t.wovenCells k 0 gs)) (hk : (ofText t).inWord k = true) :
    k = 0 ∨ (ofText t).inWord (k - 1) = false := by
  have hlt : k < t.length := by
    have := Nat.lt_of_not_le fun hle => Bool.false_ne_true ((inWord_of_size_le hle).symm.trans hk)
    rwa [size_ofText] at this
  rcases List.eq_nil_or_concat gs with rfl | ⟨bs, x, rfl⟩
  · exact (detached_slice hf.le hf.2.1 (.inl rfl)).1 hd
  rw [List.concat_eq_append] at hf hs' hd
  have hx := hs' x (by simp)
  obtain ⟨hfollow, hle⟩ := hf.1.to_last
  have hbefore : Finds (ofText t) 0 (bs ++ [x]) x.span.stop :=
    ⟨hfollow, Nat.le_trans hle hf.2.1, hf.2.2⟩
  rcases Nat.eq_or_lt_of_le hle with heq | hlt'
  · rw [← heq] at hk ⊢
    exact .inr (hx.ends.resolve_right fun h => Bool.false_ne_true (h.symm.trans hk))
  · have hcells := wovenCells_append ht hbefore (.nil (Nat.le_of_lt hlt') (Nat.le_of_lt hlt))
    rw [List.append_nil] at hcells
    rw [hcells] at hd
    have hlen := length_slice (ofText t) hle hf.2.1
    refine .inr ?_
    have hlast : ((ofText t).slice x.span.stop k).getLast? = (ofText t).cells[k - 1]? := by
      rw [List.getLast?_eq_getElem?, hlen, getElem?_slice _ (by omega)]
      congr 1
      omega
    obtain ⟨c, hc⟩ := exists_cell (s := ofText t) (i := k - 1) (by rw [size_ofText]; omega)
    rw [inWord_eq hc]
    exact hd.of_append c (hlast.trans hc)

/-- What takes the place of hits leaves as many closing braces as there were. -/
theorem closers_wovenCells (ht : t.WellFormed) (hf : Finds (ofText t) i hs j) (d : Nat) :
    closers (t.wovenCells j i hs) d = closers ((ofText t).slice i j) d := by
  refine closers_weave (hf.follow_changes ht) fun c hc => ?_
  obtain ⟨h, hm, hch⟩ := List.mem_flatMap.1 hc
  have hi := isIndent_indentOf (ofText t) h.anchor
  refine Change.Made.balanced ?_
  have hv := hf.2.2 h hm
  cases h with
  | flat e =>
    obtain ⟨colon, he⟩ := hv
    rw [List.mem_singleton.1 hch]
    exact .flat he hi
  | env e =>
    obtain ⟨colon, value, stop, he⟩ := hv
    rw [List.mem_singleton.1 hch]
    exact .env he hi
  | object a b => exact made_object ht hi hv.1 c hch

/-- **Braces that open among kept cells close among kept cells.** -/
theorem closing_of_woven (ht : t.WellFormed) (hf : Finds (ofText t) i hs j) (hs' : t.AllTurned hs)
    {ds r : List Cell} (h : t.wovenCells j i hs = ds ++ ⟨Byte.closeBrace, .code⟩ :: r)
    (hds : closers ds 0 = some 0) : ∃ n gs gs', hs = gs ++ gs' ∧ Finds (ofText t) i gs n ∧
      Finds (ofText t) (n + 1) gs' j ∧ (ofText t).codeByte? n = some Byte.closeBrace ∧
      ds = t.wovenCells n i gs ∧ r = t.wovenCells j (n + 1) gs' := by
  generalize hvs : ⟨Byte.closeBrace, .code⟩ :: r = vs at h
  cases wovenCut ht hf h with
  | @kept n gs gs' heq hgs hgs' =>
    obtain ⟨hcell, hbehind, hrest⟩ := wovenCells_gap (z := [⟨Byte.closeBrace, .code⟩]) ht hgs'
      (fun x hx => hs' x (heq ▸ List.mem_append_right _ hx)) (by decide) hvs.symm
    refine ⟨n, gs, gs', heq, hgs, hbehind, codeByte?_eq_some.2 ?_, rfl, hrest⟩
    have := getElem?_slice (ofText t) (i := n) (j := n + 1) (k := 0) (by omega)
    rw [show [(⟨Byte.closeBrace, .code⟩ : Cell)].length = 1 from rfl] at hcell
    rw [hcell] at this
    exact this.symm
  | @inside x gs gs' ps qs heq hgs hgs' hcells hps hqs =>
    -- The brace of the hit would not be closed before the cut.
    have hx := hs' x (by rw [heq]; simp)
    cases qs with
    | nil => exact absurd rfl hqs
    | cons c qs =>
      obtain ⟨rfl, -⟩ := List.cons.inj hvs
      exact absurd (isSome_closers_of_append (by rw [hds]; rfl))
        (nested_open (x.isIndent_indent t) hx.word hx.closed
          (hx.cells.symm.trans hcells))

end

end ProviderNest
