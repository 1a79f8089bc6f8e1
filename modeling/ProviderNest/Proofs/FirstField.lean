import ProviderNest.Proofs.Migrated
import ProviderNest.Proofs.Tally

/-!
# The first field of a configuration

A configuration is known by its first field `apiKey` (`FirstField`). No pass takes that away,
however close to it something is put in. Between the brace and the end of the field's colon, or the
end of `process.` where the field is read from the environment, there is nothing but trivia and the
field (`Zone`), and `Zone.near` says what can be put in there: the gap behind the brace is
laid out anew, or the entry with the field as its name is nested. A gap never gets a comma there,
since a pass puts commas only where entries are parted or end (`Pass.led_patches`). So behind the
brace a field `apiKey` comes first again (`FirstField.opens_mended`), and what it is read from stays
behind it (`FirstField.reads_mended`).
-/

namespace ProviderNest

open LexState Source

/-! ## Gaps that begin with a comma -/

section
variable {t : Text} {i j : Nat}

/-- Between two entries of an object a comma stands in the code. -/
def Parted (s : Source) (e e' : Span) : Prop :=
  ∃ c, e.stop ≤ c ∧ c < e'.start ∧ s.codeByte? c = some Byte.comma

/-- No segment begins before the body does. -/
theorem Source.Divides.start_le {s : Source} {stop start : Nat} {segs : List Span}
    (h : s.Divides stop start segs) : ∀ x ∈ segs, start ≤ x.start := by
  induction h with
  | last h hc =>
    intro x hx
    obtain rfl := List.mem_singleton.1 hx
    exact Nat.le_refl _
  | comma h hb hc _ ih =>
    intro x hx
    rcases List.mem_cons.1 hx with rfl | hx
    · exact Nat.le_refl _
    · have := ih x hx
      omega

/-- The entries of an object are parted by commas. -/
theorem Source.Divides.parted {s : Source} {stop start : Nat} {segs : List Span}
    (h : s.Divides stop start segs) (hs : stop ≤ s.size) :
    (segs.filterMap s.trimBlank?).Pairwise (Parted s) := by
  induction h with
  | @last start h hc =>
    rw [List.filterMap_cons]
    cases s.trimBlank? ⟨start, stop⟩ with
    | none => exact .nil
    | some e => exact List.pairwise_singleton _ e
  | @comma start c rest h hb hc hrest ih =>
    cases he : s.trimBlank? ⟨start, c⟩ with
    | none =>
      rw [List.filterMap_cons_none he]
      exact ih
    | some e =>
      rw [List.filterMap_cons_some he]
      refine List.pairwise_cons.2 ⟨fun e' he' => ?_, ih⟩
      obtain ⟨x, hx, hxe⟩ := List.mem_filterMap.1 he'
      have hstart := hrest.start_le x hx
      obtain ⟨hx1, hx2⟩ := hrest.bounds x hx
      have hc := hrest.le
      obtain ⟨-, -, h1, -⟩ := trimBlank?_some h (show c ≤ s.size by omega) he
      obtain ⟨h2, -⟩ := trimBlank?_some hx1 (Nat.le_trans hx2 hs) hxe
      exact ⟨c, h1, by omega, hb⟩

/-- A patch that begins with a comma takes out a comma, or stands before or behind a closing
brace. -/
def Patch.Led (t : Text) (q : Patch) : Prop := q.text.head? = some Byte.comma →
  (∃ c, q.span.start ≤ c ∧ c < q.span.stop ∧ (ofText t).codeByte? c = some Byte.comma) ∨
    (ofText t).codeByte? q.span.stop = some Byte.closeBrace ∨
    (ofText t).codeByte? (q.span.start - 1) = some Byte.closeBrace

/-- What is put in around a configuration is led. -/
theorem led_flat {e : FlatEntry} {colon : Nat} {indent : Text} (h : (ofText t).IsFlat e colon) :
    ∀ q ∈ (e.change indent).patches, q.Led t := by
  obtain ⟨-, -, hc⟩ := closing?_spec h.closing
  intro q hq hcomma
  rw [patches_flat] at hq
  rcases List.mem_cons.1 hq with rfl | hq
  · exact absurd (Option.some.inj hcomma) (by decide)
  · obtain rfl := List.mem_singleton.1 hq
    exact .inr (.inr hc)

/-- What is put in for an entry read from the environment begins with its name. -/
theorem isWord_head_env {e : EnvEntry} {colon value stop : Nat}
    (h : (ofText t).IsEnv e colon value stop) (indent : Text) :
    ∀ b ∈ (e.change (ofText t) indent).head.head?, Byte.isWord b = true := by
  have hne : (ofText t).bytes e.name ≠ [] := by
    intro hnil
    have hlen := congrArg List.length hnil
    have hlt := h.key.word.lt
    rw [length_bytes (Nat.le_of_lt hlt) h.key.word.stop_le] at hlen
    simp only [List.length_nil] at hlen
    dsimp only at hlt hlen
    omega
  obtain ⟨c, u, hu⟩ := List.exists_cons_of_ne_nil (Text.lower_ne_nil hne)
  intro b hb
  simp only [EnvEntry.change, hu, List.cons_append, List.head?_cons, Option.mem_def,
    Option.some.injEq] at hb
  exact Text.lower_isWord (isWord_bytes h.key.word) b (by rw [hu, hb]; exact List.mem_cons_self)

theorem led_env {e : EnvEntry} {colon value stop : Nat} {indent : Text}
    (h : (ofText t).IsEnv e colon value stop) :
    ∀ q ∈ (e.change (ofText t) indent).patches, q.Led t := by
  intro q hq hcomma
  rw [patches_env] at hq
  rcases List.mem_cons.1 hq with rfl | hq
  · exact absurd (isWord_head_env h indent _ hcomma) (by decide)
  · obtain rfl := List.mem_singleton.1 hq
    exact absurd (Option.some.inj hcomma) (by decide)

/-- The gaps that lay out an object are led. -/
theorem led_layout {close : Nat} {es : List Span} {inner indent lead : Text}
    (hclose : (ofText t).codeByte? close = some Byte.closeBrace)
    (hlead : lead = [] ∨ lead = [Byte.comma] ∧ ∀ e ∈ es, Parted (ofText t) ⟨i, i⟩ e)
    (hes : ∀ e ∈ es, e.start ≤ e.stop) (hp : es.Pairwise (Parted (ofText t))) :
    ∀ c ∈ (ofText t).layout inner indent close lead i es, ∀ q ∈ c.patches, q.Led t := by
  induction es generalizing i lead with
  | nil =>
    intro c hc q hq _
    obtain rfl := List.mem_singleton.1 hc
    rw [patches_gap] at hq
    obtain rfl := List.mem_singleton.1 hq
    exact .inr (.inl hclose)
  | cons e es ih =>
    obtain ⟨hfirst, hrest⟩ := List.pairwise_cons.1 hp
    intro c hc q hq
    rcases List.mem_cons.1 hc with rfl | hc
    · intro hcomma
      rw [patches_gap] at hq
      obtain rfl := List.mem_singleton.1 hq
      rcases hlead with rfl | ⟨-, hled⟩
      · exact absurd (Option.some.inj hcomma) (by decide)
      · exact .inl (hled e List.mem_cons_self)
    rcases List.mem_append.1 hc with hc | hc
    · obtain ⟨f, hf, rfl⟩ := List.mem_map.1 hc
      obtain ⟨⟨colon, hflat⟩, -⟩ := flatIn?_eq_some (hes e List.mem_cons_self)
        (Option.mem_toList.1 hf)
      exact led_flat hflat q hq
    · refine ih (.inr ⟨rfl, fun e' he' => ?_⟩) (fun e' he' => hes e' (by simp [he'])) hrest c hc q
        hq
      exact hfirst e' he'

/-- **A pass puts commas only where entries are parted or end.** -/
theorem Pass.led_patches (p : Pass) (t : Text) : ∀ q ∈ p.patches t, q.Led t := by
  intro q hq
  obtain ⟨c, hc, hq⟩ := List.mem_flatMap.1 hq
  obtain ⟨x, hx, hc⟩ := List.mem_flatMap.1 hc
  have hv := (finds_hits p (ofText t)).2.2 x hx
  cases x with
  | flat e =>
    obtain ⟨colon, hflat⟩ := hv
    obtain rfl := List.mem_singleton.1 hc
    exact led_flat hflat q hq
  | env e =>
    obtain ⟨colon, value, stop, henv⟩ := hv
    obtain rfl := List.mem_singleton.1 hc
    exact led_env henv q hq
  | object a b =>
    obtain ⟨-, hlt, hclose⟩ := closing?_spec hv.1
    have hsize := lt_size_of_codeByte? hclose
    refine led_layout hclose (.inl rfl) (fun e he => ?_) ?_ c hc q hq
    · exact Nat.le_of_lt (mem_entries he hlt (Nat.le_of_lt hsize)).1
    · exact (segments_divides hlt).parted (Nat.le_of_lt hsize)

end

/-! ## The cells of a first field -/

/-- The cells are a field `apiKey` with its colon. -/
def FieldCells (cs : List Cell) : Prop := ∃ v : List Cell, (∀ c ∈ v, c.isTrivia = true) ∧
  cs = codeCells apiKeyField ++ v ++ codeCells [Byte.colon]

/-- The cells behind a brace begin with the field `apiKey`. -/
def Opens (cs : List Cell) : Prop := ∃ u m r : List Cell, (∀ c ∈ u, c.isTrivia = true) ∧
  FieldCells m ∧ cs = u ++ (m ++ r) ∧ r.head? ≠ some ⟨Byte.colon, .code⟩

/-- The cells behind a brace begin with a field `apiKey` that is read from the environment. -/
def Reads (cs : List Cell) : Prop := ∃ u m v r : List Cell, (∀ c ∈ u, c.isTrivia = true) ∧
  FieldCells m ∧ (∀ c ∈ v, c.isTrivia = true) ∧
  cs = u ++ (m ++ (v ++ (codeCells (.ofString "process.") ++ r)))

/-- The first key behind the brace at position `o` is the field `apiKey`. -/
structure FirstField (s : Source) (o : Nat) (key : Key) (colon : Nat) : Prop where
  brace : s.codeByte? o = some Byte.openBrace
  le : o < key.name.start
  trivia : s.TriviaRun (o + 1) key.name.start
  isKey : s.IsKey key colon
  name_eq : s.bytes key.name = apiKeyField

section
variable {s : Source} {o : Nat}

theorem opensConfiguration_iff (ho : s.codeByte? o = some Byte.openBrace) :
    s.opensConfiguration o = true ↔ ∃ key colon, FirstField s o key colon := by
  rw [opensConfiguration, isKey, Option.any_eq_true]
  constructor
  · rintro ⟨key, hk, hs⟩
    obtain ⟨hstart, colon, hkey⟩ := key?_eq_some.1 hk
    have hle := le_skipTrivia s (o + 1)
    refine ⟨key, colon, ho, by omega, ?_, hkey, ?_⟩
    · rw [hstart]
      exact triviaRun_skipTrivia s (o + 1)
    · exact hkey.word.spells_iff.1 hs
  · rintro ⟨key, colon, h⟩
    have hskip : s.skipTrivia (o + 1) = key.name.start :=
      skipTrivia_eq h.le h.trivia h.isKey.word.isTrivia_start
    refine ⟨key, ?_, ?_⟩
    · rw [hskip]
      exact key?_eq_some.2 ⟨rfl, colon, h.isKey⟩
    · exact h.isKey.word.spells_iff.2 h.name_eq

namespace FirstField

variable {key : Key} {colon j : Nat}

theorem stop_eq (h : FirstField s o key colon) : key.name.stop = key.name.start + 6 := by
  have hlen := congrArg List.length h.name_eq
  have hlt := h.isKey.word.lt
  rw [length_bytes (Nat.le_of_lt hlt) h.isKey.word.stop_le,
    show apiKeyField.length = 6 by decide] at hlen
  omega

/-- The cells of the field. -/
theorem fieldCells (h : FirstField s o key colon) :
    FieldCells (s.slice key.name.start (colon + 1)) := by
  have hle := h.isKey.stop_le_colon
  have hsize := lt_size_of_codeByte? h.isKey.colon_code
  refine ⟨s.slice key.name.stop colon, (triviaRun_iff (Nat.le_of_lt hsize)).1 h.isKey.trivia_before,
    ?_⟩
  have hlt := h.isKey.word.lt
  rw [← h.name_eq, ← h.isKey.word.slice_eq, slice_append s (Nat.le_of_lt hlt) hle,
    ← slice_append s (show key.name.start ≤ colon by omega) (Nat.le_succ colon),
    slice_eq_cons s (Nat.lt_succ_self colon) (codeByte?_eq_some.1 h.isKey.colon_code), slice_self]
  rfl

/-- The cells behind the brace. -/
theorem slice_eq (h : FirstField s o key colon) (hj : colon < j) :
    s.slice (o + 1) j = s.slice (o + 1) key.name.start ++
      (s.slice key.name.start (colon + 1) ++ s.slice (colon + 1) j) := by
  have hle := h.isKey.stop_le_colon
  have hlt := h.isKey.word.lt
  rw [slice_append s (by omega) (by omega), slice_append s h.le (by omega)]

theorem opens (h : FirstField s o key colon) (hj : colon < j) (hs : j ≤ s.size) :
    Opens (s.slice (o + 1) j) := by
  have hle := h.isKey.stop_le_colon
  have hlt := h.isKey.word.lt
  refine ⟨_, _, _, (triviaRun_iff (by omega)).1 h.trivia, h.fieldCells, h.slice_eq hj, fun hc => ?_⟩
  rcases Nat.eq_or_lt_of_le hj with heq | hlt'
  · rw [← heq, slice_self] at hc
    cases hc
  · have := getElem?_slice s (i := colon + 1) (j := j) (k := 0) hlt'
    rw [← List.head?_eq_getElem?, hc] at this
    exact h.isKey.single (codeByte?_eq_some.2 this.symm)

end FirstField

/-- A field that is spelled out behind a brace. -/
theorem firstField_of_slice {u v r : List Cell} {j : Nat}
    (ho : s.codeByte? o = some Byte.openBrace) (hoj : o < j) (hj : j ≤ s.size)
    (hu : ∀ c ∈ u, c.isTrivia = true) (hv : ∀ c ∈ v, c.isTrivia = true)
    (hs : s.slice (o + 1) j =
      u ++ (codeCells apiKeyField ++ v ++ codeCells [Byte.colon] ++ r))
    (hr : r ≠ []) (hcolon : r.head? ≠ some ⟨Byte.colon, .code⟩) :
    ∃ a colon, FirstField s o ⟨⟨a, a + 6⟩, s.skipTrivia (colon + 1)⟩ colon ∧ colon + 1 < j ∧
      s.slice (colon + 1) j = r := by
  obtain ⟨h1, hbefore, hs⟩ := slice_split hoj hj hs
  have hrun : s.TriviaRun (o + 1) (o + 1 + u.length) :=
    (triviaRun_iff (by omega)).2 (by rwa [hbefore])
  have hedge := hrun.edge (Nat.le_add_right _ _) (.inr (inWord_of_codeByte? ho (by decide)))
  simp only [List.append_assoc] at hs
  obtain ⟨hkey, hname, h2, hrest⟩ :=
    isKey_of_colon h1 hj hs (by decide) (by decide) hv hcolon (.inl hr) hedge
  refine ⟨_, _, ⟨ho, by dsimp only; omega, hrun, hkey, hname⟩, Nat.lt_of_le_of_ne h2 fun heq => ?_,
    hrest⟩
  rw [heq, slice_self] at hrest
  exact hr hrest.symm

end

/-! ## Patches near a first field -/

/-- The bytes of a first field and of what it is read from. -/
def zoneBytes : Text := apiKeyField ++ .ofString ":process."

/-- From the brace at position `o` up to position `z` there is nothing but trivia and a first field,
with its colon and perhaps the beginning of its value. -/
structure Zone (t : Text) (o : Nat) (key : Key) (colon z : Nat) : Prop where
  first : FirstField (ofText t) o key colon
  lt : colon < z
  inside : ∀ k, o < k → k < z →
    (ofText t).isTrivia k = true ∨ ∃ b ∈ zoneBytes, (ofText t).codeByte? k = some b
  last : ∃ b ∈ zoneBytes, (ofText t).codeByte? (z - 1) = some b
  words : ∀ w, (ofText t).IsWord w → o < w.start → w.start < z →
    (ofText t).codeByte? (w.start - 1) ≠ some Byte.dot ∧
      (w = key.name ∨ (ofText t).codeByte? w.stop = some Byte.dot)

theorem zoneBytes_spec : ∀ b ∈ zoneBytes, b ≠ Byte.openBrace ∧ b ≠ Byte.closeBrace ∧
    b ≠ Byte.comma ∧ ∀ c ∈ Text.loose, b ∉ String.utf8EncodeChar c := by
  decide

section
variable {t : Text} {o colon z : Nat} {key : Key}

/-- Before a word that trivia or other bytes separate from what comes before it there is no dot. -/
theorem ne_dot_before {i j : Nat} {b : UInt8} (hb : (ofText t).codeByte? i = some b)
    (hne : b ≠ Byte.dot) (hij : i < j) (hrun : (ofText t).TriviaRun (i + 1) j) :
    (ofText t).codeByte? (j - 1) ≠ some Byte.dot := by
  rcases Nat.eq_or_lt_of_le hij with rfl | hlt
  · rw [Nat.succ_sub_one, hb]
    exact fun h => hne (Option.some.inj h)
  · exact codeByte?_ne_of_isTrivia (hrun (j - 1) (by omega) (by omega)) (by decide)

namespace FirstField

theorem codeByte?_name (h : FirstField (ofText t) o key colon) {k : Nat}
    (h1 : key.name.start ≤ k) (h2 : k < key.name.stop) :
    ∃ b ∈ apiKeyField, (ofText t).codeByte? k = some b := by
  have hstop := h.stop_eq
  have hslice := h.isKey.word.slice_eq
  have hlen : apiKeyField.length = 6 := by decide
  rw [h.name_eq, hstop, ← hlen] at hslice
  have := codeByte?_of_codeCells hslice (k := k - key.name.start) (by omega)
  rw [Nat.add_sub_cancel' h1] at this
  exact ⟨_, List.getElem_mem _, this⟩

/-- What stands between the brace and the end of the colon. -/
theorem inside (h : FirstField (ofText t) o key colon) {k : Nat} (h1 : o < k) (h2 : k ≤ colon) :
    (ofText t).isTrivia k = true ∨
      (key.name.start ≤ k ∧ k < key.name.stop ∧
        ∃ b ∈ apiKeyField, (ofText t).codeByte? k = some b) ∨
      k = colon ∧ (ofText t).codeByte? k = some Byte.colon := by
  rcases Nat.lt_or_ge k key.name.start with h3 | h3
  · exact .inl (h.trivia k h1 h3)
  rcases Nat.lt_or_ge k key.name.stop with h4 | h4
  · exact .inr (.inl ⟨h3, h4, h.codeByte?_name h3 h4⟩)
  rcases Nat.eq_or_lt_of_le h2 with rfl | h5
  · exact .inr (.inr ⟨rfl, h.isKey.colon_code⟩)
  · exact .inl (h.isKey.trivia_before k h4 h5)

/-- The only word between the brace and the colon is the field. -/
theorem words (h : FirstField (ofText t) o key colon) {w : Span} (hw : (ofText t).IsWord w)
    (h1 : o < w.start) (h2 : w.start ≤ colon) :
    (ofText t).codeByte? (w.start - 1) ≠ some Byte.dot ∧ w = key.name := by
  have hin := hw.inWord_start
  obtain rfl : w = key.name := by
    rcases h.inside h1 h2 with htrivia | ⟨h3, h4, -⟩ | ⟨-, hc⟩
    · rw [inWord_of_isTrivia htrivia] at hin
      cases hin
    · exact hw.eq_of_mem h.isKey.word (Nat.le_refl _) hw.lt h3 h4
    · exact absurd hc (codeByte?_ne_of_inWord hin (by decide))
  exact ⟨ne_dot_before h.brace (by decide) h.le h.trivia, rfl⟩

/-- A first field with its colon. -/
theorem zone (h : FirstField (ofText t) o key colon) : Zone t o key colon (colon + 1) where
  first := h
  lt := Nat.lt_succ_self colon
  inside k h1 h2 := by
    rcases h.inside h1 (Nat.le_of_lt_succ h2) with htrivia | ⟨-, -, b, hb, hc⟩ | ⟨-, hc⟩
    · exact .inl htrivia
    · exact .inr ⟨b, List.mem_append_left _ hb, hc⟩
    · exact .inr ⟨_, by decide, hc⟩
  last := ⟨_, by decide, h.isKey.colon_code⟩
  words w hw h1 h2 := by
    obtain ⟨h3, h4⟩ := h.words hw h1 (Nat.le_of_lt_succ h2)
    exact ⟨h3, .inl h4⟩

/-- A first field with what it is read from. -/
theorem zone_reads (h : FirstField (ofText t) o key colon)
    (hs : (ofText t).slice key.value (key.value + 8) = codeCells (.ofString "process.")) :
    Zone t o key colon (key.value + 8) := by
  have hlt := h.isKey.colon_lt_value
  have hcode : ∀ k, key.value ≤ k → k < key.value + 8 →
      ∃ b ∈ Text.ofString "process.", (ofText t).codeByte? k = some b := by
    intro k h1 h2
    have := codeByte?_of_codeCells (u := .ofString "process.") hs (k := k - key.value)
      (by rw [show (Text.ofString "process.").length = 8 by decide]; omega)
    rw [Nat.add_sub_cancel' h1] at this
    exact ⟨_, List.getElem_mem _, this⟩
  have hdot : (ofText t).codeByte? (key.value + 7) = some Byte.dot :=
    codeByte?_of_codeCells (u := .ofString "process.") hs (k := 7) (by decide)
  have hedge := h.isKey.trivia_behind.edge hlt
    (.inr (inWord_of_codeByte? h.isKey.colon_code (by decide)))
  have hprocess : (ofText t).slice key.value (key.value + 7) = codeCells (.ofString "process") := by
    have := congrArg (List.take 7) hs
    rw [slice, List.take_take, Nat.add_sub_cancel_left] at this
    rw [slice, Nat.add_sub_cancel_left]
    exact this
  obtain ⟨hword, -⟩ := isWord_of_slice (u := .ofString "process") (i := key.value) hprocess
    (by decide) (by decide) hedge (inWord_of_codeByte? hdot (by decide))
  refine ⟨h, by omega, fun k h1 h2 => ?_, ⟨_, by decide, hdot⟩, fun w hw h1 h2 => ?_⟩
  · rcases Nat.lt_or_ge colon k with h3 | h3
    · rcases Nat.lt_or_ge k key.value with h4 | h4
      · exact .inl (h.isKey.trivia_behind k h3 h4)
      · obtain ⟨b, hb, hc⟩ := hcode k h4 h2
        have hall : ∀ b ∈ Text.ofString "process.", b ∈ zoneBytes := by decide
        exact .inr ⟨b, hall b hb, hc⟩
    · exact h.zone.inside k h1 (Nat.lt_succ_of_le h3)
  · rcases Nat.lt_or_ge colon w.start with h3 | h3
    case inr =>
      obtain ⟨h4, h5⟩ := h.words hw h1 h3
      exact ⟨h4, .inl h5⟩
    have hin := hw.inWord_start
    have hge : key.value ≤ w.start := by
      refine Nat.le_of_not_lt fun h4 => ?_
      rw [inWord_of_isTrivia (h.isKey.trivia_behind _ h3 h4)] at hin
      cases hin
    have hne : w.start ≠ key.value + 7 := fun heq =>
      codeByte?_ne_of_inWord (heq ▸ hin) (by decide) hdot
    obtain rfl := hw.eq_of_mem hword (Nat.le_refl _) hw.lt hge
      (show w.start < key.value + 7 by omega)
    exact ⟨ne_dot_before h.isKey.colon_code (by decide) hlt h.isKey.trivia_behind, .inr hdot⟩

end FirstField

namespace Zone

/-- What stands in the code of a zone is white space or part of the field. -/
theorem code (hz : Zone t o key colon z) {k : Nat} {b : UInt8} (h1 : o < k) (h2 : k < z)
    (hb : (ofText t).codeByte? k = some b) : Byte.isSpace b = true ∨ b ∈ zoneBytes := by
  rcases hz.inside k h1 h2 with htrivia | ⟨c, hc, hbyte⟩
  · rw [isTrivia_of_codeByte? hb] at htrivia
    exact .inl htrivia
  · rw [hb] at hbyte
    cases hbyte
    exact .inr hc

/-- Neither commas nor closing braces stand in a zone, and no brace opens behind the first. -/
theorem not_code (hz : Zone t o key colon z) {k : Nat} (h1 : o ≤ k) (h2 : k < z) :
    (ofText t).codeByte? k ≠ some Byte.comma ∧ (ofText t).codeByte? k ≠ some Byte.closeBrace ∧
      (k ≠ o → (ofText t).codeByte? k ≠ some Byte.openBrace) := by
  rcases Nat.eq_or_lt_of_le h1 with rfl | h1
  · rw [hz.first.brace]
    exact ⟨by decide, by decide, fun h => absurd rfl h⟩
  have hne : ∀ b, Byte.isSpace b = false → b ∉ zoneBytes → (ofText t).codeByte? k ≠ some b := by
    intro b hs hm hb
    rcases hz.code h1 h2 hb with hc | hc
    · rw [hs] at hc
      cases hc
    · exact hm hc
  exact ⟨hne _ (by decide) (by decide), hne _ (by decide) (by decide),
    fun _ => hne _ (by decide) (by decide)⟩

/-- The name of a key in a zone is the field. -/
theorem key_cases (hz : Zone t o key colon z) {key' : Key} {colon' : Nat}
    (hk : (ofText t).IsKey key' colon') (h1 : o < key'.name.start) :
    z ≤ key'.name.start ∨ key' = key := by
  rcases Nat.lt_or_ge key'.name.start z with h2 | h2
  case inr => exact .inl h2
  refine .inr ?_
  rcases (hz.words _ hk.word h1 h2).2 with hw | hdot
  · have hcolon : colon' = colon := by
      rw [← hk.colon_eq, hw]
      exact hz.first.isKey.colon_eq
    subst hcolon
    exact hk.eq_of_colon hz.first.isKey
  · -- A dot behind the word is no colon.
    have hskip : (ofText t).skipTrivia key'.name.stop = key'.name.stop := by
      refine skipTrivia_eq (Nat.le_refl _) (fun k h3 h4 => absurd h4 (Nat.not_lt_of_le h3)) ?_
      rw [isTrivia_of_codeByte? hdot]
      rfl
    have := hk.colon_code
    rw [← hk.colon_eq, hskip, hdot] at this
    cases this

/-- A gap in a zone is right behind the brace, and comes before the field. -/
theorem gap_cases (hz : Zone t o key colon z) {i j : Nat} {lead : Text} (hg : IsGap t i j lead)
    (h1 : o < i) : z ≤ i ∨ i = o + 1 ∧ j ≤ key.name.start := by
  rcases Nat.lt_or_ge i z with h2 | h2
  case inr => exact .inl h2
  refine .inr ?_
  -- No byte of the field is in a gap.
  have hout : ∀ k b, b ∈ zoneBytes → (ofText t).codeByte? k = some b → i ≤ k → j ≤ k := by
    intro k b hb hc h3
    refine Nat.le_of_not_lt fun h4 => ?_
    obtain ⟨ds, hd, hbytes⟩ := hg.loose
    have hin := mem_bytes (x := ⟨i, j⟩) hc h3 h4
    rw [hbytes] at hin
    obtain ⟨d, hdm, hbd⟩ := List.mem_flatMap.1 hin
    exact (zoneBytes_spec b hb).2.2.2 d (hd d hdm) hbd
  obtain ⟨b, hb, hlast⟩ := hz.last
  have hjz := hout (z - 1) b hb hlast (by omega)
  have hi : i = o + 1 := by
    rcases hg.divides with ⟨-, ho⟩ | ⟨c, hc1, hc2, hc⟩ | hc
    · refine Classical.byContradiction fun hne => ?_
      exact (hz.not_code (k := i - 1) (by omega) (by omega)).2.2 (by omega) ho
    · exact absurd hc (hz.not_code (k := c) (by omega) (by omega)).1
    · exact absurd hc (hz.not_code (k := j) (by have := hg.le; omega) (by omega)).2.1
  have hle := hz.first.le
  obtain ⟨c, hc, hcode⟩ := hz.first.codeByte?_name (Nat.le_refl _) hz.first.isKey.word.lt
  exact ⟨hi, hout _ c (List.mem_append_left _ hc) hcode (by omega)⟩

end Zone

/-- What a patch behind the brace of a first field does. The field's zone ends at position `z`. -/
inductive Near (t : Text) (key : Key) (z : Nat) (q : Patch) : Prop
  /-- Trivia is put in before the field. -/
  | before : q.span.stop ≤ key.name.start → (∀ c ∈ q.cells t, c.isTrivia = true) → Near t key z q
  /-- The entry with the field as its name is nested. -/
  | nested (indent : Text) : indent.IsIndent → q = ⟨⟨key.name.stop, key.value⟩, front indent⟩ →
      (ofText t).codeByte? key.value = some Byte.openBrace → Near t key z q
  /-- Something is put in behind the zone, and no colon right behind it. -/
  | behind : z ≤ q.span.start → (q.text.head? = some Byte.colon → q.span.start ≠ z) → Near t key z q

namespace Zone

/-- The brace is not part of a word, so a word that ends behind it begins behind it. -/
theorem lt_start (hz : Zone t o key colon z) {w : Span} (hw : (ofText t).IsWord w)
    (h : o < w.stop) : o < w.start := by
  refine Nat.lt_of_not_le fun hle => ?_
  have := hw.inside o hle h
  rw [inWord_of_codeByte? hz.first.brace (by decide)] at this
  cases this

theorem near_flatFront (hz : Zone t o key colon z) {e : FlatEntry} {colon' : Nat} {indent : Text}
    (he : (ofText t).IsFlat e colon') (hi : indent.IsIndent) (hin : o < e.name.stop) :
    Near t key z ⟨⟨e.name.stop, e.body.start⟩, front indent⟩ := by
  have ho := he.order
  rcases hz.key_cases he.key (hz.lt_start he.key.word hin) with h1 | h1
  · dsimp only at h1
    refine .behind ?_ fun _ => ?_ <;> dsimp only <;> omega
  · refine .nested indent hi ?_ ?_ <;> rw [← h1]
    exact (closing?_spec he.closing).1

theorem near_flatBack (hz : Zone t o key colon z) {e : FlatEntry} {colon' : Nat}
    (he : (ofText t).IsFlat e colon') (hin : o < e.body.stop) (text : Text) :
    Near t key z ⟨⟨e.body.stop, e.body.stop⟩, text⟩ := by
  have ho := he.order
  obtain ⟨-, -, hclose⟩ := closing?_spec he.closing
  have hle : z ≤ e.body.stop - 1 := by
    refine Nat.le_of_not_lt fun hlt => ?_
    exact (hz.not_code (k := e.body.stop - 1) (by omega) hlt).2.1 hclose
  refine .behind ?_ fun _ => ?_ <;> dsimp only <;> omega

theorem near_envFront (hz : Zone t o key colon z) {e : EnvEntry} {colon' value stop : Nat}
    (he : (ofText t).IsEnv e colon' value stop) (hin : o < e.name.start) (indent : Text) :
    Near t key z ⟨⟨e.name.start, e.var.start⟩, (e.change (ofText t) indent).head⟩ := by
  rcases hz.key_cases he.key hin with h1 | h1
  · refine .behind h1 fun hcolon => ?_
    exact absurd (isWord_head_env he indent _ hcolon) (by decide)
  · -- The field `apiKey` itself is never read as an entry.
    have hname : e.name = key.name := congrArg Key.name h1
    have := he.field_ne
    rw [hname, hz.first.name_eq] at this
    exact absurd this (by decide)

theorem near_envBack (hz : Zone t o key colon z) {e : EnvEntry} {colon' value stop : Nat}
    (he : (ofText t).IsEnv e colon' value stop) (hin : o < e.var.stop) (text : Text) :
    Near t key z ⟨⟨e.var.stop, e.var.stop⟩, text⟩ := by
  have ho := he.order
  have hstart : o < e.var.start := by
    refine hz.lt_start (w := ⟨e.var.start, stop⟩) he.word (Nat.lt_of_not_le fun h1 => ?_)
    dsimp only at h1
    have hstop := he.stop_eq
    split at hstop
    case isFalse => omega
    next ha =>
    rw [isAsserted, Bool.and_eq_true, beq_iff_eq] at ha
    rw [show stop = o by omega, hz.first.brace] at ha
    exact absurd ha.1 (by decide)
  have hdot : (ofText t).codeByte? (e.var.start - 1) = some Byte.dot := by
    have hslice := he.slice_value
    rw [← ho.2.2.2.1] at hslice ⊢
    exact codeByte?_of_codeCells (u := environment) hslice (k := 11) (by decide)
  have hle : z ≤ e.var.start := by
    refine Nat.le_of_not_lt fun h1 => ?_
    exact (hz.words _ he.word hstart h1).1 hdot
  refine .behind ?_ fun _ => ?_ <;> dsimp only <;> omega

/-- A gap that begins behind the brace and is laid out as trivia. -/
theorem isTrivia_gap (hz : Zone t o key colon z) {j : Nat} {indent : Text}
    (hg : IsGap t (o + 1) j []) (hi : indent.IsIndent) :
    ∀ c ∈ Patch.cells t ⟨⟨o + 1, j⟩, Byte.newline :: indent⟩, c.isTrivia = true := by
  have hstate := (solid_of_codeByte? (i := o + 1) hz.first.brace (Nat.succ_pos o) (by decide)).2
  rw [cells_plain hstate fun b hb => (quiet_gap hg hi b hb).1]
  exact isTrivia_line hi

theorem near_gap (hz : Zone t o key colon z) {i j : Nat} {lead indent : Text}
    (hg : IsGap t i j lead) (hi : indent.IsIndent) (hin : o < i)
    (hl : Patch.Led t ⟨⟨i, j⟩, lead ++ Byte.newline :: indent⟩) :
    Near t key z ⟨⟨i, j⟩, lead ++ Byte.newline :: indent⟩ := by
  have hhead : lead = [] ∨ lead = [Byte.comma] := hg.opens.imp And.left And.left
  rcases hz.gap_cases hg hin with h1 | ⟨rfl, h2⟩
  · refine .behind h1 fun hcolon => ?_
    rcases hhead with rfl | rfl <;> exact absurd (Option.some.inj hcolon) (by decide)
  · have hle := hg.le
    have hname := hz.first.isKey.word.lt
    have hcolon := hz.first.isKey.stop_le_colon
    have hlt := hz.lt
    -- A comma would have to part entries in the gap, or to stand before the end of the object.
    have hnil : lead = [] := by
      refine hhead.resolve_right fun hc => ?_
      rcases hl (by rw [hc]; rfl) with ⟨c, h3, h4, hcomma⟩ | hclose | hclose
      · dsimp only at h3 h4
        exact (hz.not_code (k := c) (by omega) (by omega)).1 hcomma
      · exact (hz.not_code (k := j) (by omega) (by omega)).2.1 hclose
      · dsimp only at hclose
        rw [Nat.add_sub_cancel, hz.first.brace] at hclose
        cases hclose
    subst hnil
    exact .before h2 (hz.isTrivia_gap hg hi)

/-- **What a pass does near a first field.** -/
theorem near (hz : Zone t o key colon z) {q : Patch} (hq : q.Made t) (hl : q.Led t)
    (hin : o < q.span.start) : Near t key z q := by
  cases hq with
  | flatFront he hi => exact hz.near_flatFront he hi hin
  | flatBack he _ => exact hz.near_flatBack he hin _
  | envFront he _ => exact hz.near_envFront he hin _
  | envBack he _ => exact hz.near_envBack he hin _
  | gap hg hi => exact hz.near_gap hg hi hin hl

end Zone

/-- Trivia with trivia put in. -/
theorem isTrivia_mended {i j : Nat} {qs : List Patch} (hf : Follow Patch.span i j qs)
    (hj : j ≤ t.length) (hrun : (ofText t).TriviaRun i j)
    (hq : ∀ q ∈ qs, ∀ c ∈ q.cells t, c.isTrivia = true) :
    ∀ c ∈ t.mended j i qs, c.isTrivia = true := by
  have hslice {i j : Nat} (hj : j ≤ t.length) (h : (ofText t).TriviaRun i j) :
      ∀ c ∈ (ofText t).slice i j, c.isTrivia = true :=
    (triviaRun_iff (by rwa [size_ofText])).1 h
  induction hf with
  | nil => exact hslice hj hrun
  | @cons i j q qs h1 h2 h3 ih =>
    have hle := h3.le
    have ih := ih hj (fun k h4 h5 => hrun k (by omega) h5) fun r hr => hq r (by simp [hr])
    intro c hc
    rw [mended_cons] at hc
    rcases List.mem_append.1 hc with hc | hc
    · rcases List.mem_append.1 hc with hc | hc
      · exact hslice (by omega) (fun k h4 h5 => hrun k h4 (by omega)) c hc
      · exact hq q (by simp) c hc
    · exact ih c hc

/-- The patches before the field put trivia in there, and the others come behind. -/
theorem Zone.split (hz : Zone t o key colon z) {j : Nat} {qs : List Patch}
    (hf : Follow Patch.span (o + 1) j qs) (hzj : z ≤ j) (hj : j ≤ t.length)
    (hq : ∀ q ∈ qs, Near t key z q) : ∃ (u : List Cell) (later : List Patch),
      (∀ c ∈ u, c.isTrivia = true) ∧ Follow Patch.span key.name.start j later ∧
      (∀ q ∈ later, q ∈ qs ∧ key.name.start < q.span.stop) ∧
      t.mended j (o + 1) qs = u ++ t.mended j key.name.start later := by
  have hname := hz.first.isKey.word.lt
  have hcolon := hz.first.isKey.stop_le_colon
  have hlt := hz.lt
  have hle := hz.first.le
  obtain ⟨hsplit, hfirst, hsecond⟩ := hf.filter (f := fun q => q.span.stop ≤ key.name.start)
    (j := key.name.start) hle (by omega) (fun q _ h => by simpa using h)
    (fun q hm h => by
      simp only [decide_eq_false_iff_not] at h
      rcases hq q hm with h1 | ⟨indent, -, rfl, -⟩ | h1
      · exact absurd h1 h
      · dsimp only
        omega
      · omega)
    (fun a b h1 h2 h3 h4 => by simp only [decide_eq_false_iff_not] at h1 ⊢; omega)
  have htrivia : ∀ c ∈ t.mended key.name.start (o + 1)
      (qs.filter fun q => q.span.stop ≤ key.name.start), c.isTrivia = true := by
    refine isTrivia_mended hfirst (by omega) hz.first.trivia fun q hm => ?_
    obtain ⟨hm, hstop⟩ := List.mem_filter.1 hm
    simp only [decide_eq_true_eq] at hstop
    have horder := (hf.bounds q hm).2.1
    rcases hq q hm with ⟨-, h1⟩ | ⟨indent, -, rfl, -⟩ | h1
    · exact h1
    · dsimp only at hstop horder
      omega
    · omega
  refine ⟨_, _, htrivia, hsecond, fun q hm => ?_, ?_⟩
  · obtain ⟨hm, hstop⟩ := List.mem_filter.1 hm
    simp only [Bool.not_eq_true', decide_eq_false_iff_not] at hstop
    exact ⟨hm, Nat.lt_of_not_le hstop⟩
  · rw [← mended_append hfirst hsecond, ← hsplit]

/-- The byte behind a position, as long as it is kept. -/
theorem codeByte?_of_head? {k n : Nat} {ds : List Cell} {b : UInt8} (hkn : k < n)
    (hn : n ≤ t.length) (h : ((ofText t).slice k n ++ ds).head? = some ⟨b, .code⟩) :
    (ofText t).codeByte? k = some b := by
  obtain ⟨c, hc⟩ := exists_cell (ofText t) (i := k) (by rw [size_ofText]; omega)
  rw [slice_eq_cons _ hkn hc, List.cons_append, List.head?_cons] at h
  rw [codeByte?_eq_some, hc, h]

/-- What is left behind the brace of a zone: trivia, and then the zone itself, or the field with
what is put in behind it where the entry with the field as its name is nested. -/
theorem Zone.mended (hz : Zone t o key colon z) {j : Nat} {qs : List Patch}
    (hf : Follow Patch.span (o + 1) j qs) (hzj : z ≤ j) (hj : j ≤ t.length)
    (hq : ∀ q ∈ qs, q.Made t ∧ q.Led t) : ∃ u r : List Cell, (∀ c ∈ u, c.isTrivia = true) ∧
      ((∃ indent : Text, (ofText t).codeByte? key.value = some Byte.openBrace ∧
        t.mended j (o + 1) qs = u ++ (codeCells apiKeyField ++ (codeCells (front indent) ++ r))) ∨
      t.mended j (o + 1) qs = u ++ ((ofText t).slice key.name.start z ++ r) ∧
        (r.head? = some ⟨Byte.colon, .code⟩ → (ofText t).codeByte? z = some Byte.colon)) := by
  have hnear : ∀ q ∈ qs, Near t key z q := fun q hm =>
    hz.near (hq q hm).1 (hq q hm).2 (Nat.lt_of_succ_le (hf.bounds q hm).1)
  have hname := hz.first.isKey.word.lt
  have hcolon := hz.first.isKey.stop_le_colon
  have hlt := hz.lt
  obtain ⟨u, later, htrivia, hfollow, hlater, hcells⟩ := hz.split hf hzj hj hnear
  rw [hcells]
  cases later with
  | nil =>
    refine ⟨u, (ofText t).slice z j, htrivia, .inr ⟨?_, fun h => ?_⟩⟩
    · rw [mended_nil, slice_append _ (by omega) hzj]
    · rcases Nat.eq_or_lt_of_le hzj with rfl | hlt'
      · rw [slice_self] at h
        cases h
      · exact codeByte?_of_head? hlt' hj (by rwa [List.append_nil])
  | cons q rest =>
    have hbounds := hfollow.bounds q List.mem_cons_self
    obtain ⟨hm, hstop⟩ := hlater q List.mem_cons_self
    rcases hnear q hm with ⟨h1, -⟩ | ⟨indent, hi, rfl, hopen⟩ | ⟨h1, h2⟩
    · exact absurd h1 (Nat.not_le_of_lt hstop)
    · refine ⟨u, t.mended j key.value rest, htrivia, .inl ⟨indent, hopen, ?_⟩⟩
      rw [mended_cons, cells_plain (solid_of_isWord hz.first.isKey.word).2 fun b hb =>
        (Text.quiet_front hi hb).1, ← hz.first.name_eq, ← hz.first.isKey.word.slice_eq,
        List.append_assoc]
    · refine ⟨u, (ofText t).slice z q.span.start ++ (q.cells t ++ t.mended j q.span.stop rest),
        htrivia, .inr ⟨?_, fun h => ?_⟩⟩
      · rw [mended_cons, ← slice_append _ (show key.name.start ≤ z by omega) h1]
        simp only [List.append_assoc]
      · rcases Nat.eq_or_lt_of_le h1 with heq | hlt'
        · obtain ⟨b, v, hv⟩ := List.exists_cons_of_ne_nil (hq q hm).1.ends.1
          rw [← heq, slice_self, Patch.cells, hv, cells_cons] at h
          have hb : b = Byte.colon := congrArg Cell.byte (Option.some.inj h)
          exact absurd heq.symm (h2 (by rw [hv, hb]; rfl))
        · exact codeByte?_of_head? hlt' (by omega) h

/-- **A first field stays the first field.** -/
theorem FirstField.opens_mended (h : FirstField (ofText t) o key colon) {j : Nat} {qs : List Patch}
    (hf : Follow Patch.span (o + 1) j qs) (hcj : colon < j) (hj : j ≤ t.length)
    (hq : ∀ q ∈ qs, q.Made t ∧ q.Led t) : Opens (t.mended j (o + 1) qs) := by
  obtain ⟨u, r, hu, ⟨indent, -, hcells⟩ | ⟨hcells, hr⟩⟩ := h.zone.mended hf hcj hj hq
  · refine ⟨u, codeCells apiKeyField ++ [] ++ codeCells [Byte.colon],
      codeCells (.ofString " \x7b\n" ++ indent ++ .ofString "  " ++ nestedKey ++
        .ofString ": ") ++ r,
      hu, ⟨[], List.forall_mem_nil _, rfl⟩, ?_, ?_⟩
    · rw [hcells, front, show Text.ofString ": \x7b\n" = Byte.colon :: Text.ofString " \x7b\n" by
        decide]
      simp only [codeCells, List.map_append, List.append_assoc, List.cons_append, List.nil_append,
        List.map_cons, List.map_nil]
    · intro hc
      exact absurd (congrArg Cell.byte (Option.some.inj hc)) (by decide)
  · exact ⟨u, _, r, hu, h.fieldCells, hcells, fun hc => h.isKey.single (hr hc)⟩

/-- **A first field that is read from the environment stays so.** -/
theorem FirstField.reads_mended (h : FirstField (ofText t) o key colon)
    (hs : (ofText t).slice key.value (key.value + 8) = codeCells (.ofString "process."))
    {j : Nat} {qs : List Patch} (hf : Follow Patch.span (o + 1) j qs) (hcj : key.value + 8 ≤ j)
    (hj : j ≤ t.length) (hq : ∀ q ∈ qs, q.Made t ∧ q.Led t) : Reads (t.mended j (o + 1) qs) := by
  have hname := h.isKey.word.lt
  have hcolon := h.isKey.stop_le_colon
  have hvalue := h.isKey.colon_lt_value
  obtain ⟨u, r, hu, ⟨indent, hopen, -⟩ | ⟨hcells, -⟩⟩ := (h.zone_reads hs).mended hf hcj hj hq
  · have := codeByte?_of_codeCells (u := .ofString "process.") hs (k := 0) (by decide)
    rw [Nat.add_zero, hopen] at this
    exact absurd (Option.some.inj this) (by decide)
  · refine ⟨u, _, (ofText t).slice (colon + 1) key.value, r, hu, h.fieldCells, ?_, ?_⟩
    · refine (triviaRun_iff ?_).1 h.isKey.trivia_behind
      rw [size_ofText]
      omega
    · rw [hcells, ← hs, ← slice_append (ofText t) (i := key.name.start) (j := colon + 1)
        (k := key.value + 8) (by omega) (by omega), ← slice_append (ofText t) (i := colon + 1)
        (j := key.value) (k := key.value + 8) (by omega) (by omega)]
      simp only [List.append_assoc]

end

end ProviderNest
