import ProviderNest.Pipeline
import ProviderNest.Proofs.Layout

/-!
# What a pass changes

An edit replaces a whole entry or a whole object, but most of what it writes stood there before. A
`Change` is the part that is new: a head in place of what stood before the part that is kept, and
a tail behind it. The nested shape of an entry is one change, and laying out an object is one
change for each gap between its entries (`Hit.changes`).

`Pass.apply_eq` says that a pass never fails on a text of whole characters, and that its result is
the text with the changes of its hits woven in (`Source.changed`). All that later modules say about
a pass is read off its changes.
-/

namespace ProviderNest

/-! ## Spans in order -/

/-- The spans of a list follow each other from position `i` up to position `j`. -/
inductive Follow {α : Type} (span : α → Span) : (i j : Nat) → List α → Prop
  | nil {i j : Nat} : i ≤ j → Follow span i j []
  | cons {i j : Nat} {a : α} {as : List α} : i ≤ (span a).start → (span a).start ≤ (span a).stop →
      Follow span (span a).stop j as → Follow span i j (a :: as)

namespace Follow

variable {α : Type} {span : α → Span} {i j k : Nat} {as bs : List α}

theorem le (h : Follow span i j as) : i ≤ j := by
  induction h with
  | nil h => exact h
  | cons h1 h2 _ ih => omega

theorem of_le (hki : k ≤ i) (h : Follow span i j as) : Follow span k j as := by
  cases h with
  | nil h => exact .nil (by omega)
  | cons h1 h2 h3 => exact .cons (by omega) h2 h3

theorem append (h : Follow span i j as) (h' : Follow span j k bs) : Follow span i k (as ++ bs) := by
  induction h with
  | nil hij => exact h'.of_le hij
  | cons h1 h2 _ ih => exact .cons h1 h2 (ih h')

theorem to_le (h : Follow span i j as) (hjk : j ≤ k) : Follow span i k as := by
  have := h.append (.nil hjk)
  rwa [List.append_nil] at this

/-- The spans of lists that follow each other. -/
theorem flatMap {β : Type} {span' : β → Span} {f : α → List β}
    (hf : ∀ a ∈ as, Follow span' (span a).start (span a).stop (f a)) (h : Follow span i j as) :
    Follow span' i j (as.flatMap f) := by
  induction h with
  | nil h => exact .nil h
  | cons h1 h2 _ ih =>
    rw [List.flatMap_cons]
    exact ((hf _ (by simp)).of_le h1).append (ih fun a ha => hf a (by simp [ha]))

/-- Each span lies between the ends. -/
theorem bounds (h : Follow span i j as) :
    ∀ a ∈ as, i ≤ (span a).start ∧ (span a).start ≤ (span a).stop ∧ (span a).stop ≤ j := by
  induction h with
  | nil => exact fun a ha => nomatch ha
  | @cons i j a as h1 h2 h3 ih =>
    intro b hb
    rcases List.mem_cons.1 hb with rfl | hb
    · exact ⟨h1, h2, h3.le⟩
    · obtain ⟨h4, h5, h6⟩ := ih b hb
      exact ⟨by omega, h5, h6⟩

/-- Each span begins at or behind the ends of those before it. -/
theorem pairwise (h : Follow span i j as) :
    as.Pairwise fun a b => (span a).stop ≤ (span b).start := by
  induction h with
  | nil => exact .nil
  | cons _ _ hrest ih => exact .cons (fun b hb => (hrest.bounds b hb).1) ih

/-- Spans inside spans that follow each other. -/
theorem inside {span' : α → Span}
    (hs : ∀ a ∈ as, (span a).start ≤ (span' a).start ∧ (span' a).start ≤ (span' a).stop ∧
      (span' a).stop ≤ (span a).stop) (h : Follow span i j as) : Follow span' i j as := by
  induction h with
  | nil h => exact .nil h
  | @cons i j a as h1 _ _ ih =>
    obtain ⟨h4, h5, h6⟩ := hs a (by simp)
    exact .cons (by omega) h5 ((ih fun b hb => hs b (by simp [hb])).of_le h6)

/-- The spans of the elements that a list is made from. -/
theorem of_map {β : Type} {f : β → α} {bs : List β} (h : Follow span i j (bs.map f)) :
    Follow (fun b => span (f b)) i j bs := by
  induction bs generalizing i with
  | nil =>
    cases h with
    | nil h => exact .nil h
  | cons b bs ih =>
    cases h with
    | cons h1 h2 h3 => exact .cons h1 h2 (ih h3)

end Follow

/-- What a sweep finds comes from the positions it looks at. -/
theorem mem_sweep {α : Type} {find : Nat → Option (List α × Nat)} {n i resume : Nat} {a : α}
    (h : a ∈ sweep find n i resume) : ∃ k found next, find k = some (found, next) ∧ a ∈ found := by
  induction n generalizing i resume with
  | zero => cases h
  | succ n ih =>
    rw [sweep] at h
    split at h
    · exact ih h
    split at h
    · next found next hf =>
      rcases List.mem_append.1 h with h | h
      · exact ⟨i, found, next, hf, h⟩
      · exact ih h
    · exact ih h

/-- What a sweep finds comes in order, if each find does and the sweep goes on behind it. -/
theorem follow_sweep {α : Type} {span : α → Span} {find : Nat → Option (List α × Nat)} {j : Nat}
    (hf : ∀ k found next, find k = some (found, next) → Follow span k next found ∧ next ≤ j)
    {n i resume : Nat} (hi : i + n ≤ j) (hr : resume ≤ j) :
    Follow span (max i resume) j (sweep find n i resume) := by
  induction n generalizing i resume with
  | zero => exact .nil (by omega)
  | succ n ih =>
    rw [sweep]
    split
    · exact (ih (by omega) hr).of_le (by omega)
    split
    · next found next hfound =>
      obtain ⟨h1, h2⟩ := hf _ _ _ hfound
      refine (h1.of_le (by omega)).append ?_
      exact (ih (by omega) h2).of_le (by omega)
    · exact (ih (by omega) hr).of_le (by omega)

/-! ## Changes -/

/-- A change of a text: `head` takes the place of what stands from `start` up to the part that is
kept, and `tail` is put in behind that part. -/
structure Change where
  start : Nat
  head : Text
  kept : Span
  tail : Text
  deriving DecidableEq, Repr

/-- The part of the text that a change is about. -/
def Change.span (c : Change) : Span := ⟨c.start, c.kept.stop⟩

@[simp] theorem Change.span_start (c : Change) : c.span.start = c.start := rfl
@[simp] theorem Change.span_stop (c : Change) : c.span.stop = c.kept.stop := rfl

/-- The list from position `i` up to position `stop` with the changes woven in, where `keep` gives
what is kept between two positions and `head` and `tail` what a change puts in. -/
def weave {α : Type} (keep : Nat → Nat → List α) (head tail : Change → List α) (stop : Nat) :
    (i : Nat) → List Change → List α
  | i, [] => keep i stop
  | i, c :: cs =>
    keep i c.start ++ head c ++ keep c.kept.start c.kept.stop ++ tail c ++
      weave keep head tail stop c.kept.stop cs

section
variable {α : Type} {keep : Nat → Nat → List α} {head tail : Change → List α}

/-- What is kept up to a position joins what is woven from there on. -/
theorem keep_weave (hk : ∀ {i j k : Nat}, i ≤ j → j ≤ k → keep i j ++ keep j k = keep i k)
    {i j k : Nat} {cs : List Change} (hij : i ≤ j) (h : Follow Change.span j k cs) :
    keep i j ++ weave keep head tail k j cs = weave keep head tail k i cs := by
  cases h with
  | nil h => exact hk hij h
  | cons h1 h2 h3 =>
    rw [Change.span_start] at h1
    simp only [weave, ← List.append_assoc, hk hij h1]

/-- Changes in two parts. -/
theorem weave_append (hk : ∀ {i j k : Nat}, i ≤ j → j ≤ k → keep i j ++ keep j k = keep i k)
    {i j k : Nat} {cs ds : List Change} (hc : Follow Change.span i j cs)
    (hd : Follow Change.span j k ds) :
    weave keep head tail k i (cs ++ ds) =
      weave keep head tail j i cs ++ weave keep head tail k j ds := by
  induction hc with
  | nil h => exact (keep_weave hk h hd).symm
  | cons h1 h2 _ ih =>
    rw [Change.span_stop] at ih
    simp only [List.cons_append, weave, ih hd, List.append_assoc]

end

/-- The text from position `i` up to position `stop` with the changes carried out. -/
def Source.changed (s : Source) (stop i : Nat) (cs : List Change) : Text :=
  weave (fun i j => s.bytes ⟨i, j⟩) Change.head Change.tail stop i cs

namespace Source

variable {s : Source} {i j k : Nat} {cs ds : List Change}

theorem changed_nil : s.changed j i [] = s.bytes ⟨i, j⟩ := rfl

/-- The text up to a position joins the changed text from there on. -/
theorem bytes_changed (hij : i ≤ j) (h : Follow Change.span j k cs) :
    s.bytes ⟨i, j⟩ ++ s.changed k j cs = s.changed k i cs :=
  keep_weave bytes_append hij h

/-- A text with changes in two parts. -/
theorem changed_append (hc : Follow Change.span i j cs) (hd : Follow Change.span j k ds) :
    s.changed k i (cs ++ ds) = s.changed j i cs ++ s.changed k j ds :=
  weave_append bytes_append hc hd

end Source

/-- What comes before a configuration in the nested shape, behind the name. -/
def front (indent : Text) : Text :=
  .ofString ": \x7b\n" ++ indent ++ .ofString "  " ++ nestedKey ++ .ofString ": "

/-- What comes behind a configuration in the nested shape. -/
def back (indent : Text) : Text := .ofString ",\n" ++ indent ++ .ofString "\x7d"

/-- The change that nests a flat entry. -/
def FlatEntry.change (indent : Text) (e : FlatEntry) : Change :=
  ⟨e.name.stop, front indent, e.body, back indent⟩

/-- The change that nests an entry read from the environment. -/
def EnvEntry.change (s : Source) (indent : Text) (e : EnvEntry) : Change where
  start := e.name.start
  head := (s.bytes e.name).lower ++ front indent ++ .ofString "\x7b " ++ apiKeyField ++
    .ofString ": " ++ environment
  kept := e.var
  tail := .ofString " \x7d" ++ back indent

/-- The change that puts `text` between two positions. -/
def Change.gap (i j : Nat) (text : Text) : Change := ⟨i, text, ⟨j, j⟩, []⟩

theorem Source.changed_gap {s : Source} {i j stop : Nat} {text : Text} {cs : List Change} :
    s.changed stop i (.gap i j text :: cs) = text ++ s.changed stop j cs := by
  simp [changed, weave, Change.gap, bytes_self]

namespace Source

variable (s : Source)

/-- The changes that lay out the rest of an object, from position `i` up to the closing brace, one
entry to a line; `lead` ends the line before. -/
def layout (inner indent : Text) (close : Nat) : (lead : Text) → (i : Nat) → List Span → List Change
  | lead, i, [] => [.gap i close (lead ++ Byte.newline :: indent)]
  | lead, i, e :: es =>
    .gap i e.start (lead ++ Byte.newline :: inner) ::
      ((s.flatIn? e).toList.map (FlatEntry.change inner) ++
        layout inner indent close [Byte.comma] e.stop es)

/-- Closed braces that a word at position `i` introduces. -/
def Introduces (i : Nat) (b : Braces) : Prop :=
  s.closing? b.opening = some b.closing ∧ i ≤ b.opening ∧ ∃ w, w.start = i ∧ s.IsWord w

/-- The indentation of the line of position `i`. -/
def indentOf (i : Nat) : Text := s.bytes (s.indentSpan i)

end Source

namespace Hit

/-- The changes that nest a hit on a line indented by `indent`. -/
def changes (s : Source) (indent : Text) : Hit → List Change
  | flat e => [e.change indent]
  | env e => [e.change s indent]
  | object _ b =>
    s.layout (indent ++ .ofString "  ") indent b.closing [] (b.opening + 1)
      (s.entries (b.opening + 1) b.closing)

/-- The flat entries of a hit. -/
def flats (s : Source) : Hit → List FlatEntry
  | flat e => [e]
  | env _ => []
  | object _ b => s.flatEntriesOf b

/-- What makes a hit one: an entry that is recognised, or closed braces behind the word that
introduces them. -/
def Valid (s : Source) : Hit → Prop
  | flat e => ∃ colon, s.IsFlat e colon
  | env e => ∃ colon value stop, s.IsEnv e colon value stop
  | object a b => s.Introduces a b

end Hit

namespace Pass

/-- Everything that a pass changes in a text, from left to right. -/
def changes (p : Pass) (t : Text) : List Change :=
  (p.hits (.ofText t)).flatMap fun h => h.changes (.ofText t) ((Source.ofText t).indentOf h.anchor)

/-- The text that a pass leaves. -/
def output (p : Pass) (t : Text) : Text := (Source.ofText t).changed t.length 0 (p.changes t)

/-- The edits of a pass. -/
def edits (p : Pass) (t : Text) : List Edit :=
  let s := Source.ofText t
  (p.hits s).map fun h => ⟨h.anchor, h.span,
    s.changed h.span.stop h.span.start (h.changes s (s.indentOf h.anchor)), h.count s⟩

end Pass

namespace Source

section
variable {s : Source} {i : Nat} {b : Braces}

/-! ## What the passes look for -/

/-- The order of the parts of a flat entry. -/
theorem IsFlat.order {e : FlatEntry} {colon : Nat} (h : s.IsFlat e colon) :
    e.name.start < e.name.stop ∧ e.name.stop ≤ colon ∧ colon < e.body.start ∧
    e.body.start + 1 < e.body.stop ∧ e.body.stop ≤ s.size := by
  obtain ⟨-, h2, h3⟩ := closing?_spec h.closing
  have h1 := h.key.word.lt
  have h4 := h.key.stop_le_colon
  have h5 := h.key.colon_lt_value
  have h6 := lt_size_of_codeByte? h3
  dsimp only at h1 h4 h5
  omega

/-- The order of the parts of an entry read from the environment. -/
theorem IsEnv.order {e : EnvEntry} {colon value stop : Nat} (h : s.IsEnv e colon value stop) :
    e.name.start < e.name.stop ∧ e.name.stop ≤ colon ∧ colon < value ∧ value + 12 = e.var.start ∧
    e.var.start < stop ∧ stop ≤ e.var.stop ∧ e.var.stop ≤ s.size := by
  have h1 := h.key.word.lt
  have h2 := h.key.stop_le_colon
  have h3 := h.key.colon_lt_value
  have h4 : environment.length = 12 := by decide
  have h5 := h.start_eq
  have h6 := h.word.lt
  have h7 := h.word.stop_le
  have h8 := h.stop_eq
  dsimp only at h1 h2 h3 h6 h7
  split at h8
  · next ha =>
    rw [isAsserted, Bool.and_eq_true, beq_iff_eq] at ha
    have := lt_size_of_codeByte? ha.1
    omega
  · omega

/-- What `block?` finds: the key `providers` with closed braces behind it. -/
theorem block?_eq_some : s.block? i = some b ↔ ∃ key colon, key.name.start = i ∧
    s.IsKey key colon ∧ s.bytes key.name = providersKey ∧ b.opening = key.value ∧
    s.closing? b.opening = some b.closing := by
  unfold block?
  simp only [Option.bind_eq_bind, Option.bind_eq_some_iff, Option.guard_eq_some', exists_const]
  constructor
  · rintro ⟨hw, key, hkey, hb⟩
    obtain ⟨x, hx1, hx2, hx3⟩ := isWord_iff.1 hw
    obtain ⟨h1, colon, hk⟩ := key?_eq_some.1 hkey
    obtain ⟨c, hc, rfl⟩ := Option.map_eq_some_iff.1 hb
    refine ⟨key, colon, h1, hk, ?_, rfl, hc⟩
    rw [hk.word.eq_of_mem hx2 (Nat.le_refl _) hk.word.lt (by omega) (by have := hx2.lt; omega)]
    exact hx3
  · rintro ⟨key, colon, h1, hk, hbytes, ho, hc⟩
    refine ⟨isWord_iff.2 ⟨key.name, h1, hk.word, hbytes⟩, key, key?_eq_some.2 ⟨h1, colon, hk⟩, ?_⟩
    rw [braces?, ← ho, hc]
    rfl

theorem introduces_of_block? (h : s.block? i = some b) : s.Introduces i b := by
  obtain ⟨key, colon, rfl, hk, -, ho, hc⟩ := block?_eq_some.1 h
  have h1 := hk.word.lt
  have h2 := hk.stop_le_colon
  have h3 := hk.colon_lt_value
  exact ⟨hc, by omega, key.name, rfl, hk.word⟩

theorem introduces_of_returned? (h : s.returned? i = some b) : s.Introduces i b := by
  unfold returned? at h
  simp only [Option.bind_eq_bind, Option.bind_eq_some_iff, Option.guard_eq_some', exists_const] at h
  obtain ⟨hw, hb⟩ := h
  obtain ⟨x, hx1, hx2, -⟩ := isWord_iff.1 hw
  obtain ⟨c, hc, rfl⟩ := Option.map_eq_some_iff.1 hb
  have := le_skipTrivia s (i + 6)
  exact ⟨hc, by dsimp only; omega, x, hx1, hx2⟩

theorem le_of_afterAnnotation? {j : Nat} (h : s.afterAnnotation? i = some j) : i ≤ j := by
  unfold afterAnnotation? at h
  split at h
  · obtain ⟨w, hw, rfl⟩ := Option.map_eq_some_iff.1 h
    obtain ⟨h1, h2⟩ := word?_eq_some.1 hw
    have h3 := le_skipTrivia s (i + 1)
    have h4 := le_skipTrivia s w.stop
    have h5 := h2.lt
    omega
  · cases h
    exact Nat.le_refl i

theorem introduces_of_declared? (h : s.declared? i = some b) : s.Introduces i b := by
  unfold declared? at h
  simp only [Option.bind_eq_bind, Option.bind_eq_some_iff, Option.guard_eq_some', exists_const] at h
  obtain ⟨hw, name, hname, equals, heq, -, -, -, hb⟩ := h
  obtain ⟨x, hx1, hx2, -⟩ := isWord_iff.1 hw
  obtain ⟨c, hc, rfl⟩ := Option.map_eq_some_iff.1 hb
  obtain ⟨h1, h2⟩ := word?_eq_some.1 hname
  have h3 := le_skipTrivia s (i + 5)
  have h4 := le_skipTrivia s name.stop
  have h5 := le_of_afterAnnotation? heq
  have h6 := le_skipTrivia s (equals + 1)
  have h7 := h2.lt
  exact ⟨hc, by dsimp only; omega, x, hx1, hx2⟩

/-- An object that has been found: it is the only hit, and the sweep goes on behind it. -/
theorem objectHit?_eq_some {found : List Hit} {next : Nat} :
    s.objectHit? i b = some (found, next) ↔
      s.flatEntriesOf b ≠ [] ∧ found = [.object i b] ∧ next = b.closing + 1 := by
  unfold objectHit?
  split
  · next h => simp_all
  · next h =>
    simp only [List.isEmpty_iff] at h
    simp [h, eq_comm]

end

end Source

section
variable {s : Source} {i : Nat}

/-- A find in order, each hit of it valid, that ends inside the text. -/
def Finds (s : Source) (i : Nat) (found : List Hit) (next : Nat) : Prop :=
  Follow Hit.span i next found ∧ next ≤ s.size ∧ ∀ h ∈ found, h.Valid s

theorem finds_object {b : Braces} {found : List Hit} {next : Nat} (hb : s.Introduces i b)
    (h : s.objectHit? i b = some (found, next)) : Finds s i found next := by
  obtain ⟨-, rfl, rfl⟩ := Source.objectHit?_eq_some.1 h
  obtain ⟨hc, hi, hw⟩ := hb
  obtain ⟨-, h2, h3⟩ := Source.closing?_spec hc
  refine ⟨.cons hi ?_ (.nil (Nat.le_refl _)), Source.lt_size_of_codeByte? h3, ?_⟩
  · simp only [Hit.span, Braces.span]
    omega
  · intro h hm
    obtain rfl := List.mem_singleton.1 hm
    exact ⟨hc, hi, hw⟩

/-- The blocks between two positions. -/
theorem finds_blockHits {start stop : Nat} (hs : start ≤ stop) (hsz : stop ≤ s.size) :
    Finds s start (s.blockHits start stop) stop := by
  have hf : ∀ k found next, (do
      let b ← s.block? k
      guard (b.closing < stop)
      s.objectHit? k b) = some (found, next) → Finds s k found next ∧ next ≤ stop := by
    intro k found next h
    simp only [Option.bind_eq_bind, Option.bind_eq_some_iff, Option.guard_eq_some',
      exists_const] at h
    obtain ⟨b, hb, hlt, ho⟩ := h
    refine ⟨finds_object (Source.introduces_of_block? hb) ho, ?_⟩
    obtain ⟨-, -, rfl⟩ := Source.objectHit?_eq_some.1 ho
    omega
  refine ⟨?_, hsz, fun h hm => ?_⟩
  · have := follow_sweep (fun k found next h => ⟨(hf k found next h).1.1, (hf k found next h).2⟩)
      (n := stop - start) (i := start) (by omega) hs
    rwa [Nat.max_self] at this
  · obtain ⟨k, found, next, hk, hmem⟩ := mem_sweep hm
    exact (hf k found next hk).1.2.2 h hmem

/-- What a pass finds at a position. -/
theorem finds_of_find? {p : Pass} {found : List Hit} {next : Nat}
    (h : p.find? s i = some (found, next)) : Finds s i found next := by
  cases p with
  | simpleInline =>
    obtain ⟨e, he, heq⟩ := Option.map_eq_some_iff.1 h
    cases heq
    obtain ⟨rfl, colon, hf⟩ := Source.flatEntry?_eq_some.1 he
    have ho := hf.order
    refine ⟨.cons (Nat.le_refl _) ?_ (.nil (Nat.le_refl _)), ho.2.2.2.2, ?_⟩
    · simp only [Hit.span, FlatEntry.span]
      omega
    · intro h hm
      obtain rfl := List.mem_singleton.1 hm
      exact ⟨colon, hf⟩
  | providersBlock =>
    obtain ⟨b, hb, ho⟩ := Option.bind_eq_some_iff.1 h
    exact finds_object (Source.introduces_of_block? hb) ho
  | envAssignment =>
    obtain ⟨e, he, heq⟩ := Option.map_eq_some_iff.1 h
    cases heq
    obtain ⟨rfl, colon, value, stop, hf⟩ := Source.envEntry?_eq_some.1 he
    have ho := hf.order
    refine ⟨.cons (Nat.le_refl _) ?_ (.nil (Nat.le_refl _)), ho.2.2.2.2.2.2, ?_⟩
    · simp only [Hit.span, EnvEntry.span]
      omega
    · intro h hm
      obtain rfl := List.mem_singleton.1 hm
      exact ⟨colon, value, stop, hf⟩
  | returnLiteral =>
    obtain ⟨b, hb, ho⟩ := Option.bind_eq_some_iff.1 h
    exact finds_object (Source.introduces_of_returned? hb) ho
  | constLiteral =>
    obtain ⟨b, hb, heq⟩ := Option.map_eq_some_iff.1 h
    cases heq
    obtain ⟨hc, hi, -⟩ := Source.introduces_of_declared? hb
    obtain ⟨-, h2, h3⟩ := Source.closing?_spec hc
    have hsz := Source.lt_size_of_codeByte? h3
    obtain ⟨h4, -, h5⟩ := finds_blockHits h2 (Nat.le_of_lt hsz)
    exact ⟨(h4.of_le (by omega)).to_le (by omega), hsz, h5⟩

end

section
variable {t : Text}

/-- The hits of a pass come in order, and each is valid. -/
theorem finds_hits (p : Pass) (s : Source) : Finds s 0 (p.hits s) s.size := by
  refine ⟨?_, Nat.le_refl _, fun h hm => ?_⟩
  · have hf : ∀ k found next, p.find? s k = some (found, next) →
        Follow Hit.span k next found ∧ next ≤ s.size :=
      fun k found next h => ⟨(finds_of_find? h).1, (finds_of_find? h).2.1⟩
    have := follow_sweep hf (n := s.size) (i := 0) (by omega) (Nat.zero_le _)
    rwa [Nat.max_self] at this
  · obtain ⟨k, found, next, hk, hmem⟩ := mem_sweep hm
    exact (finds_of_find? hk).2.2 h hmem

/-! ## No pass fails -/

namespace Source

/-- An indentation is made of spaces and tabs. -/
theorem mem_indentOf {s : Source} {i : Nat} {b : UInt8} (h : b ∈ s.indentOf i) :
    b = Byte.space ∨ b = Byte.tab := by
  obtain ⟨k, hk⟩ := List.mem_iff_getElem?.1 h
  have hlt : s.lineStart i + k < (s.indentSpan i).stop := by
    have := (List.getElem?_eq_some_iff.1 hk).1
    rw [indentOf, bytes_eq, List.length_map, slice, List.length_take] at this
    simp only [indentSpan] at this ⊢
    omega
  rw [indentOf, getElem?_bytes hlt] at hk
  have := (forward_spec (fun j => s.byte? j == some Byte.space || s.byte? j == some Byte.tab)
    (s.size - s.lineStart i) (s.lineStart i)).2.2.1 (s.lineStart i + k) (by omega) hlt
  rw [show (s.indentSpan i).start = s.lineStart i from rfl] at hk
  simpa [hk] using this

variable {i : Nat}

/-- The indentation of the line of a word can be cut out. -/
theorem lineIndent_eq {w : Span} (ht : t.WellFormed) (hw : (ofText t).IsWord w)
    (hi : w.start = i) : (ofText t).lineIndent i = .ok ((ofText t).indentOf i) := by
  have hsz := hw.stop_le
  have hlt := hw.lt
  rw [size_ofText] at hsz
  have h0 : (ofText t).isBoundary 0 = true := by simp [isBoundary]
  obtain ⟨-, h2, -, h4⟩ :=
    backward_spec (fun j => (ofText t).byte? j != some Byte.newline) (Nat.le_refl i)
  rw [← lineStart, Nat.sub_self] at h4
  rw [← lineStart] at h2
  obtain ⟨h5, h6, h7, -⟩ := forward_spec
    (fun j => (ofText t).byte? j == some Byte.space || (ofText t).byte? j == some Byte.tab)
    ((ofText t).size - (ofText t).lineStart i) ((ofText t).lineStart i)
  generalize hj : forward _ _ _ = j at h5 h6 h7
  have hj : ((ofText t).indentSpan i).stop = j := hj
  rw [size_ofText] at h6
  have hstart : (ofText t).isBoundary ((ofText t).lineStart i) = true := by
    rcases Nat.eq_zero_or_pos ((ofText t).lineStart i) with hz | hz
    · rw [hz, h0]
    · have hnl : t[(ofText t).lineStart i - 1]? = some Byte.newline := by simpa using h4 hz
      have := isBoundary_succ_of_ascii ht hnl (by decide)
      rwa [Nat.sub_add_cancel hz] at this
  have hstop : (ofText t).isBoundary ((ofText t).indentSpan i).stop = true := by
    rw [hj]
    rcases Nat.eq_or_lt_of_le h5 with he | he
    · rw [← he, hstart]
    · have hb := h7 (j - 1) (by omega) (by omega)
      rw [Bool.or_eq_true, beq_iff_eq, beq_iff_eq, byte?_ofText] at hb
      rw [show j = j - 1 + 1 by omega]
      rcases hb with hb | hb
      · exact isBoundary_succ_of_ascii ht hb (by decide)
      · exact isBoundary_succ_of_ascii ht hb (by decide)
  have hcheck := (cut_eq (s := ofText t) (x := ⟨0, i⟩) (Nat.zero_le _)
    (by rw [size_ofText]; dsimp only; omega) h0 (by rw [← hi]; exact isBoundary_start ht hw)).1
  have hcut := (cut_eq (s := ofText t) (x := (ofText t).indentSpan i)
    (by rw [hj]; exact h5) (by rw [hj, size_ofText]; omega) hstart hstop).2
  rw [lineIndent, hcheck]
  exact hcut

/-- The parts of a flat entry can be cut out. -/
theorem readFlat_eq {e : FlatEntry} {colon : Nat} (ht : t.WellFormed)
    (h : (ofText t).IsFlat e colon) :
    (ofText t).readFlat e = .ok ⟨(ofText t).bytes e.name, (ofText t).bytes e.body⟩ := by
  obtain ⟨h1, h2, h3, h4, h5⟩ := h.order
  obtain ⟨h6, -, h7⟩ := closing?_spec h.closing
  have hopen := isBoundary_of_ascii (getElem?_of_codeByte? h6) (by decide)
  have hclose := isBoundary_succ_of_ascii ht
    (getElem?_of_codeByte? h7) (by decide)
  rw [Nat.sub_add_cancel (by omega)] at hclose
  rw [readFlat, (cut_eq (Nat.le_of_lt h1) h.key.word.stop_le (isBoundary_start ht h.key.word)
      (isBoundary_stop h.key.word)).2, (cut_eq (by omega) h5 hopen hclose).2]
  rfl

/-- A text can be cut behind the variable of an entry read from the environment. -/
theorem IsEnv.isBoundary_stop {e : EnvEntry} {colon value stop : Nat} (ht : t.WellFormed)
    (h : (ofText t).IsEnv e colon value stop) : (ofText t).isBoundary e.var.stop = true := by
  rw [h.stop_eq]
  split
  · next ha =>
    rw [isAsserted, Bool.and_eq_true, beq_iff_eq] at ha
    exact isBoundary_succ_of_ascii ht (getElem?_of_codeByte? ha.1)
      (by decide)
  · exact Source.isBoundary_stop h.word

/-- The parts of an entry read from the environment can be cut out. -/
theorem readEnv_eq {e : EnvEntry} {colon value stop : Nat} (ht : t.WellFormed)
    (h : (ofText t).IsEnv e colon value stop) :
    (ofText t).readEnv e = .ok (.ofEnv ((ofText t).bytes e.name) ((ofText t).bytes e.var)) := by
  obtain ⟨h1, h2, h3, h4, h5, h6, h7⟩ := h.order
  have hstart : (ofText t).isBoundary e.var.start = true :=
    isBoundary_start (w := ⟨e.var.start, stop⟩) ht h.word
  rw [readEnv, (cut_eq (Nat.le_of_lt h1) h.key.word.stop_le (isBoundary_start ht h.key.word)
      (isBoundary_stop h.key.word)).2,
    (cut_eq (by omega) h7 hstart (h.isBoundary_stop ht)).2]
  rfl

/-- A flat entry in the nested shape is the entry with its change carried out. -/
theorem changed_flat (s : Source) (indent : Text) (e : FlatEntry) :
    s.changed e.body.stop e.name.start [e.change indent] =
      Entry.nested ⟨s.bytes e.name, s.bytes e.body⟩ indent := by
  simp [changed, weave, FlatEntry.change, Entry.nested, front, back, bytes_self]

/-- An entry read from the environment in the nested shape is the entry with its change carried
out. -/
theorem changed_env (s : Source) (indent : Text) (e : EnvEntry) :
    s.changed e.var.stop e.name.start [e.change s indent] =
      Entry.nested (.ofEnv (s.bytes e.name) (s.bytes e.var)) indent := by
  simp [changed, weave, EnvEntry.change, Entry.nested, Entry.ofEnv, front, back, bytes_self]

/-- The changes inside an entry of an object. -/
theorem follow_flatIn? {s : Source} {e : Span} (he : e.start ≤ e.stop) (inner : Text) :
    Follow Change.span e.start e.stop ((s.flatIn? e).toList.map (FlatEntry.change inner)) := by
  cases hf : s.flatIn? e with
  | none => exact .nil he
  | some f =>
    obtain ⟨⟨colon, hflat⟩, h1, h2, -⟩ := flatIn?_eq_some he hf
    have ho := hflat.order
    refine .cons ?_ ?_ (.nil h2)
    · simp only [FlatEntry.change, Change.span_start]
      omega
    · simp only [FlatEntry.change, Change.span_start, Change.span_stop]
      omega

/-- The changes that lay out an object come in order. -/
theorem follow_layout {close : Nat} {es : List Span} (inner indent lead : Text)
    (h : Laid t close i es) :
    Follow Change.span i close ((ofText t).layout inner indent close lead i es) := by
  induction h generalizing lead with
  | nil h => exact .cons (Nat.le_refl _) h (.nil (Nat.le_refl _))
  | cons h _ ih =>
    refine .cons (Nat.le_refl _) h.le ?_
    exact (follow_flatIn? (Nat.le_of_lt h.lt) inner).append (ih _)

/-- An entry of an object can be written anew: it is the entry with its changes carried out. -/
theorem rebuildEntry_eq {e : Span} (ht : t.WellFormed) (inner : Text) (h : IsEntry t i e) :
    (ofText t).rebuildEntry inner e = .ok ((ofText t).changed e.stop e.start
      (((ofText t).flatIn? e).toList.map (FlatEntry.change inner))) := by
  have hlt := h.lt
  have hsz := h.stop_le
  have hstart := (isBoundary_iff ht (by omega)).2 h.starts
  have hstop := (isBoundary_iff ht (by omega)).2 h.stops
  unfold rebuildEntry
  cases hf : (ofText t).flatIn? e with
  | none =>
    dsimp only
    rw [(cut_eq (Nat.le_of_lt hlt) (by rw [size_ofText]; exact hsz) hstart hstop).2]
    rfl
  | some f =>
    dsimp only
    obtain ⟨⟨colon, hflat⟩, h1, h2, -⟩ := flatIn?_eq_some (Nat.le_of_lt hlt) hf
    obtain ⟨ho1, ho2, ho3, ho4, ho5⟩ := hflat.order
    obtain ⟨-, -, h7⟩ := closing?_spec hflat.closing
    have hclose := isBoundary_succ_of_ascii ht
      (getElem?_of_codeByte? h7) (by decide)
    rw [Nat.sub_add_cancel (by omega)] at hclose
    have hname := isBoundary_start ht hflat.key.word
    dsimp only at hname
    rw [FlatEntry.span, (cut_eq (x := ⟨e.start, f.name.start⟩) h1
        (by rw [size_ofText] at ho5 ⊢; dsimp only; omega) hstart hname).2, readFlat_eq ht hflat,
      (cut_eq (x := ⟨f.body.stop, e.stop⟩) h2 (by rw [size_ofText]; exact hsz) hclose hstop).2]
    have hjoin : (ofText t).bytes ⟨e.start, f.name.start⟩ ++ (ofText t).bytes f.name =
        (ofText t).bytes ⟨e.start, f.name.stop⟩ :=
      bytes_append (k := f.name.stop) h1 (Nat.le_of_lt ho1)
    have : (ofText t).changed e.stop e.start [f.change inner] =
        (ofText t).bytes ⟨e.start, f.name.start⟩ ++
          Entry.nested ⟨(ofText t).bytes f.name, (ofText t).bytes f.body⟩ inner ++
          (ofText t).bytes ⟨f.body.stop, e.stop⟩ := by
      simp only [changed, weave, FlatEntry.change, Entry.nested, front, back, ← List.append_assoc,
        hjoin]
    rw [Option.toList_some, List.map_singleton, this]
    rfl

/-- The rest of an object with its layout carried out: one entry to a line. -/
theorem changed_layout {close : Nat} {es : List Span} (inner indent lead : Text)
    (h : Laid t close i es) :
    (ofText t).changed close i ((ofText t).layout inner indent close lead i es) =
      lead ++ Byte.newline :: ((es.map fun e => inner ++ (ofText t).changed e.stop e.start
        (((ofText t).flatIn? e).toList.map (FlatEntry.change inner)) ++ .ofString ",\n").flatten ++
        indent) := by
  induction h generalizing lead with
  | nil h => simp [layout, changed_gap, changed_nil, bytes_self]
  | @cons i e es h hrest ih =>
    rw [layout, changed_gap, changed_append (follow_flatIn? (Nat.le_of_lt h.lt) inner)
      (follow_layout inner indent [Byte.comma] hrest), ih]
    simp [show Text.ofString ",\n" = [Byte.comma, Byte.newline] by decide]

/-- Closed braces can be written anew: they are the braces with their layout carried out. -/
theorem rebuild_eq {b : Braces} (ht : t.WellFormed) (indent : Text)
    (h : (ofText t).closing? b.opening = some b.closing) :
    (ofText t).rebuild b indent = .ok ((ofText t).changed (b.closing + 1) b.opening
      (Hit.changes (ofText t) indent (.object 0 b))) := by
  obtain ⟨ho, hoc, hc⟩ := closing?_spec h
  have hlaid := laid_entries ht h
  have hopen : (ofText t).bytes ⟨b.opening, b.opening + 1⟩ = .ofString "\x7b" := by
    rw [bytes_eq, slice_eq_cons _ (Nat.lt_succ_self _) (codeByte?_eq_some.1 ho), slice_self]
    decide
  have hclose : (ofText t).bytes ⟨b.closing, b.closing + 1⟩ = .ofString "\x7d" := by
    rw [bytes_eq, slice_eq_cons _ (Nat.lt_succ_self _) (codeByte?_eq_some.1 hc), slice_self]
    decide
  unfold rebuild
  dsimp only [Hit.changes]
  generalize indent ++ Text.ofString "  " = inner
  have hline : ∀ e ∈ (ofText t).entries (b.opening + 1) b.closing, (do
      return inner ++ (← (ofText t).rebuildEntry inner e) ++ Text.ofString ",\n" :
        Except Fault Text) =
      .ok (inner ++ (ofText t).changed e.stop e.start
        (((ofText t).flatIn? e).toList.map (FlatEntry.change inner)) ++ Text.ofString ",\n") := by
    intro e he
    obtain ⟨i, hi⟩ := hlaid.isEntry e he
    rw [rebuildEntry_eq ht inner hi]
    rfl
  have hfollow := follow_layout inner indent [] hlaid
  rw [cutEntries_eq ht h, ← bytes_changed (Nat.le_succ _) (hfollow.to_le (Nat.le_succ _)),
    ← List.append_nil ((ofText t).layout _ _ _ _ _ _),
    changed_append hfollow (.nil (Nat.le_succ _)), changed_layout inner indent [] hlaid,
    changed_nil, hopen, hclose]
  simp only [bind, Except.bind] at hline ⊢
  rw [mapM_eq_ok hline]
  simp [pure, Except.pure,
    show Text.ofString "\x7b\n" = Text.ofString "\x7b" ++ [Byte.newline] by decide]

end Source

open Source

namespace Hit.Valid

variable {h : Hit}

/-- The changes of a hit come in order and stay inside it. -/
theorem follow (ht : t.WellFormed) (hv : h.Valid (ofText t)) (indent : Text) :
    Follow Change.span h.span.start h.span.stop (h.changes (ofText t) indent) := by
  cases h with
  | flat e =>
    obtain ⟨colon, hf⟩ := hv
    have := hf.order
    refine .cons ?_ ?_ (.nil (Nat.le_refl _))
    · simp only [span, FlatEntry.span, FlatEntry.change, Change.span_start]
      omega
    · simp only [FlatEntry.change, Change.span_start, Change.span_stop]
      omega
  | env e =>
    obtain ⟨colon, value, stop, hf⟩ := hv
    have := hf.order
    refine .cons (Nat.le_refl _) ?_ (.nil (Nat.le_refl _))
    simp only [EnvEntry.change, Change.span_start, Change.span_stop]
    omega
  | object a b =>
    have hl := laid_entries ht hv.1
    exact ((follow_layout _ indent [] hl).of_le (Nat.le_succ _)).to_le (Nat.le_succ _)

/-- A text can be cut at both ends of a hit, and at its anchor a word begins. -/
theorem boundaries (ht : t.WellFormed) (hv : h.Valid (ofText t)) :
    (ofText t).isBoundary h.span.start = true ∧ (ofText t).isBoundary h.span.stop = true ∧
    ∃ w, w.start = h.anchor ∧ (ofText t).IsWord w := by
  cases h with
  | flat e =>
    obtain ⟨colon, hf⟩ := hv
    obtain ⟨-, -, h7⟩ := closing?_spec hf.closing
    have hclose := isBoundary_succ_of_ascii ht
      (getElem?_of_codeByte? h7) (by decide)
    rw [Nat.sub_add_cancel hf.stop_pos] at hclose
    exact ⟨isBoundary_start (w := e.name) ht hf.key.word, hclose, e.name, rfl, hf.key.word⟩
  | env e =>
    obtain ⟨colon, value, stop, hf⟩ := hv
    exact ⟨isBoundary_start (w := e.name) ht hf.key.word, hf.isBoundary_stop ht, e.name, rfl,
      hf.key.word⟩
  | object a b =>
    obtain ⟨ho, -, hc⟩ := closing?_spec hv.1
    exact ⟨isBoundary_of_ascii (getElem?_of_codeByte? ho) (by decide),
      isBoundary_succ_of_ascii ht (getElem?_of_codeByte? hc) (by decide),
      hv.2.2⟩

/-- The edit of a hit is never refused: it carries out the changes of the hit. -/
theorem edit_eq (ht : t.WellFormed) (hv : h.Valid (ofText t)) : h.edit (ofText t) =
    .ok ⟨h.anchor, h.span, (ofText t).changed h.span.stop h.span.start
      (h.changes (ofText t) ((ofText t).indentOf h.anchor)), h.count (ofText t)⟩ := by
  obtain ⟨w, hw, hword⟩ := (hv.boundaries ht).2.2
  rw [edit, lineIndent_eq ht hword hw]
  generalize (ofText t).indentOf h.anchor = indent
  cases h with
  | flat e =>
    obtain ⟨colon, hf⟩ := hv
    simp only [nested, readFlat_eq ht hf, changes, span, FlatEntry.span, changed_flat]
    rfl
  | env e =>
    obtain ⟨colon, value, stop, hf⟩ := hv
    simp only [nested, readEnv_eq ht hf, changes, span, EnvEntry.span, changed_env]
    rfl
  | object a b =>
    have hr := rebuild_eq ht indent hv.1
    simp only [nested, changes, span, Braces.span, bind, Except.bind] at hr ⊢
    rw [hr]
    rfl

end Hit.Valid

/-- The edits of hits in order are carried out one after the other. -/
theorem spliceFrom_eq {i : Nat} {hs : List Hit} (ht : t.WellFormed)
    (hi : (ofText t).isBoundary i = true) (hf : Follow Hit.span i t.length hs)
    (hv : ∀ h ∈ hs, h.Valid (ofText t)) (g : Hit → Text) :
    (ofText t).spliceFrom i (hs.map fun h => ⟨h.anchor, h.span, (ofText t).changed h.span.stop
      h.span.start (h.changes (ofText t) (g h)), h.count (ofText t)⟩) =
    .ok ((ofText t).changed t.length i (hs.flatMap fun h => h.changes (ofText t) (g h))) := by
  generalize hn : t.length = n at hf
  induction hf with
  | nil h =>
    subst hn
    have hend : (ofText t).isBoundary (ofText t).size = true := by simp [isBoundary]
    rw [List.map_nil, spliceFrom, (cut_eq (by rw [size_ofText]; exact h) (Nat.le_refl _) hi hend).2,
      size_ofText]
    rfl
  | @cons i n h hs h1 h2 h3 ih =>
    have hv' : ∀ h' ∈ hs, h'.Valid (ofText t) := fun h' hm => hv h' (by simp [hm])
    obtain ⟨hb1, hb2, -⟩ := (hv h (by simp)).boundaries ht
    have hfh := (hv h (by simp)).follow ht (g h)
    have hfr : Follow Change.span h.span.stop n (hs.flatMap fun h => h.changes (ofText t) (g h)) :=
      h3.flatMap fun h' hm => (hv' h' hm).follow ht (g h')
    have hle := h3.le
    have hcut := (cut_eq (s := ofText t) (x := ⟨i, h.span.start⟩) h1
      (by rw [size_ofText]; dsimp only; omega) hi hb1).2
    rw [List.map_cons, spliceFrom, ih hb2 hv' hn, List.flatMap_cons,
      ← bytes_changed h1 (hfh.append hfr), changed_append hfh hfr]
    dsimp only
    rw [if_neg (by omega), hcut]
    simp only [bind, Except.bind, pure, Except.pure, List.append_assoc]

/-- What a pass finds can be nested. -/
theorem Pass.mapM_edit (p : Pass) (ht : t.WellFormed) :
    (p.hits (ofText t)).mapM (Hit.edit (ofText t)) = .ok (p.edits t) :=
  mapM_eq_ok fun h hm => ((finds_hits p (ofText t)).2.2 h hm).edit_eq ht

/-- The edits of a pass can be carried out. -/
theorem Pass.splice_edits (p : Pass) (ht : t.WellFormed) :
    (ofText t).splice (p.edits t) = .ok (p.output t) := by
  obtain ⟨hf, -, hv⟩ := finds_hits p (ofText t)
  rw [size_ofText] at hf
  have hz : (ofText t).isBoundary 0 = true := by simp [isBoundary]
  exact spliceFrom_eq ht hz hf hv fun h => (ofText t).indentOf h.anchor

/-- **No pass fails.** On a text of whole characters a pass gives the text with the changes of its
hits woven in, and the edits that nest them. -/
theorem Pass.apply_eq (p : Pass) (ht : t.WellFormed) :
    p.apply t = .ok ⟨p.output t, p.edits t⟩ := by
  rw [apply, p.mapM_edit ht]
  simp only [bind, Except.bind, p.splice_edits ht]
  rfl

/-- A pass carried out before others. -/
theorem runPasses_cons {p : Pass} {ps : List Pass} {m : Migration} (ht : t.WellFormed)
    (h : runPasses ps (p.output t) = .ok m) :
    runPasses (p :: ps) t = .ok ⟨m.text, ⟨p, p.edits t⟩ :: m.stages⟩ := by
  rw [runPasses, p.apply_eq ht]
  simp only [bind, Except.bind, h]
  rfl

/-- The changes of a pass come in order. -/
theorem Pass.follow_changes (p : Pass) (ht : t.WellFormed) :
    Follow Change.span 0 t.length (p.changes t) := by
  obtain ⟨h1, -, h3⟩ := finds_hits p (ofText t)
  rw [size_ofText] at h1
  exact h1.flatMap fun h hm => (h3 h hm).follow ht _

end

end ProviderNest
