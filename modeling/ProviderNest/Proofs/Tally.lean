import Mathlib.Algebra.Order.Ring.Int
import ProviderNest.Proofs.Batches
import ProviderNest.Proofs.Substance

/-!
# Counting what passes put in

The changes of a pass are gaps that it lays out, flat entries that it nests and entries read from
the environment that it nests; `Tallied` counts the last two, which together are what the pass
counts (`Pass.tallied`). A sum over the patches of a pass follows from what one patch of each shape
brings (`Tallied.sum_patches`).

The brackets of the code are such a sum: no patch takes one out, a flat entry brings one that opens
and one that closes, an entry read from the environment two of each (`Pass.countP_output`). What
holds of each pass of a run adds up over the run (`TalliedRun`). So the brackets of a text never
decrease, and they tell a run that counts nothing from one that counts something: a run leaves the
text as it is if and only if it counts nothing (`runPasses_text_eq_iff`).
`Pipeline.changes_iff_counts` draws the conclusions for `migrate` and for batches.
-/

namespace ProviderNest

open LexState Source

/-! ## Entries that are nested -/

/-- Changes that nest `f` flat entries and `e` entries read from the environment. -/
inductive Tallied (t : Text) : (f e : Nat) → List Change → Prop
  | nil : Tallied t 0 0 []
  | gap {f e i j : Nat} {lead indent : Text} {cs : List Change} : IsGap t i j lead →
      indent.IsIndent → Tallied t f e cs →
      Tallied t f e (.gap i j (lead ++ Byte.newline :: indent) :: cs)
  | flat {f e colon : Nat} {entry : FlatEntry} {indent : Text} {cs : List Change} :
      (ofText t).IsFlat entry colon → indent.IsIndent → Tallied t f e cs →
      Tallied t (f + 1) e (entry.change indent :: cs)
  | env {f e colon value stop : Nat} {entry : EnvEntry} {indent : Text} {cs : List Change} :
      (ofText t).IsEnv entry colon value stop → indent.IsIndent → Tallied t f e cs →
      Tallied t f (e + 1) (entry.change (ofText t) indent :: cs)

section
variable {t : Text}

/-- Changes that nest flat entries nest as many as there are, and none that is read from the
environment. -/
theorem Nests.tallied {fs : List FlatEntry} {cs : List Change} (h : Nests t fs cs) :
    Tallied t fs.length 0 cs := by
  induction h with
  | nil => exact .nil
  | gap hg hi _ ih => exact .gap hg hi ih
  | flat hf hi _ ih => exact .flat hf hi ih

/-- **What a pass counts are the entries that its changes nest.** -/
theorem Pass.tallied (p : Pass) (ht : t.WellFormed) :
    ∃ f e, Tallied t f e (p.changes t) ∧ countEdits (p.edits t) = f + e := by
  by_cases hp : p = .envAssignment
  case neg => exact ⟨_, 0, (p.nests_changes ht hp).tallied, p.countEdits_edits hp⟩
  subst hp
  obtain ⟨es, hes⟩ := exists_envEntries (ofText t)
  have hvalid := (finds_hits .envAssignment (ofText t)).2.2
  rw [Pass.changes, Pass.edits]
  rw [hes] at hvalid ⊢
  refine ⟨0, es.length, ?_⟩
  clear hes
  induction es with
  | nil => exact ⟨.nil, rfl⟩
  | cons x es ih =>
    obtain ⟨h1, h2⟩ := ih fun h hm => hvalid h (by simp [hm])
    obtain ⟨colon, value, stop, hx⟩ := hvalid (.env x) (by simp)
    rw [List.map_cons, List.flatMap_cons, List.map_cons]
    refine ⟨.env hx (isIndent_indentOf _ _) h1, ?_⟩
    rw [countEdits, List.foldr_cons, ← countEdits, h2, List.length_cons]
    dsimp only [Hit.count]
    omega

namespace Tallied

variable {f e : Nat} {cs : List Change} {w : Patch → Nat} {a b : Nat}

/-- A sum over patches compares with what one change of each shape brings. -/
theorem sum_patches (h : Tallied t f e cs) {r : Nat → Nat → Prop} (hzero : r 0 0)
    (hadd : ∀ {x y u v : Nat}, r x u → r y v → r (x + y) (u + v))
    (hflat : ∀ {entry : FlatEntry} {colon : Nat} {indent : Text},
      (ofText t).IsFlat entry colon → indent.IsIndent →
      r (((entry.change indent).patches.map w).sum) a)
    (henv : ∀ {entry : EnvEntry} {colon value stop : Nat} {indent : Text},
      (ofText t).IsEnv entry colon value stop → indent.IsIndent →
      r (((entry.change (ofText t) indent).patches.map w).sum) b)
    (hgap : ∀ {i j : Nat} {lead indent : Text}, IsGap t i j lead → indent.IsIndent →
      r (w ⟨⟨i, j⟩, lead ++ Byte.newline :: indent⟩) 0) :
    r ((cs.flatMap Change.patches).map w).sum (a * f + b * e) := by
  induction h with
  | nil => exact hzero
  | gap hg hi _ ih =>
    have := hadd (hgap hg hi) ih
    rw [Nat.zero_add] at this
    simpa only [List.flatMap_cons, patches_gap, List.map_append, List.sum_append, List.map_cons,
      List.map_nil, List.sum_cons, List.sum_nil, Nat.add_zero] using this
  | @flat f e _ _ _ _ hf hi _ ih =>
    have := hadd (hflat hf hi) ih
    rw [List.flatMap_cons, List.map_append, List.sum_append, Nat.mul_succ]
    rwa [show a * f + a + b * e = a + (a * f + b * e) by omega]
  | @env f e _ _ _ _ _ _ he hi _ ih =>
    have := hadd (henv he hi) ih
    rw [List.flatMap_cons, List.map_append, List.sum_append, Nat.mul_succ]
    rwa [show a * f + (b * e + b) = b + (a * f + b * e) by omega]

end Tallied

end

/-! ## Brackets -/

/-- The bytes that open a bracket. -/
def Text.openers : List UInt8 := [Byte.openBrace, Byte.openBracket, Byte.openParen]

/-- The bytes that close a bracket. -/
def Text.closers : List UInt8 := [Byte.closeBrace, Byte.closeBracket, Byte.closeParen]

/-- A byte of the code that is one of some bytes. -/
def Cell.isOneOf (bs : List UInt8) (c : Cell) : Bool := c.kind == .code && bs.contains c.byte

section
variable {t : Text} {i j : Nat} {bs : List UInt8}

/-- The brackets among the cells of code are those among its bytes. -/
theorem countP_codeCells (u : Text) :
    (codeCells u).countP (Cell.isOneOf bs) = u.countP bs.contains := by
  rw [List.countP_map]
  exact List.countP_congr fun b _ => by simp [Cell.isOneOf]

/-- A part without brackets in code. -/
theorem NoBracket.countP_slice {x : Span} (h : NoBracket t x) (hb : ∀ b ∈ bs, b ∈ Text.brackets) :
    ((ofText t).slice x.start x.stop).countP (Cell.isOneOf bs) = 0 := by
  refine List.countP_eq_zero.2 fun c hc => ?_
  obtain ⟨n, h1, h2, hn⟩ := (mem_slice_iff _).1 hc
  obtain ⟨b, kind⟩ := c
  simp only [Cell.isOneOf, Bool.and_eq_true, beq_iff_eq, List.contains_iff_mem]
  rintro ⟨rfl, hm⟩
  exact h n h1 h2 b (codeByte?_eq_some.2 hn) (hb b hm)

/-- Patches that take out no bracket add those that they put in. -/
theorem countP_mended {qs : List Patch} (hf : Follow Patch.span i j qs)
    (hq : ∀ q ∈ qs, NoBracket t q.span) (hb : ∀ b ∈ bs, b ∈ Text.brackets) :
    (t.mended j i qs).countP (Cell.isOneOf bs) =
      ((ofText t).slice i j).countP (Cell.isOneOf bs) +
        (qs.map fun q => (q.cells t).countP (Cell.isOneOf bs)).sum := by
  induction hf with
  | nil => rfl
  | @cons i j q qs h1 h2 h3 ih =>
    have ih := ih fun r hr => hq r (by simp [hr])
    have hnone := (hq q (by simp)).countP_slice hb
    rw [mended_cons, List.countP_append, List.countP_append, ih, List.map_cons, List.sum_cons,
      ← slice_append (ofText t) h1 (Nat.le_trans h2 h3.le),
      ← slice_append (ofText t) h2 h3.le, List.countP_append, List.countP_append, hnone]
    omega

/-- There is no bracket in an indentation. -/
theorem countP_indent {indent : Text} (hi : indent.IsIndent) (hb : ∀ b ∈ bs, b ∈ Text.brackets) :
    indent.countP bs.contains = 0 := by
  refine List.countP_eq_zero.2 fun b hm => ?_
  rw [List.contains_iff_mem]
  intro hin
  have := hb b hin
  rcases hi b hm with rfl | rfl <;> revert this <;> decide

/-- Brackets that open or brackets that close. -/
def OneSide (bs : List UInt8) : Prop := bs = Text.openers ∨ bs = Text.closers

theorem OneSide.brackets (h : OneSide bs) : ∀ b ∈ bs, b ∈ Text.brackets := by
  rcases h with rfl | rfl <;> decide

/-- The brackets that are put in around a configuration: a pair. -/
theorem countP_front_back {indent : Text} (hs : OneSide bs) (hi : indent.IsIndent) :
    (front indent).countP bs.contains + (back indent).countP bs.contains = 1 := by
  have hindent := countP_indent hi hs.brackets
  rw [front, back]
  simp only [List.countP_append, hindent]
  rcases hs with rfl | rfl <;> decide

/-- What is put in behind a configuration is code. -/
theorem cells_plain {q : Patch} (hs : t.stateAt q.span.start = .code)
    (hq : ∀ b ∈ q.text, Text.Quiet b) : q.cells t = codeCells q.text := by
  rw [Patch.cells, hs]
  exact (after_cells_plain (fun b hb => (hq b hb).1) none).2

/-- A flat entry gets one bracket more of each side. -/
theorem countP_flat {entry : FlatEntry} {colon : Nat} {indent : Text} (hs : OneSide bs)
    (h : (ofText t).IsFlat entry colon) (hi : indent.IsIndent) :
    ((entry.change indent).patches.map
      fun q => (q.cells t).countP (Cell.isOneOf bs)).sum = 1 := by
  obtain ⟨-, -, hclose⟩ := closing?_spec h.closing
  have hback : Patch.cells t ⟨⟨entry.body.stop, entry.body.stop⟩, back indent⟩ =
      codeCells (back indent) :=
    cells_plain (solid_of_codeByte? hclose h.stop_pos (by decide)).2
      fun b hb => (Text.quiet_back hi hb).1
  have hfront : Patch.cells t ⟨⟨entry.name.stop, entry.body.start⟩, front indent⟩ =
      codeCells (front indent) := headCells_flat h hi
  rw [patches_flat]
  simp only [List.map_cons, List.map_nil, List.sum_cons, List.sum_nil, hback, hfront,
    countP_codeCells]
  exact countP_front_back hs hi

/-- An entry read from the environment gets two brackets more of each side. -/
theorem countP_env {entry : EnvEntry} {colon value stop : Nat} {indent : Text} (hs : OneSide bs)
    (h : (ofText t).IsEnv entry colon value stop) (hi : indent.IsIndent) :
    ((entry.change (ofText t) indent).patches.map
      fun q => (q.cells t).countP (Cell.isOneOf bs)).sum = 2 := by
  have hback : Patch.cells t ⟨⟨entry.var.stop, entry.var.stop⟩, .ofString " \x7d" ++ back indent⟩ =
      codeCells (.ofString " \x7d" ++ back indent) := by
    refine cells_plain (solid_of_isEnv h).2 fun b hb => ?_
    have hbrace : ∀ b ∈ Text.ofString " \x7d", Text.Quiet b := by decide
    exact (List.mem_append.1 hb).elim (hbrace b) fun hb => (Text.quiet_back hi hb).1
  have hfront : Patch.cells t ⟨⟨entry.name.start, entry.var.start⟩,
      (entry.change (ofText t) indent).head⟩ = codeCells (entry.change (ofText t) indent).head :=
    headCells_env h hi
  have hname : ((ofText t).bytes entry.name).lower.countP bs.contains = 0 := by
    refine List.countP_eq_zero.2 fun b hb => ?_
    rw [List.contains_iff_mem]
    intro hin
    exact not_bracket (.inr (Text.lower_isWord (isWord_bytes h.key.word) b hb)) (hs.brackets b hin)
  have hpair := countP_front_back hs hi
  rw [patches_env]
  simp only [List.map_cons, List.map_nil, List.sum_cons, List.sum_nil, hback, hfront,
    countP_codeCells]
  simp only [EnvEntry.change, List.countP_append, hname]
  have hinner : (Text.ofString "\x7b ").countP bs.contains + apiKeyField.countP bs.contains +
      (Text.ofString ": ").countP bs.contains + environment.countP bs.contains +
      (Text.ofString " \x7d").countP bs.contains = 1 := by
    rcases hs with rfl | rfl <;> decide
  omega

/-- What lays out a gap has no bracket. -/
theorem countP_gap {lead indent : Text} (hs : OneSide bs) (h : IsGap t i j lead)
    (hi : indent.IsIndent) :
    (Patch.cells t ⟨⟨i, j⟩, lead ++ Byte.newline :: indent⟩).countP (Cell.isOneOf bs) = 0 := by
  refine List.countP_eq_zero.2 fun c hc => ?_
  have hbyte : c.byte ∈ lead ++ Byte.newline :: indent := by
    have := List.mem_map_of_mem (f := Cell.byte) hc
    rwa [Patch.cells, map_byte_cells] at this
  have hsoft := (h.madeOf hi).soft c.byte hbyte
  simp only [Cell.isOneOf, Bool.and_eq_true, beq_iff_eq, List.contains_iff_mem]
  exact fun hm => hsoft.no_bracket (hs.brackets _ hm.2)

/-- **The brackets that a pass adds.** It takes none out; of each side a flat entry brings one, and
an entry read from the environment brings two. -/
theorem Pass.countP_output (p : Pass) (ht : t.WellFormed) (hs : OneSide bs) {f e : Nat}
    (h : Tallied t f e (p.changes t)) :
    (ofText (p.output t)).cells.toList.countP (Cell.isOneOf bs) =
      (ofText t).cells.toList.countP (Cell.isOneOf bs) + (f + 2 * e) := by
  obtain ⟨hcells, hfollow⟩ := p.cells_output ht
  have hwhole := slice_zero_size (ofText t)
  rw [size_ofText] at hwhole
  have hsum : ((p.patches t).map fun q => (q.cells t).countP (Cell.isOneOf bs)).sum =
      1 * f + 2 * e :=
    h.sum_patches (r := (· = ·)) rfl (fun h1 h2 => by rw [h1, h2]) (countP_flat hs) (countP_env hs)
      (countP_gap hs)
  rw [hcells, countP_mended hfollow (fun q hq => (p.made_patches ht q hq).noBracket) hs.brackets,
    hwhole, hsum, Nat.one_mul]

end

/-! ## Runs that count nothing -/

section
variable {t : Text}

/-- Everything that a pass finds has an entry that it nests. -/
theorem Pass.count_pos {p : Pass} {s : Source} {h : Hit} (hm : h ∈ p.hits s) : 0 < h.count s := by
  have hobject {i : Nat} {b : Braces} {found : List Hit} {next : Nat}
      (hf : s.objectHit? i b = some (found, next)) (hm : h ∈ found) : 0 < h.count s := by
    obtain ⟨hne, rfl, -⟩ := objectHit?_eq_some.1 hf
    obtain rfl := List.mem_singleton.1 hm
    exact List.length_pos_iff.2 hne
  obtain ⟨k, found, next, hk, hfound⟩ := mem_sweep hm
  cases p with
  | simpleInline =>
    obtain ⟨e, -, heq⟩ := Option.map_eq_some_iff.1 hk
    cases heq
    obtain rfl := List.mem_singleton.1 hfound
    exact Nat.one_pos
  | envAssignment =>
    obtain ⟨e, -, heq⟩ := Option.map_eq_some_iff.1 hk
    cases heq
    obtain rfl := List.mem_singleton.1 hfound
    exact Nat.one_pos
  | providersBlock =>
    obtain ⟨b, -, hf⟩ := Option.bind_eq_some_iff.1 hk
    exact hobject hf hfound
  | returnLiteral =>
    obtain ⟨b, -, hf⟩ := Option.bind_eq_some_iff.1 hk
    exact hobject hf hfound
  | constLiteral =>
    obtain ⟨b, -, heq⟩ := Option.map_eq_some_iff.1 hk
    cases heq
    obtain ⟨l, found, next, hl, hfound⟩ := mem_sweep hfound
    obtain ⟨b', -, hf⟩ := Option.bind_eq_some_iff.1 hl
    obtain ⟨-, -, hf⟩ := Option.bind_eq_some_iff.1 hf
    exact hobject hf hfound

/-- A pass that counts nothing finds nothing. -/
theorem Pass.hits_of_count {p : Pass} (h : countEdits (p.edits t) = 0) :
    p.hits (ofText t) = [] := by
  cases hh : p.hits (ofText t) with
  | nil => rfl
  | cons x xs =>
    have hpos := Pass.count_pos (p := p) (s := ofText t) (h := x) (by rw [hh]; simp)
    rw [Pass.edits, hh, List.map_cons, countEdits, List.foldr_cons] at h
    dsimp only at h
    omega

/-- A pass that counts nothing leaves the text as it is. -/
theorem Pass.output_of_count (p : Pass) (h : countEdits (p.edits t) = 0) : p.output t = t := by
  rw [Pass.output, Pass.changes, hits_of_count h, List.flatMap_nil, changed_nil, bytes_eq]
  dsimp only
  rw [map_byte_slice, List.drop_zero, Nat.sub_zero, List.take_length]

/-- A pass changes the text if and only if it counts something. -/
theorem Pass.output_eq_iff (p : Pass) (ht : t.WellFormed) :
    p.output t = t ↔ countEdits (p.edits t) = 0 := by
  refine ⟨fun htext => ?_, p.output_of_count⟩
  obtain ⟨f, e, h, hcount⟩ := p.tallied ht
  have := p.countP_output ht (show OneSide Text.openers from .inl rfl) h
  rw [htext] at this
  omega

/-- The count of a run is that of its first pass and that of the others. -/
theorem Migration.count_cons (u : Text) (g : Stage) (gs : List Stage) :
    Migration.count ⟨u, g :: gs⟩ = g.count + Migration.count ⟨u, gs⟩ := rfl

theorem Migration.count_eq_zero_iff (m : Migration) :
    m.count = 0 ↔ ∀ g ∈ m.stages, g.count = 0 := by
  obtain ⟨u, gs⟩ := m
  induction gs with
  | nil => simp [Migration.count]
  | cons g gs ih =>
    rw [Migration.count_cons, Nat.add_eq_zero_iff, ih, List.forall_mem_cons]

/-- Passes that lead from one text to another one after the other and nest `f` flat entries and `e`
entries read from the environment. -/
inductive TalliedRun : (f e : Nat) → (t u : Text) → Prop
  | nil {t : Text} : TalliedRun 0 0 t t
  | cons {f e f' e' : Nat} {t u : Text} {p : Pass} : t.WellFormed → Tallied t f e (p.changes t) →
      TalliedRun f' e' (p.output t) u → TalliedRun (f + f') (e + e') t u

/-- The entries that a run counts are those that its passes nest, flat ones and ones that are read
from the environment. -/
theorem runPasses_tallied (ht : t.WellFormed) {ps : List Pass} {m : Migration}
    (hm : runPasses ps t = .ok m) : ∃ f e, m.count = f + e ∧ TalliedRun f e t m.text := by
  induction ps generalizing t m with
  | nil =>
    cases hm
    exact ⟨0, 0, rfl, .nil⟩
  | cons p ps ih =>
    obtain ⟨m', hm', rfl⟩ := runPasses_cons_inv ht hm
    obtain ⟨f, e, htally, hcount⟩ := p.tallied ht
    obtain ⟨f', e', hcount', hrest⟩ := ih (p.wellFormed_output ht) hm'
    refine ⟨f + f', e + e', ?_, .cons ht htally hrest⟩
    rw [Migration.count_cons, Stage.count, hcount, show Migration.count ⟨m'.text, m'.stages⟩ =
      m'.count from rfl, hcount']
    omega

/-- **The brackets that a run adds**, of each side. -/
theorem TalliedRun.countP {f e : Nat} {t u : Text} (h : TalliedRun f e t u) {bs : List UInt8}
    (hs : OneSide bs) : (ofText u).cells.toList.countP (Cell.isOneOf bs) =
      (ofText t).cells.toList.countP (Cell.isOneOf bs) + (f + 2 * e) := by
  induction h with
  | nil => rfl
  | @cons f e f' e' t u p ht htally _ ih =>
    rw [ih, p.countP_output ht hs htally]
    omega

/-- A run that counts nothing leaves the text as it is. -/
theorem runPasses_text_of_count (ht : t.WellFormed) {ps : List Pass} {m : Migration}
    (hm : runPasses ps t = .ok m) (h : m.count = 0) : m.text = t := by
  induction ps generalizing t m with
  | nil =>
    cases hm
    rfl
  | cons p ps ih =>
    obtain ⟨m', hm', rfl⟩ := runPasses_cons_inv ht hm
    obtain ⟨h1, h2⟩ := Nat.add_eq_zero_iff.1 h
    exact (ih (p.wellFormed_output ht) hm' h2).trans (p.output_of_count h1)

/-- **A run changes the text if and only if it counts something.** -/
theorem runPasses_text_eq_iff (ht : t.WellFormed) {ps : List Pass} {m : Migration}
    (hm : runPasses ps t = .ok m) : m.text = t ↔ m.count = 0 := by
  refine ⟨fun htext => ?_, runPasses_text_of_count ht hm⟩
  obtain ⟨f, e, hcount, hrun⟩ := runPasses_tallied ht hm
  have := hrun.countP (show OneSide Text.openers from .inl rfl)
  rw [htext] at this
  omega

end

/-- An update is a run that counts something. -/
theorem outcome_updated {p : Pipeline} {cs : List Char} {m m' : Migration}
    (hm : p.run (.ofChars cs) = .ok m) (h : migrate p (.ofChars cs) = .ok (.updated m')) :
    m' = m ∧ 0 < m'.count := by
  rw [migrate_eq hm] at h
  split at h
  case isTrue => cases h
  split at h
  case isTrue => cases h
  next htext =>
  cases h
  refine ⟨rfl, Nat.pos_of_ne_zero fun h0 => htext ?_⟩
  exact runPasses_text_of_count (Text.wellFormed_ofChars cs) hm h0

/-- No batch reports an update that counts nothing. -/
theorem Batch.Steps.updated_pos {cwd : Location} {root : Path} {tree last : FileTree}
    {targets : List Path} {files : List FileReport} {written : List Location}
    (h : Batch.Steps cwd root tree targets files written last) :
    ∀ f ∈ files, ∀ n, f.status = .updated n → 0 < n := by
  induction h with
  | nil => exact fun f hf => nomatch hf
  | cons hstep _ ih =>
    intro f hf n hn
    rcases List.mem_cons.1 hf with rfl | hf
    case inr => exact ih f hf n hn
    cases hstep with
    | notFound => cases hn
    | failed => cases hn
    | alreadyMigrated => cases hn
    | unchanged => cases hn
    | @updated l t m next hread hmigrate =>
      cases hn
      obtain ⟨-, cs, rfl⟩ := FileTree.node?_of_readText hread
      obtain ⟨m', hm⟩ := runPasses_ok (Text.wellFormed_ofChars cs) Pipeline.batch.passes
      exact (outcome_updated hm hmigrate).2

/-- **A text changes if and only if something is counted.** A run never fails, and it leaves the
text as it is exactly if it counts nothing. So `migrate` reports an update only with a count of at
least one, and no change only where each pass counted nothing; and no batch reports an update with
a count of zero. -/
theorem Pipeline.changes_iff_counts :
    (∀ (p : Pipeline) (cs : List Char), ∃ m, p.run (.ofChars cs) = .ok m ∧
      (m.text = .ofChars cs ↔ m.count = 0) ∧ ∃ o, migrate p (.ofChars cs) = .ok o ∧
        (∀ m', o = .updated m' → m' = m ∧ 1 ≤ m'.count) ∧
        (o = .unchanged → ∀ g ∈ m.stages, g.count = 0)) ∧
    ∀ (b : Batch) (tree : FileTree) (cwd : Location), ∃ r, b.run tree cwd = .ok r ∧
      ∀ f ∈ r.files, ∀ n, f.status = .updated n → 1 ≤ n := by
  refine ⟨fun p cs => ?_, fun b tree cwd => ?_⟩
  · have ht := Text.wellFormed_ofChars cs
    obtain ⟨m, hm⟩ : ∃ m, p.run (.ofChars cs) = .ok m := runPasses_ok ht p.passes
    have hiff := runPasses_text_eq_iff ht hm
    refine ⟨m, hm, hiff, _, migrate_eq hm, fun m' ho => ?_, fun ho => ?_⟩
    · exact outcome_updated hm ((migrate_eq hm).trans (congrArg _ ho))
    · refine m.count_eq_zero_iff.1 (hiff.1 ?_)
      split at ho
      case isTrue => cases ho
      split at ho
      case isFalse => cases ho
      assumption
  · obtain ⟨r, hr, hsteps⟩ := Batch.steps_processAll tree cwd b.root b.targets
    refine ⟨_, Batch.run_eq hr, hsteps.updated_pos⟩

end ProviderNest
