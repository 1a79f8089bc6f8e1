import ProviderNest.Proofs.Environment

/-!
# Conditionals

The colon of a conditional, `c ? e : process.env.V;`, looks like that of a key. What tells them
apart is the byte of code before the key: a question mark there is taken for that of a conditional.
So the last operand of a conditional is left alone if the operand in the middle is a single name.
In a chain of names the last one has a dot before it, and the pass takes it for the name of an entry
(`Pass.envAssignment_conditional`).

A conditional is a text with one colon in code (`LoneKey`). An entry read from the environment could
only be the word before that colon and the variable behind it (`LoneKey.eq_of_isEnv`), and it is one
unless a question mark comes before the word or the word is a name that is passed over
(`LoneKey.hasEnv_iff`).
-/

namespace ProviderNest

open LexState Source

/-! ## Texts that are code throughout -/

/-- The text is a word, in any script. -/
structure Text.IsName (w : Text) : Prop where
  whole : w.WellFormed
  ne_nil : w ≠ []
  word : ∀ b ∈ w, Byte.isWord b = true

theorem Text.IsName.not_mem {w : Text} {b : UInt8} (h : w.IsName) (hb : Byte.isWord b = false) :
    b ∉ w := by
  intro hm
  rw [h.word b hm] at hb
  cases hb

/-- A text of plain bytes is code throughout. -/
theorem slice_of_plain {t : Text} (h : ∀ b ∈ t, Plain b) :
    (ofText t).slice 0 (ofText t).size = codeCells t := by
  rw [slice_zero_size, toList_ofText]
  exact (after_cells_plain h none).2

/-- A word that is spelled out somewhere in a text, with the cell behind it. -/
theorem isWord_of_cells {s : Source} {as r : List Cell} {c : Cell} {w : Text} {x : Span}
    (hw : w.IsName) (ha : Detached as) (hc : c.inWord = false)
    (hs : s.slice 0 s.size = as ++ (codeCells w ++ c :: r)) (hx : x.start = as.length)
    (hlen : x.stop = x.start + w.length) :
    s.IsWord x ∧ s.bytes x = w ∧ s.cells[x.stop]? = some c := by
  obtain ⟨i, j⟩ := x
  obtain rfl : i = as.length := hx
  obtain rfl : j = as.length + w.length := hlen
  obtain ⟨h1, hbefore, hs⟩ := slice_split (Nat.zero_le _) (Nat.le_refl _) hs
  rw [Nat.zero_add] at h1 hbefore hs
  obtain ⟨h2, hword, hs⟩ := slice_split h1 (Nat.le_refl _) hs
  rw [List.length_map] at h2 hword hs
  obtain ⟨-, hbehind, -⟩ := slice_uncons (Nat.le_refl _) hs
  rw [← hbefore, detached_slice (Nat.zero_le _) h1 (.inl rfl)] at ha
  obtain ⟨h3, h4⟩ := isWord_of_slice hword hw.ne_nil hw.word ha ((inWord_eq hbehind).trans hc)
  exact ⟨h3, h4, hbehind⟩

/-- An element that a list has only once is found at one position. -/
theorem eq_length_of_getElem? {α : Type} {as bs : List α} {a : α} {i : Nat} (ha : a ∉ as)
    (hb : a ∉ bs) (h : (as ++ a :: bs)[i]? = some a) : i = as.length := by
  rcases Nat.lt_trichotomy i as.length with hlt | heq | hgt
  · rw [List.getElem?_append_left hlt] at h
    exact absurd (List.mem_of_getElem? h) ha
  · exact heq
  · obtain ⟨k, rfl⟩ := Nat.exists_eq_add_of_lt hgt
    rw [List.getElem?_append_right (by omega), show as.length + k + 1 - as.length = k + 1 by omega,
      List.getElem?_cons_succ] at h
    exact absurd (List.mem_of_getElem? h) hb

/-- Somewhere in the text an entry is read from the environment. -/
def Source.HasEnv (s : Source) : Prop :=
  ∃ e colon value stop, s.IsEnv e colon value stop

/-! ## The one colon -/

/-- The name `n` and the variable `v` of the environment behind the text `u`. -/
def lone (u n v : Text) : Text :=
  u ++ (n ++ (.ofString " : " ++ (environment ++ (v ++ .ofString ";"))))

/-- What makes the colon behind the name the one colon of `lone u n v`, and the name a word of its
own outside of all braces. -/
structure LoneKey (u n v : Text) : Prop where
  plain : ∀ b ∈ u, Plain b
  no_colon : Byte.colon ∉ u
  no_brace : Byte.openBrace ∉ u
  edge : Detached (codeCells u)
  name : n.IsName
  var : v.IsName

/-- Where the entry of `lone u n v` would be. -/
def loneEntry (u n v : Text) : EnvEntry :=
  ⟨⟨u.length, u.length + n.length⟩,
    ⟨u.length + n.length + 15, u.length + n.length + 15 + v.length⟩⟩

namespace LoneKey

variable {u n v : Text} {e : EnvEntry} {colon value stop : Nat}

/-- The cells of the text, cut around the colon. -/
theorem cells (h : LoneKey u n v) :
    (ofText (lone u n v)).slice 0 (ofText (lone u n v)).size =
      codeCells u ++ (codeCells n ++ (codeCells (.ofString " : ") ++
        (codeCells environment ++ (codeCells v ++ codeCells (.ofString ";"))))) := by
  have hplain : ∀ b ∈ lone u n v, Plain b := by
    have hcolon : ∀ b ∈ Text.ofString " : ", Plain b := by decide
    have henv : ∀ b ∈ environment, Plain b := by decide
    have hend : ∀ b ∈ Text.ofString ";", Plain b := by decide
    intro b hb
    simp only [lone, List.mem_append] at hb
    rcases hb with hb | hb | hb | hb | hb | hb
    · exact h.plain b hb
    · exact (Text.quiet_of_isWord (h.name.word b hb)).1
    · exact hcolon b hb
    · exact henv b hb
    · exact (Text.quiet_of_isWord (h.var.word b hb)).1
    · exact hend b hb
  rw [slice_of_plain hplain]
  simp only [lone, codeCells, List.map_append]

/-- The name is a word. -/
theorem isWord_name (h : LoneKey u n v) :
    (ofText (lone u n v)).IsWord (loneEntry u n v).name ∧
      (ofText (lone u n v)).bytes (loneEntry u n v).name = n :=
  (isWord_of_cells h.name h.edge rfl h.cells (by simp [loneEntry]) rfl).imp_right And.left

/-- What the variable is read from begins with a word, too. -/
theorem isWord_process (h : LoneKey u n v) :
    (ofText (lone u n v)).IsWord ⟨u.length + n.length + 3, u.length + n.length + 10⟩ := by
  have hsep : ∀ c ∈ (codeCells (.ofString " : ")).getLast?, c.inWord = false := by decide
  have henv : codeCells environment =
      codeCells (.ofString "process") ++ codeCells (.ofString ".env.") := by decide
  have hs := h.cells
  rw [henv, List.append_assoc (codeCells (.ofString "process")), ← List.append_assoc,
    ← List.append_assoc] at hs
  have hlen : (Text.ofString "process").length = 7 := by decide
  refine (isWord_of_cells (w := .ofString "process")
    ⟨Text.wellFormed_ofChars _, by decide, by decide⟩ (Detached.of_behind hsep (by decide))
    (c := ⟨Byte.dot, .code⟩) rfl hs ?_ (by dsimp only; omega)).1
  simp [Nat.add_assoc, show (Text.ofString " : ").length = 3 by decide]

/-- The variable is a word, and it is not asserted. -/
theorem isWord_var (h : LoneKey u n v) :
    (ofText (lone u n v)).IsWord (loneEntry u n v).var ∧
      (ofText (lone u n v)).bytes (loneEntry u n v).var = v ∧
        (ofText (lone u n v)).cells[(loneEntry u n v).var.stop]? = some ⟨0x3B, .code⟩ := by
  have henv : ∀ c ∈ (codeCells environment).getLast?, c.inWord = false := by decide
  have hs := h.cells
  rw [← List.append_assoc, ← List.append_assoc, ← List.append_assoc] at hs
  refine isWord_of_cells h.var (Detached.of_behind henv (by decide)) (c := ⟨0x3B, .code⟩) rfl hs
    ?_ rfl
  simp [loneEntry, Nat.add_assoc, show (Text.ofString " : ").length = 3 by decide,
    show environment.length = 12 by decide]

/-- A colon in code is the one behind the name. -/
theorem eq_of_colon {i : Nat} (h : LoneKey u n v)
    (hi : (ofText (lone u n v)).codeByte? i = some Byte.colon) : i = u.length + n.length + 1 := by
  have hcells : (ofText (lone u n v)).slice 0 (ofText (lone u n v)).size =
      codeCells (u ++ n ++ [Byte.space]) ++ ⟨Byte.colon, .code⟩ ::
        codeCells ([Byte.space] ++ environment ++ v ++ .ofString ";") := by
    rw [h.cells, show codeCells (.ofString " : ") =
      [⟨Byte.space, .code⟩, ⟨Byte.colon, .code⟩, ⟨Byte.space, .code⟩] by decide]
    simp [codeCells]
  rw [codeByte?_eq_some, ← Array.getElem?_toList, ← slice_zero_size, hcells] at hi
  have hspace : Byte.colon ∉ [Byte.space] := by decide
  have henv : Byte.colon ∉ environment := by decide
  have hend : Byte.colon ∉ Text.ofString ";" := by decide
  have hname := h.name.not_mem (b := Byte.colon) rfl
  have hvar := h.var.not_mem (b := Byte.colon) rfl
  rw [eq_length_of_getElem? ?_ ?_ hi]
  · simp [Nat.add_assoc]
  · simp only [mem_codeCells, List.mem_append, not_or]
    exact ⟨⟨h.no_colon, hname⟩, hspace⟩
  · simp only [mem_codeCells, List.mem_append, not_or]
    exact ⟨⟨⟨hspace, henv⟩, hvar⟩, hend⟩

/-- The name of an entry is the word before the colon. -/
theorem name_eq (h : LoneKey u n v) (he : (ofText (lone u n v)).IsEnv e colon value stop) :
    e.name = (loneEntry u n v).name := by
  obtain ⟨hname, -⟩ := h.isWord_name
  obtain ⟨hlt, hstop, -⟩ := he.order
  have hcolon := h.eq_of_colon he.key.colon_code
  have hpos := List.length_pos_iff.2 h.name.ne_nil
  have hlast := hname.inside (u.length + n.length - 1)
    (by dsimp only [loneEntry]; omega) (by dsimp only [loneEntry]; omega)
  have hbehind : (ofText (lone u n v)).inWord (u.length + n.length) = false := hname.behind
  -- The last byte of the name is no trivia, and the byte behind it is no part of a word.
  have h1 : u.length + n.length - 1 < e.name.stop := Nat.lt_of_not_le fun hle => by
    have := he.key.trivia_before.le_of_inWord hle hlast
    omega
  have h2 : e.name.start ≤ u.length + n.length - 1 := Nat.le_of_not_lt fun hgt => by
    have hin := he.key.word.inWord_start
    rw [show e.name.start = u.length + n.length by omega, hbehind] at hin
    cases hin
  exact he.key.word.eq_of_mem hname h2 h1 (by dsimp only [loneEntry]; omega)
    (by dsimp only [loneEntry]; omega)

/-- The value of an entry is what the variable is read from. -/
theorem value_eq (h : LoneKey u n v) (he : (ofText (lone u n v)).IsEnv e colon value stop) :
    value = u.length + n.length + 3 := by
  have hprocess := h.isWord_process
  have hcolon := h.eq_of_colon he.key.colon_code
  have hbefore : (ofText (lone u n v)).inWord (u.length + n.length + 2) = false :=
    hprocess.before.resolve_left (Nat.succ_ne_zero _)
  obtain ⟨-, -, hlt, -⟩ := he.order
  obtain ⟨x, rfl, hx, -⟩ := isWord_iff.1 he.process
  have hle : x.start ≤ u.length + n.length + 3 := he.key.trivia_behind.le_of_inWord
    (by omega) hprocess.inWord_start
  refine Nat.le_antisymm hle (Nat.le_of_not_lt fun hspace => ?_)
  -- Before it there is a space, and no word begins there.
  have hin := hx.inWord_start
  rw [show x.start = u.length + n.length + 2 by omega, hbefore] at hin
  cases hin

/-- **The entry that the text could have.** -/
theorem eq_of_isEnv (h : LoneKey u n v) (he : (ofText (lone u n v)).IsEnv e colon value stop) :
    e = loneEntry u n v := by
  obtain ⟨hvar, -, hend⟩ := h.isWord_var
  have hvalue := h.value_eq he
  obtain ⟨-, -, -, hstart, hpos, -⟩ := he.order
  have hstart : e.var.start = (loneEntry u n v).var.start := by
    dsimp only [loneEntry]
    omega
  have hword : (⟨e.var.start, stop⟩ : Span) = (loneEntry u n v).var :=
    he.word.eq_of_mem hvar (Nat.le_refl _) hpos (Nat.le_of_eq hstart.symm) (hstart ▸ hvar.lt)
  have hassert : (ofText (lone u n v)).isAsserted stop = false := by
    rw [isAsserted, show stop = (loneEntry u n v).var.stop from congrArg Span.stop hword,
      codeByte?_eq_some.2 hend]
    rfl
  have hstop := he.stop_eq
  rw [hassert, if_neg Bool.false_ne_true] at hstop
  have hspan : e.var = (loneEntry u n v).var := by
    rw [← hword, ← hstop]
  exact congrArg₂ EnvEntry.mk (h.name_eq he) hspan

/-- **When the text has an entry.** -/
theorem hasEnv_iff (h : LoneKey u n v) : (ofText (lone u n v)).HasEnv ↔
    ¬ Questioned (codeCells u) ∧ Text.sameIgnoringCase n apiKeyField = false ∧ n ≠ nestedKey := by
  obtain ⟨hlead, hbehind, hrest⟩ := slice_split (Nat.zero_le _) (Nat.le_refl _) h.cells
  rw [List.length_map, Nat.zero_add] at hlead hbehind hrest
  constructor
  · rintro ⟨e, colon, value, stop, he⟩
    obtain rfl := h.eq_of_isEnv he
    have hshape := he.shape
    rw [h.isWord_name.2] at hshape
    refine ⟨?_, hshape.field_ne, hshape.name_ne⟩
    rw [← hbehind]
    exact hshape.question
  · rintro ⟨hquestion, hfield, hname⟩
    have hshape : EnvShape (codeCells u) n (codeCells n ++ codeCells (.ofString " : "))
        (codeCells environment ++ (codeCells v ++ codeCells (.ofString ";"))) :=
      { detached := h.edge
        ne_nil := h.name.ne_nil
        word := h.name.word
        field_ne := hfield
        name_ne := hname
        key := ⟨codeCells [Byte.space], codeCells [Byte.space], by decide, by decide, rfl⟩
        reads := ⟨_, rfl, worded_codeCells h.var.ne_nil h.var.word⟩
        question := hquestion
        outside := by
          rintro ⟨a, ds, heq, -⟩
          exact h.no_brace (mem_codeCells.1 (by rw [heq]; simp)) }
    obtain ⟨e, colon, value, stop, he, -⟩ := exists_isEnv hlead hshape hbehind (by rw [hrest]; simp)
    exact ⟨e, colon, value, stop, he⟩

/-- The pass finds the entry and nothing else. -/
theorem hits_eq (h : LoneKey u n v) (he : (ofText (lone u n v)).HasEnv) :
    Pass.envAssignment.hits (ofText (lone u n v)) = [.env (loneEntry u n v)] := by
  have hall : ∀ x ∈ Pass.envAssignment.hits (ofText (lone u n v)), x = .env (loneEntry u n v) := by
    intro x hx
    obtain ⟨e, colon, value, stop, rfl, he⟩ := allEnv_hits x hx
    rw [h.eq_of_isEnv he]
  have hfollow := (finds_hits .envAssignment (ofText (lone u n v))).1.pairwise
  obtain ⟨e, colon, value, stop, he⟩ := he
  obtain ⟨g, hg, -⟩ := exists_hit_of_env he
  have ho := he.order
  rw [h.eq_of_isEnv he] at ho
  generalize Pass.envAssignment.hits (ofText (lone u n v)) = hs at *
  cases hs with
  | nil => cases hg
  | cons x xs =>
    obtain rfl := hall x List.mem_cons_self
    -- A second one would begin behind the first.
    have hnone : xs = [] := List.eq_nil_iff_forall_not_mem.2 fun y hy => by
      have hle := List.rel_of_pairwise_cons hfollow hy
      rw [hall y (List.mem_cons_of_mem _ hy)] at hle
      simp only [Hit.span, EnvEntry.span] at hle
      omega
    rw [hnone]

end LoneKey

/-- The pass finds nothing where there is no entry. -/
theorem Pass.hits_eq_nil_of_no_env {s : Source} (h : ¬ s.HasEnv) :
    Pass.envAssignment.hits s = [] := by
  refine List.eq_nil_iff_forall_not_mem.2 fun x hx => ?_
  obtain ⟨e, colon, value, stop, -, hx⟩ := allEnv_hits x hx
  exact h ⟨e, colon, value, stop, hx⟩

/-- What the pass leaves where it finds a single entry. -/
theorem Pass.output_of_env {t : Text} {e : EnvEntry}
    (h : Pass.envAssignment.hits (ofText t) = [.env e]) : Pass.envAssignment.output t =
      (ofText t).bytes ⟨0, e.name.start⟩ ++
        (Entry.nested (.ofEnv ((ofText t).bytes e.name) ((ofText t).bytes e.var))
          ((ofText t).indentOf e.name.start) ++ (ofText t).bytes ⟨e.var.stop, t.length⟩) := by
  rw [Pass.output, Pass.changes, h, ← changed_env]
  simp [changed, weave, Hit.changes, Hit.anchor, bytes_self, EnvEntry.change]

/-- The bytes of a text in two parts. -/
theorem bytes_parts (u w : Text) : (ofText (u ++ w)).bytes ⟨0, u.length⟩ = u ∧
    (ofText (u ++ w)).bytes ⟨u.length, (u ++ w).length⟩ = w := by
  constructor <;> rw [bytes_eq, map_byte_slice] <;> simp

/-- The entry is nested between what stands before it and what ends the text. -/
theorem LoneKey.output_eq {u n v : Text} (h : LoneKey u n v)
    (he : (ofText (lone u n v)).HasEnv) : Pass.envAssignment.output (lone u n v) =
      u ++ ((Entry.ofEnv n v).nested ((ofText (lone u n v)).indentOf u.length) ++
        .ofString ";") := by
  obtain ⟨hbefore, -⟩ := bytes_parts u
    (n ++ (.ofString " : " ++ (environment ++ (v ++ .ofString ";"))))
  obtain ⟨-, hbehind⟩ := bytes_parts (u ++ n ++ .ofString " : " ++ environment ++ v) (.ofString ";")
  have hlen : (u ++ n ++ .ofString " : " ++ environment ++ v).length =
      (loneEntry u n v).var.stop := by
    have hsep : (Text.ofString " : ").length = 3 := by decide
    have henv : environment.length = 12 := by decide
    simp only [List.length_append, loneEntry]
    omega
  rw [hlen, show u ++ n ++ .ofString " : " ++ environment ++ v ++ .ofString ";" = lone u n v by
    simp only [lone, List.append_assoc]] at hbehind
  rw [Pass.output_of_env (h.hits_eq he), h.isWord_name.2, h.isWord_var.2.1, hbehind]
  exact congrArg (· ++ _) hbefore

/-- A line that begins with neither a space nor a tab has no indentation. -/
theorem indentOf_eq_nil {t : Text} {i : Nat} {b : UInt8} {r : Text} (ht : t = b :: r)
    (hb : b ≠ Byte.space ∧ b ≠ Byte.tab) (hline : Byte.newline ∉ t.take i) :
    (ofText t).indentOf i = [] := by
  have hstart : (ofText t).lineStart i = 0 := by
    refine backward_eq (Nat.le_refl i) (Nat.zero_le i) (by omega) (fun k _ hk => ?_)
      fun h => absurd h (Nat.not_lt_zero _)
    rw [byte?_ofText, bne_iff_ne]
    intro hnewline
    rw [← List.getElem?_take_of_lt hk] at hnewline
    exact hline (List.mem_of_getElem? hnewline)
  refine List.eq_nil_iff_forall_not_mem.2 fun x hx => ?_
  have hfirst : b ∈ (ofText t).indentOf i := by
    rw [indentOf, bytes_eq, map_byte_slice, indentSpan, hstart] at hx ⊢
    rw [ht, List.drop_zero] at hx ⊢
    cases hn : _ - 0 with
    | zero =>
      rw [hn] at hx
      cases hx
    | succ n => exact List.mem_cons_self
  exact (mem_indentOf hfirst).elim hb.1 hb.2

/-! ## Conditionals -/

/-- A conditional on `c` with a chain of names in the middle and the variable `v` of the environment
at the end. -/
def conditional (c : Text) (names : List Text) (v : Text) : Text :=
  c ++ .ofString " ? " ++ [Byte.dot].intercalate names ++ .ofString " : " ++ environment ++ v ++
    .ofString ";"

/-- A conditional up to the last name of its chain. -/
def lead (c : Text) (ns : List Text) : Text :=
  c ++ (.ofString " ? " ++ ns.flatMap fun m => m ++ [Byte.dot])

/-- What keeps the last operand of a conditional from being taken for an entry: the last name of the
chain is the only one, or it is a name that is passed over. -/
def LeftAlone (ns : List Text) (n : Text) : Prop :=
  ns = [] ∨ Text.sameIgnoringCase n apiKeyField = true ∨ n = nestedKey

section
variable {c n v : Text} {ns : List Text}

theorem intercalate_concat (ns : List Text) (n : Text) :
    [Byte.dot].intercalate (ns ++ [n]) = (ns.flatMap fun m => m ++ [Byte.dot]) ++ n := by
  induction ns with
  | nil => exact List.intercalate_singleton
  | cons m ns ih =>
    obtain ⟨x, xs, hx⟩ := List.exists_cons_of_ne_nil (List.concat_ne_nil n ns)
    rw [List.cons_append, hx, List.intercalate_cons_cons, ← hx, ih, List.flatMap_cons,
      List.append_assoc _ _ n]

theorem conditional_concat : conditional c (ns ++ [n]) v = lone (lead c ns) n v := by
  rw [conditional, intercalate_concat]
  simp only [lone, lead, List.append_assoc]

/-- What stands before the last name: parts of words, spaces, the question mark and dots. -/
theorem mem_lead {b : UInt8} (hc : c.IsName) (hns : ∀ m ∈ ns, m.IsName) (hb : b ∈ lead c ns) :
    Byte.isWord b = true ∨ b ∈ [Byte.space, Byte.question, Byte.dot] := by
  have hmark : ∀ b ∈ Text.ofString " ? ", b ∈ [Byte.space, Byte.question, Byte.dot] := by decide
  rcases List.mem_append.1 hb with hb | hb
  · exact .inl (hc.word b hb)
  rcases List.mem_append.1 hb with hb | hb
  · exact .inr (hmark b hb)
  obtain ⟨m, hm, hb⟩ := List.mem_flatMap.1 hb
  rcases List.mem_append.1 hb with hb | hb
  · exact .inl ((hns m hm).word b hb)
  · rw [List.mem_singleton.1 hb]
    exact .inr (by decide)

theorem lead_concat (m : Text) : lead c (ns ++ [m]) = lead c ns ++ m ++ [Byte.dot] := by
  simp [lead, List.flatMap_append]

/-- **Before the last name stands a question mark if it is the only one**, else a dot. -/
theorem questioned_lead : Questioned (codeCells (lead c ns)) ↔ ns = [] := by
  constructor
  · rintro ⟨a, v, heq, hv⟩
    rcases List.eq_nil_or_concat ns with rfl | ⟨ns, m, rfl⟩
    · rfl
    rw [List.concat_eq_append, lead_concat, codeCells, List.map_append] at heq
    have hlast := congrArg List.getLast? heq
    rw [List.map_singleton, List.getLast?_concat] at hlast
    rcases List.eq_nil_or_concat v with rfl | ⟨v, x, rfl⟩
    · rw [List.getLast?_concat] at hlast
      cases hlast
    · rw [List.concat_eq_append, ← List.cons_append, ← List.append_assoc,
        List.getLast?_concat] at hlast
      obtain rfl := Option.some.inj hlast
      have := hv ⟨Byte.dot, .code⟩ (by rw [List.concat_eq_append]; simp)
      cases this
  · rintro rfl
    refine ⟨codeCells (c ++ [Byte.space]), codeCells [Byte.space], ?_, by decide⟩
    rw [lead, List.flatMap_nil, List.append_nil,
      show Text.ofString " ? " = [Byte.space, Byte.question, Byte.space] by decide]
    simp [codeCells]

/-- No word goes on behind it. -/
theorem detached_lead : Detached (codeCells (lead c ns)) := by
  rcases List.eq_nil_or_concat ns with rfl | ⟨ns, m, rfl⟩
  · have hmark : ∀ c ∈ (codeCells (.ofString " ? ")).getLast?, c.inWord = false := by decide
    rw [lead, List.flatMap_nil, List.append_nil, codeCells, List.map_append]
    exact Detached.of_behind hmark (by decide)
  · rw [List.concat_eq_append, lead_concat, codeCells, List.map_append]
    exact detached_concat rfl

/-- **The colon of such a conditional is its only one.** -/
theorem loneKey_lead (hc : c.IsName) (hns : ∀ m ∈ ns, m.IsName) (hn : n.IsName) (hv : v.IsName) :
    LoneKey (lead c ns) n v := by
  have hmem {b : UInt8} (hb : b ∈ lead c ns) := mem_lead hc hns hb
  refine ⟨fun b hb => ?_, fun hb => ?_, fun hb => ?_, detached_lead, hn, hv⟩
  · have hmark : ∀ b ∈ [Byte.space, Byte.question, Byte.dot], Plain b := by decide
    exact (hmem hb).elim (fun hb => (Text.quiet_of_isWord hb).1) (hmark b)
  · exact absurd (hmem hb) (by decide)
  · exact absurd (hmem hb) (by decide)

theorem wellFormed_lead (hc : c.IsName) (hns : ∀ m ∈ ns, m.IsName) : (lead c ns).WellFormed := by
  refine hc.whole.append ((Text.wellFormed_ofChars _).append ?_)
  induction ns with
  | nil => exact .nil
  | cons m ns ih =>
    rw [List.flatMap_cons]
    exact ((hns m List.mem_cons_self).whole.append (Text.wellFormed_of_ascii (by decide))).append
      (ih fun x hx => hns x (List.mem_cons_of_mem _ hx))

/-- The line of a conditional is not indented. -/
theorem indentOf_lead (hc : c.IsName) (hns : ∀ m ∈ ns, m.IsName) (r : Text) :
    (ofText (lead c ns ++ r)).indentOf (lead c ns).length = [] := by
  obtain ⟨b, d, rfl⟩ := List.exists_cons_of_ne_nil hc.ne_nil
  have hb := hc.word b List.mem_cons_self
  refine indentOf_eq_nil rfl ⟨?_, ?_⟩ fun hm => ?_
  · rintro rfl
    cases hb
  · rintro rfl
    cases hb
  · rw [List.take_left' rfl] at hm
    exact absurd (mem_lead hc hns hm) (by decide)

/-- **What the pass does with a conditional** whose last operand is a variable of the environment.
It leaves the text alone if the operand in the middle is a single name, or a chain that ends in a
name that is passed over. Else it nests the last name of the chain as an entry. -/
theorem Pass.envAssignment_conditional (hc : c.IsName) (hns : ∀ m ∈ ns, m.IsName) (hn : n.IsName)
    (hv : v.IsName) : ∃ r, Pass.envAssignment.apply (conditional c (ns ++ [n]) v) = .ok r ∧
      ((r.text = conditional c (ns ++ [n]) v ∧ countEdits r.edits = 0) ↔ LeftAlone ns n) ∧
      (¬ LeftAlone ns n → countEdits r.edits = 1 ∧
        r.text = lead c ns ++ ((Entry.ofEnv n v).nested [] ++ .ofString ";")) := by
  have h := loneKey_lead hc hns hn hv
  have hleft : LeftAlone ns n ↔ ¬ (ofText (lone (lead c ns) n v)).HasEnv := by
    rw [h.hasEnv_iff, questioned_lead, LeftAlone]
    simp only [not_and_or, not_not, Bool.not_eq_false, ne_eq]
  have ht : (lone (lead c ns) n v).WellFormed :=
    (wellFormed_lead hc hns).append <| hn.whole.append <| (Text.wellFormed_ofChars _).append <|
      (Text.wellFormed_of_ascii (by decide)).append <| hv.whole.append <| Text.wellFormed_ofChars _
  rw [conditional_concat, hleft, not_not]
  refine ⟨_, Pass.envAssignment.apply_eq ht, ⟨?_, fun hnone => ?_⟩, fun he => ⟨?_, ?_⟩⟩
  · rintro ⟨-, hcount⟩ he
    have := Pass.hits_of_count hcount
    rw [h.hits_eq he] at this
    cases this
  · have hcount : countEdits (Pass.envAssignment.edits (lone (lead c ns) n v)) = 0 := by
      rw [Pass.edits, Pass.hits_eq_nil_of_no_env hnone]
      rfl
    exact ⟨Pass.envAssignment.output_of_count hcount, hcount⟩
  · rw [Pass.edits, h.hits_eq he]
    rfl
  · rw [← indentOf_lead hc hns]
    exact h.output_eq he

/-- In `c ? a.b : process.env.V;` the name `b` is taken for that of an entry. -/
theorem Pass.envAssignment_conditional_chain :
    (Text.ofString "c").IsName ∧ (∀ m ∈ [Text.ofString "a"], m.IsName) ∧
      (Text.ofString "b").IsName ∧ (Text.ofString "V").IsName ∧
      conditional (.ofString "c") [.ofString "a", .ofString "b"] (.ofString "V") =
        .ofString "c ? a.b : process.env.V;" ∧
      ∃ r, Pass.envAssignment.apply (.ofString "c ? a.b : process.env.V;") = .ok r ∧
        countEdits r.edits = 1 ∧ r.text = .ofString
          "c ? a.b: \x7b\n  default: \x7b apiKey: process.env.V \x7d,\n\x7d;" := by
  have hname {s : String} (hne : Text.ofString s ≠ [])
      (hw : ∀ b ∈ Text.ofString s, Byte.isWord b = true) : (Text.ofString s).IsName :=
    ⟨Text.wellFormed_ofChars _, hne, hw⟩
  have hc : (Text.ofString "c").IsName := hname (by decide) (by decide)
  have hv : (Text.ofString "V").IsName := hname (by decide) (by decide)
  have hb : (Text.ofString "b").IsName := hname (by decide) (by decide)
  have hns : ∀ m ∈ [Text.ofString "a"], m.IsName := by
    intro m hm
    rw [List.mem_singleton.1 hm]
    exact hname (by decide) (by decide)
  have htext : conditional (.ofString "c") [.ofString "a", .ofString "b"] (.ofString "V") =
    .ofString "c ? a.b : process.env.V;" := by decide
  refine ⟨hc, hns, hb, hv, htext, ?_⟩
  obtain ⟨r, hr, -, hchanged⟩ := Pass.envAssignment_conditional hc hns hb hv
  obtain ⟨hcount, hout⟩ := hchanged (by unfold LeftAlone; decide)
  rw [List.singleton_append, htext] at hr
  exact ⟨r, hr, hcount, hout.trans (by decide)⟩

end

end ProviderNest
