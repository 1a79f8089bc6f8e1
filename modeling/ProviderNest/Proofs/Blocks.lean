import ProviderNest.Proofs.Rebuilding

/-!
# Blocks by their cells

Whether a `providers` block begins at a position is decided by the cells from there on, and whether
one of its entries is flat by the cells between its braces. `BlockCells cs ds` says that the cells
`cs` begin with a block that has `ds` between its braces, and `HasFlat ds` that one of the pieces
of `ds` is a flat entry (`FlatPiece`). `blockCells_of_block?`, `block?_of_blockCells` and
`flatEntriesOf_ne_nil_iff` say that this is what the search for blocks finds.

A block ends where its brace is closed. So a block that begins in a part whose braces are closed in
it, with a comma or a closing brace behind it, lies in that part (`BlockCells.within`).
-/

namespace ProviderNest

open LexState Source

/-- The cell is code and part of a word. -/
def Cell.inWord (c : Cell) : Bool := c.kind == .code && Byte.isWord c.byte

/-- The cells do not end inside a word. -/
def Detached (cs : List Cell) : Prop := ∀ c ∈ cs.getLast?, c.inWord = false

/-- The cells are the key `w` with its colon and the trivia up to its value. -/
def KeyCells (w : Text) (cs : List Cell) : Prop := ∃ v u : List Cell,
  (∀ c ∈ v, c.isTrivia = true) ∧ (∀ c ∈ u, c.isTrivia = true) ∧
    cs = codeCells w ++ (v ++ ⟨Byte.colon, .code⟩ :: u)

/-- The parts of a flat entry behind the cells `z`: trivia, the key `w` with the cells `k`, what its
braces enclose, and trivia. -/
structure FlatShape (z u : List Cell) (w : Text) (k ds r : List Cell) : Prop where
  trivia_before : ∀ c ∈ u, c.isTrivia = true
  detached : Detached (z ++ u)
  ne_nil : w ≠ []
  word : ∀ b ∈ w, Byte.isWord b = true
  name_ne : w ≠ nestedKey
  key : KeyCells w k
  closed : closers ds 0 = some 0
  opens : Opens ds
  trivia_behind : ∀ c ∈ r, c.isTrivia = true

/-- The cells behind the cells `z` are a flat entry. -/
def FlatCells (z cs : List Cell) : Prop := ∃ u w k ds r, FlatShape z u w k ds r ∧
  cs = u ++ (k ++ ⟨Byte.openBrace, .code⟩ :: (ds ++ ⟨Byte.closeBrace, .code⟩ :: r))

/-- The piece of a body is a flat entry between blanks. -/
def FlatPiece (p : List Cell) : Prop := ∃ z cs y, p = z ++ (cs ++ y) ∧
  Text.MadeOf Text.blanks (z.map Cell.byte) ∧ Text.MadeOf Text.blanks (y.map Cell.byte) ∧
    Text.Trimmed (cs.map Cell.byte) ∧ FlatCells z cs

/-- One of the pieces of a body is a flat entry. -/
def HasFlat (ds : List Cell) : Prop := ∃ p ∈ divide 0 ds, FlatPiece p

/-- The cells begin with a `providers` block that has the cells `ds` between its braces. -/
def BlockCells (cs ds : List Cell) : Prop := ∃ k r, KeyCells providersKey k ∧
  closers ds 0 = some 0 ∧
    cs = k ++ ⟨Byte.openBrace, .code⟩ :: (ds ++ ⟨Byte.closeBrace, .code⟩ :: r)

/-- Somewhere in the cells, and not inside a word, a block with the cells `ds` begins. -/
def HasBlock (cs ds : List Cell) : Prop := ∃ as bs, cs = as ++ bs ∧ Detached as ∧ BlockCells bs ds

/-- The cell that a block begins with. -/
abbrev Cell.initial : Cell := ⟨0x70, .code⟩

/-! ## Where braces open and close -/

section
variable {as bs cs ds k r : List Cell}

theorem Inert.not_open (h : Inert cs) : ⟨Byte.openBrace, .code⟩ ∉ cs :=
  fun hc => absurd (h _ hc).1 (by decide)

theorem Inert.not_close (h : Inert cs) : ⟨Byte.closeBrace, .code⟩ ∉ cs :=
  fun hc => absurd (h _ hc).1 (by decide)

theorem Inert.not_comma (h : Inert cs) : Cell.comma ∉ cs := fun hc => (h _ hc).2 rfl

/-- A list is cut before one of its elements or behind it. -/
theorem append_cons_cut {α : Type} {x : α} {as bs cs ds : List α} (h : as ++ x :: cs = bs ++ ds) :
    (∃ m, as = bs ++ m ∧ ds = m ++ x :: cs) ∨ ∃ m, bs = as ++ x :: m ∧ cs = m ++ ds := by
  rcases List.append_eq_append_iff.1 h with ⟨m, rfl, hm⟩ | ⟨m, rfl, rfl⟩
  · cases m with
    | nil => exact .inl ⟨[], by simp, hm.symm⟩
    | cons y m =>
      obtain ⟨rfl, rfl⟩ := List.cons.inj hm
      exact .inr ⟨m, rfl, rfl⟩
  · exact .inl ⟨m, rfl, rfl⟩

/-- What comes before the first cell of some kind is told from what is behind it. -/
theorem append_cons_inj {α : Type} {x : α} {as bs cs ds : List α} (ha : x ∉ as) (hb : x ∉ bs)
    (h : as ++ x :: cs = bs ++ x :: ds) : as = bs ∧ cs = ds := by
  induction as generalizing bs with
  | nil =>
    cases bs with
    | nil => exact ⟨rfl, (List.cons.inj h).2⟩
    | cons b bs => exact absurd ((List.cons.inj h).1 ▸ List.mem_cons_self) hb
  | cons a as ih =>
    cases bs with
    | nil => exact absurd ((List.cons.inj h).1 ▸ List.mem_cons_self) ha
    | cons b bs =>
      obtain ⟨rfl, hrest⟩ := List.cons.inj h
      obtain ⟨rfl, hcs⟩ := ih (fun hm => ha (List.mem_cons_of_mem _ hm))
        (fun hm => hb (List.mem_cons_of_mem _ hm)) hrest
      exact ⟨rfl, hcs⟩

/-- Of cells that are closed on the whole, no first part leaves a closing brace over. -/
theorem closers_prefix {d : Nat} (h : closers (as ++ bs) 0 = some 0) (ha : closers as 0 = some d) :
    d = 0 ∧ closers bs 0 = some 0 := by
  rw [closers_append] at h
  obtain ⟨m, hm, hd⟩ := Option.bind_eq_some_iff.1 h
  rw [closers_add ha, Option.some.injEq] at hd
  obtain rfl : m = 0 := by omega
  exact ⟨by omega, hm⟩

/-- If all closing braces can be counted, so can those of what is behind a part. -/
theorem isSome_closers_of_append {d : Nat} (h : (closers (as ++ bs) d).isSome = true) :
    (closers bs d).isSome = true := by
  rw [closers_append] at h
  exact Option.isSome_of_isSome_bind h

/-- What is closed as a whole is closed without its first cell. -/
theorem isSome_closers_of_cons {c : Cell} {d : Nat} (h : (closers (c :: cs) d).isSome = true) :
    (closers cs d).isSome = true :=
  Option.isSome_of_isSome_bind h

/-- The closing brace that belongs to an opening one is determined. -/
theorem closed_inj (ha : closers as 0 = some 0) (hb : closers bs 0 = some 0)
    (h : as ++ ⟨Byte.closeBrace, .code⟩ :: cs = bs ++ ⟨Byte.closeBrace, .code⟩ :: ds) :
    as = bs ∧ cs = ds := by
  -- A part that is closed and goes on behind a closing brace would leave that brace over.
  have hno {as m : List Cell} (ha : closers as 0 = some 0)
      (hm : closers (as ++ ⟨Byte.closeBrace, .code⟩ :: m) 0 = some 0) : False := by
    obtain ⟨-, hm⟩ := closers_prefix hm ha
    obtain ⟨n, -, hn⟩ := Option.bind_eq_some_iff.1 hm
    rw [Cell.closers, if_neg (by decide), if_pos rfl, Option.some.injEq] at hn
    omega
  rcases append_cons_cut h with ⟨m, rfl, hm⟩ | ⟨m, rfl, -⟩
  · cases m with
    | nil => exact ⟨List.append_nil _, (List.cons.inj hm).2.symm⟩
    | cons c m =>
      obtain ⟨rfl, -⟩ := List.cons.inj hm
      exact (hno hb ha).elim
  · exact (hno ha hb).elim

/-- A brace that is opened and not closed leaves nothing to tell. -/
theorem not_isSome_closers (h : closers (ds ++ bs) 0 = some 0)
    (hs : cs = as ++ ⟨Byte.openBrace, .code⟩ :: ds) :
    ¬ (closers cs 0).isSome = true := by
  intro hc
  obtain ⟨n, hn⟩ := Option.isSome_iff_exists.1 hc
  rw [hs, closers_append] at hn
  obtain ⟨m, hm, -⟩ := Option.bind_eq_some_iff.1 hn
  obtain ⟨d, hd, hm⟩ := Option.bind_eq_some_iff.1 hm
  obtain ⟨rfl, -⟩ := closers_prefix h hd
  rw [Cell.closers, if_pos rfl, if_pos rfl] at hm
  cases hm

end

/-! ## Keys -/

section
variable {w : Text} {k : List Cell}

/-- The cells of a key, up to its value, are inert. -/
theorem KeyCells.inert (h : KeyCells w k) (hw : ∀ b ∈ w, Byte.isWord b = true) : Inert k := by
  obtain ⟨v, u, hv, hu, rfl⟩ := h
  refine (inert_of_isWord hw).append ((inert_of_isTrivia hv).append fun c hc => ?_)
  rcases List.mem_cons.1 hc with rfl | hc
  · exact inert_of_byte (by decide) (by decide) _
  · exact inert_of_isTrivia hu c hc

/-- The cells of the first field, up to its value, are inert. -/
theorem FieldCells.inert (h : FieldCells k) : Inert k := by
  obtain ⟨v, hv, rfl⟩ := h
  have hword : Inert (codeCells apiKeyField) := by decide
  have hcolon : Inert (codeCells [Byte.colon]) := by decide
  exact (hword.append (inert_of_isTrivia hv)).append hcolon

theorem isWord_providersKey : ∀ b ∈ providersKey, Byte.isWord b = true := by
  decide

/-- The cells of a key up to its value. -/
theorem Source.IsKey.keyCells {s : Source} {key : Key} {colon : Nat} (h : s.IsKey key colon) :
    KeyCells (s.bytes key.name) (s.slice key.name.start key.value) := by
  have h1 := h.value_le_size
  have h2 := h.colon_lt_value
  exact ⟨s.slice key.name.stop colon, s.slice (colon + 1) key.value,
    (triviaRun_iff (by omega)).1 h.trivia_before, (triviaRun_iff h1).1 h.trivia_behind, h.slice_eq⟩

/-- A key that is spelled out before its value, which begins with the cell `c`. -/
theorem Source.isKey_of_keyCells {s : Source} {i j : Nat} {c : Cell} {r : List Cell} (hij : i ≤ j)
    (hj : j ≤ s.size) (h : KeyCells w k) (hs : s.slice i j = k ++ c :: r) (hne : w ≠ [])
    (hw : ∀ b ∈ w, Byte.isWord b = true) (hc : c.isTrivia = false)
    (hcolon : c ≠ ⟨Byte.colon, .code⟩) (hb : i = 0 ∨ s.inWord (i - 1) = false) :
    ∃ colon, s.IsKey ⟨⟨i, i + w.length⟩, i + k.length⟩ colon ∧ s.bytes ⟨i, i + w.length⟩ = w ∧
      i + k.length < j ∧ s.slice (i + k.length) j = c :: r := by
  obtain ⟨v, u, hv, hu, rfl⟩ := h
  have hlength : i + (codeCells w ++ (v ++ (⟨Byte.colon, .code⟩ : Cell) :: u)).length =
      i + w.length + v.length + 1 + u.length := by
    simp only [List.length_append, List.length_map, List.length_cons]
    omega
  simp only [List.append_assoc, List.cons_append] at hs
  rw [hlength]
  exact ⟨_, isKey_of_slice hij hj hs hne hw hv hu hc hcolon hb⟩

end

/-! ## Ends of words -/

section
variable {as bs : List Cell}

/-- The end decides whether cells are detached, so cells before it can be left out. -/
theorem Detached.of_append (h : Detached (as ++ bs)) : Detached bs := fun c hc =>
  h c (by rw [List.getLast?_append, hc]; rfl)

/-- Detached cells behind detached cells are detached, also if there are none of them. -/
theorem Detached.append (ha : Detached as) (hb : Detached bs) : Detached (as ++ bs) := by
  intro c hc
  rw [List.getLast?_append] at hc
  cases hlast : bs.getLast? with
  | none =>
    rw [hlast] at hc
    exact ha c hc
  | some x =>
    rw [hlast] at hc
    cases hc
    exact hb c hlast

theorem detached_concat {c : Cell} (hc : c.inWord = false) : Detached (as ++ [c]) := by
  intro x hx
  rw [List.getLast?_concat] at hx
  cases hx
  exact hc

end

namespace Source

section
variable {s : Source} {i j : Nat}

/-- A position is in a word if its cell is. -/
theorem inWord_eq {c : Cell} (h : s.cells[i]? = some c) : s.inWord i = c.inWord := by
  obtain ⟨b, kind⟩ := c
  rw [inWord, codeByte?, h, Cell.inWord]
  cases kind <;> rfl

/-- A word that begins at or behind the start of some trivia begins behind it. -/
theorem TriviaRun.le_of_inWord {k : Nat} (h : s.TriviaRun i j) (hi : i ≤ k)
    (hword : s.inWord k = true) : j ≤ k :=
  Nat.le_of_not_lt fun hj => by
    rw [inWord_of_isTrivia (h k hi hj)] at hword
    cases hword

/-- A word begins at the key or behind it, not inside. -/
theorem IsKey.start_or_behind {key : Key} {colon k : Nat} (h : s.IsKey key colon)
    (hk : key.name.start ≤ k) (hword : s.inWord k = true)
    (hedge : k = 0 ∨ s.inWord (k - 1) = false) :
    k = key.name.start ∨ key.value ≤ k := by
  rcases Nat.eq_or_lt_of_le hk with rfl | hlt
  · exact .inl rfl
  have hstop : key.name.stop ≤ k := Nat.le_of_not_lt fun hj => by
    have hedge := hedge.resolve_left (by omega)
    rw [h.word.inside (k - 1) (by omega) (by omega)] at hedge
    cases hedge
  have hcolon := Nat.lt_of_le_of_ne (h.trivia_before.le_of_inWord hstop hword) fun heq => by
    rw [← heq, inWord_of_codeByte? h.colon_code (by decide)] at hword
    cases hword
  exact .inr (h.trivia_behind.le_of_inWord hcolon hword)

/-- A word may begin behind a slice that does not end inside a word. -/
theorem detached_slice {k : Nat} (hik : i ≤ k) (hk : k ≤ s.size)
    (hi : i = 0 ∨ s.inWord (i - 1) = false) :
    Detached (s.slice i k) ↔ k = 0 ∨ s.inWord (k - 1) = false := by
  rcases Nat.eq_or_lt_of_le hik with rfl | hlt
  · rw [slice_self]
    exact iff_of_true (fun c hc => by cases hc) hi
  obtain ⟨c, hc⟩ := s.exists_cell (i := k - 1) (by omega)
  rw [← slice_append s (show i ≤ k - 1 by omega) (Nat.sub_le k 1),
    slice_eq_cons s (show k - 1 < k by omega) hc, Nat.sub_add_cancel (by omega), slice_self,
    inWord_eq hc]
  simp [Detached, show k ≠ 0 by omega]

end

end Source

/-! ## Flat entries -/

/-- A white-space character has at most three bytes. -/
theorem Text.length_encode_le_of_mem_blanks :
    ∀ c ∈ blanks, (String.utf8EncodeChar c).length ≤ 3 := by
  decide

/-- What stands in the middle of a text does not matter for its ends. -/
theorem Text.Trimmed.of_middle {u v w x : Text} (h : Trimmed (u ++ (v ++ x))) (hu : 3 ≤ u.length)
    (hx : x ≠ []) (hs : Starts x) : Trimmed (u ++ (w ++ x)) := by
  refine ⟨?_, fun c hc hp => h.front c hc ?_, fun c hc hp => h.back c hc ?_⟩
  · exact List.append_ne_nil_of_right_ne_nil _ (List.append_ne_nil_of_right_ne_nil _ hx)
  · exact (List.prefix_of_prefix_length_le hp (List.prefix_append _ _)
      (Nat.le_trans (length_encode_le_of_mem_blanks c hc) hu)).trans (List.prefix_append _ _)
  · rw [← List.append_assoc] at hp ⊢
    exact (blank_suffix_append hc hx hs hp).trans (List.suffix_append _ _)

/-- The trimmed part of a piece between blanks is determined. -/
theorem trimmed_inj {z z' cs cs' y y' : List Cell} (hz : Text.MadeOf Text.blanks (z.map Cell.byte))
    (hz' : Text.MadeOf Text.blanks (z'.map Cell.byte))
    (hy : Text.MadeOf Text.blanks (y.map Cell.byte))
    (hy' : Text.MadeOf Text.blanks (y'.map Cell.byte)) (hcs : Text.Trimmed (cs.map Cell.byte))
    (hcs' : Text.Trimmed (cs'.map Cell.byte)) (h : z ++ (cs ++ y) = z' ++ (cs' ++ y')) :
    z = z' ∧ cs = cs' ∧ y = y' := by
  have hbytes := congrArg (List.map Cell.byte) h
  simp only [List.map_append] at hbytes
  obtain ⟨hfront, hrest⟩ := Text.append_inj_of_madeOf (fun _ hc => List.mem_cons_of_mem _ hc) hz hz'
    (hcs.prefix_append hy) (hcs'.prefix_append hy') hbytes
  obtain ⟨hmiddle, -⟩ := Text.append_inj_of_blanks hy hy' hcs.back hcs'.back hrest
  obtain ⟨rfl, hrest⟩ := List.append_inj h (by simpa using congrArg List.length hfront)
  obtain ⟨rfl, rfl⟩ := List.append_inj hrest (by simpa using congrArg List.length hmiddle)
  exact ⟨rfl, rfl, rfl⟩

/-- Trivia is no part of a word. -/
theorem not_inWord_of_isTrivia {c : Cell} (h : c.isTrivia = true) : c.inWord = false := by
  obtain ⟨b, kind⟩ := c
  cases kind with
  | code => exact isWord_of_isSpace h
  | literal | comment => rfl

/-- Trivia does not end inside a word. -/
theorem detached_of_isTrivia {cs : List Cell} (h : ∀ c ∈ cs, c.isTrivia = true) : Detached cs :=
  fun c hc => not_inWord_of_isTrivia (h c (List.mem_of_getLast? hc))

/-- A flat entry is one behind other cells, too, if those do not end inside a word. -/
theorem FlatCells.behind {z z' cs : List Cell} (h : FlatCells z cs) (hz : Detached z') :
    FlatCells z' cs := by
  obtain ⟨u, w, k, ds, r, h, rfl⟩ := h
  refine ⟨u, w, k, ds, r, { h with detached := fun c hc => ?_ }, rfl⟩
  rcases List.eq_nil_or_concat u with rfl | ⟨v, x, rfl⟩
  · rw [List.append_nil] at hc
    exact hz c hc
  · rw [List.concat_eq_append, ← List.append_assoc, List.getLast?_concat] at hc
    cases hc
    exact not_inWord_of_isTrivia (h.trivia_before c (by simp))

section
variable {t : Text} {x e : Span} {z : List Cell}

/-- The parts of a flat entry. -/
theorem Source.IsFlat.shape {f : FlatEntry} {colon : Nat} (h : (ofText t).IsFlat f colon) :
    FlatShape [] [] ((ofText t).bytes f.name) ((ofText t).slice f.name.start f.body.start)
      ((ofText t).slice (f.body.start + 1) (f.body.stop - 1)) [] where
  trivia_before _ hc := by cases hc
  detached _ hc := by cases hc
  ne_nil := h.key.word.bytes_ne_nil
  word := isWord_bytes h.key.word
  name_ne := h.name_ne
  key := h.key.keyCells
  closed := closers_of_closing? h.closing
  opens := h.opens
  trivia_behind _ hc := by cases hc

/-- A flat entry that is spelled out where a word may begin. -/
theorem Source.isFlat_of_slice {s : Source} {i j : Nat} {as u bs k ds r : List Cell} {w : Text}
    (hij : i ≤ j) (hj : j ≤ s.size) (hb : i = 0 ∨ s.inWord (i - 1) = false)
    (h : FlatShape as u w k ds bs)
    (hs : s.slice i j = k ++ ⟨Byte.openBrace, .code⟩ :: (ds ++ ⟨Byte.closeBrace, .code⟩ :: r)) :
    ∃ colon,
      s.IsFlat ⟨⟨i, i + w.length⟩, ⟨i + k.length, i + k.length + ds.length + 2⟩⟩ colon ∧
      i + k.length + ds.length + 2 ≤ j ∧ s.slice (i + k.length + ds.length + 2) j = r := by
  obtain ⟨colon, hkey, hname, -, hslice⟩ :=
    isKey_of_keyCells hij hj h.key hs h.ne_nil h.word (by decide) (by decide) hb
  obtain ⟨hencl, hbehind⟩ := Encloses.of_slice hj hslice
  exact ⟨colon, ⟨hkey, by rw [hname]; exact h.name_ne, hencl.closing h.closed, Nat.succ_pos _,
    hencl.leads h.opens⟩, hbehind⟩

/-- The cells of an entry that is flat. -/
theorem flatCells_of_flatIn? {f : FlatEntry} (hx : x.start ≤ e.start) (he : e.start ≤ e.stop)
    (hs : e.stop ≤ (ofText t).size) (hb : x.start = 0 ∨ (ofText t).inWord (x.start - 1) = false)
    (hf : (ofText t).flatIn? e = some f) :
    FlatCells ((ofText t).slice x.start e.start) ((ofText t).slice e.start e.stop) := by
  obtain ⟨⟨colon, hflat⟩, h1, h2, h3, h4⟩ := flatIn?_eq_some he hf
  obtain ⟨h5, h6, h7, h8, h9⟩ := hflat.order
  refine ⟨(ofText t).slice e.start f.name.start, (ofText t).bytes f.name,
    (ofText t).slice f.name.start f.body.start,
    (ofText t).slice (f.body.start + 1) (f.body.stop - 1), (ofText t).slice f.body.stop e.stop,
    { hflat.shape with
      trivia_before := (triviaRun_iff (by omega)).1 h3
      detached := by
        rw [slice_append _ hx h1]
        exact (detached_slice (by omega) (by omega) hb).2 hflat.key.word.before
      trivia_behind := (triviaRun_iff hs).1 h4 }, ?_⟩
  rw [← slice_append _ h1 (show f.name.start ≤ e.stop by omega),
    ← slice_append _ (show f.name.start ≤ f.body.start by omega) (by omega),
    ← slice_append _ hflat.encloses.le h2, hflat.encloses.slice_eq]
  simp

/-- An entry with the cells of a flat one is flat. -/
theorem isSome_flatIn? (hx : x.start ≤ e.start) (he : e.start ≤ e.stop)
    (hs : e.stop ≤ (ofText t).size) (hb : x.start = 0 ∨ (ofText t).inWord (x.start - 1) = false)
    (h : FlatCells ((ofText t).slice x.start e.start) ((ofText t).slice e.start e.stop)) :
    ∃ f, (ofText t).flatIn? e = some f := by
  obtain ⟨u, w, k, ds, r, h, hslice⟩ := h
  obtain ⟨h1, hu, hslice⟩ := slice_split he hs hslice
  have hdetached := h.detached
  rw [← hu, slice_append _ hx (Nat.le_add_right _ _),
    detached_slice (Nat.le_trans hx (Nat.le_add_right _ _)) (Nat.le_trans h1 hs) hb] at hdetached
  generalize hn : e.start + u.length = n at *
  obtain ⟨colon, hflat, h2, hr⟩ := isFlat_of_slice h1 hs hdetached h hslice
  have hskip : (ofText t).skipTrivia e.start = n :=
    skipTrivia_eq (by omega) ((triviaRun_iff (by omega)).2 (by rw [hu]; exact h.trivia_before))
      hflat.key.word.isTrivia_start
  have htrim : (ofText t).trimTrivia e.start e.stop = n + k.length + ds.length + 2 := by
    refine backward_eq (by omega) h2 (by omega)
      ((triviaRun_iff hs).2 (by rw [hr]; exact h.trivia_behind)) fun _ => ?_
    rw [isTrivia_of_codeByte? (closing?_spec hflat.closing).2.2]
    rfl
  refine ⟨⟨⟨n, n + w.length⟩, ⟨n + k.length, n + k.length + ds.length + 2⟩⟩, ?_⟩
  rw [flatIn?, hskip, flatEntry?_eq_some.2 ⟨rfl, _, hflat⟩, htrim]
  simp [FlatEntry.span]

/-- **A segment with a flat entry in it by its cells.** -/
theorem exists_flatIn?_iff (hx : x.start ≤ x.stop) (hs : x.stop ≤ (ofText t).size)
    (hb : x.start = 0 ∨ (ofText t).inWord (x.start - 1) = false) :
    (∃ e f, (ofText t).trimBlank? x = some e ∧ (ofText t).flatIn? e = some f) ↔
      FlatPiece ((ofText t).slice x.start x.stop) := by
  constructor
  · rintro ⟨e, f, he, hf⟩
    obtain ⟨⟨h1, h2, h3⟩, h4, h5, h6⟩ := (trimBlank?_eq_some hx hs).1 he
    refine ⟨(ofText t).slice x.start e.start, (ofText t).slice e.start e.stop,
      (ofText t).slice e.stop x.stop, ?_, ?_, ?_, ?_, flatCells_of_flatIn? h1 h2 (by omega) hb hf⟩
    · rw [slice_append _ h2 h3, slice_append _ h1 (by omega)]
    · rwa [← bytes_eq _ ⟨x.start, e.start⟩]
    · rwa [← bytes_eq _ ⟨e.stop, x.stop⟩]
    · rwa [← bytes_eq]
  · rintro ⟨z, cs, y, hslice, hz, hy, htrimmed, hflat⟩
    obtain ⟨h1, hzs, hslice⟩ := slice_split hx hs hslice
    obtain ⟨h2, hcs, hys⟩ := slice_split h1 hs hslice
    generalize ha : x.start + z.length = a at *
    have hflat : FlatCells ((ofText t).slice x.start a)
        ((ofText t).slice a (a + cs.length)) := by rwa [hzs, hcs]
    obtain ⟨f, hf⟩ := isSome_flatIn? (e := ⟨a, a + cs.length⟩) (by dsimp only; omega)
      (Nat.le_add_right _ _) (by dsimp only; omega) hb hflat
    refine ⟨⟨a, a + cs.length⟩, f, (trimBlank?_eq_some hx hs).2
      ⟨⟨by dsimp only; omega, Nat.le_add_right _ _, h2⟩, ?_, ?_, ?_⟩, hf⟩
    · rwa [bytes_eq, hzs]
    · rwa [bytes_eq, hys]
    · rwa [bytes_eq, hcs]

end

/-- Before a segment of an object stands a brace or a comma. -/
theorem Source.Divides.inWord_before {s : Source} {stop start : Nat} {segs : List Span}
    (h : s.Divides stop start segs) (hstart : start = 0 ∨ s.inWord (start - 1) = false) :
    ∀ x ∈ segs, x.start = 0 ∨ s.inWord (x.start - 1) = false := by
  induction h with
  | last h hc =>
    intro x hx
    rwa [List.mem_singleton.1 hx]
  | comma h hb hc hrest ih =>
    intro x hx
    rcases List.mem_cons.1 hx with rfl | hx
    · exact hstart
    · exact ih (.inr (inWord_of_codeByte? hb (by decide))) x hx

/-- **An object has a flat entry** if one of the pieces of its body is one. -/
theorem flatEntriesOf_ne_nil_iff {t : Text} {b : Braces}
    (h : (ofText t).closing? b.opening = some b.closing) :
    (ofText t).flatEntriesOf b ≠ [] ↔ HasFlat ((ofText t).slice (b.opening + 1) b.closing) := by
  obtain ⟨ho, hlt, hc⟩ := closing?_spec h
  have hsize := Nat.le_of_lt (lt_size_of_codeByte? hc)
  have hbefore := (segments_divides hlt).inWord_before (.inr (inWord_of_codeByte? ho (by decide)))
  have hpieces := slice_segments hlt hsize
  rw [flatEntriesOf, entries]
  constructor
  · intro hne
    obtain ⟨f, hf⟩ := List.exists_mem_of_ne_nil _ hne
    obtain ⟨e, he, hf⟩ := List.mem_filterMap.1 hf
    obtain ⟨x, hx, he⟩ := List.mem_filterMap.1 he
    obtain ⟨p, hp, h1, h2, rfl⟩ := exists_of_forall₂ hpieces hx
    exact ⟨_, hp, (exists_flatIn?_iff h1 h2 (hbefore x hx)).1 ⟨e, f, he, hf⟩⟩
  · rintro ⟨p, hp, hflat⟩
    obtain ⟨x, hx, h1, h2, rfl⟩ := exists_of_forall₂ hpieces.flip hp
    obtain ⟨e, f, he, hf⟩ := (exists_flatIn?_iff h1 h2 (hbefore x hx)).2 hflat
    exact List.ne_nil_of_mem (List.mem_filterMap.2 ⟨e, List.mem_filterMap.2 ⟨x, hx, he⟩, hf⟩)

/-! ## Blocks -/

section
variable {t : Text} {i : Nat} {ds : List Cell}

/-- The cells from the key of a block on. -/
theorem blockCells_of_block? {b : Braces} (h : (ofText t).block? i = some b) :
    (i = 0 ∨ (ofText t).inWord (i - 1) = false) ∧
      BlockCells ((ofText t).slice i t.length) ((ofText t).slice (b.opening + 1) b.closing) := by
  obtain ⟨key, colon, rfl, hkey, hname, ho, hc⟩ := block?_eq_some.1 h
  have h1 := hkey.word.lt
  have h2 := hkey.stop_le_colon
  have h3 := hkey.colon_lt_value
  have hencl := Encloses.of_closing hc
  have hsize := hencl.stop_le
  have hle := hencl.le
  rw [size_ofText] at hsize
  have hcells := hkey.keyCells
  rw [hname, ← ho] at hcells
  refine ⟨hkey.word.before, _, (ofText t).slice (b.closing + 1) t.length, hcells,
    closers_of_closing? hc, ?_⟩
  have hrest := slice_append (ofText t) hle hsize
  rw [hencl.slice_eq] at hrest
  rw [← slice_append _ (show key.name.start ≤ b.opening by omega) (by omega), ← hrest]
  simp

/-- A block begins where its cells do. -/
theorem block?_of_blockCells (hi : i ≤ t.length) (hb : i = 0 ∨ (ofText t).inWord (i - 1) = false)
    (h : BlockCells ((ofText t).slice i t.length) ds) : ∃ b, (ofText t).block? i = some b ∧
      (ofText t).slice (b.opening + 1) b.closing = ds := by
  obtain ⟨k, r, hk, hclosed, hslice⟩ := h
  obtain ⟨colon, hkey, hname, -, hslice⟩ := isKey_of_keyCells hi (by rw [size_ofText]) hk hslice
    (by decide) isWord_providersKey (by decide) (by decide) hb
  obtain ⟨hencl, -, -⟩ := Encloses.of_slice (by rw [size_ofText]) hslice
  exact ⟨⟨_, _⟩, block?_eq_some.2 ⟨_, _, rfl, hkey, hname, rfl, hencl.closing hclosed⟩, hencl.inner⟩

end

/-! ## Blocks in parts -/

namespace BlockCells

variable {as bs ds : List Cell}

theorem append (h : BlockCells as ds) (bs : List Cell) : BlockCells (as ++ bs) ds := by
  obtain ⟨k, r, hk, hds, rfl⟩ := h
  exact ⟨k, r ++ bs, hk, hds, by simp⟩

/-- What a block has between its braces is determined. -/
theorem eq_of_inert {k es r : List Cell} (h : BlockCells as ds) (hk : Inert k)
    (hes : closers es 0 = some 0)
    (has : as = k ++ ⟨Byte.openBrace, .code⟩ :: (es ++ ⟨Byte.closeBrace, .code⟩ :: r)) :
    ds = es := by
  obtain ⟨k', r', hk', hds, heq⟩ := h
  obtain ⟨-, hrest⟩ := append_cons_inj (hk'.inert isWord_providersKey).not_open hk.not_open
    (heq.symm.trans has)
  exact (closed_inj hds hes hrest).1

/-- **A block ends in the part in which it begins** if the braces of the part are closed in it and a
comma or a closing brace comes behind it. -/
theorem within {c : Cell} (h : BlockCells (as ++ c :: bs) ds)
    (hc : c = .comma ∨ c = ⟨Byte.closeBrace, .code⟩) (ha : (closers as 0).isSome = true) :
    BlockCells as ds := by
  obtain ⟨k, r, hk, hds, heq⟩ := h
  have hopen : c ≠ ⟨Byte.openBrace, .code⟩ := by
    rcases hc with rfl | rfl <;> decide
  have hkey : c ∉ k := by
    have hinert := hk.inert isWord_providersKey
    rcases hc with rfl | rfl
    · exact hinert.not_comma
    · exact hinert.not_close
  -- The part goes on behind the key and the brace: neither of them is the cell behind the part.
  obtain ⟨m, rfl, hm⟩ : ∃ m, as = k ++ ⟨Byte.openBrace, .code⟩ :: m ∧
      ds ++ ⟨Byte.closeBrace, .code⟩ :: r = m ++ c :: bs := by
    refine (append_cons_cut heq.symm).resolve_left ?_
    rintro ⟨m, rfl, hm⟩
    cases m with
    | nil => exact hopen (List.cons.inj hm).1
    | cons x m =>
      obtain ⟨rfl, -⟩ := List.cons.inj hm
      exact hkey (by simp)
  -- It goes on behind the closing brace, too, since it leaves no brace open.
  rcases append_cons_cut hm with ⟨n, rfl, -⟩ | ⟨n, rfl, -⟩
  · exact absurd ha (not_isSome_closers hds rfl)
  · exact ⟨k, n, hk, hds, rfl⟩

/-- A block does not end among inert cells. -/
theorem of_append_inert (h : BlockCells (as ++ bs) ds) (hb : Inert bs) : BlockCells as ds := by
  obtain ⟨k, r, hk, hds, heq⟩ := h
  rw [show k ++ ⟨Byte.openBrace, .code⟩ :: (ds ++ ⟨Byte.closeBrace, .code⟩ :: r) =
    k ++ ⟨Byte.openBrace, .code⟩ :: ds ++ [⟨Byte.closeBrace, .code⟩] ++ r by simp] at heq
  rcases List.append_eq_append_iff.1 heq with ⟨m, hm, rfl⟩ | ⟨m, rfl, -⟩
  · rcases List.eq_nil_or_concat m with rfl | ⟨m, c, rfl⟩
    · exact ⟨k, [], hk, hds, by rw [← List.append_nil as, ← hm]; simp⟩
    · -- The last cell of the block would be one of them.
      rw [List.concat_eq_append, ← List.append_assoc] at hm
      obtain ⟨-, hc⟩ := List.append_inj' hm rfl
      obtain rfl := (List.cons.inj hc).1
      exact absurd (by simp) hb.not_close
  · exact ⟨k, m, hk, hds, by simp⟩

/-- A block begins with the first byte of its key. -/
theorem head (h : BlockCells as ds) : as.head? = some .initial := by
  obtain ⟨k, r, ⟨v, u, -, -, rfl⟩, -, rfl⟩ := h
  rfl

/-- Where a block begins, a word does. -/
theorem getElem? {s : Source} {i j : Nat} (h : BlockCells (s.slice i j) ds) (hj : j ≤ s.size) :
    s.cells[i]? = some .initial := by
  obtain ⟨r, hr⟩ := List.head?_eq_some_iff.1 h.head
  exact (slice_uncons hj hr).2.1

theorem mem_initial (h : BlockCells as ds) : Cell.initial ∈ as :=
  List.mem_of_mem_head? h.head

end BlockCells

/-! ## Parts that have a block -/

namespace HasBlock

theorem mem_initial (h : HasBlock as ds) : Cell.initial ∈ as := by
  obtain ⟨us, vs, rfl, -, hb⟩ := h
  exact List.mem_append_right _ hb.mem_initial

theorem append (h : HasBlock as ds) (bs : List Cell) : HasBlock (as ++ bs) ds := by
  obtain ⟨us, vs, rfl, hd, hb⟩ := h
  exact ⟨us, vs ++ bs, List.append_assoc us vs bs, hd, hb.append bs⟩

/-- A block behind detached cells is a block of the whole. -/
theorem behind (h : HasBlock bs ds) (ha : Detached as) : HasBlock (as ++ bs) ds := by
  obtain ⟨us, vs, rfl, hd, hb⟩ := h
  exact ⟨as ++ us, vs, (List.append_assoc as us vs).symm, ha.append hd, hb⟩

/-- A block does not begin in a part without the first byte of its key. -/
theorem of_append (h : HasBlock (as ++ bs) ds) (ha : Cell.initial ∉ as) : HasBlock bs ds := by
  obtain ⟨us, vs, heq, hd, hb⟩ := h
  rcases List.append_eq_append_iff.1 heq with ⟨ms, rfl, rfl⟩ | ⟨ms, rfl, hvs⟩
  · exact ⟨ms, vs, rfl, hd.of_append, hb⟩
  · cases ms with
    | nil => exact ⟨[], vs, hvs.symm, (fun c hc => by cases hc), hb⟩
    | cons c ms =>
      have := hb.head
      rw [hvs, List.cons_append, List.head?_cons, Option.some.injEq] at this
      exact absurd (by rw [← this]; simp) ha

/-- A block does not begin with a cell other than the first one of its key, so such a cell can be
left out. -/
theorem of_cons {c : Cell} (h : HasBlock (c :: as) ds) (hc : c ≠ .initial) : HasBlock as ds := by
  rw [← List.singleton_append] at h
  exact h.of_append fun hm => hc (List.mem_singleton.1 hm).symm

/-- A block does not begin inside a word. -/
theorem of_word {w : Text} (h : HasBlock (codeCells w ++ as) ds)
    (hw : ∀ b ∈ w, Byte.isWord b = true) : BlockCells (codeCells w ++ as) ds ∨ HasBlock as ds := by
  obtain ⟨us, vs, heq, hd, hb⟩ := h
  rcases List.append_eq_append_iff.1 heq with ⟨ms, rfl, rfl⟩ | ⟨ms, hms, rfl⟩
  · exact .inr ⟨ms, vs, rfl, hd.of_append, hb⟩
  rcases List.eq_nil_or_concat us with rfl | ⟨us, c, rfl⟩
  · rw [heq]
    exact .inl hb
  · obtain ⟨b, hmem, rfl⟩ := List.mem_map.1 (show c ∈ codeCells w by rw [hms]; simp)
    have := hd ⟨b, .code⟩ (by simp)
    rw [Cell.inWord, hw b hmem] at this
    cases this

/-- A block begins and ends in one of two parts that a comma or a closing brace keeps apart if the
braces of the first are closed in it. -/
theorem cut {c : Cell} (h : HasBlock (as ++ c :: bs) ds)
    (hc : c = .comma ∨ c = ⟨Byte.closeBrace, .code⟩) (ha : (closers as 0).isSome = true) :
    HasBlock as ds ∨ HasBlock bs ds := by
  obtain ⟨us, vs, heq, hd, hb⟩ := h
  rcases append_cons_cut heq with ⟨ms, rfl, rfl⟩ | ⟨ms, rfl, rfl⟩
  · exact .inl ⟨us, ms, rfl, hd, hb.within hc (isSome_closers_of_append ha)⟩
  · rw [← List.singleton_append, ← List.append_assoc] at hd
    exact .inr ⟨ms, vs, rfl, hd.of_append, hb⟩

end HasBlock

/-- **The blocks among the cells of a part** by their positions. -/
theorem hasBlock_slice_iff {s : Source} {i j : Nat} (hij : i ≤ j) (hj : j ≤ s.size)
    (hi : i = 0 ∨ s.inWord (i - 1) = false) : HasBlock (s.slice i j) ds ↔
      ∃ k, i ≤ k ∧ k < j ∧ (k = 0 ∨ s.inWord (k - 1) = false) ∧ BlockCells (s.slice k j) ds := by
  constructor
  · rintro ⟨as, bs, heq, has, hb⟩
    obtain ⟨hle, hfront, rfl⟩ := slice_split hij hj heq
    have hedge := (detached_slice (Nat.le_add_right _ _) (Nat.le_trans hle hj) hi).1
      (by rwa [hfront])
    refine ⟨i + as.length, Nat.le_add_right _ _, Nat.lt_of_le_of_ne hle fun hend => ?_, hedge, hb⟩
    have := hb.mem_initial
    rw [hend, slice_self] at this
    cases this
  · rintro ⟨k, hik, hkj, hedge, hb⟩
    exact ⟨_, _, (slice_append s hik (Nat.le_of_lt hkj)).symm,
      (detached_slice hik (Nat.le_trans (Nat.le_of_lt hkj) hj) hi).2 hedge, hb⟩

end ProviderNest
