import ProviderNest.Proofs.Relexing

/-!
# Words and keys that are spelled out

A part of a text is often known by its cells, be it one that a pass wrote or one that was found
before. Here words and keys are read off them. A part is cut where its cells are (`slice_split`,
`slice_uncons`), it is trivia if its cells are (`triviaRun_iff`), and word bytes between other cells
are a word (`isWord_of_slice`). A word, trivia and a colon that is not doubled are a key, whatever
comes behind (`isKey_of_colon`); where a brace does, the brace is its value (`isKey_of_slice`).
In the other direction, `IsWord.slice_eq` and `IsKey.slice_eq` give the cells of what was found.
-/

namespace ProviderNest

open LexState Source

/-- The bytes of a text put into code. -/
@[simp] theorem map_byte_codeCells (u : Text) : (codeCells u).map Cell.byte = u := by
  rw [List.map_map]
  exact List.map_id u

theorem mem_codeCells {b : UInt8} {u : Text} : ⟨b, .code⟩ ∈ codeCells u ↔ b ∈ u := by
  simp [codeCells]

/-- A cell that may stand between two tokens. -/
def Cell.isTrivia (c : Cell) : Bool :=
  match c.kind with
  | .comment => true
  | .code => Byte.isSpace c.byte
  | .literal => false

/-- White space in code is trivia. -/
theorem isTrivia_codeCells {u : Text} (h : ∀ b ∈ u, Byte.isSpace b = true) :
    ∀ c ∈ codeCells u, c.isTrivia = true := by
  intro c hc
  obtain ⟨b, hb, rfl⟩ := List.mem_map.1 hc
  exact h b hb

/-- A line break and an indentation are white space. -/
theorem Text.IsIndent.isSpace_line {indent : Text} (hi : indent.IsIndent) :
    ∀ b ∈ Byte.newline :: indent, Byte.isSpace b = true := by
  intro b hb
  rcases List.mem_cons.1 hb with rfl | hb
  · rfl
  · rcases hi b hb with rfl | rfl <;> rfl

/-- An indentation holds nothing but white space. -/
theorem Text.IsIndent.not_mem {indent : Text} (hi : indent.IsIndent) {b : UInt8}
    (hb : Byte.isSpace b = false) : b ∉ indent := by
  intro hm
  rw [hi.isSpace_line b (List.mem_cons_of_mem _ hm)] at hb
  cases hb

theorem isTrivia_line {indent : Text} (hi : indent.IsIndent) :
    ∀ c ∈ codeCells (Byte.newline :: indent), c.isTrivia = true :=
  isTrivia_codeCells hi.isSpace_line

/-- Trivia and a cell that is no colon do not begin with a colon. -/
theorem head?_ne_colon {u r : List Cell} {c : Cell} (hu : ∀ c ∈ u, c.isTrivia = true)
    (hcolon : c ≠ ⟨Byte.colon, .code⟩) :
    (u ++ c :: r).head? ≠ some ⟨Byte.colon, .code⟩ := by
  intro h
  cases u with
  | nil => exact hcolon (Option.some.inj h)
  | cons x u =>
    have := hu x List.mem_cons_self
    rw [Option.some.inj h] at this
    cases this

namespace Source

/-! ## Parts in cells -/

section
variable {s : Source} {i j k : Nat} {cs ds : List Cell}

/-- The cells of two parts that follow each other. -/
theorem slice_split (hij : i ≤ j) (hj : j ≤ s.size) (h : s.slice i j = cs ++ ds) :
    i + cs.length ≤ j ∧ s.slice i (i + cs.length) = cs ∧ s.slice (i + cs.length) j = ds := by
  have hlen := congrArg List.length h
  rw [length_slice s hij hj, List.length_append] at hlen
  have hsum := slice_append s (show i ≤ i + cs.length by omega) (show i + cs.length ≤ j by omega)
  rw [h] at hsum
  have := List.append_inj hsum (by rw [length_slice s (by omega) (by omega)]; omega)
  exact ⟨by omega, this.1, this.2⟩

/-- The first cell of a slice, and what is behind it. -/
theorem slice_uncons {c : Cell} {r : List Cell} (hj : j ≤ s.size) (h : s.slice i j = c :: r) :
    i < j ∧ s.cells[i]? = some c ∧ s.slice (i + 1) j = r := by
  have hlt : i < j := by
    refine Nat.lt_of_not_le fun hle => ?_
    rw [slice, Nat.sub_eq_zero_of_le hle, List.take_zero] at h
    cases h
  obtain ⟨x, hx⟩ := s.exists_cell (i := i) (by omega)
  rw [slice_eq_cons s hlt hx] at h
  cases h
  exact ⟨hlt, hx, rfl⟩

/-- The code of a part that is spelled out. -/
theorem codeByte?_of_codeCells {u : Text} (h : s.slice i (i + u.length) = codeCells u)
    (hk : k < u.length) : s.codeByte? (i + k) = some u[k] := by
  have := getElem?_slice s (i := i) (j := i + u.length) (k := k) (by omega)
  rw [h, List.getElem?_map, List.getElem?_eq_getElem hk, Option.map_some] at this
  exact codeByte?_eq_some.2 this.symm

theorem isTrivia_eq (s : Source) (i : Nat) : s.isTrivia i = s.cells[i]?.any Cell.isTrivia := by
  rw [isTrivia]
  cases s.cells[i]? with
  | none => rfl
  | some c =>
    obtain ⟨b, kind⟩ := c
    cases kind <;> rfl

/-- A run of trivia by its cells. -/
theorem triviaRun_iff (hj : j ≤ s.size) :
    s.TriviaRun i j ↔ ∀ c ∈ s.slice i j, c.isTrivia = true := by
  constructor
  · intro h c hc
    obtain ⟨k, h1, h2, hk⟩ := (mem_slice_iff s).1 hc
    have := h k h1 h2
    rwa [isTrivia_eq, hk] at this
  · intro h k h1 h2
    obtain ⟨c, hc⟩ := s.exists_cell (i := k) (by omega)
    rw [isTrivia_eq, hc]
    exact h c ((mem_slice_iff s).2 ⟨k, h1, h2, hc⟩)

end

/-! ## Words -/

section
variable {s : Source} {i : Nat}

/-- The cells of a word. -/
theorem IsWord.slice_eq {w : Span} (h : s.IsWord w) :
    s.slice w.start w.stop = codeCells (s.bytes w) := by
  rw [bytes_eq, codeCells, List.map_map]
  refine (List.map_id _).symm.trans (List.map_congr_left fun c hc => ?_)
  obtain ⟨k, h1, h2, hk⟩ := (mem_slice_iff s).1 hc
  obtain ⟨b, hb, -⟩ := inWord_iff.1 (h.inside k h1 h2)
  rw [codeByte?_eq_some.1 hb] at hk
  cases hk
  rfl

theorem IsWord.bytes_ne_nil {w : Span} (h : s.IsWord w) : s.bytes w ≠ [] := by
  have hlt := h.lt
  have hlen := length_bytes (Nat.le_of_lt hlt) h.stop_le
  intro hnil
  rw [hnil, List.length_nil] at hlen
  omega

/-- A word that is spelled out between other bytes. -/
theorem isWord_of_slice {u : Text} (h : s.slice i (i + u.length) = codeCells u)
    (hne : u ≠ []) (hu : ∀ b ∈ u, Byte.isWord b = true)
    (h1 : i = 0 ∨ s.inWord (i - 1) = false) (h2 : s.inWord (i + u.length) = false) :
    s.IsWord ⟨i, i + u.length⟩ ∧ s.bytes ⟨i, i + u.length⟩ = u := by
  have hpos := List.length_pos_iff.2 hne
  refine ⟨⟨by dsimp only; omega, fun k h3 h4 => ?_, h1, h2⟩, ?_⟩
  · dsimp only at h3 h4
    have := codeByte?_of_codeCells h (k := k - i) (by omega)
    rw [Nat.add_sub_cancel' h3] at this
    exact inWord_iff.2 ⟨_, this, hu _ (List.getElem_mem _)⟩
  · rw [bytes_eq, h, map_byte_codeCells]

end

/-! ## Keys -/

/-- The cells of a key up to its value. -/
theorem IsKey.slice_eq {s : Source} {key : Key} {colon : Nat} (h : s.IsKey key colon) :
    s.slice key.name.start key.value = codeCells (s.bytes key.name) ++
      (s.slice key.name.stop colon ++ ⟨Byte.colon, .code⟩ :: s.slice (colon + 1) key.value) := by
  have h1 := h.word.lt
  have h2 := h.stop_le_colon
  have h3 := h.colon_lt_value
  rw [← h.word.slice_eq, ← slice_eq_cons s h3 (codeByte?_eq_some.1 h.colon_code),
    slice_append s h2 (by omega), slice_append s (Nat.le_of_lt h1) (by omega)]

section
variable {s : Source} {i j : Nat} {w : Text} {v u r : List Cell}

/-- A key that is spelled out up to its colon. Behind the colon comes no other one. -/
theorem isKey_of_colon (hij : i ≤ j) (hj : j ≤ s.size)
    (hs : s.slice i j = codeCells w ++ (v ++ ⟨Byte.colon, .code⟩ :: r))
    (hne : w ≠ []) (hw : ∀ b ∈ w, Byte.isWord b = true) (hv : ∀ c ∈ v, c.isTrivia = true)
    (hr : r.head? ≠ some ⟨Byte.colon, .code⟩) (hend : r ≠ [] ∨ j = s.size)
    (hb : i = 0 ∨ s.inWord (i - 1) = false) :
    s.IsKey ⟨⟨i, i + w.length⟩, s.skipTrivia (i + w.length + v.length + 1)⟩
      (i + w.length + v.length) ∧ s.bytes ⟨i, i + w.length⟩ = w ∧
    i + w.length + v.length < j ∧ s.slice (i + w.length + v.length + 1) j = r := by
  obtain ⟨h1, hname, hs⟩ := slice_split hij hj hs
  rw [List.length_map] at h1 hname hs
  obtain ⟨h2, hbefore, hs⟩ := slice_split h1 hj hs
  obtain ⟨h3, hcolon, hs⟩ := slice_uncons hj hs
  generalize hk : i + w.length + v.length = colon at *
  have hcode := codeByte?_eq_some.2 hcolon
  have hrun : s.TriviaRun (i + w.length) colon := (triviaRun_iff (by omega)).2 (by rwa [hbefore])
  obtain ⟨hword, hbytes⟩ := isWord_of_slice hname hne hw hb
    (hrun.not_inWord (by omega) (inWord_of_codeByte? hcode (by decide)))
  refine ⟨⟨hword, ?_, hcode, fun hdouble => ?_, rfl⟩, hbytes, h3, hs⟩
  · exact skipTrivia_eq (by dsimp only; omega) hrun
      ((isTrivia_of_codeByte? hcode).trans (by decide))
  · have hlt := lt_size_of_codeByte? hdouble
    rcases Nat.eq_or_lt_of_le h3 with rfl | h3
    · rw [slice_self] at hs
      exact hend.elim (fun h => h hs.symm) fun h => absurd h (Nat.ne_of_lt hlt)
    · rw [slice_eq_cons s h3 (codeByte?_eq_some.1 hdouble)] at hs
      exact hr (hs ▸ rfl)

/-- A key that is spelled out up to its value, which begins with the cell `c`. -/
theorem isKey_of_slice {c : Cell} (hij : i ≤ j) (hj : j ≤ s.size)
    (hs : s.slice i j = codeCells w ++ (v ++ ⟨Byte.colon, .code⟩ :: (u ++ c :: r)))
    (hne : w ≠ []) (hw : ∀ b ∈ w, Byte.isWord b = true) (hv : ∀ c ∈ v, c.isTrivia = true)
    (hu : ∀ c ∈ u, c.isTrivia = true) (hc : c.isTrivia = false)
    (hcolon : c ≠ ⟨Byte.colon, .code⟩) (hb : i = 0 ∨ s.inWord (i - 1) = false) :
    s.IsKey ⟨⟨i, i + w.length⟩, i + w.length + v.length + 1 + u.length⟩
      (i + w.length + v.length) ∧ s.bytes ⟨i, i + w.length⟩ = w ∧
    i + w.length + v.length + 1 + u.length < j ∧
    s.slice (i + w.length + v.length + 1 + u.length) j = c :: r := by
  obtain ⟨hkey, hbytes, h1, hs⟩ := isKey_of_colon hij hj hs hne hw hv (head?_ne_colon hu hcolon)
    (.inl (List.append_ne_nil_of_right_ne_nil _ (List.cons_ne_nil _ _))) hb
  obtain ⟨h2, hbehind, hs⟩ := slice_split h1 hj hs
  obtain ⟨h3, hcell, -⟩ := slice_uncons hj hs
  have hvalue : s.skipTrivia (i + w.length + v.length + 1) =
      i + w.length + v.length + 1 + u.length :=
    skipTrivia_eq (Nat.le_add_right _ _) ((triviaRun_iff (by omega)).2 (by rwa [hbehind]))
      (by rw [isTrivia_eq, hcell]; exact hc)
  rw [hvalue] at hkey
  exact ⟨hkey, hbytes, h3, hs⟩

/-- A key and the brace it opens, spelled out with one space behind the colon. -/
theorem exists_isKey_of_slice (hij : i ≤ j) (hj : j ≤ s.size)
    (hs : s.slice i j = codeCells (w ++ Text.ofString ": ") ++ ⟨Byte.openBrace, .code⟩ :: r)
    (hne : w ≠ []) (hw : ∀ b ∈ w, Byte.isWord b = true) (hb : i = 0 ∨ s.inWord (i - 1) = false) :
    ∃ value, s.IsKey ⟨⟨i, i + w.length⟩, value⟩ (i + w.length) ∧ s.bytes ⟨i, i + w.length⟩ = w ∧
      value < j ∧ s.slice value j = ⟨Byte.openBrace, .code⟩ :: r := by
  have hcolon : codeCells (w ++ Text.ofString ": ") =
      codeCells w ++ ([⟨Byte.colon, .code⟩] ++ [⟨Byte.space, .code⟩]) := List.map_append
  rw [hcolon, List.append_assoc] at hs
  exact ⟨_, isKey_of_slice (v := []) (u := [⟨Byte.space, .code⟩]) hij hj hs hne hw
    (List.forall_mem_nil _) (by decide) (by decide) (by decide) hb⟩

end

end Source

end ProviderNest
