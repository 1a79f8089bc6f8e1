import ProviderNest.Source.Automaton
import ProviderNest.Source.Basic

/-!
# Reading a text in parts

The measured lexemes of `Kind.ofText` and the automaton of `LexState` classify every text alike
(`LexState.ofText_eq_kinds`), so a text can be read in parts: each part from the state that the
part before it leaves (`LexState.cells_append`). A step looks at one byte ahead, and only where a
comment may open or close; `LexState.after_cells_alike` says when what follows a part makes no
difference to it. For a classified text this gives the state before every position
(`Text.stateAt`), and `Source.read_slice` reads any part of it from there.
-/

namespace ProviderNest

namespace Kind

/-- The bytes that belong to a lexeme have its kind, and behind them the next lexeme begins. -/
theorem assign_eq_replicate {n : Nat} {t : Text} (k : Kind) (h : n ≤ t.length) :
    assign n k t = List.replicate n k ++ assign 0 k (t.drop n) := by
  induction n generalizing t with
  | zero => simp
  | succ n ih =>
    cases t with
    | nil => simp at h
    | cons b r => simpa [assign, List.replicate_succ] using ih (by simpa using h)

/-- A literal ends inside the text. -/
theorem literalLength_le (q : UInt8) (t : Text) : literalLength q t ≤ t.length := by
  fun_induction literalLength q t <;> simp_all

/-- A line ends inside the text. -/
theorem lineLength_le (t : Text) : lineLength t ≤ t.length := by
  fun_induction lineLength t <;> simp_all

/-- A comment ends inside the text. -/
theorem commentLength_le (t : Text) : commentLength t ≤ t.length := by
  fun_induction commentLength t <;> simp_all

end Kind

namespace LexState

open Kind

/-- A byte that opens neither a literal nor a comment. -/
def Plain (b : UInt8) : Prop := isQuote b = false ∧ b ≠ Byte.slash

instance (b : UInt8) : Decidable (Plain b) := inferInstanceAs (Decidable (_ ∧ _))

/-- In code a plain byte is code. -/
theorem step_code {b : UInt8} (h : Plain b) (next : Option UInt8) :
    code.step b next = (.code, code) := by
  simp [step, h.1, h.2]

/-- A newline in code is code. -/
theorem kinds_code_newline (r : Text) :
    code.kinds (Byte.newline :: r) = .code :: code.kinds r := by
  rw [kinds, step_code (by decide)]

/-- Inside a literal the automaton reads as many bytes as `literalLength` measures. -/
theorem kinds_quoted {q : UInt8} (hq : isQuote q = true) (t : Text) : (quoted q).kinds t =
    List.replicate (literalLength q t) .literal ++ code.kinds (t.drop (literalLength q t)) := by
  have hn : Byte.newline ≠ q := by rintro rfl; revert hq; decide
  fun_induction literalLength q t with
  | case1 => rfl
  | case2 b h =>
    obtain ⟨rfl, h⟩ := h
    rw [List.replicate_zero, List.nil_append, List.drop_zero, kinds_code_newline]
    simp [kinds, step, h, hn, show Byte.newline ≠ Byte.backslash by decide]
  | case3 b h =>
    simp only [kinds, step]
    split
    · rfl
    split
    · rfl
    · rfl
  | case4 c r ih => simp [kinds, step, ih, List.replicate_succ]
  | case5 c r hb => simp [kinds, step, hb]
  | case6 b c r h1 h2 h3 =>
    obtain ⟨rfl, h3⟩ := h3
    rw [List.replicate_zero, List.nil_append, List.drop_zero, kinds_code_newline]
    simp [kinds, step, h1, h2, h3]
  | case7 b c r h1 h2 h3 ih =>
    rw [kinds]
    simp [step, h1, h2, h3, ih, List.replicate_succ]

/-- Inside a comment that ends with its line the automaton reads as many bytes as `lineLength`
measures. -/
theorem kinds_line (t : Text) : line.kinds t =
    List.replicate (lineLength t) .comment ++ code.kinds (t.drop (lineLength t)) := by
  fun_induction lineLength t with
  | case1 => rfl
  | case2 r => simp [kinds_code_newline, kinds, step]
  | case3 b r h ih => simp [kinds, step, h, ih, List.replicate_succ]

/-- Inside a comment that ends with `*/` the automaton reads as many bytes as `commentLength`
measures. -/
theorem kinds_block (t : Text) : block.kinds t =
    List.replicate (commentLength t) .comment ++ code.kinds (t.drop (commentLength t)) := by
  fun_induction commentLength t with
  | case1 => rfl
  | case2 b => simp [kinds, step]
  | case3 b c r h =>
    obtain ⟨rfl, rfl⟩ := h
    simp [kinds, step, List.replicate_succ]
  | case4 b c r h ih =>
    rw [kinds]
    simp [step, h, ih, List.replicate_succ]

/-- The kinds of a text from the start of a lexeme on are those the automaton gives from code. -/
theorem assign_zero_eq_kinds (k : Kind) (t : Text) : assign 0 k t = code.kinds t := by
  match t with
  | [] => rfl
  | b :: r =>
    have ih (n : Nat) (l : Kind) : assign 0 l (r.drop n) = code.kinds (r.drop n) :=
      assign_zero_eq_kinds l _
    by_cases hq : isQuote b = true
    · simp [assign, lexeme, hq, kinds, step, assign_eq_replicate _ (literalLength_le b r), ih,
        kinds_quoted hq]
    by_cases hs : b = Byte.slash
    · subst hs
      match r with
      | [] => simp [assign, lexeme, hq, kinds, step]
      | c :: r =>
        have ih' (n : Nat) (l : Kind) : assign 0 l (r.drop n) = code.kinds (r.drop n) :=
          assign_zero_eq_kinds l _
        by_cases h1 : c = Byte.slash
        · subst h1
          simp [assign, lexeme, hq, kinds, step, assign_eq_replicate _ (lineLength_le r), ih',
            kinds_line, show Byte.slash ≠ Byte.newline by decide]
        by_cases h2 : c = Byte.star
        · subst h2
          simp [assign, lexeme, hq, kinds, step, assign_eq_replicate _ (commentLength_le r), ih',
            kinds_block, show Byte.star ≠ Byte.slash by decide]
        · have := assign_zero_eq_kinds .code (c :: r)
          simp [assign, lexeme, hq, h1, h2] at this ⊢
          rw [kinds, this]
          simp [step, hq, h1, h2]
    · have := ih 0 .code
      simp [assign, lexeme, hq, hs, kinds, step] at this ⊢
      exact this
  termination_by t.length
  decreasing_by all_goals simp <;> omega

/-- The measured lexemes and the automaton classify every text alike. -/
theorem ofText_eq_kinds (t : Text) : Kind.ofText t = code.kinds t := assign_zero_eq_kinds _ t

/-! ## Reading a text in parts -/

/-- The state behind a text that is read from a state, where `next` follows the text. -/
def after : LexState → Text → Option UInt8 → LexState
  | st, [], _ => st
  | st, b :: r, next => after (st.step b (r.head?.or next)).2 r next

/-- The cells of a text that is read from a state, where `next` follows the text. -/
def cells : LexState → Text → Option UInt8 → List Cell
  | _, [], _ => []
  | st, b :: r, next =>
    ⟨b, (st.step b (r.head?.or next)).1⟩ :: cells (st.step b (r.head?.or next)).2 r next

@[simp] theorem after_nil (st : LexState) (next : Option UInt8) : st.after [] next = st := rfl
@[simp] theorem cells_nil (st : LexState) (next : Option UInt8) : st.cells [] next = [] := rfl

/-- A text is read by its first byte and then the rest. -/
theorem after_cons (st : LexState) (b : UInt8) (r : Text) (next : Option UInt8) :
    st.after (b :: r) next = (st.step b (r.head?.or next)).2.after r next := rfl

/-- The cells of a text are that of its first byte and those of the rest. -/
theorem cells_cons (st : LexState) (b : UInt8) (r : Text) (next : Option UInt8) :
    st.cells (b :: r) next = ⟨b, (st.step b (r.head?.or next)).1⟩ ::
      (st.step b (r.head?.or next)).2.cells r next := rfl

/-- Reading keeps the bytes. -/
@[simp] theorem map_byte_cells (st : LexState) (t : Text) (next : Option UInt8) :
    (st.cells t next).map Cell.byte = t := by
  induction t generalizing st with
  | nil => rfl
  | cons b r ih => simp [cells_cons, ih]

@[simp] theorem length_cells (st : LexState) (t : Text) (next : Option UInt8) :
    (st.cells t next).length = t.length := by
  rw [← map_byte_cells st t next, List.length_map, map_byte_cells]

/-- A text in two parts: the second is read from the state behind the first. -/
theorem after_append (st : LexState) (u v : Text) (next : Option UInt8) :
    st.after (u ++ v) next = (st.after u (v.head?.or next)).after v next := by
  induction u generalizing st with
  | nil => rfl
  | cons b r ih => simp only [List.cons_append, after_cons, List.head?_append, Option.or_assoc, ih]

/-- The cells of a text in two parts. -/
theorem cells_append (st : LexState) (u v : Text) (next : Option UInt8) :
    st.cells (u ++ v) next =
      st.cells u (v.head?.or next) ++ (st.after u (v.head?.or next)).cells v next := by
  induction u generalizing st with
  | nil => rfl
  | cons b r ih =>
    simp only [List.cons_append, cells_cons, after_cons, List.head?_append, Option.or_assoc, ih]

/-- Reading gives the kinds of the automaton. -/
theorem map_kind_cells (st : LexState) (t : Text) :
    (st.cells t none).map Cell.kind = st.kinds t := by
  induction t generalizing st with
  | nil => rfl
  | cons b r ih => simp [kinds, cells_cons, ih]

/-- The kinds of the automaton, put beside the bytes. -/
theorem zipWith_kinds (st : LexState) (t : Text) :
    List.zipWith Cell.mk t (st.kinds t) = st.cells t none := by
  induction t generalizing st with
  | nil => rfl
  | cons b r ih => simp [kinds, cells_cons, ih]

/-! ## What lies ahead

A step looks one byte ahead, and only to tell a comment's opening or closing by its second byte. -/

/-- Nothing that could be the second byte of a comment's opening or closing. -/
def Calm (next : Option UInt8) : Prop := next ≠ some Byte.slash ∧ next ≠ some Byte.star

instance (next : Option UInt8) : Decidable (Calm next) := inferInstanceAs (Decidable (_ ∧ _))

/-- The text does not end with the first byte of a comment's opening or closing. -/
def Solid (t : Text) : Prop := ∀ b ∈ t.getLast?, b ≠ Byte.slash ∧ b ≠ Byte.star

instance (t : Text) : Decidable (Solid t) := inferInstanceAs (Decidable (∀ b ∈ t.getLast?, _))

/-- A step does not tell calm ways on apart. -/
theorem step_calm {m n : Option UInt8} (hm : Calm m) (hn : Calm n) (st : LexState) (b : UInt8) :
    st.step b m = st.step b n := by
  cases st <;> simp [step, hm.1, hm.2, hn.1, hn.2]

/-- A step at a byte that no comment opens or closes with looks at nothing else. -/
theorem step_solid {b : UInt8} (h1 : b ≠ Byte.slash) (h2 : b ≠ Byte.star) (st : LexState)
    (m n : Option UInt8) : st.step b m = st.step b n := by
  cases st <;> simp [step, h1, h2]

/-- Two ways on are alike for a text if they are the same, if both are calm, or if the text is
solid. -/
def Alike (t : Text) (m n : Option UInt8) : Prop := m = n ∨ Calm m ∧ Calm n ∨ Solid t

/-- Two ways on that are alike for a text are alike for the rest of it. -/
theorem Alike.tail {b c : UInt8} {r : Text} {m n : Option UInt8} (h : Alike (b :: c :: r) m n) :
    Alike (c :: r) m n := by
  rcases h with h | h | h
  · exact .inl h
  · exact .inr (.inl h)
  · exact .inr (.inr fun b hb => h b (by simpa using hb))

/-- Two ways on that are alike for a single byte give the same step from every state. -/
theorem Alike.step {b : UInt8} {m n : Option UInt8} (h : Alike [b] m n) (st : LexState) :
    st.step b m = st.step b n := by
  rcases h with rfl | h | h
  · rfl
  · exact step_calm h.1 h.2 st b
  · obtain ⟨h1, h2⟩ := h b (by simp)
    exact step_solid h1 h2 st m n

/-- A text is read the same way whatever follows it, as long as the ways on are alike. -/
theorem after_cells_alike {t : Text} {m n : Option UInt8} (h : Alike t m n) (st : LexState) :
    st.after t m = st.after t n ∧ st.cells t m = st.cells t n := by
  induction t generalizing st with
  | nil => exact ⟨rfl, rfl⟩
  | cons b r ih =>
    cases r with
    | nil => simp [after_cons, cells_cons, h.step st]
    | cons c r =>
      obtain ⟨h1, h2⟩ := ih h.tail (st.step b (some c)).2
      simp [after_cons st b, cells_cons st b, h1, h2]

/-- Plain bytes in code are code. -/
theorem after_cells_plain {t : Text} (h : ∀ b ∈ t, Plain b) (next : Option UInt8) :
    code.after t next = code ∧ code.cells t next = t.map (Cell.mk · .code) := by
  induction t with
  | nil => exact ⟨rfl, rfl⟩
  | cons b r ih =>
    obtain ⟨h1, h2⟩ := ih fun x hx => h x (by simp [hx])
    simp [after_cons, cells_cons, step_code (h b (by simp)), h1, h2]

/-! ## What a state tells about the byte in hand -/

/-- Behind a byte of code there is code. -/
theorem code_of_step {st : LexState} {b : UInt8} {next : Option UInt8}
    (h : (st.step b next).1 = .code) : (st.step b next).2 = code := by
  cases st <;> grind [step]

/-- A byte of code other than a newline is read in code. -/
theorem eq_code_of_step {st : LexState} {b : UInt8} {next : Option UInt8}
    (h : (st.step b next).1 = .code) (hb : b ≠ Byte.newline) : st = code := by
  cases st <;> grind [step]

/-- A literal has a quote, and the second byte of a comment's opening or closing comes next. -/
def Expects (st : LexState) (next : Option UInt8) : Prop :=
  match st with
  | quoted q | escaped q => isQuote q = true
  | opening => next = some Byte.star
  | closing => next = some Byte.slash
  | code | line | block => True

/-- A step keeps what the states announce. -/
theorem Expects.step {st : LexState} {b : UInt8} {next : Option UInt8}
    (h : st.Expects (some b)) : (st.step b next).2.Expects next := by
  cases st <;> grind [LexState.step, Expects]

/-- A byte that leads to code without being code is a closing quote or a closing slash. -/
theorem Expects.closes {st : LexState} {b : UInt8} {next : Option UInt8}
    (h : st.Expects (some b)) (hs : (st.step b next).2 = code) (hk : (st.step b next).1 ≠ .code) :
    isQuote b = true ∨ b = Byte.slash := by
  cases st <;> grind [LexState.step, Expects]

end LexState

/-! ## States at positions -/

open LexState

/-- The state before position `i` of a text. -/
def Text.stateAt (t : Text) (i : Nat) : LexState := code.after (t.take i) (t.drop i).head?

namespace Source

section
variable (s : Source)

/-- The cells from position `i` up to and without position `j`. -/
def slice (i j : Nat) : List Cell := (s.cells.toList.drop i).take (j - i)

/-- The bytes of a span are those of its slice. -/
theorem bytes_eq (x : Span) : s.bytes x = (s.slice x.start x.stop).map Cell.byte := by
  simp [bytes, slice, List.extract_eq_take_drop]

/-- A part inside the text has as many cells as there are positions in it. -/
theorem length_slice {i j : Nat} (hij : i ≤ j) (hj : j ≤ s.size) :
    (s.slice i j).length = j - i := by
  rw [size] at hj
  simp only [slice, List.length_take, List.length_drop, Array.length_toList]
  omega

theorem slice_self (i : Nat) : s.slice i i = [] := by simp [slice]

/-- A slice in two parts. -/
theorem slice_append {i j k : Nat} (hij : i ≤ j) (hjk : j ≤ k) :
    s.slice i j ++ s.slice j k = s.slice i k := by
  unfold slice
  rw [show k - i = (j - i) + (k - j) by omega, List.take_add, List.drop_drop,
    Nat.add_sub_cancel' hij]

/-- The whole text as a slice. -/
theorem slice_zero_size : s.slice 0 s.size = s.cells.toList := by
  rw [slice, size, List.drop_zero, Nat.sub_zero, ← Array.length_toList, List.take_length]

/-- A cell of a part is the cell of the text at its position. -/
theorem getElem?_slice {i j k : Nat} (hk : i + k < j) : (s.slice i j)[k]? = s.cells[i + k]? := by
  rw [slice, List.getElem?_take_of_lt (by omega), List.getElem?_drop, Array.getElem?_toList]

/-- The cells of a slice are those at its positions. -/
theorem mem_slice_iff {c : Cell} {i j : Nat} :
    c ∈ s.slice i j ↔ ∃ k, i ≤ k ∧ k < j ∧ s.cells[k]? = some c := by
  rw [List.mem_iff_getElem?]
  constructor
  · rintro ⟨n, hn⟩
    have hlt := (List.getElem?_eq_some_iff.1 hn).1
    rw [slice, List.length_take] at hlt
    rw [getElem?_slice s (by omega)] at hn
    exact ⟨i + n, Nat.le_add_right i n, by omega, hn⟩
  · rintro ⟨k, h1, h2, hc⟩
    refine ⟨k - i, ?_⟩
    rw [getElem?_slice s (by omega), Nat.add_sub_cancel' h1, hc]

theorem getElem?_size : s.cells[s.size]? = none := Array.getElem?_eq_none (Nat.le_refl _)

theorem exists_cell {i : Nat} (h : i < s.size) : ∃ c, s.cells[i]? = some c :=
  ⟨_, Array.getElem?_eq_getElem h⟩

/-- A slice begins with the cell at its start. -/
theorem slice_eq_cons {i j : Nat} {c : Cell} (hij : i < j) (hc : s.cells[i]? = some c) :
    s.slice i j = c :: s.slice (i + 1) j := by
  have h : s.slice i (i + 1) = [c] := by
    apply List.ext_getElem?
    intro k
    cases k with
    | zero => rw [getElem?_slice _ (by omega)]; simpa using hc
    | succ k =>
      have : (s.slice i (i + 1)).length ≤ 1 := by
        rw [slice, List.length_take]
        omega
      rw [List.getElem?_eq_none (by omega), List.getElem?_eq_none (by simp)]
  rw [← slice_append s (Nat.le_succ i) hij, h]
  rfl

end

section
variable (t : Text)

/-- The cells of a classified text are those the automaton gives. -/
theorem toList_ofText : (ofText t).cells.toList = code.cells t none := by
  simp [ofText, ofText_eq_kinds, zipWith_kinds]

/-- **The kinds of a text are those the automaton gives.** Every byte of a classified text, whether
it lies in a measured literal or comment or is code, has the kind that the automaton gives it on its
way through the text, one byte after the other. -/
theorem kinds_ofText : (ofText t).cells.toList.map Cell.kind = code.kinds t := by
  rw [toList_ofText, map_kind_cells]

@[simp] theorem size_ofText : (ofText t).size = t.length := by
  rw [size, ← Array.length_toList, toList_ofText, length_cells]

@[simp] theorem text_ofText : (ofText t).text = t := by
  rw [text, toList_ofText, map_byte_cells]

/-- The bytes of a slice of a classified text. -/
theorem map_byte_slice (i j : Nat) :
    ((ofText t).slice i j).map Cell.byte = (t.drop i).take (j - i) := by
  rw [slice, List.map_take, List.map_drop, toList_ofText, map_byte_cells]

@[simp] theorem byte?_ofText (i : Nat) : (ofText t).byte? i = t[i]? := by
  rw [byte?, ← Array.getElem?_toList, ← List.getElem?_map, toList_ofText, map_byte_cells]

/-- A part of a text is read from the state before it, and leads to the state behind it. -/
theorem read_slice {i j : Nat} (hij : i ≤ j) (hj : j ≤ t.length) :
    (t.stateAt i).cells ((t.drop i).take (j - i)) (t.drop j).head? = (ofText t).slice i j ∧
    (t.stateAt i).after ((t.drop i).take (j - i)) (t.drop j).head? = t.stateAt j := by
  generalize hu : (t.drop i).take (j - i) = u
  have hd : t.drop i = u ++ t.drop j := by
    have h := List.take_append_drop (j - i) (t.drop i)
    rw [hu, List.drop_drop, Nat.add_sub_cancel' hij] at h
    exact h.symm
  have ht : t.take j = t.take i ++ u := by
    rw [← hu, ← List.take_add, Nat.add_sub_cancel' hij]
  have hlu : u.length = j - i := by rw [← hu, List.length_take, List.length_drop]; omega
  constructor
  · have h := cells_append code (t.take i) (t.drop i) none
    rw [List.take_append_drop, Option.or_none, ← Text.stateAt, hd,
      cells_append, Option.or_none] at h
    have hli : (code.cells (t.take i) (u ++ t.drop j).head?).length = i := by simp; omega
    rw [slice, toList_ofText, h, List.drop_left' hli, List.take_left' (by simp [hlu])]
  · rw [Text.stateAt, Text.stateAt, ht, after_append, hd, List.head?_append]

end

section
variable {s : Source} {i : Nat} {b : UInt8}

/-- A byte of code by its cell. -/
theorem codeByte?_eq_some : s.codeByte? i = some b ↔ s.cells[i]? = some ⟨b, .code⟩ := by
  unfold codeByte?
  split
  · next c h => simp [h]
  · next h =>
    refine ⟨fun h' => (nomatch h'), fun h' => absurd h' (h b)⟩

/-- A byte of code is a byte. -/
theorem byte?_of_codeByte? (h : s.codeByte? i = some b) : s.byte? i = some b := by
  rw [byte?, codeByte?_eq_some.1 h]
  rfl

theorem lt_size_of_codeByte? (h : s.codeByte? i = some b) : i < s.size :=
  (Array.getElem?_eq_some_iff.1 (codeByte?_eq_some.1 h)).1

end

section
variable {t : Text} {i : Nat}

/-- The cell at a position and the state behind it come from one step. -/
theorem read_cell {b : UInt8} (hb : t[i]? = some b) :
    (ofText t).cells[i]? = some ⟨b, ((t.stateAt i).step b t[i + 1]?).1⟩ ∧
    t.stateAt (i + 1) = ((t.stateAt i).step b t[i + 1]?).2 := by
  obtain ⟨hi, -⟩ := List.getElem?_eq_some_iff.1 hb
  obtain ⟨h1, h2⟩ := read_slice t (Nat.le_succ i) hi
  have ht : (t.drop i).take (i + 1 - i) = [b] := by
    rw [Nat.add_sub_cancel_left, List.take_one, List.head?_drop, hb]
    rfl
  rw [ht] at h1 h2
  simp only [cells_cons, after_cons, cells_nil, after_nil, List.head?_nil, Option.none_or,
    List.head?_drop] at h1 h2
  refine ⟨?_, h2.symm⟩
  have := getElem?_slice (ofText t) (i := i) (j := i + 1) (k := 0) (by omega)
  rw [← h1] at this
  simpa using this.symm

variable {b : UInt8}

/-- A byte of code is a byte of the text. -/
theorem getElem?_of_codeByte? (h : (ofText t).codeByte? i = some b) : t[i]? = some b := by
  rw [← byte?_ofText]
  exact byte?_of_codeByte? h

/-- A byte of code comes from a step that gives code. -/
theorem step_of_codeByte? (h : (ofText t).codeByte? i = some b) :
    ((t.stateAt i).step b t[i + 1]?).1 = .code ∧
    t.stateAt (i + 1) = ((t.stateAt i).step b t[i + 1]?).2 := by
  obtain ⟨h1, h2⟩ := read_cell (getElem?_of_codeByte? h)
  rw [codeByte?_eq_some.1 h] at h1
  exact ⟨by simpa using (Cell.mk.inj (Option.some.inj h1)).2.symm, h2⟩

/-- The state behind a byte of code is code. -/
theorem stateAt_succ (h : (ofText t).codeByte? i = some b) : t.stateAt (i + 1) = code := by
  obtain ⟨h1, h2⟩ := step_of_codeByte? h
  rw [h2]
  exact code_of_step h1

/-- The state before a byte of code is code, unless the byte is a newline: a newline ends a
literal or a comment that begins before it. -/
theorem stateAt_of_codeByte? (h : (ofText t).codeByte? i = some b) (hb : b ≠ Byte.newline) :
    t.stateAt i = code :=
  eq_code_of_step (step_of_codeByte? h).1 hb

/-- What a state announces comes: the bytes of a comment's opening and closing. -/
theorem stateAt_expects (t : Text) (i : Nat) : (t.stateAt i).Expects t[i]? := by
  induction i with
  | zero => simp [Text.stateAt, Expects]
  | succ i ih =>
    cases hb : t[i]? with
    | none =>
      have hl : t.length ≤ i := by simpa using hb
      rw [Text.stateAt, List.take_of_length_le hl, List.drop_of_length_le hl] at ih
      rw [Text.stateAt, List.take_of_length_le (by omega), List.drop_of_length_le (by omega)]
      rwa [hb, ← List.getElem?_eq_none (l := t) (i := i + 1) (by omega)] at ih
    | some b =>
      rw [(read_cell hb).2]
      rw [hb] at ih
      exact ih.step

/-- A byte that is not code and has code behind it ends a literal or a comment: it is a quote or a
slash, unless a newline comes next. -/
theorem closes_of_codeByte? {a : UInt8} (ha : t[i]? = some a) (hn : (ofText t).codeByte? i = none)
    (h : (ofText t).codeByte? (i + 1) = some b) (hb : b ≠ Byte.newline) :
    Kind.isQuote a = true ∨ a = Byte.slash := by
  have hs := stateAt_of_codeByte? h hb
  obtain ⟨h1, h2⟩ := read_cell ha
  rw [hs] at h2
  have he := stateAt_expects t i
  rw [ha] at he
  refine he.closes h2.symm fun hk => ?_
  rw [hk] at h1
  rw [codeByte?_eq_some.2 h1] at hn
  cases hn

end

end Source

end ProviderNest
