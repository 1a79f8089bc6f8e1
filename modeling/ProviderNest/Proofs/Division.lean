import Mathlib.Algebra.BigOperators.Group.List.Basic
import Mathlib.Data.List.Forall2
import ProviderNest.Proofs.Nesting

/-!
# Dividing a body at its commas

What divides a body is decided by its cells. `divide` cuts some cells at the commas that stand
where the bracket depth is zero, and `Source.segments_eq` says that the segments of a body are the
spans of these pieces. Cells in front without such a comma join the first piece (`divide_append`),
so the division of a text put together from parts is found part by part.

A body is balanced if the depth never falls below zero in it and is zero at its end
(`Source.Balanced`). Each piece of a balanced body is balanced again (`Piece`), and so is a piece
with brackets put around it: inside them the depth is at least one and no comma divides.

The last part says which entry trimming leaves of a segment: `Source.trimBlank?_eq_some` gives it by
the bytes of the segment alone.
-/

namespace ProviderNest

open LexState Source

/-! ## Depth -/

/-- The change of bracket depth at a cell. -/
def Cell.depth (c : Cell) : Int :=
  if c.kind = .code then
    if c.byte = Byte.openBrace ∨ c.byte = Byte.openBracket ∨ c.byte = Byte.openParen then 1
    else if c.byte = Byte.closeBrace ∨ c.byte = Byte.closeBracket ∨ c.byte = Byte.closeParen then -1
    else 0
  else 0

/-- The comma in code. -/
abbrev Cell.comma : Cell := ⟨Byte.comma, .code⟩

/-- The bracket depth behind some cells, where it is 0 before them. -/
def depthOf (cs : List Cell) : Int := (cs.map Cell.depth).sum

/-- The bracket depth, `d` before the cells, is never below 0. -/
def Upright : (d : Int) → List Cell → Prop
  | d, [] => 0 ≤ d
  | d, c :: cs => 0 ≤ d ∧ Upright (d + c.depth) cs

/-- No comma stands where the bracket depth, `d` before the cells, is 0. -/
def Undivided : (d : Int) → List Cell → Prop
  | _, [] => True
  | d, c :: cs => (c = .comma → d ≠ 0) ∧ Undivided (d + c.depth) cs

/-- Cells at which the depth stays as it is and nothing is divided. -/
def Inert (cs : List Cell) : Prop := ∀ c ∈ cs, c.depth = 0 ∧ c ≠ .comma

instance (cs : List Cell) : Decidable (Inert cs) :=
  inferInstanceAs (Decidable (∀ c ∈ cs, c.depth = 0 ∧ c ≠ .comma))

/-- Cells that lead from depth `d` to depth 0, never below 0 and with no comma that divides. -/
structure Piece (d : Int) (cs : List Cell) : Prop where
  upright : Upright d cs
  undivided : Undivided d cs
  closes : d + depthOf cs = 0

section
variable {c : Cell} {as bs cs : List Cell} {d : Int}

@[simp] theorem depthOf_nil : depthOf [] = 0 := rfl

@[simp] theorem depthOf_cons : depthOf (c :: cs) = c.depth + depthOf cs := by
  rw [depthOf, List.map_cons, List.sum_cons]
  rfl

/-- The change of depth over two runs of cells is the sum of their changes. -/
@[simp] theorem depthOf_append : depthOf (as ++ bs) = depthOf as + depthOf bs := by
  rw [depthOf, List.map_append, List.sum_append]
  rfl

/-- The depth stays at or above 0 over two runs if it does over the first, and over the second from
the depth that the first leaves. -/
theorem upright_append : Upright d (as ++ bs) ↔ Upright d as ∧ Upright (d + depthOf as) bs := by
  induction as generalizing d with
  | nil =>
    rw [List.nil_append, depthOf_nil, Int.add_zero]
    refine ⟨fun h => ⟨?_, h⟩, fun h => h.2⟩
    cases bs with
    | nil => exact h
    | cons b bs => exact h.1
  | cons a as ih =>
    rw [List.cons_append, Upright, Upright, ih, depthOf_cons, Int.add_assoc, and_assoc]

/-- No comma divides two runs if none divides the first, and none the second at the depth that the
first leaves. -/
theorem undivided_append :
    Undivided d (as ++ bs) ↔ Undivided d as ∧ Undivided (d + depthOf as) bs := by
  induction as generalizing d with
  | nil =>
    rw [List.nil_append, depthOf_nil, Int.add_zero]
    exact ⟨fun h => ⟨trivial, h⟩, fun h => h.2⟩
  | cons a as ih =>
    rw [List.cons_append, Undivided, Undivided, ih, depthOf_cons, Int.add_assoc, and_assoc]

/-- Where the depth stays above 0, nothing is divided. -/
theorem Upright.undivided (h : Upright d cs) {k : Int} (hk : 0 < k) : Undivided (d + k) cs := by
  induction cs generalizing d with
  | nil => trivial
  | cons c cs ih =>
    obtain ⟨h1, h2⟩ := h
    refine ⟨fun _ => by omega, ?_⟩
    rw [show d + k + c.depth = d + c.depth + k by omega]
    exact ih h2

/-- From a greater depth the depth stays at or above 0 all the more. -/
theorem Upright.add (h : Upright d cs) {k : Int} (hk : 0 ≤ k) : Upright (d + k) cs := by
  induction cs generalizing d with
  | nil =>
    rw [Upright] at h ⊢
    omega
  | cons c cs ih =>
    obtain ⟨h1, h2⟩ := h
    refine ⟨by omega, ?_⟩
    rw [show d + k + c.depth = d + c.depth + k by omega]
    exact ih h2

/-- Inert cells behind inert cells are inert. -/
theorem Inert.append (ha : Inert as) (hb : Inert bs) : Inert (as ++ bs) := by
  intro c hc
  rcases List.mem_append.1 hc with h | h
  · exact ha c h
  · exact hb c h

/-- Inert cells leave the depth as it is. -/
theorem Inert.depthOf (h : Inert cs) : depthOf cs = 0 := by
  induction cs with
  | nil => rfl
  | cons c cs ih =>
    rw [depthOf_cons, (h c List.mem_cons_self).1, ih fun x hx => h x (List.mem_cons_of_mem _ hx)]
    rfl

/-- Inert cells are not divided at any depth, since there is no comma among them. -/
theorem Inert.undivided (h : Inert cs) (d : Int) : Undivided d cs := by
  induction cs generalizing d with
  | nil => trivial
  | cons c cs ih =>
    exact ⟨fun hc => absurd hc (h c List.mem_cons_self).2,
      ih (fun x hx => h x (List.mem_cons_of_mem _ hx)) _⟩

theorem Inert.upright (h : Inert cs) (hd : 0 ≤ d) : Upright d cs := by
  induction cs with
  | nil => exact hd
  | cons c cs ih =>
    refine ⟨hd, ?_⟩
    rw [(h c List.mem_cons_self).1, Int.add_zero]
    exact ih fun x hx => h x (List.mem_cons_of_mem _ hx)

/-- Inert cells are a piece on their own. -/
theorem Inert.piece (h : Inert cs) : Piece 0 cs :=
  ⟨h.upright (Int.le_refl 0), h.undivided 0, by rw [h.depthOf]; rfl⟩

/-- A piece behind a piece, with no comma between them, is one piece. -/
theorem Piece.append (ha : Piece 0 as) (hb : Piece 0 bs) : Piece 0 (as ++ bs) := by
  have hz : 0 + depthOf as = 0 := ha.closes
  refine ⟨upright_append.2 ⟨ha.upright, ?_⟩, undivided_append.2 ⟨ha.undivided, ?_⟩, ?_⟩
  · rw [hz]
    exact hb.upright
  · rw [hz]
    exact hb.undivided
  · rw [depthOf_append, ← Int.add_assoc, hz]
    exact hb.closes

/-- Inert cells around others do not matter. -/
theorem Inert.piece_iff (ha : Inert as) (hb : Inert bs) :
    Piece 0 (as ++ (cs ++ bs)) ↔ Piece 0 cs := by
  constructor
  · rintro ⟨h1, h2, h3⟩
    rw [upright_append, ha.depthOf, Int.add_zero, upright_append] at h1
    rw [undivided_append, ha.depthOf, Int.add_zero, undivided_append] at h2
    rw [depthOf_append, depthOf_append, ha.depthOf, hb.depthOf] at h3
    exact ⟨h1.2.1, h2.2.1, by omega⟩
  · exact fun h => ha.piece.append (h.append hb.piece)

/-- Braces around cells that never fall below depth 0 keep their commas from dividing. -/
theorem Piece.braces (h : Upright 0 cs) (hz : depthOf cs = 0) :
    Piece 0 (⟨Byte.openBrace, .code⟩ :: (cs ++ [⟨Byte.closeBrace, .code⟩])) := by
  have ho : Cell.depth ⟨Byte.openBrace, .code⟩ = 1 := rfl
  have hc : Cell.depth ⟨Byte.closeBrace, .code⟩ = -1 := rfl
  refine ⟨⟨Int.le_refl 0, ?_⟩, ⟨fun h => absurd h (by decide), ?_⟩, ?_⟩
  · rw [ho, upright_append, hz]
    exact ⟨h.add (by decide), by simp [Upright, hc]⟩
  · rw [ho, undivided_append]
    exact ⟨h.undivided (by decide), fun h => absurd h (by decide), trivial⟩
  · rw [depthOf_cons, depthOf_append, ho, hz, depthOf_cons, hc]
    rfl

/-! ## Pieces -/

/-- The pieces of some cells between the commas that stand where the bracket depth, `d` before the
cells, is 0. -/
def divide : (d : Int) → List Cell → List (List Cell)
  | _, [] => [[]]
  | d, c :: cs =>
    if c = .comma ∧ d = 0 then [] :: divide 0 cs
    else (divide (d + c.depth) cs).modifyHead (c :: ·)

/-- A division has at least one piece, which is empty where there are no cells. -/
theorem divide_ne_nil (d : Int) (cs : List Cell) : divide d cs ≠ [] := by
  induction cs generalizing d with
  | nil => simp [divide]
  | cons c cs ih =>
    rw [divide]
    split
    · exact List.cons_ne_nil _ _
    · rw [ne_eq, List.modifyHead_eq_nil_iff]
      exact ih _

/-- Cells in front that are not divided join the first piece. -/
theorem divide_append (h : Undivided d as) :
    divide d (as ++ bs) = (divide (d + depthOf as) bs).modifyHead (as ++ ·) := by
  induction as generalizing d with
  | nil =>
    rw [depthOf_nil, Int.add_zero]
    cases hd : divide d bs with
    | nil => exact absurd hd (divide_ne_nil d bs)
    | cons p ps => rw [List.nil_append, hd]; rfl
  | cons a as ih =>
    obtain ⟨h1, h2⟩ := h
    rw [List.cons_append, divide, if_neg fun hc => h1 hc.1 hc.2, ih h2, List.modifyHead_modifyHead,
      depthOf_cons, Int.add_assoc]
    rfl

/-- Cells that are not divided are one piece. -/
theorem divide_of_undivided (h : Undivided d cs) : divide d cs = [cs] := by
  have : divide d (cs ++ []) = _ := divide_append h
  rwa [List.append_nil, divide, List.modifyHead_cons, List.append_nil] at this

/-- A piece up to a comma that divides. -/
theorem divide_piece (h : Piece 0 as) : divide 0 (as ++ .comma :: bs) = as :: divide 0 bs := by
  have hz : 0 + depthOf as = 0 := h.closes
  rw [divide_append h.undivided, hz, divide, if_pos ⟨rfl, rfl⟩, List.modifyHead_cons,
    List.append_nil]

/-- **The pieces of balanced cells are balanced.** -/
theorem piece_divide (h : Upright d cs) (hz : d + depthOf cs = 0) :
    ∃ p ps, divide d cs = p :: ps ∧ Piece d p ∧ ∀ q ∈ ps, Piece 0 q := by
  induction cs generalizing d with
  | nil => exact ⟨[], [], rfl, ⟨h, trivial, hz⟩, List.forall_mem_nil _⟩
  | cons c cs ih =>
    obtain ⟨h1, h2⟩ := h
    rw [depthOf_cons, ← Int.add_assoc] at hz
    rw [divide]
    split
    · next hc =>
      obtain ⟨rfl, rfl⟩ := hc
      have hzero : (0 : Int) + Cell.comma.depth = 0 := rfl
      rw [hzero] at h2 hz
      obtain ⟨p, ps, hp, h3, h4⟩ := ih h2 hz
      refine ⟨[], divide 0 cs, rfl, ⟨h1, trivial, rfl⟩, ?_⟩
      rw [hp]
      intro q hq
      rcases List.mem_cons.1 hq with rfl | hq
      · exact h3
      · exact h4 q hq
    · next hc =>
      obtain ⟨p, ps, hp, h3, h4⟩ := ih h2 hz
      refine ⟨c :: p, ps, by rw [hp]; rfl, ⟨⟨h1, h3.upright⟩, ⟨?_, h3.undivided⟩, ?_⟩, h4⟩
      · exact fun hcomma h0 => hc ⟨hcomma, h0⟩
      · rw [depthOf_cons, ← Int.add_assoc]
        exact h3.closes

/-- Every piece of a division leads from depth 0 back to depth 0, if all the cells do. -/
theorem piece_of_mem_divide (h : Upright 0 cs) (hz : depthOf cs = 0) :
    ∀ p ∈ divide 0 cs, Piece 0 p := by
  obtain ⟨p, ps, hp, h1, h2⟩ := piece_divide (d := 0) h (by omega)
  rw [hp]
  intro q hq
  rcases List.mem_cons.1 hq with rfl | hq
  · exact h1
  · exact h2 q hq

/-- The pieces with the commas between them are the cells. -/
theorem intercalate_divide (d : Int) (cs : List Cell) :
    [Cell.comma].intercalate (divide d cs) = cs := by
  induction cs generalizing d with
  | nil => rfl
  | cons c cs ih =>
    rw [divide]
    split
    · next hc =>
      obtain ⟨rfl, -⟩ := hc
      have := ih 0
      cases hd : divide 0 cs with
      | nil => exact absurd hd (divide_ne_nil 0 cs)
      | cons p ps =>
        rw [hd] at this
        rw [List.intercalate_cons_cons, this]
        rfl
    · have := ih (d + c.depth)
      cases hd : divide (d + c.depth) cs with
      | nil => exact absurd hd (divide_ne_nil _ cs)
      | cons p ps =>
        rw [hd] at this
        cases ps with
        | nil =>
          rw [List.intercalate_singleton] at this
          rw [List.modifyHead_cons, List.intercalate_singleton, this]
        | cons q qs =>
          rw [List.intercalate_cons_cons] at this
          rw [List.modifyHead_cons, List.intercalate_cons_cons, List.cons_append,
            List.cons_append, this]

end

/-- The spans of pieces that follow each other from position `i` on, with a comma between each two
of them. -/
def spansFrom : (i : Nat) → List (List Cell) → List Span
  | _, [] => []
  | i, p :: ps => ⟨i, i + p.length⟩ :: spansFrom (i + p.length + 1) ps

/-- An element of the first of two related lists has its counterpart in the second. -/
theorem exists_of_forall₂ {α β : Type} {R : α → β → Prop} {xs : List α} {ys : List β}
    (h : List.Forall₂ R xs ys) {x : α} (hx : x ∈ xs) : ∃ y ∈ ys, R x y := by
  induction h with
  | nil => cases hx
  | cons hr _ ih =>
    rcases List.mem_cons.1 hx with rfl | hx
    · exact ⟨_, List.mem_cons_self, hr⟩
    · obtain ⟨y, hy, hxy⟩ := ih hx
      exact ⟨y, List.mem_cons_of_mem _ hy, hxy⟩

namespace Source

section
variable {s : Source} {i start stop : Nat}

/-- The change of depth at a position is that of its cell. -/
theorem depthStep_eq {c : Cell} (h : s.cells[i]? = some c) : s.depthStep i = c.depth := by
  obtain ⟨b, kind⟩ := c
  rw [depthStep, codeByte?, h, Cell.depth]
  cases kind <;> rfl

/-- A body is divided as its cells are, where the segment under way begins at `start`. -/
theorem segmentsFrom_eq {n : Nat} {d : Int} (hi : start ≤ i) (hn : i + n ≤ s.size) :
    s.segmentsFrom n i start d =
      spansFrom start ((divide d (s.slice i (i + n))).modifyHead (s.slice start i ++ ·)) := by
  induction n generalizing i start d with
  | zero =>
    rw [segmentsFrom, Nat.add_zero, slice_self, divide, List.modifyHead_cons, List.append_nil,
      spansFrom, length_slice s hi (by omega), Nat.add_sub_cancel' hi]
    rfl
  | succ n ih =>
    obtain ⟨c, hc⟩ := s.exists_cell (i := i) (by omega)
    have hslice : s.slice i (i + (n + 1)) = c :: s.slice (i + 1) (i + 1 + n) := by
      rw [slice_eq_cons s (by omega) hc, show i + (n + 1) = i + 1 + n by omega]
    have hcomma : s.codeByte? i = some Byte.comma ↔ c = .comma := by
      rw [codeByte?_eq_some, hc, Option.some.injEq]
    simp only [segmentsFrom, hslice, divide, hcomma]
    split
    · have hrest : s.segmentsFrom n (i + 1) (i + 1) 0 = _ := ih (Nat.le_refl _) (by omega)
      rw [slice_self] at hrest
      rw [hrest, List.modifyHead_cons, List.append_nil, spansFrom, length_slice s hi (by omega),
        Nat.add_sub_cancel' hi]
      congr 2
      cases divide 0 (s.slice (i + 1) (i + 1 + n)) <;> rfl
    · rw [depthStep_eq hc, ih (by omega) (by omega), List.modifyHead_modifyHead,
        ← slice_append s hi (Nat.le_succ i), slice_eq_cons s (Nat.lt_succ_self i) hc, slice_self]
      congr 2
      funext p
      simp

/-- **The segments of a body are the spans of its pieces.** -/
theorem segments_eq (h : start ≤ stop) (hs : stop ≤ s.size) :
    s.segments start stop = spansFrom start (divide 0 (s.slice start stop)) := by
  rw [segments, if_pos h, segmentsFrom_eq (Nat.le_refl _) (by omega), slice_self,
    Nat.add_sub_cancel' h]
  congr 1
  cases divide 0 (s.slice start stop) <;> rfl

/-- The cells of the spans of pieces. -/
theorem slice_spansFrom {ps : List (List Cell)} (h : start ≤ stop) (hs : stop ≤ s.size)
    (hp : s.slice start stop = [Cell.comma].intercalate ps) :
    List.Forall₂ (fun x p => x.start ≤ x.stop ∧ x.stop ≤ s.size ∧ s.slice x.start x.stop = p)
      (spansFrom start ps) ps := by
  induction ps generalizing start with
  | nil => exact .nil
  | cons p ps ih =>
    cases ps with
    | nil =>
      rw [List.intercalate_singleton] at hp
      have hlen := congrArg List.length hp
      rw [length_slice s h hs] at hlen
      refine .cons ⟨Nat.le_add_right _ _, ?_, ?_⟩ .nil
      · dsimp only
        omega
      · rwa [show start + p.length = stop by omega]
    | cons q qs =>
      rw [List.intercalate_cons_cons, List.append_assoc] at hp
      obtain ⟨h1, h2, h3⟩ := slice_split h hs hp
      obtain ⟨h4, -, h5⟩ := slice_split h1 hs h3
      exact .cons ⟨Nat.le_add_right _ _, Nat.le_trans h1 hs, h2⟩ (ih h4 h5)

/-- The cells of the segments of a body are its pieces. -/
theorem slice_segments (h : start ≤ stop) (hs : stop ≤ s.size) :
    List.Forall₂ (fun x p => x.start ≤ x.stop ∧ x.stop ≤ s.size ∧ s.slice x.start x.stop = p)
      (s.segments start stop) (divide 0 (s.slice start stop)) := by
  rw [segments_eq h hs]
  exact slice_spansFrom h hs (intercalate_divide _ _).symm

/-- The cells of a segment are a piece. -/
theorem mem_segments {x : Span} (h : start ≤ stop) (hs : stop ≤ s.size)
    (hx : x ∈ s.segments start stop) : x.start ≤ x.stop ∧ x.stop ≤ s.size ∧
      s.slice x.start x.stop ∈ divide 0 (s.slice start stop) := by
  obtain ⟨p, hp, h1, h2, rfl⟩ := exists_of_forall₂ (slice_segments h hs) hx
  exact ⟨h1, h2, hp⟩

end

/-- The bracket depth before position `i`, where it is 0 before position `start`. -/
def depthAt (s : Source) (start i : Nat) : Int :=
  ((List.range' start (i - start)).map s.depthStep).sum

/-- The brackets of a body: its depth never falls below 0, and is 0 at its end. -/
structure Balanced (s : Source) (start stop : Nat) : Prop where
  upright : ∀ i ≤ stop, start ≤ i → 0 ≤ s.depthAt start i
  closes : s.depthAt start stop = 0

instance (s : Source) (start stop : Nat) : Decidable (s.Balanced start stop) :=
  decidable_of_iff ((∀ i ≤ stop, start ≤ i → 0 ≤ s.depthAt start i) ∧ s.depthAt start stop = 0)
    ⟨fun h => ⟨h.1, h.2⟩, fun h => ⟨h.upright, h.closes⟩⟩

section
variable {s : Source} {i start stop : Nat}

/-- The depth before a position is the change over the cells up to it. -/
theorem depthAt_eq (hi : start ≤ i) (hs : i ≤ s.size) :
    s.depthAt start i = depthOf (s.slice start i) := by
  generalize hn : i - start = n
  rw [depthAt, hn]
  induction n generalizing start with
  | zero =>
    obtain rfl : start = i := by omega
    rw [slice_self]
    rfl
  | succ n ih =>
    obtain ⟨c, hc⟩ := s.exists_cell (i := start) (by omega)
    rw [List.range'_succ, List.map_cons, List.sum_cons, ih (by omega) (by omega),
      slice_eq_cons s (by omega) hc, depthOf_cons, depthStep_eq hc]

/-- A balanced body by its cells. -/
theorem Balanced.cells (h : s.Balanced start stop) (hle : start ≤ stop) (hs : stop ≤ s.size) :
    Upright 0 (s.slice start stop) ∧ depthOf (s.slice start stop) = 0 := by
  refine ⟨?_, by rw [← depthAt_eq hle hs]; exact h.closes⟩
  have hfrom : ∀ n i, start ≤ i → i + n = stop →
      Upright (depthOf (s.slice start i)) (s.slice i stop) := by
    intro n
    induction n with
    | zero =>
      intro i hi hn
      obtain rfl : i = stop := by omega
      rw [slice_self, Upright, ← depthAt_eq hle hs]
      exact h.upright i (Nat.le_refl _) hle
    | succ n ih =>
      intro i hi hn
      obtain ⟨c, hc⟩ := s.exists_cell (i := i) (by omega)
      rw [slice_eq_cons s (by omega) hc, Upright]
      refine ⟨?_, ?_⟩
      · rw [← depthAt_eq hi (by omega)]
        exact h.upright i (by omega) hi
      · have hnext := ih (i + 1) (by omega) (by omega)
        rwa [← slice_append s hi (Nat.le_succ i), depthOf_append,
          slice_eq_cons s (Nat.lt_succ_self i) hc, slice_self, depthOf_cons, depthOf_nil,
          Int.add_zero] at hnext
  have := hfrom (stop - start) start (Nat.le_refl _) (by omega)
  rwa [slice_self, depthOf_nil] at this

end

end Source

/-! ## Inert cells -/

section
variable {c : Cell} {cs : List Cell} {u : Text}

/-- A byte of code that changes no depth and divides nothing. -/
theorem inert_of_byte {b : UInt8} (h1 : b ∉ Text.brackets) (h2 : b ≠ Byte.comma) (kind : Kind) :
    Cell.depth ⟨b, kind⟩ = 0 ∧ (⟨b, kind⟩ : Cell) ≠ .comma := by
  simp only [Text.brackets, List.mem_cons, List.not_mem_nil, or_false, not_or] at h1
  obtain ⟨h3, h4, h5, h6, h7, h8⟩ := h1
  refine ⟨?_, fun h => h2 (congrArg Cell.byte h)⟩
  simp [Cell.depth, h3, h4, h5, h6, h7, h8]

/-- What is not code is inert. -/
theorem inert_of_kind (h : c.kind ≠ .code) : c.depth = 0 ∧ c ≠ .comma := by
  refine ⟨by rw [Cell.depth, if_neg h], ?_⟩
  rintro rfl
  exact h rfl

/-- Trivia is inert: white space is no comma, and a bracket or a comma in a comment is not code. -/
theorem inert_of_isTrivia (h : ∀ c ∈ cs, c.isTrivia = true) : Inert cs := by
  intro c hc
  have hc := h c hc
  obtain ⟨b, kind⟩ := c
  by_cases hk : kind = .code
  · subst hk
    have hb : Byte.isSpace b = true := hc
    refine inert_of_byte (not_bracket (.inl hb)) ?_ _
    rintro rfl
    exact absurd hb (by decide)
  · exact inert_of_kind hk

/-- A word is inert. -/
theorem inert_of_isWord (h : ∀ b ∈ u, Byte.isWord b = true) : Inert (codeCells u) := by
  intro c hc
  obtain ⟨b, hb, rfl⟩ := List.mem_map.1 hc
  refine inert_of_byte (not_bracket (.inr (h b hb))) ?_ _
  rintro rfl
  exact absurd (h _ hb) (by decide)

/-- From the start of a key up to its value there is neither a bracket nor a comma. -/
theorem inert_key {t : Text} {key : Key} {colon : Nat} (h : (ofText t).IsKey key colon) :
    Inert ((ofText t).slice key.name.start key.value) := by
  have h1 := h.word.lt
  have h2 := h.stop_le_colon
  have h3 := h.colon_lt_value
  have h4 := h.value_le_size
  have hword : Inert ((ofText t).slice key.name.start key.name.stop) := by
    rw [h.word.slice_eq]
    exact inert_of_isWord (isWord_bytes h.word)
  have hcolon : Inert ((ofText t).slice colon (colon + 1)) := by
    rw [slice_eq_cons _ (Nat.lt_succ_self _) (codeByte?_eq_some.1 h.colon_code), slice_self]
    exact fun c hc => List.mem_singleton.1 hc ▸ inert_of_byte (by decide) (by decide) _
  rw [← slice_append _ (Nat.le_of_lt h1) (show key.name.stop ≤ key.value by omega),
    ← slice_append _ h2 (Nat.le_of_lt h3), ← slice_append _ (Nat.le_succ colon) h3]
  exact hword.append ((inert_of_isTrivia ((triviaRun_iff (by omega)).1 h.trivia_before)).append
    (hcolon.append (inert_of_isTrivia ((triviaRun_iff h4).1 h.trivia_behind))))

/-- No white-space character has the byte of a comma among its bytes. -/
theorem not_comma_of_mem_blanks : ∀ c ∈ Text.blanks, Byte.comma ∉ String.utf8EncodeChar c := by
  decide

/-- Blank characters are inert, whatever they belong to. -/
theorem inert_of_blanks (h : Text.MadeOf Text.blanks (cs.map Cell.byte)) : Inert cs := by
  intro c hc
  have hm : c.byte ∈ cs.map Cell.byte := List.mem_map_of_mem hc
  refine inert_of_byte (h.loose.soft _ hm).no_bracket ?_ c.kind
  intro hcomma
  obtain ⟨ds, hd, hds⟩ := h
  rw [hds, hcomma] at hm
  obtain ⟨d, hd', hb⟩ := List.mem_flatMap.1 hm
  exact not_comma_of_mem_blanks d (hd d hd') hb

end

/-! ## Trimming -/

namespace Text

/-- The text is not empty, and no blank character stands at either end of it. -/
structure Trimmed (u : Text) : Prop where
  ne_nil : u ≠ []
  front : ∀ c ∈ blanks, ¬ String.utf8EncodeChar c <+: u
  back : ∀ c ∈ blanks, ¬ String.utf8EncodeChar c <:+ u

/-- A text ends with at most one white-space character: none of them is the end of another one. -/
theorem eq_of_suffix_blank {u : Text} {c d : Char} (hc : c ∈ blanks) (hd : d ∈ blanks)
    (hcu : String.utf8EncodeChar c <:+ u) (hdu : String.utf8EncodeChar d <:+ u) : c = d := by
  have hfree : ∀ c ∈ blanks, ∀ d ∈ blanks,
      String.utf8EncodeChar c <:+ String.utf8EncodeChar d → c = d := by decide
  rcases List.suffix_or_suffix_of_suffix hcu hdu with h | h
  · exact hfree c hc d hd h
  · exact (hfree d hd c hc h).symm

/-- Blanks are told from what is before them. -/
theorem append_inj_of_blanks {u v r s : Text} (hu : MadeOf blanks u) (hv : MadeOf blanks v)
    (hr : ∀ c ∈ blanks, ¬ String.utf8EncodeChar c <:+ r)
    (hs : ∀ c ∈ blanks, ¬ String.utf8EncodeChar c <:+ s) (h : r ++ u = s ++ v) : r = s ∧ u = v := by
  obtain ⟨ds, hd, rfl⟩ := hu
  obtain ⟨es, he, rfl⟩ := hv
  have hlast : ∀ (w : Text) (cs : List Char) (c : Char), w ++ ofChars (cs ++ [c]) =
      (w ++ ofChars cs) ++ String.utf8EncodeChar c := by
    intro w cs c
    simp [ofChars]
  induction ds using List.reverseRecOn generalizing es with
  | nil =>
    cases es using List.reverseRecOn with
    | nil => exact ⟨by simpa [ofChars] using h, rfl⟩
    | append_singleton es e =>
      rw [hlast, show r ++ ofChars [] = r from List.append_nil r] at h
      exact absurd ⟨_, h.symm⟩ (hr e (he e (by simp)))
  | append_singleton ds d ih =>
    rw [hlast] at h
    cases es using List.reverseRecOn with
    | nil =>
      rw [show s ++ ofChars [] = s from List.append_nil s] at h
      exact absurd ⟨_, h⟩ (hs d (hd d (by simp)))
    | append_singleton es e =>
      rw [hlast] at h
      obtain rfl : d = e := eq_of_suffix_blank (hd d (by simp)) (he e (by simp))
        ⟨_, h⟩ (List.suffix_append _ _)
      obtain ⟨h1, h2⟩ := ih (fun x hx => hd x (by simp [hx])) es (fun x hx => he x (by simp [hx]))
        (List.append_cancel_right h)
      refine ⟨h1, ?_⟩
      have := congrArg (· ++ String.utf8EncodeChar d) h2
      simpa [ofChars] using this

/-- The bytes of a character are no prefix of nothing. -/
theorem not_encode_prefix_nil (c : Char) : ¬ String.utf8EncodeChar c <+: [] :=
  fun h => String.utf8EncodeChar_ne_nil (List.prefix_nil.1 h)

/-- A trimmed text with blanks behind it does not begin with a blank. -/
theorem Trimmed.prefix_append {u v : Text} (hu : u.Trimmed) (hv : v.MadeOf blanks) :
    ∀ c ∈ blanks, ¬ String.utf8EncodeChar c <+: u ++ v := fun c hc hp =>
  hu.front c hc (loose_prefix_append (List.mem_cons_of_mem _ hc) hu.ne_nil hv.wellFormed.starts hp)

/-- A text with a trimmed part between blanks is not blank. -/
theorem Trimmed.not_blank {u v w : Text} (hu : u.Trimmed) (hv : v.MadeOf blanks)
    (hw : w.MadeOf blanks) : ¬ MadeOf blanks (v ++ (u ++ w)) := by
  intro h
  obtain ⟨-, hnil⟩ := append_inj_of_madeOf (fun _ hc => List.mem_cons_of_mem _ hc) h hv
    (fun c _ hp => not_encode_prefix_nil c hp) (hu.prefix_append hw) (List.append_nil _)
  exact absurd (List.append_eq_nil_iff.1 hnil.symm).1 hu.ne_nil

end Text

namespace Source

section
variable {s : Source} {x e : Span}

/-- No blank character ends where `blankBefore` measures none. -/
theorem spellsAt_of_blankBefore {start i : Nat} (h : s.blankBefore start i = 0) {form : Text}
    (hf : form ∈ Text.blankForms) (hl : start + form.length ≤ i) :
    s.spellsAt (i - form.length) form = false := by
  unfold blankBefore at h
  split at h
  · next form' hf' =>
    have := length_pos_of_mem_blankForms form' (List.mem_of_find?_eq_some hf')
    omega
  · next hn =>
    have := List.find?_eq_none.1 hn form hf
    simpa [hl] using this

/-- Trimming at the end goes on until no blank character ends. -/
theorem blankBefore_trimBlankStop (start : Nat) {n i : Nat} (hs : i ≤ s.size) (hi : start ≤ i)
    (hn : i - start ≤ n) : s.blankBefore start (s.trimBlankStop start n i) = 0 := by
  induction n generalizing i with
  | zero =>
    rw [trimBlankStop]
    apply Classical.byContradiction
    intro h
    have := (blankBefore_spec start hs h).1
    omega
  | succ n ih =>
    rw [trimBlankStop]
    split
    · assumption
    · next w hw =>
      obtain ⟨h1, -⟩ := blankBefore_spec start hs (by omega)
      rw [hw] at h1
      exact ih (by omega) (by omega) (by omega)

/-- What is spelled at a position is a prefix of the bytes from there on. -/
theorem prefix_bytes_iff {i j : Nat} (hij : i ≤ j) (hj : j ≤ s.size) {u : Text} :
    u <+: s.bytes ⟨i, j⟩ ↔ i + u.length ≤ j ∧ s.spellsAt i u = true := by
  have hlen := length_bytes (x := ⟨i, j⟩) hij hj
  dsimp only at hlen
  constructor
  · intro h
    have hle := h.length_le
    rw [hlen] at hle
    refine ⟨by omega, spellsAt_iff.2 fun k hk => ?_⟩
    rw [← getElem?_bytes (x := ⟨i, j⟩) (show i + k < j by omega)]
    exact (List.prefix_iff_getElem?.1 h k hk).trans (List.getElem?_eq_getElem hk).symm
  · rintro ⟨h1, h2⟩
    refine List.prefix_iff_getElem?.2 fun k hk => ?_
    rw [getElem?_bytes (x := ⟨i, j⟩) (show i + k < j by omega), spellsAt_iff.1 h2 k hk,
      List.getElem?_eq_getElem hk]

/-- What is spelled before a position is a suffix of the bytes up to there. -/
theorem suffix_bytes_iff {i j : Nat} (hij : i ≤ j) (hj : j ≤ s.size) {u : Text} :
    u <:+ s.bytes ⟨i, j⟩ ↔ i + u.length ≤ j ∧ s.spellsAt (j - u.length) u = true := by
  have hlen := length_bytes (x := ⟨i, j⟩) hij hj
  dsimp only at hlen
  have hparts (hle : i + u.length ≤ j) :=
    bytes_append (s := s) (i := i) (j := j - u.length) (k := j) (by omega) (by omega)
  have hlast (hle : i + u.length ≤ j) := length_bytes (s := s) (x := ⟨j - u.length, j⟩)
    (by dsimp only; omega) hj
  constructor
  · intro h
    have hle := h.length_le
    rw [hlen] at hle
    have hle : i + u.length ≤ j := by omega
    refine ⟨hle, ?_⟩
    rw [← hparts hle] at h
    have heq := List.suffix_of_suffix_length_le h (List.suffix_append _ _)
      (by rw [hlast hle]; dsimp only; omega)
    have heq := heq.eq_of_length (by rw [hlast hle]; dsimp only; omega)
    exact ((prefix_bytes_iff (by omega) hj).1 (heq ▸ List.prefix_rfl)).2
  · rintro ⟨h1, h2⟩
    have hp := (prefix_bytes_iff (s := s) (i := j - u.length) (by omega) hj).2 ⟨by omega, h2⟩
    have heq := hp.eq_of_length (by rw [hlast h1]; dsimp only; omega)
    rw [← hparts h1, ← heq]
    exact List.suffix_append _ _

/-- What trimming leaves is trimmed. -/
theorem trimmed_of_trimBlank? (hx : x.start ≤ x.stop) (hs : x.stop ≤ s.size)
    (h : s.trimBlank? x = some e) : Text.Trimmed (s.bytes e) := by
  obtain ⟨h1, h2, h3, h4, h5, h6⟩ := trimBlank?_some hx hs h
  have hle : e.start ≤ e.stop := Nat.le_of_lt h2
  have hsize : e.stop ≤ s.size := by omega
  refine ⟨?_, fun c hc hp => ?_, fun c hc hp => ?_⟩
  · intro hnil
    have := length_bytes hle hsize
    rw [hnil, List.length_nil] at this
    omega
  · obtain ⟨h7, h8⟩ := (prefix_bytes_iff hle hsize).1 hp
    rw [spellsAt_of_blankAt h6 (List.mem_map_of_mem hc) (by omega)] at h8
    cases h8
  · obtain ⟨h7, h8⟩ := (suffix_bytes_iff hle hsize).1 hp
    have hstop : s.blankBefore e.start e.stop = 0 := by
      unfold trimBlank? at h
      extract_lets start stop at h
      split at h
      case isFalse => cases h
      cases h
      obtain ⟨-, h9, -⟩ := trimBlankStart_spec (i := x.start) hs hx (Nat.le_refl _)
      exact blankBefore_trimBlankStop start hs h9 (Nat.le_refl _)
    rw [spellsAt_of_blankBefore hstop (List.mem_map_of_mem hc) h7] at h8
    cases h8

/-- **What trimming leaves of a span.** It is the trimmed part between blank characters. -/
theorem trimBlank?_eq_some (hx : x.start ≤ x.stop) (hs : x.stop ≤ s.size) :
    s.trimBlank? x = some e ↔ (x.start ≤ e.start ∧ e.start ≤ e.stop ∧ e.stop ≤ x.stop) ∧
      Text.MadeOf Text.blanks (s.bytes ⟨x.start, e.start⟩) ∧
      Text.MadeOf Text.blanks (s.bytes ⟨e.stop, x.stop⟩) ∧ Text.Trimmed (s.bytes e) := by
  constructor
  · intro h
    obtain ⟨h1, h2, h3, h4, h5, -⟩ := trimBlank?_some hx hs h
    exact ⟨⟨h1, Nat.le_of_lt h2, h3⟩, h4, h5, trimmed_of_trimBlank? hx hs h⟩
  rintro ⟨⟨h1, h2, h3⟩, h4, h5, h6⟩
  have hparts : s.bytes x =
      s.bytes ⟨x.start, e.start⟩ ++ (s.bytes e ++ s.bytes ⟨e.stop, x.stop⟩) := by
    rw [bytes_append (i := e.start) h2 h3, bytes_append h1 (Nat.le_trans h2 h3)]
  have hlen (i j : Nat) (hij : i ≤ j) (hj : j ≤ x.stop) : (s.bytes ⟨i, j⟩).length = j - i :=
    length_bytes (x := ⟨i, j⟩) hij (Nat.le_trans hj hs)
  cases he : s.trimBlank? x with
  | none =>
    have hblank := trimBlank?_none hx hs he
    rw [hparts] at hblank
    exact absurd hblank (h6.not_blank h4 h5)
  | some y =>
    obtain ⟨h7, h8, h9, h10, h11, -⟩ := trimBlank?_some hx hs he
    have hy := trimmed_of_trimBlank? hx hs he
    have hparts' : s.bytes x =
        s.bytes ⟨x.start, y.start⟩ ++ (s.bytes y ++ s.bytes ⟨y.stop, x.stop⟩) := by
      rw [bytes_append (i := y.start) (Nat.le_of_lt h8) h9, bytes_append h7 (by omega)]
    rw [hparts] at hparts'
    obtain ⟨ha, hb⟩ := Text.append_inj_of_madeOf (fun _ hc => List.mem_cons_of_mem _ hc) h4 h10
      (h6.prefix_append h5) (hy.prefix_append h11) hparts'
    obtain ⟨-, hc⟩ := Text.append_inj_of_blanks h5 h11 h6.back hy.back hb
    have hstart := congrArg List.length ha
    have hstop := congrArg List.length hc
    rw [hlen _ _ h1 (by omega), hlen _ _ h7 (by omega)] at hstart
    rw [hlen _ _ h3 (Nat.le_refl _), hlen _ _ h9 (Nat.le_refl _)] at hstop
    congr 1
    cases e
    cases y
    simp only [Span.mk.injEq]
    dsimp only at *
    omega

/-- Nothing is left of a blank span. -/
theorem trimBlank?_of_blank (hx : x.start ≤ x.stop) (hs : x.stop ≤ s.size)
    (h : Text.MadeOf Text.blanks (s.bytes x)) : s.trimBlank? x = none := by
  cases he : s.trimBlank? x with
  | none => rfl
  | some y =>
    obtain ⟨h7, h8, h9, h10, h11, -⟩ := trimBlank?_some hx hs he
    have hy := trimmed_of_trimBlank? hx hs he
    rw [show s.bytes x = s.bytes ⟨x.start, y.start⟩ ++ (s.bytes y ++ s.bytes ⟨y.stop, x.stop⟩) by
      rw [bytes_append (i := y.start) (Nat.le_of_lt h8) h9, bytes_append h7 (by omega)]] at h
    exact absurd h (hy.not_blank h10 h11)

end

end Source

end ProviderNest
